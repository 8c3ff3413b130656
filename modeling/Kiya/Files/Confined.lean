import Kiya.Lib.SlashPath

/-!
# Where files are

Three places of the framework turn a text that can come from a client into the name of a file: the
local disk of `storage/local.go` with its root, `SaveFile` and `SaveFileStream` of
`internal/web/file.go` with a destination below the working directory, and `ServeStatic` of
`internal/router/static.go` with a name in a file system. Each has a guard of its own. What the
calls of the operating system answer is a circumstance of a call; what is said here is which names
they are asked for.

A text is a list of bytes, each written as the character of that number, and a path has slashes
between its elements.
-/

namespace Kiya.Files

open SlashPath List

/-- A text. -/
abbrev Text := List Char

/-- The byte that ends a text in C. -/
def nul : Char := Char.ofNat 0

/-- `strings.TrimPrefix` of a slash. -/
def trimSlash : Text → Text
  | '/' :: rest => rest
  | path => path

/-- `strings.Contains`. -/
def contains (s part : Text) : Bool := part <:+: s

/-! ### The local disk -/

/-- `LocalDisk`, as far as it is used for finding files. -/
structure LocalDisk where
  root : Text

/-- `LocalDisk.resolve`. -/
def LocalDisk.resolve (d : LocalDisk) (path : Text) : Except Text Text :=
  let clean := trimSlash (clean ('/' :: path))
  if contains clean ['.', '.'] ∨ nul ∈ clean ∨ clean = [] then
    .error "kiya/storage: invalid path".toList
  else .ok (join [d.root, clean])

/-! ### Uploads -/

/-- What opening a new file comes to. -/
inductive Opening
  | opened
  | exists
  | failed (err : Text)

/-- The circumstances of saving an upload: what the form of the request is like, and what the
operating system answers. An error is its text. -/
structure Upload where
  parsed : Bool
  parseMultipartForm : Option Text
  formFile : Text → Option Text
  multipartReader : Option Text
  -- The parts of the body up to the end or an error, each with what copying it comes to.
  parts : List (Text × Option Text)
  partsEnd : Option Text
  mkdirAll : Text → Option Text
  openFile : Text → Opening
  copy : Option Text

/-- What is done with the file system. -/
inductive Touch
  | mkdirAll (path : Text)
  | openFile (path : Text)
deriving DecidableEq

/-- The guard in `SaveFile` and in `SaveFileStream`. -/
def destination (dstPath : Text) : Except Text Text :=
  let cleanPath := clean dstPath
  if cleanPath.head? = some '/' then
    .error "invalid destination path: absolute paths are not allowed".toList
  else if contains cleanPath ['.', '.'] then
    .error "invalid destination path: path traversal detected".toList
  else if nul ∈ cleanPath then
    .error "invalid destination path: null character detected".toList
  else .ok cleanPath

variable (env : Upload) (fsys : FileSystem) (mimeType : Text → Text) (r : StaticRequest)
    (name : Text)

/-- The new file with its directory, in `SaveFile` and in `SaveFileStream`. -/
def createFile (cleanPath : Text) : Except Text Unit × List Touch :=
  let dir := dir cleanPath
  match env.mkdirAll dir with
  | some err => (.error err, [.mkdirAll dir])
  | none =>
    match env.openFile cleanPath with
    | .exists => (.error "file already exists".toList, [.mkdirAll dir, .openFile cleanPath])
    | .failed err => (.error err, [.mkdirAll dir, .openFile cleanPath])
    | .opened => (.ok (), [.mkdirAll dir, .openFile cleanPath])

/-- The result of a call that can only fail. -/
def failing : Option Text → Except Text Unit
  | some err => .error err
  | none => .ok ()

/-- `SaveFile`. -/
def saveFile (key dstPath : Text) : Except Text Unit × List Touch :=
  match destination dstPath with
  | .error err => (.error err, [])
  | .ok cleanPath =>
    match failing (if env.parsed then none else env.parseMultipartForm) with
    | .error err => (.error err, [])
    | .ok () =>
      match failing (env.formFile key) with
      | .error err => (.error err, [])
      | .ok () =>
        match createFile env cleanPath with
        | (.error err, touched) => (.error err, touched)
        | (.ok (), touched) => (failing env.copy, touched)

/-- The loop over the parts in `SaveFileStream`. -/
def savePart (key : Text) : List (Text × Option Text) → Option Text → Except Text Unit
  | [], none => .error "file field not found in request".toList
  | [], some err => .error err
  | (name, copy) :: parts, partsEnd =>
    if name = key then failing copy else savePart key parts partsEnd

/-- `SaveFileStream`. -/
def saveFileStream (key dstPath : Text) : Except Text Unit × List Touch :=
  match destination dstPath with
  | .error err => (.error err, [])
  | .ok cleanPath =>
    match createFile env cleanPath with
    | (.error err, touched) => (.error err, touched)
    | (.ok (), touched) =>
      match env.multipartReader with
      | some err => (.error err, touched)
      | none => (savePart key env.parts env.partsEnd, touched)

/-! ### Static files -/

/-- What is known about a file; the time is in nanoseconds. -/
structure FileInfo where
  name : Text
  isDir : Bool
  modTime : ℤ

/-- An open file. -/
structure File where
  stat : Except Text FileInfo
  seeks : Bool

/-- Why a file cannot be opened. -/
inductive OpenError
  | notExist
  | other (err : Text)

/-- `fs.FS`. -/
abbrev FileSystem := Text → Except OpenError File

/-- What `ServeStatic` reads of a request. -/
structure StaticRequest where
  acceptEncoding : Text
  ifNoneMatch : Text

/-- What a request for a static file is answered with. -/
inductive Served
  | notFound
  | notModified
  | content (name : Text) (modTime : ℤ) (file : Text)
  | copied (file : Text)
  | failed (err : Text)
  | panicked
deriving DecidableEq

/-- A run of `ServeStatic`: the names that are opened, the headers that are set, and the answer. -/
structure StaticRun where
  opened : List Text
  headers : List (Text × Text)
  served : Served
deriving DecidableEq

/-- The headers of a file that is compressed. -/
def encodingHeaders (encoding : Text) : List (Text × Text) :=
  [("Content-Encoding".toList, encoding), ("Vary".toList, "Accept-Encoding".toList)]

/-- A compressed file that is there and is no directory, if the client takes it. -/
def compressed (fsys : FileSystem) (r : StaticRequest) (encoding name : Text) :
    Option (File × FileInfo) :=
  if contains r.acceptEncoding encoding then
    match fsys name with
    | .error _ => none
    | .ok f =>
      match f.stat with
      | .error _ => none
      | .ok s => if s.isDir then none else some (f, s)
  else none

/-- The name of a compressed file that is asked for. -/
def asked (encoding name : Text) : List Text :=
  if contains r.acceptEncoding encoding then [name] else []

/-- `http.ServeContent`, or `io.Copy` for a file without `Seek`. -/
def sendFile (f : File) (file name : Text) (modTime : Except Text ℤ) : Served :=
  if f.seeks then
    match modTime with
    | .ok t => .content name t file
    | .error _ => .panicked
  else .copied file

/-- The index of a directory. -/
def serveIndex : StaticRun :=
  let indexName := join [name, "index.html".toList]
  match fsys indexName with
  | .error _ => ⟨[indexName], [], .notFound⟩
  | .ok idx =>
    let modTime := idx.stat.map FileInfo.modTime
    let brotli := indexName ++ ".br".toList
    let plain := [("Content-Type".toList, mimeType ".html".toList)]
    if contains r.acceptEncoding "br".toList then
      match fsys brotli with
      | .ok brIdx =>
        let headers := encodingHeaders "br".toList ++
          [("Content-Type".toList, "text/html; charset=utf-8".toList)]
        -- The time is asked for first, and the type of the file is not checked here.
        match modTime, brIdx.seeks with
        | .ok t, true => ⟨[indexName, brotli], headers, .content "index.html".toList t brotli⟩
        | _, _ => ⟨[indexName, brotli], headers, .panicked⟩
      | .error _ =>
        ⟨[indexName, brotli], plain, sendFile idx indexName "index.html".toList modTime⟩
    else ⟨[indexName], plain, sendFile idx indexName "index.html".toList modTime⟩

/-- `%x`. -/
def hex : ℤ → Text
  | .ofNat n => Nat.toDigits 16 n
  | .negSucc n => '-' :: Nat.toDigits 16 (n + 1)

/-- A byte of the Latin alphabet in lower case. -/
def toLower (s : Text) : Text := s.map Char.toLower

/-- How long a file can be kept. -/
def cacheControl : Text :=
  let ext := toLower (ext name)
  if ext ∈ [".css", ".js", ".png", ".jpg", ".jpeg", ".gif", ".svg", ".woff", ".woff2",
      ".webp"].map String.toList then "public, max-age=31536000, immutable".toList
  else if ext = ".html".toList then "no-cache, must-revalidate".toList
  else "public, max-age=3600".toList

/-- The answer with a file that was found, under the name that was opened for it. -/
def serveFile (opened : List Text) (headers : List (Text × Text)) (file : Text) (f : File)
    (s : FileInfo) : StaticRun :=
  if s.isDir then
    let run := serveIndex fsys mimeType r name
    ⟨opened ++ run.opened, headers ++ run.headers, run.served⟩
  else
    let typ := mimeType (ext name)
    let contentType := if typ = [] then "application/octet-stream".toList else typ
    let etag := '"' :: hex s.modTime ++ ['"']
    let headers := headers ++ [("Content-Type".toList, contentType), ("ETag".toList, etag)]
    if r.ifNoneMatch = etag then ⟨opened, headers, .notModified⟩
    else ⟨opened, headers ++ [("Cache-Control".toList, cacheControl name)],
      sendFile f file s.name (.ok s.modTime)⟩

/-- `ServeStatic`. -/
def serveStatic : StaticRun :=
  let name := trimSlash (clean ('/' :: name))
  let brName := name ++ ".br".toList
  let gzName := name ++ ".gz".toList
  let opened := asked r "br".toList brName
  match compressed fsys r "br".toList brName with
  | some (f, s) =>
    serveFile fsys mimeType r name opened (encodingHeaders "br".toList) brName f s
  | none =>
    let opened := opened ++ asked r "gzip".toList gzName
    match compressed fsys r "gzip".toList gzName with
    | some (f, s) =>
      serveFile fsys mimeType r name opened (encodingHeaders "gzip".toList) gzName f s
    | none =>
      let opened := opened ++ [name]
      match fsys name with
      | .error .notExist => ⟨opened, [], .notFound⟩
      | .error (.other err) => ⟨opened, [], .failed err⟩
      | .ok f =>
        match f.stat with
        | .error err => ⟨opened, [], .failed err⟩
        | .ok s => serveFile fsys mimeType r name opened [] name f s

/-! ### Names that do not lead up -/

/-- A relative path without an element that leads up. -/
def Confined (path : Text) : Prop := path.head? ≠ some '/' ∧ ['.', '.'] ∉ path.splitOn '/'

/-- What is left of a rooted path that was cleaned. -/
theorem exists_trimSlash_clean (path : Text) : ∃ elems : List Text,
    (∀ e ∈ elems, Plain e) ∧
      trimSlash (clean ('/' :: path)) = ['/'].intercalate elems := by
  refine ⟨elements true ('/' :: path), fun e he => plain_of_mem_elements he, ?_⟩
  rw [clean_of_rooted rfl]
  rfl

variable {elems : List Text} {env : Upload}

theorem confined_intercalate (h : ∀ e ∈ elems, Plain e) :
    Confined (['/'].intercalate elems) := by
  refine ⟨head_intercalate_kept fun e he => (h e he).kept, fun hmem => ?_⟩
  by_cases hnil : elems = []
  · rw [hnil] at hmem
    revert hmem
    decide
  · rw [splitOn_intercalate_kept (fun e he => (h e he).kept) hnil] at hmem
    exact (h _ hmem).ne_up rfl

/-- A suffix with another character than a dot, and without a slash, leads nowhere. -/
theorem Confined.append {path suffix : Text} (h : Confined path) (hslash : '/' ∉ suffix)
    (hdot : ∃ c ∈ suffix, c ≠ '.') : Confined (path ++ suffix) := by
  obtain ⟨c, hc, hne⟩ := hdot
  constructor
  · rw [head?_append, ne_eq, Option.or_eq_some_iff, not_or]
    refine ⟨h.1, fun hsuffix => hslash ?_⟩
    exact mem_of_head? hsuffix.2
  · intro hmem
    rcases mem_splitOn_append hslash hmem with hmem | hend
    · exact h.2 hmem
    · have hdots := hend.subset hc
      simp at hdots
      exact hne hdots

variable {path dstPath cleanPath key name : Text}

/-- Without two dots in a row nothing leads up. -/
theorem confined_of_contains (hhead : path.head? ≠ some '/')
    (hdots : contains path ['.', '.'] = false) : Confined path :=
  ⟨hhead, fun hmem => of_decide_eq_false hdots (infix_of_mem_splitOn hmem)⟩

/-! ### The three guards -/

/-- **The disk stays below its root.** -/
theorem LocalDisk.resolve_cases {d : LocalDisk} {path full : Text} (h : d.resolve path = .ok full) :
    ∃ elems : List Text, elems ≠ [] ∧ (∀ e ∈ elems, Plain e) ∧
      full = extend (clean d.root) elems := by
  obtain ⟨elems, hplain, hclean⟩ := exists_trimSlash_clean path
  rw [resolve, hclean] at h
  split_ifs at h with hbad
  cases h
  push Not at hbad
  have hne : elems ≠ [] := fun hnil => hbad.2.2 (hnil ▸ rfl)
  exact ⟨elems, hne, hplain, join_eq_extend d.root hplain hne⟩

theorem confined_of_destination (h : destination dstPath = .ok cleanPath) : Confined cleanPath := by
  rw [destination] at h
  split_ifs at h with habs hup hnul
  cases h
  exact confined_of_contains habs (Bool.eq_false_iff.mpr hup)

theorem openFile_mem_createFile (h : .openFile path ∈ (createFile env cleanPath).2) :
    path = cleanPath := by
  rw [createFile] at h
  split at h
  · simp at h
  · split at h <;> simpa using h

theorem openFile_mem_saveFile (h : .openFile path ∈ (saveFile env key dstPath).2) :
    destination dstPath = .ok path := by
  rw [saveFile.eq_def] at h
  cases hdst : destination dstPath with
  | error err =>
    rw [hdst] at h
    cases h
  | ok cleanPath =>
    rw [hdst] at h
    dsimp only at h
    split at h
    · cases h
    · split at h
      · cases h
      · have hmem : .openFile path ∈ (createFile env cleanPath).2 := by
          split at h <;> rename_i hcreate <;> rw [hcreate] <;> exact h
        rw [openFile_mem_createFile hmem]

theorem openFile_mem_saveFileStream (h : .openFile path ∈ (saveFileStream env key dstPath).2) :
    destination dstPath = .ok path := by
  rw [saveFileStream.eq_def] at h
  cases hdst : destination dstPath with
  | error err =>
    rw [hdst] at h
    cases h
  | ok cleanPath =>
    rw [hdst] at h
    have hmem : .openFile path ∈ (createFile env cleanPath).2 := by
      dsimp only at h
      split at h
      · rename_i hcreate
        rwa [hcreate]
      · rename_i hcreate
        rw [hcreate]
        split at h <;> exact h
    rw [openFile_mem_createFile hmem]

/-! ### Names of static files -/

/-- The names under which a file can be looked for. -/
def candidates (name : Text) : List Text :=
  let indexName := join [name, "index.html".toList]
  [name ++ ".br".toList, name ++ ".gz".toList, name, indexName, indexName ++ ".br".toList]

variable (fsys : FileSystem) (mimeType : Text → Text) (r : StaticRequest)

theorem opened_serveIndex_subset (name : Text) :
    (serveIndex fsys mimeType r name).opened ⊆ candidates name := by
  rw [serveIndex.eq_def]
  dsimp only [candidates]
  split
  · simp
  · split
    · split
      · split <;> simp
      · simp
    · simp

theorem opened_serveFile_subset {fsys : FileSystem} {mimeType : Text → Text} {r : StaticRequest}
    {opened : List Text} (h : opened ⊆ candidates name)
    (headers : List (Text × Text)) (file : Text) (f : File) (s : FileInfo) :
    (serveFile fsys mimeType r name opened headers file f s).opened ⊆ candidates name := by
  rw [serveFile]
  split
  · exact append_subset.mpr ⟨h, opened_serveIndex_subset fsys mimeType r name⟩
  · dsimp only
    split
    · exact h
    · exact h

/-- `ServeStatic` opens these names only. -/
theorem opened_serveStatic_subset (name : Text) : (serveStatic fsys mimeType r name).opened ⊆
      candidates (trimSlash (clean ('/' :: name))) := by
  rw [serveStatic.eq_def]
  dsimp only
  generalize trimSlash (clean ('/' :: name)) = name
  have hbr : asked r "br".toList (name ++ ".br".toList) ⊆ candidates name := by
    unfold asked
    split <;> simp [candidates]
  have hgz : asked r "br".toList (name ++ ".br".toList) ++
      asked r "gzip".toList (name ++ ".gz".toList) ⊆ candidates name := by
    refine append_subset.mpr ⟨hbr, ?_⟩
    unfold asked
    split <;> simp [candidates]
  have hname : asked r "br".toList (name ++ ".br".toList) ++
      asked r "gzip".toList (name ++ ".gz".toList) ++ [name] ⊆ candidates name :=
    append_subset.mpr ⟨hgz, by simp [candidates]⟩
  split
  · exact opened_serveFile_subset hbr _ _ _ _
  · split
    · exact opened_serveFile_subset hgz _ _ _ _
    · split
      · exact hname
      · exact hname
      · split
        · exact hname
        · exact opened_serveFile_subset hname _ _ _ _

theorem join_intercalate_index (h : ∀ e ∈ elems, Plain e) :
    join [['/'].intercalate elems, "index.html".toList] =
      ['/'].intercalate (elems ++ ["index.html".toList]) := by
  have hindex : ∀ e ∈ ["index.html".toList], Plain e :=
    forall_mem_singleton.mpr ⟨by decide, by decide, by decide, by decide⟩
  have happend : ∀ e ∈ elems ++ ["index.html".toList], Plain e := forall_mem_append.mpr ⟨h, hindex⟩
  have hne : elems ++ ["index.html".toList] ≠ [] := by simp
  by_cases hnil : elems = []
  · rw [hnil]
    decide
  · have hbody : ['/'].intercalate elems ≠ [] :=
      (intercalate_eq_nil_iff fun e he => (h e he).kept).not.mpr hnil
    rw [join_pair hbody (by decide), ← clean_intercalate happend hne,
      intercalate_append hnil (by decide)]
    rfl

/-- None of the names leads up. -/
theorem confined_of_mem_candidates (h : ∀ e ∈ elems, Plain e)
    (hmem : name ∈ candidates (['/'].intercalate elems)) : Confined name := by
  have hname := confined_intercalate h
  have hindex : Confined (join [['/'].intercalate elems, "index.html".toList]) := by
    rw [join_intercalate_index h]
    refine confined_intercalate (forall_mem_append.mpr ⟨h, ?_⟩)
    exact forall_mem_singleton.mpr ⟨by decide, by decide, by decide, by decide⟩
  simp only [candidates, mem_cons, not_mem_nil, or_false] at hmem
  rcases hmem with rfl | rfl | rfl | rfl | rfl
  · exact hname.append (by decide) ⟨'b', by decide, by decide⟩
  · exact hname.append (by decide) ⟨'g', by decide, by decide⟩
  · exact hname
  · exact hindex
  · exact hindex.append (by decide) ⟨'b', by decide, by decide⟩

/-- **Paths of files do not escape.** What the disk finds is its root with further elements, what is
saved is below the working directory, and static files are looked for below the root of their file
system. -/
theorem files_confined :
    (∀ (d : LocalDisk) (path full : Text), d.resolve path = .ok full →
      ∃ elems : List Text, elems ≠ [] ∧ (∀ e ∈ elems, Plain e) ∧
        full = extend (clean d.root) elems) ∧
    (∀ (env : Upload) (key dstPath path : Text),
      .openFile path ∈ (saveFile env key dstPath).2 ∨
        .openFile path ∈ (saveFileStream env key dstPath).2 → Confined path) ∧
    (∀ (fsys : FileSystem) (mimeType : Text → Text) (r : StaticRequest) (name : Text),
      ∀ n ∈ (serveStatic fsys mimeType r name).opened, Confined n) := by
  refine ⟨fun d path full h => d.resolve_cases h, fun env key dstPath path h => ?_, ?_⟩
  · rcases h with h | h
    · exact confined_of_destination (openFile_mem_saveFile h)
    · exact confined_of_destination (openFile_mem_saveFileStream h)
  · intro fsys mimeType r name n hn
    obtain ⟨elems, hplain, hclean⟩ := exists_trimSlash_clean name
    have hmem := opened_serveStatic_subset fsys mimeType r name hn
    rw [hclean] at hmem
    exact confined_of_mem_candidates hplain hmem

/-- A request whose file can be saved. -/
def photoUpload : Upload where
  parsed := true
  parseMultipartForm := none
  formFile _ := none
  multipartReader := none
  parts := [("photo".toList, none)]
  partsEnd := none
  mkdirAll _ := none
  openFile _ := .opened
  copy := none

/-- A photo on a disk with a root that is not clean; one that is saved, in both ways; and one that
is asked for by a path that leads up, in a file system without files. -/
theorem photo_confined :
    (LocalDisk.resolve ⟨"data//./public/".toList⟩ "../a/./photo.png".toList =
        .ok "data/public/a/photo.png".toList ∧
      ∃ elems : List Text, elems ≠ [] ∧ (∀ e ∈ elems, Plain e) ∧
        "data/public/a/photo.png".toList = extend (clean "data//./public/".toList) elems) ∧
    (saveFile photoUpload "photo".toList "a/./photo.png".toList =
        (.ok (), [.mkdirAll "a".toList, .openFile "a/photo.png".toList]) ∧
      Confined "a/photo.png".toList) ∧
    (serveStatic (fun _ => .error .notExist) id ⟨"br".toList, []⟩ "../photo.png".toList).opened =
        ["photo.png.br".toList, "photo.png".toList] ∧
      ∀ n ∈ ["photo.png.br".toList, "photo.png".toList], Confined n := by
  obtain ⟨hdisk, hsave, hstatic⟩ := files_confined
  have hresolve : LocalDisk.resolve ⟨"data//./public/".toList⟩ "../a/./photo.png".toList =
      .ok "data/public/a/photo.png".toList := by rfl
  have hsaved : saveFile photoUpload "photo".toList "a/./photo.png".toList =
      (.ok (), [.mkdirAll "a".toList, .openFile "a/photo.png".toList]) := by rfl
  have hopened : (serveStatic (fun _ => .error .notExist) id ⟨"br".toList, []⟩
      "../photo.png".toList).opened = ["photo.png.br".toList, "photo.png".toList] := by rfl
  refine ⟨⟨hresolve, hdisk _ _ _ hresolve⟩, ⟨hsaved, ?_⟩, hopened, hopened ▸ hstatic _ _ _ _⟩
  refine hsave photoUpload "photo".toList "a/./photo.png".toList _ (.inl ?_)
  rw [hsaved]
  exact .tail _ (.head _)

end Kiya.Files
