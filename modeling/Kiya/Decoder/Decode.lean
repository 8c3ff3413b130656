import Kiya.Lib.Collect
import Kiya.Decoder.Types
import Kiya.Decoder.Brackets

/-!
# The decoder

`traverse.go` and `decoder.go`: a form is decoded into a value of a type by going through the type,
and looking up in the form what stands under the namespace of each part. A part is set if something
was found for it; what could not be read is an error under its namespace.

A form is a map, and lists its keys in the order in which `parseMapData` visits them. Going through
a type need not end, since a type may be a pointer to itself, so the recursion has fuel: a result
that is found with some fuel is found with more (`setFieldByType_mono`). A call of the `reflect`
package that panics is a fault of the other kind.

No custom type functions are registered, so those are left out, and so is the logging.
-/

namespace Kiya.Decoder

open Collect

/-! ### Results -/

/-- Why there is no result. -/
inductive Fault
  | panic
  | fuel
deriving DecidableEq

/-- The value that is stored, whether it was set, and the errors by namespace, in the order in which
they are set. -/
structure Decoded (X : Type) where
  val : Val X
  set : Bool
  errs : List (Bytes × Bytes)

open Decoded

/-- A result, unless there is a fault. -/
abbrev Result (X : Type) := Except Fault (Decoded X)

variable {T X : Type}

/-- Nothing was found. -/
def Decoded.unchanged (current : Val X) : Decoded X := ⟨current, false, []⟩

/-- `url.Values`, in the order in which its keys are visited. -/
abbrev Form := AList fun _ : Bytes => List Bytes

/-- What a decoder works with. -/
structure Ctx (T X : Type) where
  types : Types T
  libs : Libs T X
  maxArraySize : ℤ
  maxArraySize_ge : -2 ^ 63 ≤ maxArraySize
  maxArraySize_lt : maxArraySize < 2 ^ 63
  form : Form

open Ctx

/-- The same decoder with another form. -/
def Ctx.withForm (c : Ctx T X) (form : Form) : Ctx T X := { c with form }

/-- The table of aliases. -/
def Ctx.dm (c : Ctx T X) : List RecursiveData := parseMapData c.form.keys

/-- The entries of an alias. -/
def Ctx.keysOf (c : Ctx T X) (ns : Bytes) : List Key := entriesOf ns (c.form.keys.flatMap brackets)

theorem Ctx.findAlias_dm (c : Ctx T X) (ns : Bytes) : findAlias c.dm ns = dataOf ns (c.keysOf ns) :=
  findAlias_table _ _

/-- The value of the form for a part, cleaned: the one of the given number in the list. -/
def Ctx.formValue (c : Ctx T X) (ns : Bytes) (idx : ℕ) (mode : SanitizeMode) : Option Bytes :=
  ((c.form.lookup ns).bind fun arr => arr[idx]?).map fun val => cleanValue c.libs val mode

/-! ### Leaves -/

/-- The text of an error. -/
def invalid (what : String) (formValue : Bytes) : Bytes :=
  utf8 "invalid " ++ utf8 what ++ utf8 ": " ++ formValue

/-- The name of an unsigned number in an error. -/
def uintName : Width → String
  | .w8 => "uint8"
  | .w16 => "uint16"
  | .w32 => "uint32"
  | .w64 => "uint"

/-- The name of a signed one. -/
def intName : Width → String
  | .w8 => "int8"
  | .w16 => "int16"
  | .w32 => "int32"
  | .w64 => "int64"

/-- The name of a floating-point one. -/
def floatName : Width → String
  | .w32 => "float32"
  | _ => "float64"

/-- Store what is read, or set an error. -/
def store (current : Val X) (ns : Bytes) : Except Bytes (Val X) → Decoded X
  | .ok val => ⟨val, true, []⟩
  | .error err => ⟨current, false, [(ns, err)]⟩

/-- How the text of a leaf is read; none is an empty text that is ignored. -/
def Ctx.readLeaf (c : Ctx T X) (formValue : Bytes) : TypeView T → Option (Except Bytes (Val X))
  | .string => some (.ok (.str formValue))
  | .bool =>
    match parseBool formValue with
    | some b => some (.ok (.bool b))
    | none => some (.error (invalid "bool" formValue))
  | .uint w =>
    if formValue = [] then none
    else
      match Numeral.parseUint w.bits formValue with
      | .value n => some (.ok (.uint n))
      | _ => some (.error (invalid (uintName w) formValue))
  | .int w =>
    if formValue = [] then none
    else
      match Numeral.parseInt w.bits formValue with
      | .value i => some (.ok (.int i))
      | _ => some (.error (invalid (intName w) formValue))
  | .float w =>
    if formValue = [] then none
    else
      match c.libs.parseFloat w formValue with
      | some x => some (.ok (.opaq x))
      | none => some (.error (invalid (floatName w) formValue))
  | .time =>
    if formValue = [] then none
    else
      match c.libs.parseTime formValue with
      | .ok x => some (.ok (.opaq x))
      | .error err => some (.error err)
  | _ => none

/-- A type whose values are read from one text, or that is not decoded at all. -/
def TypeView.IsLeaf : TypeView T → Prop
  | .ptr _ | .interface _ | .slice _ | .struct _ => False
  | _ => True

/-- `setFieldByType`, for a leaf. -/
def Ctx.setLeaf (c : Ctx T X) (view : TypeView T) (current : Val X) (ns : Bytes) (idx : ℕ)
    (mode : SanitizeMode) : Decoded X :=
  match (c.formValue ns idx mode).bind fun formValue => c.readLeaf formValue view with
  | none => .unchanged current
  | some read => store current ns read

/-- `setFieldByType`, for an interface. One that holds a text already is a string that cannot be
set: `SetString` panics. -/
def setInterface (formValue : Option Bytes) (numMethod : ℕ) (typeName : Bytes) (current : Val X)
    (ns : Bytes) : Result X :=
  match formValue with
  | none => .ok (.unchanged current)
  | some formValue =>
    match current with
    | .iface _ => .error .panic
    | _ =>
      if numMethod = 0 then .ok ⟨.iface formValue, true, []⟩
      else .ok ⟨current, false,
        [(ns, utf8 "cannot assign string to interface " ++ typeName)]⟩

variable {current : Val X} {r : Decoded X} {ns : Bytes}

theorem setInterface_of_ne (h : ∀ s, current ≠ .iface s) (formValue : Bytes)
    (numMethod : ℕ) (typeName ns : Bytes) :
    setInterface (some formValue) numMethod typeName current ns =
      if numMethod = 0 then .ok ⟨.iface formValue, true, []⟩
      else .ok ⟨current, false, [(ns, utf8 "cannot assign string to interface " ++ typeName)]⟩ := by
  cases current with
  | iface s => exact absurd rfl (h s)
  | _ => rfl

/-! ### Pointers and slices -/

/-- `setFieldByType`, for a pointer. One that is not nil is followed, as `extractType` does; for nil
a new value is made, which is kept if it was set. -/
def setPtr (set : Val X → Result X) (current : Val X) : Result X :=
  match current with
  | .ptr v => (set v).map fun r => ⟨.ptr r.val, r.set, r.errs⟩
  | _ => (set .zero).map fun r => ⟨if r.set then .ptr r.val else current, r.set, r.errs⟩

/-- The slice of these elements. -/
def Decoded.ofList (rs : List (Decoded X)) : Decoded X :=
  ⟨.slice (rs.map val), rs.any set, rs.flatMap errs⟩

/-- The first part of the case of a slice: a list of values makes a slice of as many elements. -/
def setList (set : ℕ → Result X) (arr : Option (List Bytes)) (current : Val X) : Result X :=
  match arr with
  | none | some [] => .ok (.unchanged current)
  | some arr => (collect set (List.range arr.length)).map .ofList

/-- `sl`: one more than the greatest index, as an `int`. -/
def RecursiveData.length (rd : RecursiveData) : ℤ := (rd.sliceLen + 1).bmod (2 ^ 64)

/-- The text of an error. -/
def tooLarge (sl maxArraySize : ℤ) : Bytes :=
  utf8 "array size " ++ Numeral.formatInt sl ++ utf8 " exceeds max " ++
    Numeral.formatInt maxArraySize

/-- The elements before the indexed ones are set: a longer slice is made if need be. -/
def grown (vs : List (Val X)) (sl : ℤ) : List (Val X) :=
  vs ++ List.replicate (sl.toNat - vs.length) .zero

/-- Store an element that was set. -/
def storeElem (vs : List (Val X)) (e : Key × Decoded X) : List (Val X) :=
  if e.2.set then vs.set e.1.ivalue.toNat e.2.val else vs

/-- The entries whose index is in range. -/
def RecursiveData.inRange (rd : RecursiveData) (len : ℕ) : List Key :=
  rd.keys.filter fun kv => decide (kv.ivalue ≠ -1 ∧ kv.ivalue < len)

/-- The slice with the elements that were set. -/
def Decoded.ofIndexed (r : Decoded X) (varr : List (Val X)) (ks : List Key)
    (rs : List (Decoded X)) : Decoded X :=
  let wasSet := r.set || rs.any set
  ⟨if wasSet then .slice ((ks.zip rs).foldl storeElem varr) else r.val, wasSet,
    r.errs ++ rs.flatMap errs⟩

/-- The second part: elements by their index. A negative length, which comes of an overflow, makes
`MakeSlice` panic if the slice is nil. -/
def setIndexed (set : Bytes → Result X) (maxArraySize : ℤ) (ns : Bytes) (rd : RecursiveData)
    (r : Decoded X) : Result X :=
  if maxArraySize < rd.length then
    .ok ⟨r.val, r.set, r.errs ++ [(ns, tooLarge rd.length maxArraySize)]⟩
  else if r.val.elems = [] ∧ rd.length < 0 then .error .panic
  else
    let varr := grown r.val.elems rd.length
    let ks := rd.inRange varr.length
    (collect (fun kv => set (ns ++ kv.searchValue)) ks).map (r.ofIndexed varr ks)

/-- `setFieldByType`, for a slice; `set` decodes an element under a namespace, by its number in the
list there. -/
def Ctx.setSlice (c : Ctx T X) (set : Bytes → ℕ → Result X) (current : Val X) (ns : Bytes) :
    Result X :=
  match setList (set ns) (c.form.lookup ns) current with
  | .error e => .error e
  | .ok r =>
    match findAlias c.dm ns with
    | none => .ok r
    | some rd => setIndexed (fun ns => set ns 0) c.maxArraySize ns rd r

/-! ### Structs -/

/-- `maxDecodeDepth`. -/
def maxDecodeDepth : ℕ := 50

/-- `.`. -/
def dot : UInt8 := 46

/-- The namespace of a field. -/
def fieldNs (ns name : Bytes) : Bytes := if ns = [] then name else ns ++ dot :: name

/-- The result of two visits, one after the other. -/
def Decoded.andThen (r r' : Decoded X) : Decoded X := ⟨r'.val, r.set || r'.set, r.errs ++ r'.errs⟩

/-- The body of the loop in `traverseStruct`: an embedded field is visited twice. -/
def visitField (set : CachedField T → Val X → Bytes → Result X) (ns : Bytes) (f : CachedField T)
    (current : Val X) : Result X :=
  if f.isAnonymous then
    match set f current ns with
    | .error e => .error e
    | .ok r => (set f r.val (fieldNs ns f.name)).map r.andThen
  else set f current (fieldNs ns f.name)

/-- Store a field. -/
def storeField (vs : List (Val X)) (e : CachedField T × Decoded X) : List (Val X) :=
  vs.set e.1.idx e.2.val

/-- The struct with these fields. -/
def Decoded.ofFields (vs : List (Val X)) (fs : List (CachedField T)) (rs : List (Decoded X)) :
    Decoded X :=
  ⟨.struct ((fs.zip rs).foldl storeField vs), rs.any set, rs.flatMap errs⟩

/-- `traverseStruct`; `set` decodes a field. -/
def Ctx.traverseStruct (c : Ctx T X) (set : CachedField T → Val X → Bytes → Result X) (depth : ℕ)
    (fields : List (StructField T)) (current : Val X) (ns : Bytes) : Result X :=
  if maxDecodeDepth < depth then
    .ok ⟨current, false, [(ns, utf8 "maximum recursion depth exceeded")]⟩
  else
    let vs := current.fields fields.length
    let fs := c.libs.sort (parseStruct fields)
    (collect (fun f => visitField set ns f (vs.getD f.idx .zero)) fs).map (.ofFields vs fs)

/-! ### The recursion -/

/-- A way to decode a part. -/
abbrev Setter (T X : Type) :=
  (depth : ℕ) → T → (current : Val X) → (ns : Bytes) → (idx : ℕ) → SanitizeMode → Result X

/-- A field is decoded if it can be set. -/
def setField (set : Setter T X) (depth : ℕ) (f : CachedField T) (current : Val X) (ns : Bytes) :
    Result X :=
  if f.canSet then set depth f.typ current ns 0 f.sanitizeMode else .ok (.unchanged current)

/-- `setFieldByType`, given how the parts of a part are decoded. -/
def Ctx.setWith (c : Ctx T X) (set : Setter T X) : Setter T X :=
  fun depth t current ns idx mode =>
    match c.types.view t with
    | .ptr elem => setPtr (fun v => set depth elem v ns idx mode) current
    | .interface numMethod =>
      setInterface (c.formValue ns idx mode) numMethod (c.types.string t) current ns
    | .slice elem => c.setSlice (fun ns i => set depth elem .zero ns i mode) current ns
    | .struct fields => c.traverseStruct (setField set (depth + 1)) depth fields current ns
    | view => .ok (c.setLeaf view current ns idx mode)

/-- `setFieldByType`. -/
def Ctx.setFieldByType (c : Ctx T X) : ℕ → Setter T X
  | 0 => fun _ _ _ _ _ _ => .error .fuel
  | n + 1 => c.setWith (c.setFieldByType n)

/-- `Decode`, into the zero value of a type. -/
def Ctx.decode (c : Ctx T X) (fuel : ℕ) (t : T) : Result X :=
  c.setFieldByType fuel 0 t .zero [] 0 .default

/-! ### Where a result comes from -/

theorem setPtr_cases {set : Val X → Result X} (h : setPtr set current = .ok r) :
    (∃ v r', current = .ptr v ∧ set v = .ok r' ∧ r = ⟨.ptr r'.val, r'.set, r'.errs⟩) ∨
      ((∀ v, current ≠ .ptr v) ∧ ∃ r', set .zero = .ok r' ∧
        r = ⟨if r'.set then .ptr r'.val else current, r'.set, r'.errs⟩) := by
  rw [setPtr.eq_def] at h
  split at h
  · obtain ⟨r', hr', rfl⟩ := map_eq_ok_iff.mp h
    exact .inl ⟨_, r', rfl, hr', rfl⟩
  · rename_i hne
    obtain ⟨r', hr', rfl⟩ := map_eq_ok_iff.mp h
    exact .inr ⟨hne, r', hr', rfl⟩

variable {arr : Option (List Bytes)} {maxArraySize : ℤ} {rd : RecursiveData} {c : Ctx T X}
  {set set' : CachedField T → Val X → Bytes → Result X}

theorem setList_cases {set : ℕ → Result X} (h : setList set arr current = .ok r) :
    ((∀ vs ∈ arr, vs = []) ∧ r = .unchanged current) ∨
      ∃ vs ∈ arr, vs ≠ [] ∧ ∃ rs, collect set (List.range vs.length) = .ok rs ∧ r = .ofList rs := by
  rw [setList.eq_def] at h
  split at h
  · exact .inl ⟨fun vs hvs => absurd hvs (Option.not_mem_none vs), (Except.ok.inj h).symm⟩
  · exact .inl ⟨fun vs hvs => (Option.some_inj.mp hvs).symm, (Except.ok.inj h).symm⟩
  · rename_i vs hne
    obtain ⟨rs, hrs, rfl⟩ := map_eq_ok_iff.mp h
    exact .inr ⟨vs, rfl, fun hnil => hne (by rw [hnil]), rs, hrs, rfl⟩

theorem setIndexed_cases {set : Bytes → Result X} {r₀ r : Decoded X}
    (h : setIndexed set maxArraySize ns rd r₀ = .ok r) :
    (maxArraySize < rd.length ∧
      r = ⟨r₀.val, r₀.set, r₀.errs ++ [(ns, tooLarge rd.length maxArraySize)]⟩) ∨
    (rd.length ≤ maxArraySize ∧ ¬ (r₀.val.elems = [] ∧ rd.length < 0) ∧ ∃ rs,
      collect (fun kv : Key => set (ns ++ kv.searchValue))
        (rd.inRange (grown r₀.val.elems rd.length).length) = .ok rs ∧
      r = r₀.ofIndexed (grown r₀.val.elems rd.length)
        (rd.inRange (grown r₀.val.elems rd.length).length) rs) := by
  rw [setIndexed] at h
  by_cases hlarge : maxArraySize < rd.length
  · rw [if_pos hlarge] at h
    exact .inl ⟨hlarge, (Except.ok.inj h).symm⟩
  · rw [if_neg hlarge] at h
    split at h
    · cases h
    · rename_i hnegative
      obtain ⟨rs, hrs, rfl⟩ := map_eq_ok_iff.mp h
      exact .inr ⟨not_lt.mp hlarge, hnegative, rs, hrs, rfl⟩

/-- What `findAlias` finds for a slice that has entries. -/
def Ctx.dataAt (c : Ctx T X) (ns : Bytes) : RecursiveData :=
  ⟨ns, sliceLenOf (c.keysOf ns), c.keysOf ns⟩

theorem setSlice_cases {set : Bytes → ℕ → Result X} (h : c.setSlice set current ns = .ok r) :
    ∃ r₀, setList (set ns) (c.form.lookup ns) current = .ok r₀ ∧
      ((c.keysOf ns = [] ∧ r = r₀) ∨ (c.keysOf ns ≠ [] ∧
        setIndexed (fun ns => set ns 0) c.maxArraySize ns (c.dataAt ns) r₀ = .ok r)) := by
  rw [setSlice] at h
  cases hlist : setList (set ns) (c.form.lookup ns) current with
  | error e => rw [hlist] at h; cases h
  | ok r₀ =>
    rw [hlist, c.findAlias_dm, dataOf] at h
    refine ⟨r₀, rfl, ?_⟩
    by_cases hkeys : c.keysOf ns = []
    · rw [if_pos hkeys] at h
      exact .inl ⟨hkeys, (Except.ok.inj h).symm⟩
    · rw [if_neg hkeys] at h
      exact .inr ⟨hkeys, h⟩

variable {f : CachedField T} {depth : ℕ} {fields : List (StructField T)}

theorem visitField_cases (h : visitField set ns f current = .ok r) :
    (f.isAnonymous = false ∧ set f current (fieldNs ns f.name) = .ok r) ∨
      (f.isAnonymous = true ∧ ∃ r₁ r₂, set f current ns = .ok r₁ ∧
        set f r₁.val (fieldNs ns f.name) = .ok r₂ ∧ r = r₁.andThen r₂) := by
  rw [visitField] at h
  split at h
  · rename_i hanonymous
    cases hfirst : set f current ns with
    | error e => rw [hfirst] at h; cases h
    | ok r₁ =>
      rw [hfirst] at h
      obtain ⟨r₂, hr₂, rfl⟩ := map_eq_ok_iff.mp h
      exact .inr ⟨hanonymous, r₁, r₂, rfl, hr₂, rfl⟩
  · rename_i hanonymous
    exact .inl ⟨Bool.not_eq_true _ ▸ hanonymous, h⟩

theorem traverseStruct_cases (h : c.traverseStruct set depth fields current ns = .ok r) :
    (maxDecodeDepth < depth ∧
      r = ⟨current, false, [(ns, utf8 "maximum recursion depth exceeded")]⟩) ∨
    (depth ≤ maxDecodeDepth ∧ ∃ rs,
      collect (fun f => visitField set ns f ((current.fields fields.length).getD f.idx .zero))
        (c.libs.sort (parseStruct fields)) = .ok rs ∧
      r = .ofFields (current.fields fields.length) (c.libs.sort (parseStruct fields)) rs) := by
  rw [traverseStruct] at h
  by_cases hdepth : maxDecodeDepth < depth
  · rw [if_pos hdepth] at h
    exact .inl ⟨hdepth, (Except.ok.inj h).symm⟩
  · rw [if_neg hdepth] at h
    obtain ⟨rs, hrs, rfl⟩ := map_eq_ok_iff.mp h
    exact .inr ⟨not_lt.mp hdepth, rs, hrs, rfl⟩

/-! ### One step -/

section

variable {n idx : ℕ} {t : T} {mode : SanitizeMode} {elem : T}

theorem setFieldByType_ptr (h : c.types.view t = .ptr elem) :
    c.setFieldByType (n + 1) depth t current ns idx mode =
      setPtr (fun v => c.setFieldByType n depth elem v ns idx mode) current := by
  rw [setFieldByType, setWith, h]

theorem setFieldByType_interface {numMethod : ℕ} (h : c.types.view t = .interface numMethod) :
    c.setFieldByType (n + 1) depth t current ns idx mode =
      setInterface (c.formValue ns idx mode) numMethod (c.types.string t) current ns := by
  rw [setFieldByType, setWith, h]

theorem setFieldByType_slice (h : c.types.view t = .slice elem) :
    c.setFieldByType (n + 1) depth t current ns idx mode =
      c.setSlice (fun ns i => c.setFieldByType n depth elem .zero ns i mode) current ns := by
  rw [setFieldByType, setWith, h]

theorem setFieldByType_struct (h : c.types.view t = .struct fields) :
    c.setFieldByType (n + 1) depth t current ns idx mode =
      c.traverseStruct (setField (c.setFieldByType n) (depth + 1)) depth fields current ns := by
  rw [setFieldByType, setWith, h]

theorem setFieldByType_leaf (h : (c.types.view t).IsLeaf) :
    c.setFieldByType (n + 1) depth t current ns idx mode =
      .ok (c.setLeaf (c.types.view t) current ns idx mode) := by
  rw [setFieldByType, setWith]
  generalize c.types.view t = view at h
  cases view with
  | ptr | interface | slice | struct => exact False.elim h
  | _ => rfl

/-- A result takes fuel. -/
theorem exists_succ_of_ok (h : c.setFieldByType n depth t current ns idx mode = .ok r) :
    ∃ m, n = m + 1 := by
  cases n with
  | zero => cases h
  | succ m => exact ⟨m, rfl⟩

end

/-! ### More fuel -/

/-- Whatever the one finds, the other finds too. -/
def Refines (set set' : Setter T X) : Prop :=
  ∀ depth t current ns idx mode r, set depth t current ns idx mode = .ok r →
    set' depth t current ns idx mode = .ok r

theorem setPtr_mono {set set' : Val X → Result X} (h : ∀ v r, set v = .ok r → set' v = .ok r)
    (hr : setPtr set current = .ok r) : setPtr set' current = .ok r := by
  rw [setPtr.eq_def] at hr ⊢
  split at hr <;>
  · obtain ⟨a, ha, hra⟩ := map_eq_ok_iff.mp hr
    exact map_eq_ok_iff.mpr ⟨a, h _ _ ha, hra⟩

theorem setList_mono {set set' : ℕ → Result X} (h : ∀ i r, set i = .ok r → set' i = .ok r)
    (hr : setList set arr current = .ok r) : setList set' arr current = .ok r := by
  rw [setList.eq_def] at hr ⊢
  split at hr
  · exact hr
  · exact hr
  · obtain ⟨rs, hrs, hrr⟩ := map_eq_ok_iff.mp hr
    exact map_eq_ok_iff.mpr ⟨rs, collect_mono (fun i _ => h i) hrs, hrr⟩

theorem setIndexed_mono {set set' : Bytes → Result X} (h : ∀ ns r, set ns = .ok r → set' ns = .ok r)
    {r₀ r : Decoded X} (hr : setIndexed set maxArraySize ns rd r₀ = .ok r) :
    setIndexed set' maxArraySize ns rd r₀ = .ok r := by
  rw [setIndexed]
  rcases setIndexed_cases hr with ⟨hlarge, rfl⟩ | ⟨hsmall, hnegative, rs, hrs, rfl⟩
  · rw [if_pos hlarge]
  · rw [if_neg (not_lt.mpr hsmall), if_neg hnegative]
    exact map_eq_ok_iff.mpr ⟨rs, collect_mono (fun kv _ => h _) hrs, rfl⟩

theorem setSlice_mono (c : Ctx T X) {set set' : Bytes → ℕ → Result X}
    (h : ∀ ns i r, set ns i = .ok r → set' ns i = .ok r) (hr : c.setSlice set current ns = .ok r) :
    c.setSlice set' current ns = .ok r := by
  obtain ⟨r₀, hlist, hrest⟩ := setSlice_cases hr
  rw [setSlice, setList_mono (h ns) hlist, c.findAlias_dm, dataOf]
  rcases hrest with ⟨hnil, rfl⟩ | ⟨hne, hindexed⟩
  · rw [if_pos hnil]
  · rw [if_neg hne]
    exact setIndexed_mono (fun ns r => h ns 0 r) hindexed

theorem visitField_mono (h : ∀ f v ns r, set f v ns = .ok r → set' f v ns = .ok r)
    (hr : visitField set ns f current = .ok r) : visitField set' ns f current = .ok r := by
  rw [visitField]
  rcases visitField_cases hr with ⟨hplain, hone⟩ | ⟨hanonymous, r₁, r₂, hfirst, hsecond, rfl⟩
  · rw [hplain, if_neg Bool.false_ne_true, h _ _ _ _ hone]
  · rw [if_pos hanonymous, h _ _ _ _ hfirst]
    exact map_eq_ok_iff.mpr ⟨r₂, h _ _ _ _ hsecond, rfl⟩

theorem traverseStruct_mono (c : Ctx T X) (h : ∀ f v ns r, set f v ns = .ok r → set' f v ns = .ok r)
    (hr : c.traverseStruct set depth fields current ns = .ok r) :
    c.traverseStruct set' depth fields current ns = .ok r := by
  rw [traverseStruct]
  rcases traverseStruct_cases hr with ⟨hdepth, rfl⟩ | ⟨hdepth, rs, hrs, rfl⟩
  · rw [if_pos hdepth]
  · rw [if_neg (not_lt.mpr hdepth)]
    exact map_eq_ok_iff.mpr ⟨rs, collect_mono (fun f _ r => visitField_mono h) hrs, rfl⟩

theorem setField_mono {set set' : Setter T X} (h : Refines set set')
    (hr : setField set depth f current ns = .ok r) : setField set' depth f current ns = .ok r := by
  rw [setField] at hr ⊢
  split_ifs at hr ⊢
  · exact h _ _ _ _ _ _ _ hr
  · exact hr

theorem Refines.setWith {set set' : Setter T X} (h : Refines set set') (c : Ctx T X) :
    Refines (c.setWith set) (c.setWith set') := by
  intro depth t current ns idx mode r hr
  rw [Ctx.setWith] at hr ⊢
  revert hr
  cases c.types.view t with
  | ptr elem => exact setPtr_mono fun v r => h _ _ _ _ _ _ r
  | slice elem => exact setSlice_mono c fun ns i r => h _ _ _ _ _ _ r
  | struct fields => exact traverseStruct_mono c fun f v ns r => setField_mono h
  | _ => exact id

/-- **A result that is found with some fuel is found with more.** -/
theorem setFieldByType_mono (c : Ctx T X) {m n : ℕ} (hmn : m ≤ n) :
    Refines (c.setFieldByType m) (c.setFieldByType n) := by
  induction m generalizing n with
  | zero =>
    intro depth t current ns idx mode r hr
    cases hr
  | succ m ih =>
    obtain ⟨n, rfl⟩ := Nat.exists_eq_add_of_lt hmn
    exact (ih (by omega)).setWith c

end Kiya.Decoder
