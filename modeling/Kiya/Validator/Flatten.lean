import Kiya.Decoder.Places
import Kiya.Decoder.RoundTrip

/-!
# Names of fields

`flattenStruct` of `validator.go` records the fields of a struct under keys, and the decoder reads
them under namespaces. Both names are made of the tags for forms on the way to a field, but not in
the same way: the validator takes the whole tag, the decoder what is in front of the first comma,
without white space around it. The decoder also does not go below a certain depth. `Reads` gives the
places that it visits on such a way (`Reads.visits`).

So the names of a field are the same if and only if no tag on the way to it has a comma or white
space at its ends, and it is not too deep. If this is so for all fields that are recorded, then the
set of keys is the set of namespaces. The other way round this holds if there is no dot in a tag;
with dots the key of a field can happen to be the namespace of another one.

What is recorded is a list in the order of the assignments, where a later value takes the place of
an earlier one with the same key.
-/

namespace Kiya.Validator

open Decoder StructField Strings List

variable {T X : Type}

/-! ### The validator -/

/-- The key of a field in its struct. -/
def fieldKey (f : StructField T) : Bytes := if f.tag = [] then f.name else f.tag

/-- The key of a field with the one of its struct. -/
def fullKey (pre key : Bytes) : Bytes := if pre = [] then key else pre ++ dot :: key

/-- The body of the loop in `flattenStruct`. -/
def flattenField (U : Types T)
    (flatten : List (StructField T) → List (Val X) → Bytes → Option (List (Bytes × Val X)))
    (pre : Bytes) (f : StructField T) (v : Val X) : Option (List (Bytes × Val X)) :=
  if ¬ f.exported then some []
  else if fieldKey f = utf8 "-" then some []
  else
    match U.view f.typ, v with
    | .ptr elem, .ptr w =>
      match U.view elem with
      | .struct fields => flatten fields (w.fields fields.length) (fullKey pre (fieldKey f))
      | _ => some [(fullKey pre (fieldKey f), v)]
    | .ptr _, _ => some []
    | .struct fields, v => flatten fields (v.fields fields.length) (fullKey pre (fieldKey f))
    | _, v => some [(fullKey pre (fieldKey f), v)]

/-- The results for all fields, one after the other. -/
def flattenAll (flatten : StructField T → Val X → Option (List (Bytes × Val X))) :
    List (StructField T × Val X) → Option (List (Bytes × Val X))
  | [] => some []
  | e :: es =>
    match flatten e.1 e.2, flattenAll flatten es with
    | some found, some rest => some (found ++ rest)
    | _, _ => none

/-- `flattenStruct`, to a given depth of structs. -/
def flattenStruct (U : Types T) :
    ℕ → List (StructField T) → List (Val X) → Bytes → Option (List (Bytes × Val X))
  | 0, _, _, _ => none
  | n + 1, fields, vals, pre =>
    flattenAll (flattenField U (flattenStruct U n) pre) (fields.zip vals)

/-- The keys of what is recorded. -/
def recordedKeys (es : List (Bytes × Val X)) : Set Bytes := {k | ∃ w, (k, w) ∈ es}

/-! ### Types nested by value -/

/-- What identifiers have in common. -/
structure IsIdent (name : Bytes) : Prop where
  comma_notMem : 44 ∉ name
  dot_notMem : dot ∉ name
  trimmed : Strings.trimSpace name = name

/-- A field that is exported and not embedded, and no pointer to a struct. -/
structure IsNamedField (U : Types T) (f : StructField T) : Prop where
  isIdent : IsIdent f.name
  exported : f.exported = true
  not_anonymous : f.anonymous = false
  not_ptr_struct : ∀ elem fields, U.view f.typ = .ptr elem → U.view elem ≠ .struct fields

/-- The fields of a struct that is nested by value. -/
inductive ByValue (U : Types T) : List (StructField T) → Prop
  | mk {fields : List (StructField T)} : (∀ f ∈ fields, IsNamedField U f) →
    (∀ f ∈ fields, ∀ inner, U.view f.typ = .struct inner → ByValue U inner) → ByValue U fields

/-- A field that is recorded itself: no struct and no nil pointer. -/
def IsLeaf (U : Types T) (f : StructField T) (v : Val X) : Prop :=
  (∀ fields, U.view f.typ ≠ .struct fields) ∧ ∀ elem, U.view f.typ = .ptr elem → ∃ w, v = .ptr w

/-- The leaves of a struct, each with the fields on the way to it and its value. -/
inductive Leaf (U : Types T) :
    List (StructField T) → List (Val X) → List (StructField T) → Val X → Prop
  | here {fields : List (StructField T)} {vals : List (Val X)} {f : StructField T} {v : Val X} :
    (f, v) ∈ fields.zip vals → fieldKey f ≠ utf8 "-" → IsLeaf U f v → Leaf U fields vals [f] v
  | inside {fields inner way : List (StructField T)} {vals : List (Val X)} {f : StructField T}
    {v w : Val X} : (f, v) ∈ fields.zip vals → fieldKey f ≠ utf8 "-" →
    U.view f.typ = .struct inner → Leaf U inner (v.fields inner.length) way w →
    Leaf U fields vals (f :: way) w

/-- The key of the last field of a way. -/
def wayKey (pre : Bytes) (way : List (StructField T)) : Bytes :=
  (way.map fieldKey).foldl fullKey pre

/-! ### What is recorded -/

theorem fieldKey_ne (f : StructField T) : fieldKey f ≠ [] := by
  unfold fieldKey
  split
  · exact f.name_ne
  · assumption

theorem mem_flattenAll {flatten : StructField T → Val X → Option (List (Bytes × Val X))}
    {S : StructField T × Val X → Bytes × Val X → Prop} {l : List (StructField T × Val X)}
    (h : ∀ e ∈ l, ∃ found, flatten e.1 e.2 = some found ∧ ∀ x, x ∈ found ↔ S e x) :
    ∃ found, flattenAll flatten l = some found ∧ ∀ x, x ∈ found ↔ ∃ e ∈ l, S e x := by
  induction l with
  | nil =>
    refine ⟨[], rfl, fun x => ⟨nofun, ?_⟩⟩
    rintro ⟨e, he, -⟩
    cases he
  | cons e l ih =>
    obtain ⟨first, hfirst, hmem⟩ := h e mem_cons_self
    obtain ⟨rest, hrest, hmem'⟩ := ih fun e' he' => h e' (mem_cons_of_mem _ he')
    refine ⟨first ++ rest, ?_, fun x => ?_⟩
    · rw [flattenAll, hfirst, hrest]
    · simp only [mem_append, hmem, hmem', mem_cons, exists_eq_or_imp]

/-- Records by a way that starts with a given field. -/
def Records (U : Types T) (pre : Bytes) (e : StructField T × Val X) (x : Bytes × Val X) : Prop :=
  fieldKey e.1 ≠ utf8 "-" ∧ (IsLeaf U e.1 e.2 ∧ x = (fullKey pre (fieldKey e.1), e.2) ∨
    ∃ inner way, U.view e.1.typ = .struct inner ∧ Leaf U inner (e.2.fields inner.length) way x.2 ∧
      x.1 = wayKey (fullKey pre (fieldKey e.1)) way)

variable {U : Types T} {fields way : List (StructField T)} {vals : List (Val X)}
  {f : StructField T} {w : Val X} {c : Ctx T X} {pre : Bytes} {ks : List Bytes}

theorem exists_records_iff {x : Bytes × Val X} : (∃ e ∈ fields.zip vals, Records U pre e x) ↔
      ∃ way, Leaf U fields vals way x.2 ∧ x.1 = wayKey pre way := by
  constructor
  · rintro ⟨e, he, hkey, ⟨hleaf, rfl⟩ | ⟨inner, way, hview, hway, hx⟩⟩
    · exact ⟨[e.1], .here he hkey hleaf, rfl⟩
    · exact ⟨e.1 :: way, .inside he hkey hview hway, hx⟩
  · rintro ⟨way, hway, hx⟩
    obtain ⟨k, w⟩ := x
    cases hway with
    | @here _ _ f _ hmem hkey hleaf => exact ⟨(f, w), hmem, hkey, .inl ⟨hleaf, Prod.ext hx rfl⟩⟩
    | @inside _ inner way _ f v _ hmem hkey hview hway =>
      exact ⟨(f, v), hmem, hkey, .inr ⟨inner, way, hview, hway, hx⟩⟩

/-- What is recorded by one pass of the loop. -/
theorem mem_flattenField
    {flatten : List (StructField T) → List (Val X) → Bytes → Option (List (Bytes × Val X))}
    (hf : IsNamedField U f) {v : Val X}
    (hinner : ∀ inner, U.view f.typ = .struct inner → ∀ vals pre, ∃ found,
      flatten inner vals pre = some found ∧
        ∀ x, x ∈ found ↔ ∃ way, Leaf U inner vals way x.2 ∧ x.1 = wayKey pre way) :
    ∃ found, flattenField U flatten pre f v = some found ∧
      ∀ x, x ∈ found ↔ Records U pre (f, v) x := by
  have hexported : ¬ ¬ f.exported = true := not_not_intro hf.exported
  rw [flattenField.eq_def, if_neg hexported]
  by_cases hkey : fieldKey f = utf8 "-"
  · rw [if_pos hkey]
    exact ⟨[], rfl, fun x => ⟨nofun, fun hx => absurd hkey hx.1⟩⟩
  rw [if_neg hkey]
  -- The three ways on: into a struct, past a nil pointer, and the field itself.
  have hself (hleaf : IsLeaf U f v) (x : Bytes × Val X) :
      x ∈ [(fullKey pre (fieldKey f), v)] ↔ Records U pre (f, v) x := by
    rw [mem_singleton]
    constructor
    · exact fun hx => ⟨hkey, .inl ⟨hleaf, hx⟩⟩
    · rintro ⟨-, ⟨-, hx⟩ | ⟨inner, -, hview, -⟩⟩
      · exact hx
      · exact absurd hview (hleaf.1 inner)
  cases hview : U.view f.typ with
  | ptr elem =>
    cases v with
    | ptr w =>
      have hleaf : IsLeaf U f (.ptr w) := ⟨fun fields => by rw [hview]; nofun, fun _ _ => ⟨w, rfl⟩⟩
      dsimp only
      cases helem : U.view elem with
      | struct fields => exact absurd helem (hf.not_ptr_struct elem fields hview)
      | _ => exact ⟨_, rfl, hself hleaf⟩
    | _ =>
      refine ⟨[], rfl, fun x => ⟨nofun, ?_⟩⟩
      rintro ⟨-, ⟨hleaf, -⟩ | ⟨inner, -, hstruct, -⟩⟩
      · obtain ⟨w, hw⟩ := hleaf.2 elem hview
        cases hw
      · rw [hview] at hstruct
        cases hstruct
  | struct inner =>
    obtain ⟨found, hfound, hmem⟩ := hinner inner hview (v.fields inner.length)
      (fullKey pre (fieldKey f))
    refine ⟨found, hfound, fun x => (hmem x).trans ⟨?_, ?_⟩⟩
    · rintro ⟨way, hway, hx⟩
      exact ⟨hkey, .inr ⟨inner, way, hview, hway, hx⟩⟩
    · rintro ⟨-, ⟨hleaf, -⟩ | ⟨inner', way, hview', hway, hx⟩⟩
      · exact absurd hview (hleaf.1 inner)
      · obtain rfl : inner = inner' := TypeView.struct.inj (hview.symm.trans hview')
        exact ⟨way, hway, hx⟩
  | _ =>
    exact ⟨_, rfl, hself ⟨fun fields => by rw [hview]; nofun, fun elem => by rw [hview]; nofun⟩⟩

/-- **`flattenStruct` records the leaves**, each under the key of the way to it. -/
theorem mem_flattenStruct (h : ByValue U fields) :
    ∃ N, ∀ n ≥ N, ∀ (vals : List (Val X)) (pre : Bytes), ∃ found,
      flattenStruct U n fields vals pre = some found ∧
        ∀ x, x ∈ found ↔ ∃ way, Leaf U fields vals way x.2 ∧ x.1 = wayKey pre way := by
  induction h with
  | @mk fields hnamed _ ih =>
    obtain ⟨N, hN⟩ : ∃ N, ∀ f ∈ fields, ∀ inner, U.view f.typ = .struct inner → ∀ n ≥ N,
        ∀ (vals : List (Val X)) (pre : Bytes), ∃ found,
          flattenStruct U n inner vals pre = some found ∧
            ∀ x, x ∈ found ↔ ∃ way, Leaf U inner vals way x.2 ∧ x.1 = wayKey pre way := by
      refine Collect.exists_bound (fun hmn hm inner hview n hn => ?_) fun f hf => ?_
      · exact hm inner hview n (hmn.trans hn)
      · cases hview : U.view f.typ with
        | struct inner =>
          obtain ⟨N, hN⟩ := ih f hf inner hview
          exact ⟨N, fun inner' hinner' => TypeView.struct.inj hinner' ▸ hN⟩
        | _ => exact ⟨0, nofun⟩
    refine ⟨N + 1, fun m hm vals pre => ?_⟩
    obtain ⟨n, rfl⟩ : ∃ n, m = n + 1 := Nat.exists_eq_succ_of_ne_zero (by omega)
    obtain ⟨found, hfound, hmem⟩ := mem_flattenAll (S := Records U pre) (l := fields.zip vals)
      fun e he => by
        have hf := (of_mem_zip he).1
        exact mem_flattenField (hnamed _ hf) fun inner hview => hN _ hf inner hview n (by omega)
    exact ⟨found, hfound, fun x => (hmem x).trans exists_records_iff⟩

/-! ### Where the decoder reads -/

/-- The decoder goes from one place to another by the given fields. -/
inductive Reads (c : Ctx T X) : Place T → List (StructField T) → Place T → Prop
  | here {p : Place T} : Reads c p [] p
  | field {d i : ℕ} {t : T} {ns : Bytes} {fields way : List (StructField T)} {f : StructField T}
    {cf : Decoder.CachedField T} {q : Place T} :
    c.types.view t = .struct fields → d ≤ maxDecodeDepth → fields[i]? = some f →
    parseField f i = some cf → cf.canSet = true →
    Reads c ⟨d + 1, cf.typ, fieldNs ns cf.name⟩ way q → Reads c ⟨d, t, ns⟩ (f :: way) q

/-- The namespaces under which the leaves are read. -/
def namespaces (c : Ctx T X) (t : T) (fields : List (StructField T)) (vals : List (Val X)) :
    Set Bytes :=
  {ns | ∃ way w q, Leaf c.types fields vals way w ∧ Reads c ⟨0, t, []⟩ way q ∧ q.ns = ns}

/-- A tag that is a name and nothing else. -/
def PlainTag (tag : Bytes) : Prop := 44 ∉ tag ∧ Strings.trimSpace tag = tag

/-- A way that the decoder can go, by plain tags. -/
def PlainWay (way : List (StructField T)) : Prop :=
  (∀ f ∈ way, PlainTag f.tag) ∧ way.length ≤ maxDecodeDepth + 1

/-! ### Names of the decoder -/

theorem trimSpace_formName (hf : IsIdent f.name) : Strings.trimSpace f.formName = f.formName := by
  unfold formName
  split
  · exact hf.trimmed
  · exact trimSpace_trimSpace _

/-- What is in front of the first comma. -/
theorem exists_headD_splitOn (s : Bytes) :
    44 ∉ (s.splitOn 44).headD [] ∧ (s.splitOn 44).headD [] <+: s := by
  by_cases h : 44 ∈ s
  · obtain ⟨before, after, rfl, hbefore⟩ := eq_append_cons_of_mem h
    rw [splitOn_append_cons_self, splitOn_eq_singleton hbefore]
    exact ⟨hbefore, prefix_append _ _⟩
  · rw [splitOn_eq_singleton h]
    exact ⟨h, prefix_rfl⟩

theorem comma_notMem_formName (hf : IsIdent f.name) : 44 ∉ f.formName := by
  unfold formName
  split
  · exact hf.comma_notMem
  · exact fun hmem => (exists_headD_splitOn f.tag).1 (mem_of_mem_trimSpace hmem)

theorem dot_notMem_formName (hf : IsIdent f.name) (htag : dot ∉ f.tag) : dot ∉ f.formName := by
  unfold formName
  split
  · exact hf.dot_notMem
  · intro hmem
    exact htag ((exists_headD_splitOn f.tag).2.subset (mem_of_mem_trimSpace hmem))

theorem parseTag_of_comma_notMem {tag : Bytes} (h : 44 ∉ tag) :
    (parseTag tag).1 = Strings.trimSpace tag := by
  simp only [parseTag, splitOn_eq_singleton h, headD_cons]

/-- A plain tag has the same name for both. -/
theorem fieldKey_of_plainTag (h : PlainTag f.tag) : fieldKey f = f.formName := by
  rw [fieldKey, formName, parseTag_of_comma_notMem h.1, h.2]

/-- **Only a plain tag has the same name for both**, whatever follows after a dot. -/
theorem plainTag_of_append_eq (hf : IsIdent f.name) {x y : Bytes}
    (h : fieldKey f ++ x = f.formName ++ y) (hy : ∀ b ∈ y.head?, b = dot)
    (hcomma : 44 ∉ f.formName ++ y) : PlainTag f.tag := by
  by_cases htag : f.tag = []
  · rw [htag]
    exact ⟨not_mem_nil, rfl⟩
  have hkey : fieldKey f = f.tag := if_neg htag
  rw [hkey] at h
  have hnot : 44 ∉ f.tag := fun hmem => hcomma (h ▸ mem_append_left x hmem)
  refine ⟨hnot, trimSpace_eq_of_append_eq (by decide) h hy ?_ ?_⟩
  · rw [← trimSpace_formName hf]
    exact not_prefix_trimSpace _
  · rw [formName, parseTag_of_comma_notMem hnot]
    split
    · exact .inr ‹_›
    · exact .inl rfl

/-! ### Names with dots -/

theorem cons_foldl_fullKey (hne : ks ≠ []) (hks : ∀ k ∈ ks, k ≠ []) :
    dot :: ks.foldl fullKey [] = ks.flatMap (dot :: ·) := by
  have hpre (ks : List Bytes) (pre : Bytes) (hne : pre ≠ []) :
      ks.foldl fullKey pre = pre ++ ks.flatMap (dot :: ·) := by
    induction ks generalizing pre with
    | nil => exact (append_nil pre).symm
    | cons k ks ih =>
      rw [foldl_cons, fullKey, if_neg hne, ih _ (by simp), append_assoc, flatMap_cons]
  obtain _ | ⟨k, ks⟩ := ks
  · exact absurd rfl hne
  · rw [foldl_cons, fullKey, if_pos rfl, hpre ks k (hks k mem_cons_self), flatMap_cons, cons_append]

theorem head_flatMap_dot (ks : List Bytes) : ∀ b ∈ (ks.flatMap (dot :: ·)).head?, b = dot := by
  cases ks with
  | nil => nofun
  | cons k ks => exact fun b hb => (Option.some_inj.mp hb).symm

/-- Without dots of their own the parts can be told apart. -/
theorem flatMap_dot_inj {ks ks' : List Bytes} (hks : ∀ k ∈ ks, dot ∉ k) (hks' : ∀ k ∈ ks', dot ∉ k)
    (h : ks.flatMap (dot :: ·) = ks'.flatMap (dot :: ·)) : ks = ks' := by
  have hintercalate (k : Bytes) (ks : List Bytes) :
      [dot].intercalate (k :: ks) = k ++ ks.flatMap (dot :: ·) := by
    induction ks generalizing k with
    | nil => simp [List.intercalate]
    | cons k' ks ih =>
      rw [flatMap_cons, cons_append, ← ih]
      simp [List.intercalate]
  have hsplit {ks : List Bytes} (hks : ∀ k ∈ ks, dot ∉ k) :
      (ks.flatMap (dot :: ·)).splitOn dot = [] :: ks := by
    rw [← nil_append (ks.flatMap _), ← hintercalate]
    exact splitOn_intercalate _ (forall_mem_cons.mpr ⟨not_mem_nil, hks⟩) (cons_ne_nil _ _)
  exact (List.cons.inj ((hsplit hks).symm.trans ((congrArg _ h).trans (hsplit hks')))).2

theorem comma_notMem_flatMap_dot (h : ∀ k ∈ ks, 44 ∉ k) : 44 ∉ ks.flatMap (dot :: ·) := by
  intro hmem
  obtain ⟨k, hk, hmem⟩ := mem_flatMap.mp hmem
  rcases mem_cons.mp hmem with hdot | hmem
  · exact absurd hdot (by decide)
  · exact h k hk hmem

/-- Ways with the same name for both have plain tags only. -/
theorem plainTag_of_flatMap_eq (hident : ∀ f ∈ way, IsIdent f.name)
    (h : (way.map fieldKey).flatMap (dot :: ·) =
      (way.map formName).flatMap (dot :: ·)) : ∀ f ∈ way, PlainTag f.tag := by
  induction way with
  | nil => exact nofun
  | cons f way ih =>
    obtain ⟨hf, hway⟩ := forall_mem_cons.mp hident
    have hnames : ∀ k ∈ way.map formName, 44 ∉ k :=
      forall_mem_map.mpr fun g hg => comma_notMem_formName (hway g hg)
    rw [map_cons, map_cons, flatMap_cons, flatMap_cons, cons_append,
      cons_append, List.cons.injEq] at h
    have hplain : PlainTag f.tag := by
      refine plainTag_of_append_eq hf h.2 (head_flatMap_dot _) fun hmem => ?_
      rcases mem_append.mp hmem with hmem | hmem
      · exact comma_notMem_formName hf hmem
      · exact comma_notMem_flatMap_dot hnames hmem
    rw [fieldKey_of_plainTag hplain, append_cancel_left_eq] at h
    exact forall_mem_cons.mpr ⟨hplain, ih hway h.2⟩

/-! ### Ways -/

theorem Leaf.ne_nil (h : Leaf U fields vals way w) : way ≠ [] := by
  cases h with
  | here | inside => exact cons_ne_nil _ _

theorem Leaf.isIdent (h : Leaf U fields vals way w) (hfields : ByValue U fields) :
    ∀ f ∈ way, IsIdent f.name := by
  induction h with
  | here hmem _ _ =>
    obtain ⟨hnamed, -⟩ := hfields
    exact forall_mem_singleton.mpr (hnamed _ (of_mem_zip hmem).1).isIdent
  | inside hmem _ hview _ ih =>
    obtain ⟨hnamed, hinner⟩ := hfields
    have hf := (of_mem_zip hmem).1
    exact forall_mem_cons.mpr ⟨(hnamed _ hf).isIdent, ih (hinner _ hf _ hview)⟩

theorem parseField_cases {i : ℕ} {cf : Decoder.CachedField T}
    (h : parseField f i = some cf) : cf.name = f.formName ∧ cf.typ = f.typ := by
  unfold parseField at h
  split at h
  · cases h
  · split at h
    · cases h
    · cases h
      exact ⟨rfl, rfl⟩

/-- Where a way leads to. -/
theorem Reads.ns_eq {p q : Place T} (h : Reads c p way q) :
    q.ns = (way.map formName).foldl fullKey p.ns ∧
      (way ≠ [] → p.depth + way.length ≤ maxDecodeDepth + 1) := by
  induction h with
  | here => exact ⟨rfl, fun hne => absurd rfl hne⟩
  | @field d i t ns fields way f cf q hview hdepth hf hcf hset _ ih =>
    obtain ⟨hname, -⟩ := parseField_cases hcf
    rw [hname] at ih
    refine ⟨ih.1, fun _ => ?_⟩
    rw [length_cons]
    dsimp only
    by_cases hway : way = []
    · rw [hway, length_nil]
      omega
    · have hlength := ih.2 hway
      dsimp only at hlength
      omega

/-- The decoder visits the end of a way. -/
theorem Reads.visits {p q : Place T} (h : Reads c p way q) :
    Relation.ReflTransGen (Goes c) p q := by
  induction h with
  | here => exact .refl
  | @field _ i _ _ fields _ f cf _ hview hdepth hf hcf hset _ ih =>
    have hmem : cf ∈ parseStruct fields :=
      mem_filterMap.mpr ⟨(f, i), mem_zipIdx_iff_getElem?.mpr hf, hcf⟩
    exact .head (.field hview hdepth hmem hset) ih

variable {t : T}

/-- A plain way is gone. -/
theorem Leaf.reads (h : Leaf c.types fields vals way w) (hfields : ByValue c.types fields)
    (hplain : ∀ f ∈ way, PlainTag f.tag) {d : ℕ} (hd : d + way.length ≤ maxDecodeDepth + 1)
    (hview : c.types.view t = .struct fields) (ns : Bytes) : ∃ q, Reads c ⟨d, t, ns⟩ way q := by
  have hparse {f : StructField T} (hf : IsNamedField c.types f) (hkey : fieldKey f ≠ utf8 "-")
      (hplain : PlainTag f.tag) (i : ℕ) :
      ∃ cf, parseField f i = some cf ∧ cf.canSet = true ∧ cf.typ = f.typ := by
    have hkept : ¬ (¬ f.exported = true ∧ ¬ f.anonymous = true) := fun hnot => hnot.1 hf.exported
    have hname : (parseTag f.tag).1 ≠ utf8 "-" := by
      rw [parseTag_of_comma_notMem hplain.1, hplain.2]
      by_cases htag : f.tag = []
      · rw [htag]
        decide
      · rwa [fieldKey, if_neg htag] at hkey
    refine ⟨⟨i, f.formName, f.anonymous, (parseTag f.tag).2, f.typ, f.exported⟩, ?_, hf.exported,
      rfl⟩
    rw [parseField, if_neg hkept, if_neg hname]
  induction h generalizing d t ns with
  | @here fields vals f v hmem hkey hleaf =>
    obtain ⟨hnamed, -⟩ := hfields
    have hf := (of_mem_zip hmem).1
    obtain ⟨i, hi⟩ := mem_iff_getElem?.mp hf
    obtain ⟨cf, hcf, hset, -⟩ := hparse (hnamed f hf) hkey (hplain f mem_cons_self) i
    rw [length_singleton] at hd
    exact ⟨_, .field hview (by omega) hi hcf hset .here⟩
  | @inside fields inner way vals f v w hmem hkey hinner hway ih =>
    obtain ⟨hnamed, hstructs⟩ := hfields
    have hf := (of_mem_zip hmem).1
    obtain ⟨i, hi⟩ := mem_iff_getElem?.mp hf
    obtain ⟨cf, hcf, hset, htyp⟩ := hparse (hnamed f hf) hkey (hplain f mem_cons_self) i
    rw [length_cons] at hd
    obtain ⟨q, hq⟩ := ih (hstructs f hf inner hinner) (forall_mem_cons.mp hplain).2
      (d := d + 1) (by omega) (t := cf.typ) (htyp ▸ hinner) (fieldNs ns cf.name)
    exact ⟨q, .field hview (by omega) hi hcf hset hq⟩

theorem cons_wayKey (hne : way ≠ []) :
    dot :: wayKey [] way = (way.map fieldKey).flatMap (dot :: ·) :=
  cons_foldl_fullKey (map_eq_nil_iff.not.mpr hne)
    (forall_mem_map.mpr fun f _ => fieldKey_ne f)

theorem Reads.cons_ns {q : Place T} (h : Reads c ⟨0, t, []⟩ way q) (hne : way ≠ []) :
    dot :: q.ns = (way.map formName).flatMap (dot :: ·) := by
  rw [h.ns_eq.1]
  exact cons_foldl_fullKey (map_eq_nil_iff.not.mpr hne)
    (forall_mem_map.mpr fun f _ => formName_ne_nil f)

/-- **A leaf is read under its key if and only if the way to it is plain.** -/
theorem Leaf.reads_iff (h : Leaf c.types fields vals way w) (hfields : ByValue c.types fields)
    (hview : c.types.view t = .struct fields) :
    (∃ q, Reads c ⟨0, t, []⟩ way q ∧ q.ns = wayKey [] way) ↔ PlainWay way := by
  constructor
  · rintro ⟨q, hq, hns⟩
    have hlength := hq.ns_eq.2 h.ne_nil
    rw [Nat.zero_add] at hlength
    refine ⟨plainTag_of_flatMap_eq (h.isIdent hfields) ?_, hlength⟩
    rw [← cons_wayKey h.ne_nil, ← hns, hq.cons_ns h.ne_nil]
  · rintro ⟨hplain, hlength⟩
    obtain ⟨q, hq⟩ := h.reads hfields hplain (by rwa [Nat.zero_add]) hview []
    have hnames : way.map fieldKey = way.map formName :=
      map_congr_left fun f hf => fieldKey_of_plainTag (hplain f hf)
    exact ⟨q, hq, by rw [hq.ns_eq.1, wayKey, hnames]⟩

/-! ### Keys and namespaces -/

section Agreement

variable {es : List (Bytes × Val X)}

theorem recordedKeys_eq_of_plain (hview : c.types.view t = .struct fields)
    (hfields : ByValue c.types fields)
    (hes : ∀ x, x ∈ es ↔ ∃ way, Leaf c.types fields vals way x.2 ∧ x.1 = wayKey [] way)
    (hplain : ∀ way w, Leaf c.types fields vals way w → PlainWay way) :
    recordedKeys es = namespaces c t fields vals := by
  ext k
  constructor
  · rintro ⟨w, hw⟩
    obtain ⟨way, hway, rfl⟩ := (hes _).mp hw
    obtain ⟨q, hq, hns⟩ := (hway.reads_iff hfields hview).mpr (hplain way _ hway)
    exact ⟨way, w, q, hway, hq, hns⟩
  · rintro ⟨way, w, q, hway, hq, rfl⟩
    refine ⟨w, (hes _).mpr ⟨way, hway, ?_⟩⟩
    have hnames : way.map fieldKey = way.map formName :=
      map_congr_left fun f hf => fieldKey_of_plainTag ((hplain way w hway).1 f hf)
    rw [hq.ns_eq.1, wayKey, hnames]

theorem plain_of_recordedKeys_eq (hfields : ByValue c.types fields)
    (hes : ∀ x, x ∈ es ↔ ∃ way, Leaf c.types fields vals way x.2 ∧ x.1 = wayKey [] way)
    (hdots : ∀ way w, Leaf c.types fields vals way w → ∀ f ∈ way, dot ∉ f.tag)
    (heq : recordedKeys es = namespaces c t fields vals) (hway : Leaf c.types fields vals way w) :
    PlainWay way := by
  have hmem : wayKey [] way ∈ namespaces c t fields vals :=
    heq ▸ ⟨w, (hes (wayKey [] way, w)).mpr ⟨way, hway, rfl⟩⟩
  obtain ⟨way', w', q, hway', hq, hns⟩ := hmem
  have hident := hway.isIdent hfields
  have hident' := hway'.isIdent hfields
  -- The fields of the two ways have the same names, the ones of the decoder on the other way.
  have hnames : way.map fieldKey = way'.map formName := by
    refine flatMap_dot_inj (forall_mem_map.mpr fun f hf => ?_)
      (forall_mem_map.mpr fun f hf => ?_) ?_
    · unfold fieldKey
      split
      · exact (hident f hf).dot_notMem
      · exact hdots way w hway f hf
    · exact dot_notMem_formName (hident' f hf) (hdots way' w' hway' f hf)
    · rw [← cons_wayKey hway.ne_nil, ← hns, hq.cons_ns hway'.ne_nil]
  constructor
  · intro f hf
    by_cases htag : f.tag = []
    · rw [htag]
      exact ⟨not_mem_nil, rfl⟩
    · obtain ⟨g, hg, hkey⟩ := mem_map.mp (hnames ▸ mem_map_of_mem hf)
      rw [fieldKey, if_neg htag] at hkey
      rw [← hkey]
      exact ⟨comma_notMem_formName (hident' g hg), trimSpace_formName (hident' g hg)⟩
  · have hlength := hq.ns_eq.2 hway'.ne_nil
    rw [Nat.zero_add] at hlength
    rwa [← length_map fieldKey, hnames, length_map]

/-- **Keys and namespaces.** `flattenStruct` records the leaves of a struct. Each leaf is read under
its key if and only if the way to it is plain, for all leaves; then the set of keys is the set of
namespaces, and without dots in the tags only then. -/
theorem recordedKeys_eq_iff (hview : c.types.view t = .struct fields)
    (hfields : ByValue c.types fields) (vals : List (Val X)) :
    ∃ N, ∀ n ≥ N, ∃ es, flattenStruct c.types n fields vals [] = some es ∧
      (∀ k w, (k, w) ∈ es ↔ ∃ way, Leaf c.types fields vals way w ∧ k = wayKey [] way) ∧
      (∀ way w, Leaf c.types fields vals way w →
        ((∃ q, Reads c ⟨0, t, []⟩ way q ∧ q.ns = wayKey [] way) ↔ PlainWay way)) ∧
      ((∀ way w, Leaf c.types fields vals way w → PlainWay way) →
        recordedKeys es = namespaces c t fields vals) ∧
      ((∀ way w, Leaf c.types fields vals way w → ∀ f ∈ way, dot ∉ f.tag) →
        (recordedKeys es = namespaces c t fields vals ↔
          ∀ way w, Leaf c.types fields vals way w → PlainWay way)) := by
  obtain ⟨N, hN⟩ := mem_flattenStruct (X := X) hfields
  refine ⟨N, fun n hn => ?_⟩
  obtain ⟨es, hes, hmem⟩ := hN n hn vals []
  refine ⟨es, hes, fun k w => hmem (k, w), fun way w hway => hway.reads_iff hfields hview,
    recordedKeys_eq_of_plain hview hfields hmem, fun hdots => ⟨fun heq way w hway => ?_, ?_⟩⟩
  · exact plain_of_recordedKeys_eq hfields hmem hdots heq hway
  · exact recordedKeys_eq_of_plain hview hfields hmem

end Agreement

/-! ### A person and a profile -/

/-- Types of a program. -/
inductive Page
  | text
  | address
  | person
  | profile
deriving DecidableEq

/-- A field without a tag. -/
def cityField : StructField Page := ⟨utf8 "City", by decide, true, false, [], .text⟩

/-- Fields with plain tags. -/
def fullNameField : StructField Page :=
  ⟨utf8 "FullName", by decide, true, false, utf8 "name", .text⟩

@[inherit_doc fullNameField]
def homeField : StructField Page := ⟨utf8 "Home", by decide, true, false, utf8 "home", .address⟩

/-- A field with an option in its tag. -/
def bioField : StructField Page := ⟨utf8 "Bio", by decide, true, false, utf8 "bio,html", .text⟩

/-- What the types are made of. -/
def pageTypes : Types Page where
  view
    | .text => .string
    | .address => .struct [cityField]
    | .person => .struct [fullNameField, homeField]
    | .profile => .struct [bioField]
  string _ := []

/-- A decoder for a form with a biography. -/
def pageCtx : Ctx Page Empty where
  types := pageTypes
  libs := plainLibs Page
  maxArraySize := 100
  maxArraySize_ge := by norm_num
  maxArraySize_lt := by norm_num
  form := ⟨[⟨utf8 "bio", [utf8 "hello"]⟩], by rw [List.NodupKeys]; decide +kernel⟩

theorem isIdent_of_decide {name : Bytes}
    (h : 44 ∉ name ∧ dot ∉ name ∧ Strings.trimSpace name = name) : IsIdent name :=
  ⟨h.1, h.2.1, h.2.2⟩

theorem byValue_address : ByValue pageTypes [cityField] := by
  refine .mk (forall_mem_singleton.mpr ⟨isIdent_of_decide (by decide +kernel), rfl, rfl, ?_⟩)
    (forall_mem_singleton.mpr nofun)
  nofun

theorem byValue_person : ByValue pageTypes [fullNameField, homeField] := by
  refine .mk (forall_mem_cons.mpr ⟨⟨isIdent_of_decide (by decide +kernel), rfl, rfl, nofun⟩,
    forall_mem_singleton.mpr ⟨isIdent_of_decide (by decide +kernel), rfl, rfl, nofun⟩⟩)
    (forall_mem_cons.mpr ⟨nofun, forall_mem_singleton.mpr ?_⟩)
  rintro inner ⟨⟩
  exact byValue_address

theorem byValue_profile : ByValue pageTypes [bioField] :=
  .mk (forall_mem_singleton.mpr ⟨isIdent_of_decide (by decide +kernel), rfl, rfl, nofun⟩)
    (forall_mem_singleton.mpr nofun)

/-- The fields of a person. -/
def ann : List (Val Empty) := [.str (utf8 "Ann"), .struct [.str (utf8 "Rome")]]

theorem eq_of_leaf_address {way : List (StructField Page)} {vals : List (Val Empty)} {w : Val Empty}
    (h : Leaf pageTypes [cityField] vals way w) : way = [cityField] := by
  cases h with
  | here hmem => rw [mem_singleton.mp (of_mem_zip hmem).1]
  | inside hmem _ hview =>
    rw [mem_singleton.mp (of_mem_zip hmem).1] at hview
    cases hview

theorem plainWay_person {way : List (StructField Page)} {w : Val Empty}
    (h : Leaf pageTypes [fullNameField, homeField] ann way w) : PlainWay way := by
  have hplain : ∀ f ∈ [fullNameField, homeField, cityField], PlainTag f.tag := by
    unfold PlainTag
    decide +kernel
  cases h with
  | here hmem =>
    have hf := (of_mem_zip hmem).1
    exact ⟨forall_mem_singleton.mpr (hplain _ (mem_append_left [cityField] hf)),
      Nat.le_add_left 1 _⟩
  | @inside _ inner way _ f _ _ hmem _ hview hway =>
    have hf : f = fullNameField ∨ f = homeField := by simpa using (of_mem_zip hmem).1
    rcases hf with rfl | rfl
    · cases hview
    · cases hview
      rw [eq_of_leaf_address hway]
      exact ⟨fun g hg => hplain g (mem_cons_of_mem _ hg), by decide⟩

/-- A person is recorded under the names by which it is read. -/
theorem person_recordedKeys :
    ∃ N, ∀ n ≥ N, ∃ es, flattenStruct pageTypes n [fullNameField, homeField] ann [] = some es ∧
      recordedKeys es = namespaces pageCtx .person [fullNameField, homeField] ann := by
  obtain ⟨N, hN⟩ := recordedKeys_eq_iff (c := pageCtx) (t := .person) rfl byValue_person ann
  refine ⟨N, fun n hn => ?_⟩
  obtain ⟨es, hes, -, -, hkeys, -⟩ := hN n hn
  exact ⟨es, hes, hkeys fun way w => plainWay_person⟩

/-- A biography is recorded under a name by which it is not read. -/
theorem bio_recordedKeys :
    pageCtx.decode 5 .profile = .ok ⟨.struct [.str (utf8 "hello")], true, []⟩ ∧
    flattenStruct pageTypes 1 [bioField] [.str (utf8 "hello")] [] =
      some [(utf8 "bio,html", (.str (utf8 "hello") : Val Empty))] ∧
    recordedKeys [(utf8 "bio,html", (.str (utf8 "hello") : Val Empty))] ≠
      namespaces pageCtx .profile [bioField] [.str (utf8 "hello")] := by
  refine ⟨rfl, rfl, fun heq => ?_⟩
  have hmem : utf8 "bio,html" ∈ namespaces pageCtx .profile [bioField] [.str (utf8 "hello")] :=
    heq ▸ ⟨_, mem_singleton_self _⟩
  obtain ⟨way, w, q, hway, hq, hns⟩ := hmem
  -- No namespace has a comma.
  have hnames : ∀ k ∈ way.map formName, 44 ∉ k :=
    forall_mem_map.mpr fun f hf => comma_notMem_formName (hway.isIdent byValue_profile f hf)
  refine comma_notMem_flatMap_dot hnames ?_
  rw [← hq.cons_ns hway.ne_nil, hns]
  decide

end Kiya.Validator
