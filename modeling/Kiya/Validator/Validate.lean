import Kiya.Lib.Grouped
import Kiya.Validator.Values

/-!
# The validator

`Validator` of `validator.go` with `Bind`, `Validate` and the mode for rows. The order in which Go
visits the entries of a map is not fixed; it is a parameter here, a permutation for each loop. What
comes out of the loops of `Validate` is said once, in terms of the rules of a field and the value
that is recorded for it (`lookup_validateStruct`): the order shows in the order of the errors of one
field and nowhere else.

`Bind` of a struct also finds its table and its primary key. They are used by the rule `unique`
only, which is a parameter, and are left out.
-/

namespace Kiya

open Grouped List AList

namespace Validator

/-- A map of Go. -/
abbrev GoMap (β : Type) := AList fun _ : Bytes => β

/-- The entries of a map. -/
abbrev Entries (β : Type) := List (Σ _ : Bytes, β)

/-- A function that is given to `Func`. -/
abbrev CustomFunc := Option Value → Option Bytes

/-- The slice that is bound in the mode for rows: the struct type of its elements, the prefix of
their keys, which fields are pivots, and the values of each row. -/
structure RowsMode where
  fields : List Field
  rowsPrefix : Bytes
  pivotIdx : List ℕ
  rows : List (List Value)

end Validator

open Validator in
/-- `Validator`. -/
structure Validator where
  globalErrors : List Bytes := []
  values : Validator.GoMap (Option Validator.Value) := ∅
  validateErrors : Validator.GoMap (List Bytes) := ∅
  parsedRules : Validator.GoMap (Validator.GoMap Bytes) := ∅
  customFuncs : Validator.GoMap (List Validator.CustomFunc) := ∅
  rows : Option RowsMode := none

namespace Validator

/-- The orders in which the loops visit the entries of maps, for each validator: the number of its
row. -/
structure Ranges where
  rules : ℕ → Bytes → Entries Bytes → Entries Bytes
  rules_perm : ∀ i field l, (rules i field l).Perm l
  fields : ℕ → Entries (GoMap Bytes) → Entries (GoMap Bytes)
  fields_perm : ∀ i l, (fields i l).Perm l
  funcs : ℕ → Entries (List CustomFunc) → Entries (List CustomFunc)
  funcs_perm : ∀ i l, (funcs i l).Perm l
  errors : ℕ → Entries (List Bytes) → Entries (List Bytes)
  errors_perm : ∀ i l, (errors i l).Perm l

/-- The orders of the entries themselves. -/
def Ranges.inOrder : Ranges where
  rules _ _ l := l
  rules_perm _ _ l := .refl l
  fields _ l := l
  fields_perm _ l := .refl l
  funcs _ l := l
  funcs_perm _ l := .refl l
  errors _ l := l
  errors_perm _ l := .refl l

/-! ### Binding -/

/-- `mergeRules`. -/
def mergeRules (rules : GoMap (GoMap Bytes)) (field tag : Bytes) : GoMap (GoMap Bytes) :=
  rules.insert field ((readRules tag).foldl (fun m r => m.insert r.1 r.2)
    ((rules.lookup field).getD ∅))

variable (reg : Registry) (fields : Fields) (v : Validator) (key : Bytes)

/-- An entry of `flattenStruct` in the maps of a validator. -/
def record (e : Entry) : Validator :=
  { v with
    values := v.values.insert e.key e.value
    parsedRules := if e.rules = [] then v.parsedRules else mergeRules v.parsedRules e.key e.rules }

/-- What is bound: a struct, a slice of structs (with the name of their type and their prefix), a
slice of something else (with the name of its type), or something else. -/
inductive Form
  | struct (fields : Fields)
  | rows (typeName rowsPrefix : Bytes) (fields : List Field) (rows : List (List Value))
  | slice (typeName : Bytes)
  | other

/-- `bindRows`. -/
def bindRows (typeName rowsPrefix : Bytes) (fields : List Field) (rows : List (List Value)) :
    Validator :=
  let pivotIdx := (List.range fields.length).filter
    fun i => (fields[i]?.map Field.pivot) = some (utf8 "true")
  { v with
    rows := some ⟨fields, rowsPrefix, pivotIdx, rows⟩
    globalErrors := v.globalErrors ++ if pivotIdx = [] then
      [utf8 "kiya: rows validation on " ++ typeName ++
        utf8 " requires at least one field tagged `pivot:\"true\"` to detect empty rows"]
      else [] }

/-- `Validator.Bind`, with the error of `Context.Bind` where there is one. -/
def bind (form : Form) (bindError : Option Bytes) : Validator :=
  let v := { v with
    globalErrors := v.globalErrors ++ bindError.toList
    values := ∅
    rows := none }
  match form with
  | .struct fields => (fields.flatten []).foldl record v
  | .rows typeName rowsPrefix fields rows => v.bindRows typeName rowsPrefix fields rows
  | .slice typeName => { v with
      rows := some ⟨[], [], [], []⟩
      globalErrors := v.globalErrors ++
        [utf8 "kiya: rows validation requires a slice of structs, got " ++ typeName] }
  | .other => v

/-! ### Validation -/

/-- The value that is recorded for a field. -/
def valueOf (field : Bytes) : Option Value :=
  (v.values.lookup field).join

/-- The errors that rules give for a value, in order. A rule that is not registered is skipped. -/
def ruleErrors (val : Option Value) (rules : Entries Bytes) : List Bytes :=
  rules.filterMap fun r => (reg r.1).bind fun fn => fn.check r.2 val

/-- The loops of `Validate` for a struct. -/
def validateStruct (ranges : Ranges) (i : ℕ) (v : Validator) : Validator :=
  let errors := (ranges.fields i v.parsedRules.entries).foldl (fun errors e =>
    (ruleErrors reg (v.valueOf e.1) (ranges.rules i e.1 e.2.entries)).foldl
      (fun errors msg => add errors e.1 msg) errors) v.validateErrors
  let errors := (ranges.funcs i v.customFuncs.entries).foldl (fun errors e =>
    (e.2.filterMap fun fn => fn (v.valueOf e.1)).foldl
      (fun errors msg => add errors e.1 msg) errors) errors
  { v with validateErrors := errors }

/-- The loop over the pivots of a row: whether all are empty. The field of a pivot has to be
exported, otherwise reading it panics. -/
def pivotsEmpty : List (Field × Value) → Option Bool
  | [] => some true
  | (f, val) :: pivots =>
    if f.exported then
      if isEmpty val.toAny then pivotsEmpty pivots else some false
    else none

/-- The pivots of a row with their values. -/
def RowsMode.pivots (m : RowsMode) (row : List Value) : List (Field × Value) :=
  m.pivotIdx.filterMap fun i => (m.fields.zip row)[i]?

/-- The validator for a row. -/
def RowsMode.rowValidator (m : RowsMode) (row : List Value) : Validator :=
  bind {} (.struct (.ofLists m.fields row)) none

/-- The key of an error of a row. -/
def rowKey (rowsPrefix field : Bytes) (i : ℕ) : Bytes :=
  rowsPrefix ++ field ++ utf8 "_" ++ Numeral.formatNat i

/-- The loop of `validateRows` from a row on, with the rows that are kept and the errors; it does
not return if a pivot cannot be read. -/
def validateRowsFrom (reg : Registry) (ranges : Ranges) (m : RowsMode) :
    ℕ → List (List Value) → List (List Value) → GoMap (List Bytes) →
      Option (List (List Value) × GoMap (List Bytes))
  | _, [], compacted, errors => some (compacted, errors)
  | i, row :: rows, compacted, errors =>
    match pivotsEmpty (m.pivots row) with
    | none => none
    | some true => validateRowsFrom reg ranges m (i + 1) rows compacted errors
    | some false =>
      let sub := (m.rowValidator row).validateStruct reg ranges i
      if sub.validateErrors.entries = [] then
        validateRowsFrom reg ranges m (i + 1) rows (compacted ++ [row]) errors
      else
        let errors := (ranges.errors i sub.validateErrors.entries).foldl (fun errors e =>
          e.2.foldl (fun errors msg => add errors (rowKey m.rowsPrefix e.1 i) msg) errors)
          errors
        validateRowsFrom reg ranges m (i + 1) rows compacted errors

/-- `Validator.Validate`: whether it returns `ErrValidationFailed`, and the validator after it. -/
def validate (ranges : Ranges) (v : Validator) : Option (Bool × Validator) :=
  if v.globalErrors ≠ [] then
    let found := v.globalErrors.zipIdx.map
      fun e => (utf8 "binding_error_" ++ Numeral.formatNat e.2, e.1)
    some (true, { v with validateErrors := addAll v.validateErrors found })
  else
    match v.rows with
    | some m =>
      match validateRowsFrom reg ranges m 0 m.rows [] v.validateErrors with
      | none => none
      | some (compacted, errors) =>
        some (decide (errors.entries ≠ []),
          { v with rows := some { m with rows := compacted }, validateErrors := errors })
    | none =>
      let v := v.validateStruct reg ranges 0
      some (decide (v.validateErrors.entries ≠ []), v)

/-! ### What a struct is bound to -/

/-- The value that is recorded for a field of a struct, the last one for its key. -/
def Fields.valueOf : Option Value :=
  (bind {} (.struct fields) none).valueOf key

/-- The rules that are read for a field of a struct, with their parameters. -/
def Fields.rulesOf : GoMap Bytes :=
  ((bind {} (.struct fields) none).parsedRules.lookup key).getD ∅

/-- The rules that are listed for a key, in order: those in the tags of all fields that have it. -/
def Fields.readFor : List (Bytes × Bytes) :=
  ((fields.flatten []).filter (·.key = key)).flatMap fun e => readRules e.rules

/-- The errors that a field of a struct gets, in some order. -/
def Fields.errorsOf : List Bytes :=
  ruleErrors reg (fields.valueOf key) (fields.rulesOf key).entries

/-- Binding changes the maps for values and rules only. -/
theorem foldl_record (es : List Entry) (v : Validator) : es.foldl record v = { v with
      values := es.foldl (fun m e => m.insert e.key e.value) v.values
      parsedRules := es.foldl (fun m e =>
        if e.rules = [] then m else mergeRules m e.key e.rules) v.parsedRules } := by
  induction es generalizing v with
  | nil => rfl
  | cons e es ih => rw [foldl_cons, ih]; rfl

theorem bind_struct :
    (bind {} (.struct fields) none).globalErrors = [] ∧
      (bind {} (.struct fields) none).validateErrors = ∅ ∧
      (bind {} (.struct fields) none).customFuncs = ∅ ∧
      (bind {} (.struct fields) none).rows = none := by
  rw [bind]
  dsimp only
  rw [foldl_record]
  exact ⟨rfl, rfl, rfl, rfl⟩

variable {key : Bytes} {fields fields' : Fields} {before after : List Entry} {e : Entry}

/-- Entries with other keys change nothing for a key. -/
theorem lookup_foldl_record_of_ne {es : List Entry} (h : ∀ e ∈ es, e.key ≠ key) (v : Validator) :
    (es.foldl record v).values.lookup key = v.values.lookup key ∧
      (es.foldl record v).parsedRules.lookup key = v.parsedRules.lookup key := by
  induction es generalizing v with
  | nil => exact ⟨rfl, rfl⟩
  | cons e es ih =>
    obtain ⟨he, hes⟩ := forall_mem_cons.mp h
    obtain ⟨hvalues, hrules⟩ := ih hes (v.record e)
    rw [foldl_cons, hvalues, hrules]
    refine ⟨lookup_insert_ne (Ne.symm he), ?_⟩
    rw [record]
    dsimp only
    split_ifs
    · rfl
    · exact lookup_insert_ne (Ne.symm he)

/-- The value that is recorded for a key is the one of the last field that has it. -/
theorem Fields.valueOf_of_last (h : fields.flatten [] = before ++ e :: after)
    (hafter : ∀ e' ∈ after, e'.key ≠ e.key) : fields.valueOf e.key = e.value := by
  obtain ⟨hvalues, -⟩ := lookup_foldl_record_of_ne hafter ((before.foldl record {}).record e)
  change ((List.foldl record {} (fields.flatten [])).values.lookup e.key).join = e.value
  rw [h, foldl_append, foldl_cons, hvalues, record]
  dsimp only
  rw [lookup_insert]
  rfl

/-- **The rules of a key** are those in the tags of its fields, one after the other. -/
theorem Fields.rulesOf_eq (fields : Fields) (key : Bytes) : fields.rulesOf key =
      (fields.readFor key).foldl (fun m r => m.insert r.1 r.2) ∅ := by
  have hfold : ∀ (es : List Entry) (v : Validator),
      ((es.foldl record v).parsedRules.lookup key).getD ∅ =
        ((es.filter (·.key = key)).flatMap fun e => readRules e.rules).foldl
          (fun m r => m.insert r.1 r.2) ((v.parsedRules.lookup key).getD ∅) := by
    intro es
    induction es with
    | nil => exact fun v => rfl
    | cons e es ih =>
      intro v
      rw [foldl_cons, ih, filter_cons]
      by_cases hkey : e.key = key
      · rw [if_pos (decide_eq_true hkey), flatMap_cons, foldl_append, record]
        dsimp only
        split_ifs with hnil
        · rw [hnil]
          rfl
        · rw [mergeRules, hkey, lookup_insert]
          rfl
      · rw [if_neg (by simpa using hkey), record]
        dsimp only
        split_ifs
        · rfl
        · rw [mergeRules, lookup_insert_ne (Ne.symm hkey)]
  exact hfold (fields.flatten []) {}

/-- The rules do not depend on the values. -/
theorem Fields.rulesOf_congr (h : (fields.flatten []).map (fun e => (e.key, e.rules)) =
      (fields'.flatten []).map fun e => (e.key, e.rules)) (key : Bytes) :
    fields.rulesOf key = fields'.rulesOf key := by
  have hread : ∀ fields : Fields, fields.readFor key =
      (((fields.flatten []).map fun e => (e.key, e.rules)).filter (·.1 = key)).flatMap
        fun e => readRules e.2 := by
    intro fields
    rw [readFor, filter_map, flatMap_map]
    rfl
  rw [rulesOf_eq, rulesOf_eq, hread, hread, h]

/-- The parameter of a rule is the one that is listed last under its name. -/
theorem Fields.lookup_rulesOf (fields : Fields) (key name : Bytes) :
    (fields.rulesOf key).lookup name = (fields.readFor key).reverse.lookup name := by
  rw [rulesOf_eq]
  induction fields.readFor key using List.reverseRecOn with
  | nil => rfl
  | append_singleton rules r ih =>
    rw [foldl_append, foldl_cons, foldl_nil, reverse_append,
      reverse_singleton, singleton_append, lookup_cons]
    by_cases hname : name = r.1
    · rw [hname, lookup_insert, beq_self_eq_true]
    · rw [lookup_insert_ne hname, ih, beq_eq_false_iff_ne.mpr hname]

/-- The last of the entries with a key. -/
theorem exists_last {es : List Entry} (hkey : ∃ e ∈ es, e.key = key) :
    ∃ before e after, es = before ++ e :: after ∧ e.key = key ∧ ∀ e' ∈ after, e'.key ≠ key := by
  induction es with
  | nil =>
    obtain ⟨e, he, -⟩ := hkey
    cases he
  | cons e es ih =>
    by_cases hmore : ∃ e' ∈ es, e'.key = key
    · obtain ⟨before, last, after, rfl, hlast, hafter⟩ := ih hmore
      exact ⟨e :: before, last, after, rfl, hlast, hafter⟩
    · push Not at hmore
      obtain ⟨e', he', heq⟩ := hkey
      rcases mem_cons.mp he' with rfl | he'
      · exact ⟨[], e', es, rfl, heq, hmore⟩
      · exact absurd heq (hmore e' he')

/-- Fields in front of the last one with a key do not matter for its value. -/
theorem Fields.valueOf_congr {before before' after : List Entry}
    (h : fields.flatten [] = before ++ after) (h' : fields'.flatten [] = before' ++ after)
    (hkey : ∃ e ∈ after, e.key = key) : fields.valueOf key = fields'.valueOf key := by
  obtain ⟨front, e, rest, rfl, rfl, hrest⟩ := exists_last hkey
  rw [← append_assoc] at h h'
  rw [valueOf_of_last h hrest, valueOf_of_last h' hrest]

/-! ### What the loops find -/

/-- Adding the errors of one field after the other is adding them all. -/
theorem foldl_add_eq_addAll {α : Type} (key : α → Bytes) (msgs : α → List Bytes) (l : List α)
    (errors : GoMap (List Bytes)) :
    l.foldl (fun errors e => (msgs e).foldl (fun errors msg => add errors (key e) msg)
      errors) errors = addAll errors (l.flatMap fun e => (msgs e).map (key e, ·)) := by
  induction l generalizing errors with
  | nil => rfl
  | cons e l ih =>
    rw [foldl_cons, ih, flatMap_cons, addAll_append]
    congr 1
    rw [addAll, foldl_map]

variable (reg : Registry) (ranges : Ranges) (i : ℕ)

/-- **What `Validate` finds in a struct**: under the key of a field the errors of its rules, in some
order, and nothing where there are none. -/
theorem lookup_validateStruct (fields : Fields)
    (key : Bytes) : ∃ msgs, msgs.Perm (fields.errorsOf reg key) ∧
      (((bind {} (.struct fields) none).validateStruct reg ranges
        i).validateErrors.lookup key) = if msgs = [] then none else some msgs := by
  obtain ⟨-, herrors, hfuncs, -⟩ := bind_struct fields
  set v := bind {} (.struct fields) none with hv
  have hvalidate : (v.validateStruct reg ranges i).validateErrors = addAll ∅
      ((ranges.fields i v.parsedRules.entries).flatMap fun e =>
        (ruleErrors reg (v.valueOf e.1) (ranges.rules i e.1 e.2.entries)).map (e.1, ·)) := by
    have hnone : ranges.funcs i (∅ : GoMap (List CustomFunc)).entries = [] :=
      (ranges.funcs_perm i []).eq_nil
    rw [validateStruct, hfuncs, hnone, herrors]
    exact foldl_add_eq_addAll Sigma.fst
      (fun e : Σ _ : Bytes, GoMap Bytes =>
        ruleErrors reg (v.valueOf e.1) (ranges.rules i e.1 e.2.entries)) _ ∅
  rw [hvalidate, lookup_addAll_empty]
  refine ⟨_, ?_, rfl⟩
  have hperm := ranges.fields_perm i v.parsedRules.entries
  cases hrules : v.parsedRules.lookup key with
  | none =>
    have hempty : fields.errorsOf reg key = [] := by
      rw [Fields.errorsOf, Fields.rulesOf, ← hv, hrules]
      rfl
    rw [hempty, elementsOf_of_ne]
    intro e he
    obtain ⟨entry, hentry, hmem⟩ := mem_flatMap.mp he
    obtain ⟨msg, -, rfl⟩ := mem_map.mp hmem
    rintro rfl
    have hfound := mem_lookup_iff.mpr (hperm.mem_iff.mp hentry)
    rw [hrules] at hfound
    cases hfound
  | some rules =>
    have hmem : (⟨key, rules⟩ : Σ _ : Bytes, GoMap Bytes) ∈
        ranges.fields i v.parsedRules.entries :=
      hperm.mem_iff.mpr (mem_lookup_iff.mp hrules)
    have hnodup : ((ranges.fields i v.parsedRules.entries).map Sigma.fst).Nodup :=
      (hperm.map Sigma.fst).nodup_iff.mpr v.parsedRules.nodupKeys
    have helements := elementsOf_flatMap (fun e : Σ _ : Bytes, GoMap Bytes =>
      ruleErrors reg (v.valueOf e.1) (ranges.rules i e.1 e.2.entries)) hnodup hmem
    rw [helements, Fields.errorsOf, Fields.rulesOf, ← hv, hrules]
    exact (ranges.rules_perm i key rules.entries).filterMap _

theorem entries_eq_nil_iff {β : Type} {m : GoMap β} :
    m.entries = [] ↔ ∀ key, m.lookup key = none := by
  constructor
  · intro h key
    rw [lookup_eq_none, AList.mem_keys, AList.keys, h]
    exact not_mem_nil
  · intro h
    by_contra hne
    obtain ⟨e, rest, heq⟩ := exists_cons_of_ne_nil hne
    have hlookup : e.2 ∈ m.lookup e.1 := mem_lookup_iff.mpr (heq ▸ mem_cons_self)
    rw [h e.1] at hlookup
    cases hlookup

/-- Errors are found if and only if a field has some. -/
theorem validateStruct_entries_eq_nil_iff (fields : Fields) :
    ((bind {} (.struct fields) none).validateStruct reg ranges i).validateErrors.entries = [] ↔
      ∀ key, fields.errorsOf reg key = [] := by
  rw [entries_eq_nil_iff]
  refine forall_congr' fun key => ?_
  obtain ⟨msgs, hperm, hlookup⟩ := lookup_validateStruct reg ranges i fields key
  rw [hlookup]
  by_cases hmsgs : msgs = []
  · rw [if_pos hmsgs]
    exact ⟨fun _ => (hmsgs ▸ hperm).symm.eq_nil, fun _ => rfl⟩
  · rw [if_neg hmsgs]
    exact ⟨nofun, fun h => absurd (h ▸ hperm).eq_nil hmsgs⟩

end Validator

end Kiya
