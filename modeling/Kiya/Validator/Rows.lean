import Kiya.Validator.Validate

/-!
# Validation of rows

In the mode for rows `Validate` goes through a slice of structs. A row whose pivots are all empty is
left out, a row with errors is left out too, and the errors of its fields are recorded under keys
with the number of the row; the other rows are kept. `validateRowsFrom_eq` says what the loop finds,
with the errors as one list, and from it follows what is recorded under each key: keys of different
rows or fields are different (`rowKey_inj`).

The loop reads the pivots with `Interface`, which panics for a field that is not exported. So all of
this is so if and only if no row lets the loop come to such a pivot.
-/

namespace Kiya.Validator

open Fields Grouped List Option

/-! ### Pivots -/

variable (reg : Registry) (fields : List Field) (ranges : Ranges) (row : List Value) (m : RowsMode)
    (i : ℕ)

/-- The fields of a row that are pivots, with their values. -/
def pivotsOf : List (Field × Value) :=
  (fields.zip row).filter fun p => p.1.pivot = utf8 "true"

/-- A row that is not empty. -/
def HasPivot : Prop :=
  ∃ p ∈ pivotsOf fields row, isEmpty p.2.toAny = false

/-- The pivots can be read: one that is not exported comes behind one that is not empty. -/
def PivotsReadable (pivots : List (Field × Value)) : Prop :=
  ∀ before f val after, pivots = before ++ (f, val) :: after → f.exported = false →
    ∃ p ∈ before, isEmpty p.2.toAny = false

theorem pivotsReadable_cons_iff {f : Field} {val : Value} {pivots : List (Field × Value)} :
    PivotsReadable ((f, val) :: pivots) ↔
      f.exported = true ∧ (isEmpty val.toAny = true → PivotsReadable pivots) := by
  constructor
  · intro h
    have hf : f.exported = true := by
      by_contra hf
      obtain ⟨p, hp, -⟩ := h [] f val pivots rfl (Bool.eq_false_iff.mpr hf)
      cases hp
    refine ⟨hf, fun hempty before g w after heq hg => ?_⟩
    obtain ⟨p, hp, hne⟩ := h ((f, val) :: before) g w after (congrArg _ heq) hg
    rcases mem_cons.mp hp with rfl | hp
    · exact absurd (hempty.symm.trans hne) (by decide)
    · exact ⟨p, hp, hne⟩
  · rintro ⟨hf, hrest⟩ before g w after heq hg
    cases before with
    | nil =>
      cases heq
      exact absurd (hf.symm.trans hg) (by decide)
    | cons p before =>
      cases heq
      by_cases hempty : isEmpty val.toAny = true
      · obtain ⟨p, hp, hne⟩ := hrest hempty before g w after rfl hg
        exact ⟨p, mem_cons_of_mem _ hp, hne⟩
      · exact ⟨_, mem_cons_self, Bool.eq_false_iff.mpr hempty⟩

/-- Pivots that are exported can be read. -/
theorem pivotsReadable_of_exported {fields : List Field} (h : ∀ f ∈ fields, f.exported = true)
    (row : List Value) : PivotsReadable (pivotsOf fields row) := by
  intro before f val after heq hf
  have hmem : (f, val) ∈ pivotsOf fields row := heq ▸ mem_append_right _ mem_cons_self
  have htrue := h f (of_mem_zip (mem_of_mem_filter hmem)).1
  exact absurd (htrue.symm.trans hf) (by decide)

/-- **Reading the pivots** says whether the row is empty, and panics if they cannot be read. -/
theorem pivotsEmpty_cases (pivots : List (Field × Value)) :
    (pivotsEmpty pivots ≠ none ↔ PivotsReadable pivots) ∧
      (PivotsReadable pivots →
        (pivotsEmpty pivots = some false ↔ ∃ p ∈ pivots, isEmpty p.2.toAny = false)) := by
  induction pivots with
  | nil =>
    refine ⟨⟨fun _ before f val after heq => ?_, fun _ => nofun⟩, fun _ => ⟨nofun, ?_⟩⟩
    · exact absurd heq (by simp)
    · rintro ⟨p, hp, -⟩
      cases hp
  | cons p pivots ih =>
    obtain ⟨f, val⟩ := p
    rw [pivotsReadable_cons_iff, pivotsEmpty]
    by_cases hf : f.exported = true
    · rw [if_pos hf]
      by_cases hempty : isEmpty val.toAny = true
      · rw [if_pos hempty]
        refine ⟨ih.1.trans ⟨fun h => ⟨hf, fun _ => h⟩, fun h => h.2 hempty⟩, fun h => ?_⟩
        rw [ih.2 (h.2 hempty)]
        simp [hempty]
      · rw [if_neg hempty]
        refine ⟨⟨fun _ => ⟨hf, fun h => absurd h hempty⟩, fun _ => nofun⟩,
          fun _ => ⟨fun _ => ?_, ?_⟩⟩
        · exact ⟨_, mem_cons_self, Bool.eq_false_iff.mpr hempty⟩
        · exact fun _ => rfl
    · rw [if_neg hf]
      exact ⟨⟨fun h => absurd rfl h, fun h => absurd h.1 hf⟩, fun h => absurd h.1 hf⟩

/-- The pivots that are found by their numbers. -/
theorem filterMap_pivotIdx :
    ((List.range fields.length).filter fun i =>
      (fields[i]?.map Field.pivot) = some (utf8 "true")).filterMap (fun i => (fields.zip row)[i]?) =
      pivotsOf fields row := by
  induction fields generalizing row with
  | nil => rfl
  | cons f fields ih =>
    cases row with
    | nil => simp [pivotsOf]
    | cons val row =>
      have htail : ((List.range fields.length).map Nat.succ |>.filter fun i =>
          ((f :: fields)[i]?.map Field.pivot) = some (utf8 "true")).filterMap
          (fun i => ((f :: fields).zip (val :: row))[i]?) = pivotsOf fields row := by
        rw [← ih row, List.filter_map, filterMap_map]
        rfl
      rw [length_cons, range_succ_eq_map, pivotsOf, zip_cons_cons, filter_cons, filter_cons]
      by_cases hf : f.pivot = utf8 "true"
      · simp only [getElem?_cons_zero, map_some, hf, decide_true, if_true, filterMap_cons]
        exact congrArg _ htail
      · simp only [getElem?_cons_zero, map_some, Option.some.injEq, hf, decide_false,
          Bool.false_eq_true, if_false]
        exact htail

/-! ### Keys -/

theorem notMem_formatNat : (95 : UInt8) ∉ Numeral.formatNat i := fun hmem =>
  absurd (Numeral.isDigit_of_mem_formatNat 95 hmem) (by decide)

/-- **Different rows or fields have different keys.** The number of a row has no underscore, so it
is what comes behind the last one. -/
theorem rowKey_inj {rowsPrefix f f' : Bytes} {i i' : ℕ}
    (h : rowKey rowsPrefix f i = rowKey rowsPrefix f' i') : f = f' ∧ i = i' := by
  have hsplit (f : Bytes) (i : ℕ) : (rowKey rowsPrefix f i).reverse =
      (Numeral.formatNat i).reverse ++ 95 :: (rowsPrefix ++ f).reverse := by
    simp [rowKey, show utf8 "_" = [95] by rfl]
  have hrev := congrArg List.reverse h
  rw [hsplit, hsplit] at hrev
  obtain ⟨hnumber, hfield⟩ := Strings.append_mark_inj
    (fun hmem => notMem_formatNat i (mem_reverse.mp hmem))
    (fun hmem => notMem_formatNat i' (mem_reverse.mp hmem)) hrev
  exact ⟨append_cancel_left (reverse_injective hfield),
    Numeral.formatNat_injective (reverse_injective hnumber)⟩

/-! ### One row -/

/-- A row without errors. -/
def Passes : Prop :=
  ∀ key, (ofLists fields row).errorsOf reg key = []

/-- The errors of a row by its fields, in the order in which they are recorded. -/
def rowFailures (row : List Value) : Entries (List Bytes) :=
  if pivotsEmpty (m.pivots row) = some false then
    ranges.errors i ((m.rowValidator row).validateStruct reg ranges i).validateErrors.entries
  else []

/-- The errors of all rows from a number on, each with the number of its row. -/
def failures (rows : List (List Value)) : List (ℕ × Σ _ : Bytes, List Bytes) :=
  (rows.zipIdx i).flatMap fun e => (rowFailures reg ranges m e.2 e.1).map (e.2, ·)

/-- The same, as they are added to the errors of the validator. -/
def failureErrors (rowsPrefix : Bytes) (l : List (ℕ × Σ _ : Bytes, List Bytes)) :
    List (Bytes × Bytes) :=
  l.flatMap fun e => e.2.2.map (rowKey rowsPrefix e.2.1 e.1, ·)

/-- A row that is kept. -/
def isKept (row : List Value) : Bool :=
  pivotsEmpty (m.pivots row) = some false ∧
    ((m.rowValidator row).validateStruct reg ranges 0).validateErrors.entries = []

variable {rows : List (List Value)} {m : RowsMode}

/-- **What the loop finds**: the rows that are kept, and the errors of the others. -/
theorem validateRowsFrom_eq (m : RowsMode) (h : ∀ row ∈ rows, pivotsEmpty (m.pivots row) ≠ none)
    (i : ℕ) (compacted : List (List Value)) (errors : GoMap (List Bytes)) :
    validateRowsFrom reg ranges m i rows compacted errors =
      some (compacted ++ rows.filter (isKept reg ranges m),
        addAll errors (failureErrors m.rowsPrefix (failures reg ranges m i rows))) := by
  induction rows generalizing i compacted errors with
  | nil => rw [validateRowsFrom, filter_nil, append_nil]; rfl
  | cons row rows ih =>
    obtain ⟨hrow, hrows⟩ := forall_mem_cons.mp h
    have hfailures : failures reg ranges m i (row :: rows) =
        (rowFailures reg ranges m i row).map (i, ·) ++ failures reg ranges m (i + 1) rows := rfl
    have happend (l l' : List (ℕ × Σ _ : Bytes, List Bytes)) :
        failureErrors m.rowsPrefix (l ++ l') =
          failureErrors m.rowsPrefix l ++ failureErrors m.rowsPrefix l' := flatMap_append
    rw [hfailures, happend, addAll_append, filter_cons]
    cases hpivots : pivotsEmpty (m.pivots row) with
    | none => exact absurd hpivots hrow
    | some empty =>
      cases empty with
      | true =>
        have hkept : isKept reg ranges m row = false := by simp [isKept, hpivots]
        have hnone : rowFailures reg ranges m i row = [] := by simp [rowFailures, hpivots]
        rw [validateRowsFrom, hpivots, hkept, hnone]
        exact ih hrows (i + 1) compacted errors
      | false =>
        have hsub (j : ℕ) := validateStruct_entries_eq_nil_iff reg ranges j
          (ofLists m.fields row)
        have hfound : rowFailures reg ranges m i row = ranges.errors i
            ((m.rowValidator row).validateStruct reg ranges i).validateErrors.entries := by
          rw [rowFailures, if_pos hpivots]
        rw [validateRowsFrom, hpivots]
        dsimp only
        split_ifs with hentries hkept hkept
        · have hnone : rowFailures reg ranges m i row = [] := by
            rw [hfound, hentries]
            exact (ranges.errors_perm i []).eq_nil
          rw [hnone, ih hrows, append_assoc]
          rfl
        · refine absurd ?_ hkept
          have hempty := (hsub 0).mpr ((hsub i).mp hentries)
          exact decide_eq_true ⟨hpivots, hempty⟩
        · exact absurd ((hsub i).mpr ((hsub 0).mp (of_decide_eq_true hkept).2)) hentries
        · have hmap : failureErrors m.rowsPrefix ((rowFailures reg ranges m i row).map (i, ·)) =
              (rowFailures reg ranges m i row).flatMap
                fun e => e.2.map (rowKey m.rowsPrefix e.1 i, ·) := by
            rw [failureErrors, flatMap_map]
          rw [ih hrows, foldl_add_eq_addAll (fun e : Σ _ : Bytes, List Bytes =>
            rowKey m.rowsPrefix e.1 i) Sigma.snd, ← hfound, hmap]

/-! ### All rows -/

variable {i : ℕ} {reg : Registry} {ranges : Ranges} {msgs : List Bytes}

theorem mem_failures_iff {e : Σ _ : Bytes, List Bytes} : (i, e) ∈ failures reg ranges m 0 rows ↔
      ∃ row, rows[i]? = some row ∧ e ∈ rowFailures reg ranges m i row := by
  constructor
  · intro h
    obtain ⟨⟨row, j⟩, hmem, he⟩ := mem_flatMap.mp h
    obtain ⟨e', he', heq⟩ := List.mem_map.mp he
    cases heq
    exact ⟨row, mem_zipIdx_iff_getElem?.mp hmem, he'⟩
  · rintro ⟨row, hrow, he⟩
    exact mem_flatMap.mpr ⟨(row, i), mem_zipIdx_iff_getElem?.mpr hrow, List.mem_map_of_mem he⟩

theorem rowFailures_nodup (reg : Registry) (ranges : Ranges) (m : RowsMode) (i : ℕ)
    (row : List Value) : ((rowFailures reg ranges m i row).map Sigma.fst).Nodup := by
  rw [rowFailures]
  split_ifs
  · exact ((ranges.errors_perm i _).map Sigma.fst).nodup_iff.mpr (AList.nodupKeys _)
  · exact nodup_nil

/-- The keys of the errors of all rows are different. -/
theorem failures_nodup (reg : Registry) (ranges : Ranges) (m : RowsMode) (i : ℕ)
    (rows : List (List Value)) :
    ((failures reg ranges m i rows).map fun e => rowKey m.rowsPrefix e.2.1 e.1).Nodup := by
  have hindices {e : ℕ × Σ _ : Bytes, List Bytes} {j : ℕ} {rows : List (List Value)}
      (he : e ∈ failures reg ranges m j rows) : j ≤ e.1 := by
    obtain ⟨x, hx, he⟩ := mem_flatMap.mp he
    obtain ⟨e', -, rfl⟩ := List.mem_map.mp he
    exact le_snd_of_mem_zipIdx hx
  induction rows generalizing i with
  | nil => exact nodup_nil
  | cons row rows ih =>
    have hfailures : failures reg ranges m i (row :: rows) =
        (rowFailures reg ranges m i row).map (i, ·) ++ failures reg ranges m (i + 1) rows := rfl
    rw [hfailures, map_append, List.map_map]
    refine nodup_append.mpr ⟨?_, ih (i + 1), ?_⟩
    · have hnodup := rowFailures_nodup reg ranges m i row
      have hcomp : ((fun e : ℕ × Σ _ : Bytes, List Bytes => rowKey m.rowsPrefix e.2.1 e.1) ∘
          fun x => (i, x)) = (fun f => rowKey m.rowsPrefix f i) ∘ Sigma.fst := rfl
      rw [hcomp, ← List.map_map]
      exact hnodup.map fun f f' h => (rowKey_inj h).1
    · intro key hkey key' hkey' heq
      obtain ⟨e, -, rfl⟩ := List.mem_map.mp hkey
      obtain ⟨e', he', rfl⟩ := List.mem_map.mp hkey'
      have hle := hindices he'
      have hi := (rowKey_inj heq).2
      dsimp only at hi
      omega

variable {f : Bytes}

/-- What is recorded for a field of a row. -/
theorem lookup_of_mem_failures (h : (i, ⟨f, msgs⟩) ∈ failures reg ranges m 0 rows)
    (hne : msgs ≠ []) :
    (addAll ∅ (failureErrors m.rowsPrefix (failures reg ranges m 0 rows))).lookup
      (rowKey m.rowsPrefix f i) = some msgs := by
  have helements := elementsOf_flatMap
    (fun e : ℕ × Σ _ : Bytes, List Bytes => e.2.2) (failures_nodup reg ranges m 0 rows) h
  rw [lookup_addAll_empty, failureErrors, helements, if_neg hne]

/-- What is recorded is an error of a row. -/
theorem exists_of_lookup_failures {key : Bytes}
    (h : (addAll ∅ (failureErrors m.rowsPrefix (failures reg ranges m 0 rows))).lookup
      key = some msgs) :
    ∃ i f msgs, key = rowKey m.rowsPrefix f i ∧ (i, ⟨f, msgs⟩) ∈ failures reg ranges m 0 rows := by
  rw [lookup_addAll_empty] at h
  by_contra hnone
  push Not at hnone
  rw [elementsOf_of_ne, if_pos rfl] at h
  · cases h
  · intro e he heq
    obtain ⟨⟨i, f, msgs⟩, hmem, he⟩ := mem_flatMap.mp he
    obtain ⟨msg, -, rfl⟩ := List.mem_map.mp he
    exact hnone i f msgs heq.symm hmem

/-! ### The result -/

section Result

variable {fields : List Field} {rowsPrefix : Bytes}

/-- The mode for rows with a slice of structs of the given type. -/
def rowsMode (fields : List Field) (rowsPrefix : Bytes) (rows : List (List Value)) : RowsMode :=
  ⟨fields, rowsPrefix, (List.range fields.length).filter
    fun i => (fields[i]?.map Field.pivot) = some (utf8 "true"), rows⟩

theorem pivots_rowsMode (rows : List (List Value)) (row : List Value) :
    (rowsMode fields rowsPrefix rows).pivots row = pivotsOf fields row :=
  filterMap_pivotIdx fields row

variable {row : List Value}

/-- The errors of a field of a row that is not empty. -/
theorem mem_rowFailures_iff (hread : PivotsReadable (pivotsOf fields row)) (i : ℕ) (f : Bytes) :
    (∃ msgs, ⟨f, msgs⟩ ∈ rowFailures reg ranges (rowsMode fields rowsPrefix rows) i row) ↔
      HasPivot fields row ∧ (ofLists fields row).errorsOf reg f ≠ [] := by
  have hpivots : pivotsEmpty (pivotsOf fields row) = some false ↔ HasPivot fields row :=
    (pivotsEmpty_cases (pivotsOf fields row)).2 hread
  obtain ⟨found, hperm, hlookup⟩ := lookup_validateStruct reg ranges i (ofLists fields row) f
  rw [rowFailures, pivots_rowsMode]
  by_cases hempty : pivotsEmpty (pivotsOf fields row) = some false
  · rw [if_pos hempty, and_iff_right (hpivots.mp hempty)]
    have hmem (msgs : List Bytes) : ⟨f, msgs⟩ ∈ ranges.errors i (((rowsMode fields rowsPrefix
        rows).rowValidator row).validateStruct reg ranges i).validateErrors.entries ↔
        (if found = [] then none else some found) = some msgs := by
      rw [(ranges.errors_perm i _).mem_iff, ← hlookup]
      exact AList.mem_lookup_iff.symm
    simp only [hmem]
    by_cases hfound : found = []
    · rw [if_pos hfound]
      exact ⟨fun ⟨_, h⟩ => (nomatch h), fun h => absurd (hfound ▸ hperm).symm.eq_nil h⟩
    · rw [if_neg hfound]
      exact ⟨fun _ h => hfound (h ▸ hperm).eq_nil, fun _ => ⟨found, rfl⟩⟩
  · rw [if_neg hempty]
    refine ⟨fun ⟨_, h⟩ => absurd h not_mem_nil, fun h => ?_⟩
    exact absurd (hpivots.mpr h.1) hempty

theorem perm_of_mem_rowFailures
    (h : ⟨f, msgs⟩ ∈ rowFailures reg ranges (rowsMode fields rowsPrefix rows) i row) :
    msgs.Perm ((ofLists fields row).errorsOf reg f) ∧ msgs ≠ [] := by
  obtain ⟨found, hperm, hlookup⟩ := lookup_validateStruct reg ranges i (ofLists fields row) f
  rw [rowFailures] at h
  split_ifs at h
  · have hmem := AList.mem_lookup_iff.mpr ((ranges.errors_perm i _).mem_iff.mp h)
    change _ ∈ ((bind {} (.struct (ofLists fields row)) none).validateStruct reg ranges
      i).validateErrors.lookup f at hmem
    rw [hlookup] at hmem
    split_ifs at hmem with hfound
    · cases hmem
    · cases hmem
      exact ⟨hperm, hfound⟩
  · cases h

open Classical in
/-- The outcome of a validation of rows: the rows that are left, whether it fails, and which errors
are recorded under which keys. -/
structure Compacts (reg : Registry) (fields : List Field) (rowsPrefix : Bytes)
    (rows : List (List Value)) (failed : Bool) (v : Validator) : Prop where
  rows_eq : v.rows.map RowsMode.rows =
    some (rows.filter fun row => decide (HasPivot fields row ∧ Passes reg fields row))
  failed_iff : failed = true ↔ ∃ row ∈ rows, HasPivot fields row ∧ ¬ Passes reg fields row
  recorded : ∀ i row f, rows[i]? = some row → HasPivot fields row →
    (ofLists fields row).errorsOf reg f ≠ [] →
      ∃ msgs, v.validateErrors.lookup (rowKey rowsPrefix f i) = some msgs ∧
        msgs.Perm ((ofLists fields row).errorsOf reg f)
  only : ∀ key msgs, v.validateErrors.lookup key = some msgs → ∃ i row f, rows[i]? = some row ∧
    HasPivot fields row ∧ (ofLists fields row).errorsOf reg f ≠ [] ∧
      key = rowKey rowsPrefix f i
  keys : ∀ f i f' i', rowKey rowsPrefix f i = rowKey rowsPrefix f' i' → f = f' ∧ i = i'

/-- A validator that has bound a slice with a pivot. -/
theorem bind_rows (hpivot : ∃ f ∈ fields, f.pivot = utf8 "true") (typeName : Bytes)
    (rows : List (List Value)) : bind {} (.rows typeName rowsPrefix fields rows) none =
      { rows := some (rowsMode fields rowsPrefix rows) } := by
  have hne : (List.range fields.length).filter
      (fun i => (fields[i]?.map Field.pivot) = some (utf8 "true")) ≠ [] := by
    obtain ⟨f, hf, htrue⟩ := hpivot
    obtain ⟨i, hi⟩ := mem_iff_getElem?.mp hf
    have hlt : i < fields.length := (List.getElem?_eq_some_iff.mp hi).1
    refine ne_nil_of_mem (mem_filter.mpr ⟨mem_range.mpr hlt, ?_⟩)
    rw [hi]
    simp [htrue]
  rw [bind, bindRows]
  dsimp only
  rw [if_neg hne]
  rfl

theorem validateRowsFrom_of_unreadable (h : ∃ row ∈ rows, pivotsEmpty (m.pivots row) = none) (i : ℕ)
    (compacted : List (List Value)) (errors : GoMap (List Bytes)) :
    validateRowsFrom reg ranges m i rows compacted errors = none := by
  induction rows generalizing i compacted errors with
  | nil =>
    obtain ⟨row, hrow, -⟩ := h
    cases hrow
  | cons row rows ih =>
    rw [validateRowsFrom]
    cases hpivots : pivotsEmpty (m.pivots row) with
    | none => rfl
    | some empty =>
      have hrest : ∃ row ∈ rows, pivotsEmpty (m.pivots row) = none := by
        obtain ⟨row', hrow', hnone⟩ := h
        rcases mem_cons.mp hrow' with rfl | hrow'
        · rw [hpivots] at hnone
          cases hnone
        · exact ⟨row', hrow', hnone⟩
      cases empty with
      | true => exact ih hrest _ _ _
      | false =>
        dsimp only
        split_ifs
        · exact ih hrest _ _ _
        · exact ih hrest _ _ _

/-- A row is kept if and only if it is not empty and has no errors. -/
theorem isKept_iff (hread : PivotsReadable (pivotsOf fields row)) :
    isKept reg ranges (rowsMode fields rowsPrefix rows) row = true ↔
      HasPivot fields row ∧ Passes reg fields row := by
  rw [isKept, decide_eq_true_iff, pivots_rowsMode]
  exact and_congr ((pivotsEmpty_cases _).2 hread)
    (validateStruct_entries_eq_nil_iff reg ranges 0 (ofLists fields row))

/-- **Rows are compacted exactly** where the pivots can be read. -/
theorem compacts_of_readable (hpivot : ∃ f ∈ fields, f.pivot = utf8 "true") (typeName : Bytes)
    (hread : ∀ row ∈ rows, PivotsReadable (pivotsOf fields row)) :
    ∃ failed v, (bind {} (.rows typeName rowsPrefix fields rows) none).validate reg ranges =
      some (failed, v) ∧ Compacts reg fields rowsPrefix rows failed v := by
  classical
  have hpivots : ∀ row ∈ rows,
      pivotsEmpty ((rowsMode fields rowsPrefix rows).pivots row) ≠ none := fun row hrow => by
    rw [pivots_rowsMode]
    exact (pivotsEmpty_cases _).1.mpr (hread row hrow)
  have hloop := validateRowsFrom_eq reg ranges (rowsMode fields rowsPrefix rows) hpivots 0 [] ∅
  rw [bind_rows hpivot, validate, if_neg (by simp)]
  dsimp only
  rw [show (rowsMode fields rowsPrefix rows).rows = rows from rfl, hloop]
  refine ⟨_, _, rfl, ?_, ?_, ?_, ?_, fun f i f' i' => rowKey_inj⟩
  · refine congrArg some (filter_congr fun row hrow => ?_)
    rw [Bool.eq_iff_iff, decide_eq_true_iff]
    exact isKept_iff (hread row hrow)
  · rw [decide_eq_true_iff, ne_eq, entries_eq_nil_iff]
    push Not
    constructor
    · rintro ⟨key, hkey⟩
      obtain ⟨msgs, hmsgs⟩ := ne_none_iff_exists'.mp hkey
      obtain ⟨i, f, msgs, -, hmem⟩ := exists_of_lookup_failures hmsgs
      obtain ⟨row, hrow, hfail⟩ := mem_failures_iff.mp hmem
      have hrow' := mem_of_getElem? hrow
      obtain ⟨hhas, herrors⟩ := (mem_rowFailures_iff (hread row hrow') i f).mp ⟨msgs, hfail⟩
      exact ⟨row, hrow', hhas, fun hpasses => herrors (hpasses f)⟩
    · rintro ⟨row, hrow, hhas, hpasses⟩
      obtain ⟨f, hf⟩ := not_forall.mp hpasses
      obtain ⟨i, hi⟩ := mem_iff_getElem?.mp hrow
      obtain ⟨msgs, hmsgs⟩ := (mem_rowFailures_iff (hread row hrow) i f).mpr ⟨hhas, hf⟩
      have hlookup := lookup_of_mem_failures (mem_failures_iff.mpr ⟨row, hi, hmsgs⟩)
        (perm_of_mem_rowFailures hmsgs).2
      exact ⟨_, ne_none_iff_exists'.mpr ⟨msgs, hlookup⟩⟩
  · intro i row f hi hhas hf
    have hrow := mem_of_getElem? hi
    obtain ⟨msgs, hmsgs⟩ := (mem_rowFailures_iff (hread row hrow) i f).mpr ⟨hhas, hf⟩
    obtain ⟨hperm, hne⟩ := perm_of_mem_rowFailures hmsgs
    exact ⟨msgs, lookup_of_mem_failures (mem_failures_iff.mpr ⟨row, hi, hmsgs⟩) hne, hperm⟩
  · intro key msgs hlookup
    obtain ⟨i, f, msgs, hkey, hmem⟩ := exists_of_lookup_failures hlookup
    obtain ⟨row, hi, hfail⟩ := mem_failures_iff.mp hmem
    have hrow := mem_of_getElem? hi
    obtain ⟨hhas, herrors⟩ := (mem_rowFailures_iff (hread row hrow) i f).mp ⟨msgs, hfail⟩
    exact ⟨i, row, f, hi, hhas, herrors, hkey⟩

/-- **Rows are compacted exactly if and only if their pivots can be read.** Otherwise `Validate`
panics. -/
theorem rows_compacted_iff (reg : Registry) (ranges : Ranges) (typeName rowsPrefix : Bytes)
    (rows : List (List Value)) (hpivot : ∃ f ∈ fields, f.pivot = utf8 "true") :
    (∃ failed v, (bind {} (.rows typeName rowsPrefix fields rows) none).validate reg ranges =
        some (failed, v) ∧ Compacts reg fields rowsPrefix rows failed v) ↔
      ∀ row ∈ rows, PivotsReadable (pivotsOf fields row) := by
  refine ⟨fun ⟨failed, v, hvalidate, _⟩ row hrow => ?_, compacts_of_readable hpivot typeName⟩
  by_contra hnot
  have hnone : ∃ row ∈ rows, pivotsEmpty ((rowsMode fields rowsPrefix rows).pivots row) = none := by
    refine ⟨row, hrow, ?_⟩
    rw [pivots_rowsMode]
    exact not_not.mp ((pivotsEmpty_cases _).1.not.mpr hnot)
  rw [bind_rows hpivot, validate, if_neg (by simp)] at hvalidate
  dsimp only at hvalidate
  rw [show (rowsMode fields rowsPrefix rows).rows = rows from rfl,
    validateRowsFrom_of_unreadable hnone] at hvalidate
  cases hvalidate

end Result

/-! ### Items of an order -/

/-- The fields of an item: its name, which is the pivot, and its amount. -/
def itemFields : List Field :=
  [⟨utf8 "Name", true, utf8 "name", utf8 "required", utf8 "true"⟩,
    ⟨utf8 "Amount", true, utf8 "amount", utf8 "length[2]", []⟩]

/-- An item, an empty row, and an item whose amount is too long. -/
def itemRows : List (List Value) :=
  [[.string false (utf8 "pen"), .string false (utf8 "12")],
    [.string false [], .string false (utf8 "1")],
    [.string false (utf8 "ink"), .string false (utf8 "123")]]

/-- Items whose pivots can be read. -/
theorem itemRows_compacted : (∃ f ∈ itemFields, f.pivot = utf8 "true") ∧
    ∃ failed v, (bind {} (.rows (utf8 "Item") [] itemFields itemRows) none).validate
      (builtins readNothing) .inOrder = some (failed, v) ∧
        Compacts (builtins readNothing) itemFields [] itemRows failed v := by
  have hpivot : ∃ f ∈ itemFields, f.pivot = utf8 "true" := ⟨_, mem_cons_self, rfl⟩
  refine ⟨hpivot, (rows_compacted_iff _ _ _ _ _ hpivot).mpr fun row _ => ?_⟩
  exact pivotsReadable_of_exported (by decide) row

/-- A pivot that is not exported. -/
def hiddenFields : List Field := [⟨utf8 "name", false, [], [], utf8 "true"⟩]

/-- A row with such a pivot makes `Validate` panic. -/
theorem hiddenRow_not_compacted : (∃ f ∈ hiddenFields, f.pivot = utf8 "true") ∧
    ¬ ∃ failed v, (bind {} (.rows (utf8 "Item") [] hiddenFields [[.string false (utf8 "pen")]])
      none).validate (builtins readNothing) .inOrder = some (failed, v) ∧
        Compacts (builtins readNothing) hiddenFields [] [[.string false (utf8 "pen")]] failed
          v := by
  refine ⟨⟨_, mem_cons_self, rfl⟩, ?_⟩
  rintro ⟨failed, v, hvalidate, -⟩
  have hpanic : (bind {} (.rows (utf8 "Item") [] hiddenFields [[.string false (utf8 "pen")]])
      none).validate (builtins readNothing) .inOrder = none := by rfl
  rw [hpanic] at hvalidate
  cases hvalidate

end Kiya.Validator
