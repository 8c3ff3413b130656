import Kiya.Db.Trail

/-!
# The selection as a whitelist

`Cols` selects the columns that a write may touch. Every path of an insert or an update filters its
data by the selection (`rowData`), after it has added the audit columns to it, except one: the
tracked update of a data map clears the selection before the filter runs, so that all columns of
the map are written. The columns that an insert overwrites on a conflict are not filtered either.
`KeepsSelection` says that this does no harm: there are no other columns in the map, and none that
are overwritten.
-/

namespace Kiya

open Builder List

/-- The columns that an `INSERT` or `UPDATE` assigns, in new rows or in those that are there. -/
def Stmt.assigned (s : Stmt) : Option (List String) :=
  match s.kind with
  | .insert cols overwritten => some (cols.map Prod.fst ++ overwritten)
  | .update sets => some (sets.map Prod.fst)
  | _ => none

/-- The columns that the audit adds to a selection. -/
def auditColumns : List String := ["history", "created_by", "modified_by"]

/-- An insert or an update, with its data. -/
inductive WriteOp where
  | insert (data : Option Any)
  | update (data : Option Any)

namespace WriteOp

/-- Run the operation. -/
def run (b : Builder) : WriteOp → DbM Unit
  | .insert data => b.insert data
  | .update data => b.update data

/-- The columns that the selection of the builder allows. -/
def allowed (b : Builder) : List String := b.selects ++ auditColumns

/-- An insert overwrites no columns beside the selected ones, and the data of a tracked update of a
map has no others. -/
def KeepsSelection (b : Builder) : WriteOp → Prop
  | .insert _ => b.overwritten ⊆ allowed b
  | .update data =>
    match data.getD b.dest with
    | .map m => b.historyTrackingDisabled = false →
        ∀ c ∈ m.map Prod.fst, sanitizeIdentifier c ≠ "" → c ∈ allowed b
    | _ => True

end WriteOp

open WriteOp

/-! ### What the statements assign -/

variable {m : GoMap Value} {c : String} {b : Builder} {data : Any} {s : Stmt}

theorem mem_columnsOf :
    c ∈ (columnsOf m).map Prod.fst ↔ sanitizeIdentifier c ≠ "" ∧ c ∈ m.map Prod.fst := by
  have hkeys : (columnsOf m).map Prod.fst =
      m.sortedKeys.filter fun k => sanitizeIdentifier k ≠ "" := by
    simp [columnsOf, Function.comp_def]
  rw [hkeys, mem_filter, GoMap.mem_sortedKeys, and_comm, decide_eq_true_eq]

theorem mem_filterMapData : c ∈ (b.filterMapData m).map Prod.fst ↔
      (sanitizeIdentifier c ≠ "" ∧ notSelected b.selects c = false) ∧ c ∈ m.map Prod.fst := by
  have hkeys : (b.filterMapData m).map Prod.fst =
      (m.map Prod.fst).filter fun k => sanitizeIdentifier k ≠ "" && !notSelected b.selects k := by
    rw [filterMapData, filter_map, map_map]
    rfl
  rw [hkeys, mem_filter]
  simp [and_comm]

theorem mem_keys_set {k c : String} {v : Value} :
    c ∈ (m.set k v).map Prod.fst ↔ c = k ∨ c ∈ m.map Prod.fst := by
  by_cases hc : c = k <;> simp [GoMap.set, hc]

variable {cols l : List String} {row : String × GoMap Value} {values : GoMap Value}

theorem notSelected_of_mem_structToMap {s : Struct} (h : c ∈ (structToMap s cols).map Prod.fst) :
    notSelected cols c = false := by
  obtain ⟨v, hv⟩ := GoMap.exists_get h
  rw [structToMap_eq, GoMap.get_foldl_put_eq] at hv
  obtain ⟨f, hfind, hf⟩ := Option.bind_eq_some_iff.mp (by simpa [GoMap.get] using hv)
  have hname : f.name = c := by
    have hsome := find?_some hfind
    simp only [Bool.and_eq_true, decide_eq_true_eq] at hsome
    exact hsome.1
  unfold writtenValue at hf
  rw [hname] at hf
  by_contra hsel
  simp [hsel] at hf

/-- The data that is written has no columns beside the selected ones. -/
theorem mem_selects_of_rowData (hsel : b.selects ≠ []) (h : b.rowData data = .ok row)
    (hc : c ∈ row.2.map Prod.fst) : c ∈ b.selects := by
  have hselected : notSelected b.selects c = false → c ∈ b.selects := by
    intro hnot
    simpa [notSelected, hsel] using hnot
  unfold rowData at h
  split at h
  · obtain rfl := Except.ok.inj h
    exact hselected (mem_filterMapData.mp hc).1.2
  · cases h
  · obtain rfl := Except.ok.inj h
    exact hselected (notSelected_of_mem_structToMap hc)
  · obtain rfl := Except.ok.inj h
    exact hselected (notSelected_of_mem_structToMap hc)
  · cases h
  · split at h <;> cases h

/-- A statement that assigns no columns beside some allowed ones. -/
def AssignsOnly (cols : List String) (s : Stmt) : Prop := ∀ l, s.assigned = some l → l ⊆ cols

theorem assigned_build_select (b : Builder) : (b.build .select).assigned = none := by
  unfold build
  split_ifs <;> rfl

/-- An `UPDATE` assigns the columns of its data that are identifiers, and an `INSERT` also those
that it overwrites. -/
theorem assigned_build_update (h : (b.build (.update values)).assigned = some l) :
    l = (columnsOf values).map Prod.fst := by
  simp only [build, buildUpdate, Stmt.assigned] at h
  split_ifs at h
  all_goals exact (Option.some.inj h).symm

theorem assigned_build_insert {keys : List String}
    {autoIncCol : String} (h : (b.build (.insert values keys autoIncCol)).assigned = some l) :
    l = (columnsOf values).map Prod.fst ++ b.overwritten := by
  simp only [build, buildInsert, Stmt.assigned] at h
  split_ifs at h
  all_goals exact (Option.some.inj h).symm

theorem AssignsOnly.mono {cols cols' : List String} (h : AssignsOnly cols s)
    (hsub : cols ⊆ cols') : AssignsOnly cols' s := fun l hl _ hc => hsub (h l hl hc)

theorem assignsOnly_of_assigned_eq_none (h : s.assigned = none) : AssignsOnly cols s := by
  intro l hl
  rw [h] at hl
  cases hl

/-! ### Paths that filter by the selection -/

/-- The only statement of `execUpdate` is an `UPDATE` of the data. -/
theorem issues_execUpdate_of {skip : Bool} {P : Stmt → Prop}
    (h : ∀ row (clone : Builder), b.applyScope.rowData data = .ok row →
      P (clone.build (.update row.2))) : Issues P (b.execUpdate data skip) := by
  have hupdate : Issues P (do
      let row ← check (b.applyScope.rowData data)
      if row.2.isEmpty then throw .emptyData
      let clone ← check (b.applyScope.requireTable row.1)
      let res ← execStmt clone (clone.build (.update row.2))
      return res.1) := by
    refine .check_bind fun row hrow => ?_
    simp only
    split
    · exact .throw _
    refine .check_bind fun clone _ => ?_
    exact .bind (.execStmt (h row clone hrow)) fun _ => .pure _
  unfold execUpdate
  simp only
  split
  · exact .check_bind fun _ _ => hupdate
  · exact hupdate

section Filtered

variable (hsel : b.selects ≠ [])

include hsel

theorem columnsOf_subset_selects (hrow : b.rowData data = .ok row) :
    (columnsOf row.2).map Prod.fst ⊆ b.selects := fun _ hc =>
  mem_selects_of_rowData hsel hrow (mem_columnsOf.mp hc).2

/-- Beside the selected columns an insert assigns those that it overwrites. -/
theorem issues_execInsertRaw_assigns (data : Any) (hcols : b.selects ⊆ cols) :
    Issues (fun s => ∀ l, s.assigned = some l → (l ⊆ cols ↔ b.overwritten ⊆ cols))
      (b.execInsertRaw data) := by
  refine .check_bind fun row hrow => ?_
  simp only
  split
  · exact .throw _
  refine .check_bind fun clone hclone => ?_
  obtain ⟨rfl, -⟩ := Atomic.requireTable_eq_ok hclone
  have hassigns : ∀ keys autoIncCol l,
      ({ b with table := b.tableFor row.1 }.build (.insert row.2 keys autoIncCol)).assigned =
        some l → (l ⊆ cols ↔ b.overwritten ⊆ cols) := by
    intro keys autoIncCol l hl
    have hdata := List.Subset.trans (columnsOf_subset_selects hsel hrow) hcols
    rw [assigned_build_insert hl, append_subset]
    exact ⟨And.right, And.intro hdata⟩
  have hassigns := hassigns (primaryKeysOf data) (autoIncColOf data)
  split
  · refine .bind (.getRow hassigns) fun found => ?_
    cases found with
    | none => exact .throw _
    | some found => exact .pure _
  · exact .bind (.execStmt hassigns) fun _ => .pure _

theorem issues_execUpdate_assigns (data : Any) (skip : Bool) :
    Issues (AssignsOnly b.selects) (b.execUpdate data skip) := by
  refine issues_execUpdate_of fun row clone hrow l hl => ?_
  have hsubset := columnsOf_subset_selects (by rwa [selects_applyScope]) hrow
  rwa [selects_applyScope, ← assigned_build_update hl] at hsubset

end Filtered

/-! ### Selections with audit columns -/

/-- The selection of `b'` is that of `b`, with audit columns added; it overwrites the same. -/
structure Widened (b b' : Builder) : Prop where
  nonempty : b'.selects ≠ []
  subset : b'.selects ⊆ allowed b
  overwritten : b'.overwritten = b.overwritten

namespace Widened

variable {b' : Builder}

theorem refl (hsel : b.selects ≠ []) : Widened b b := ⟨hsel, subset_append_left _ _, rfl⟩

variable {colName : String}

theorem ensureAuxCol (h : Widened b b') (self : Struct) (structField : String)
    (hcol : colName ∈ auditColumns) : Widened b (b'.ensureAuxCol self structField colName) := by
  unfold Builder.ensureAuxCol
  split_ifs
  · exact h
  · refine ⟨by simp, fun c hc => ?_, h.overwritten⟩
    rcases mem_append.mp hc with hc | hc
    · exact h.subset hc
    · rw [mem_singleton.mp hc]
      exact mem_append_right _ hcol

theorem withActor (h : Widened b b') (self : Struct) (structField : String)
    (hcol : colName ∈ auditColumns) : Widened b (b'.withActor self structField colName).2 := by
  unfold Builder.withActor
  split_ifs
  · exact h.ensureAuxCol self structField hcol
  · exact h

theorem prepareUpdate (h : Widened b b') (self old : Struct) (time : GoTime) :
    Widened b (b'.prepareUpdate self old time).2 := by
  have hentry : Widened b (b'.withModifiedEntry self old time).2 := by
    unfold withModifiedEntry
    split_ifs
    · exact h
    simp only
    split
    · exact h
    · split_ifs
      · exact h
      · exact h.ensureAuxCol self _ (by decide)
  exact hentry.withActor _ _ (by decide)

theorem prepareInsert (h : Widened b b') (self : Struct) (time : GoTime) :
    Widened b (b'.prepareInsert self time).2 := by
  have hentry : Widened b (b'.withCreatedEntry self time).2 := by
    unfold withCreatedEntry
    split_ifs
    · exact h
    split
    · exact h
    · exact h.ensureAuxCol self _ (by decide)
  exact hentry.withActor _ _ (by decide)

theorem execUpdate (h : Widened b b') (data : Any) (skip : Bool) :
    Issues (AssignsOnly (allowed b)) (b'.execUpdate data skip) :=
  (issues_execUpdate_assigns h.nonempty data skip).mono fun _ hs => hs.mono h.subset

theorem execInsertRaw (h : Widened b b') (data : Any) :
    Issues (fun s => ∀ l, s.assigned = some l →
      (l ⊆ allowed b ↔ b.overwritten ⊆ allowed b)) (b'.execInsertRaw data) :=
  h.overwritten ▸ issues_execInsertRaw_assigns h.nonempty data h.subset

end Widened

/-! ### The operations -/

/-- A read assigns nothing. -/
theorem issues_find_assigns (b : Builder) (dest : Option Any) :
    Issues (fun s => s.assigned = none) (b.find dest) := by
  unfold find
  simp only
  split
  · exact .throw _
  refine .check_bind fun clone _ => ?_
  exact .bind (.getRow (assigned_build_select clone)) fun _ => .pure _

theorem issues_lockCurrentRow_assigns (b : Builder) (self : Struct) :
    Issues (fun s => s.assigned = none) (b.lockCurrentRow self) := by
  refine .bind (issues_find_assigns _ _) fun found => ?_
  split <;> exact .pure _

theorem issues_loadRawHistoryColumn_assigns (b : Builder) :
    Issues (fun s => s.assigned = none) (withHistoryHint b.loadRawHistoryColumn) := by
  refine .withHistoryHint (.bind (issues_find_assigns _ _) fun found => ?_)
  split <;> exact .pure _

section Tracked

variable {tb : Builder}

theorem issues_updateExistingOrNotFound_assigns (h : Widened b tb) (self : Struct) :
    Issues (AssignsOnly (allowed b)) (tb.updateExistingOrNotFound self) := by
  refine .bind ((issues_lockCurrentRow_assigns tb self).mono
    fun _ => assignsOnly_of_assigned_eq_none) fun old => ?_
  cases old with
  | none => exact .throw _
  | some old =>
    refine .bind Issues.now fun time => ?_
    refine .bind ((h.prepareUpdate self old time).execUpdate _ _) fun n => ?_
    exact .bind (.requireAffected n) fun _ => .pure _

theorem issues_insertWithHistory_assigns (h : Widened b tb) (self : Struct) :
    Issues (fun s => ∀ l, s.assigned = some l →
      (l ⊆ allowed b ↔ b.overwritten ⊆ allowed b)) (tb.insertWithHistory self) := by
  refine .bind Issues.now fun time => ?_
  refine .bind ((h.prepareInsert self time).execInsertRaw _) fun self' => ?_
  split <;> exact .pure _

/-- The tracked update of a data map assigns all columns of the map. -/
theorem issues_updateMapLocked_assigns (cols : List String) (hhistory : "history" ∈ cols)
    (data : GoMap Value) :
    Issues (fun s => ∀ l, s.assigned = some l →
      (l ⊆ cols ↔ ∀ c ∈ data.map Prod.fst, sanitizeIdentifier c ≠ "" → c ∈ cols))
      (tb.updateMapLocked data) := by
  refine .bind ((issues_loadRawHistoryColumn_assigns tb).mono fun s hs l hl => ?_)
    fun existing => ?_
  · rw [hs] at hl
    cases hl
  cases existing with
  | none => exact .throw _
  | some existing =>
    refine .bind Issues.now fun time => .bind ?_ fun n => .requireAffected n
    refine issues_execUpdate_of fun row clone hrow l hl => ?_
    obtain rfl := Except.ok.inj hrow
    have hmem : ∀ c, c ∈ l ↔
        sanitizeIdentifier c ≠ "" ∧ (c = "history" ∨ c ∈ data.map Prod.fst) := by
      intro c
      rw [assigned_build_update hl, mem_columnsOf, mem_filterMapData, withEntry,
        mem_keys_set, selects_applyScope]
      simp [clearSelects, notSelected]
    constructor
    · intro hsub c hc hident
      exact hsub ((hmem c).mpr ⟨hident, .inr hc⟩)
    · intro hdata c hc
      obtain ⟨hident, rfl | hc⟩ := (hmem c).mp hc
      · exact hhistory
      · exact hdata c hc hident

end Tracked

/-- An update of the titles of notes, by a data map. -/
def retitleSelected : Builder := { noteById with selects := ["title"] }

end Kiya
