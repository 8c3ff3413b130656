import Kiya.Db.Locked

/-!
# Models with a history

A `HistoryModel` is a struct type with a mapped string field `History`. The value of its column is
read as a `trail`: the list of entries that it holds. This module says how a trail is read into the
model that an operation locks, what becomes of it when an entry is appended, and what a model and
its selection look like when the `UPDATE` is issued.
-/

namespace Kiya

open Builder Server

/-! ### Trails -/

/-- The entries that a stored history holds. A text that is no array holds none. -/
def trail : DbVal → Option (List Json)
  | .null => some []
  | .str (.text s) => if s = "" then some [] else none
  | .str (.json (.arr entries) _) => some entries
  | _ => none

/-- An appended entry comes after the entries that were there, each decoded and encoded again. If
it has no encoding, nothing changes. -/
theorem trail_appendHistoryJSON {s : GoString} {entries : List Json} (e : HistoryEntry)
    (h : trail (.str s) = some entries) :
    trail (.str (appendHistoryJSON s e)) = match e.marshal with
      | none => some entries
      | some j => some (entries.map recodeEntry ++ [j]) := by
  have hdecode : decodeEntries s = entries.map recodeEntry := by
    cases s with
    | text s =>
      simp only [trail] at h
      split_ifs at h
      obtain rfl := Option.some.inj h
      rfl
    | json j spelling =>
      cases j with
      | arr es =>
        obtain rfl := Option.some.inj h
        rfl
      | _ => cases h
  unfold appendHistoryJSON
  cases e.marshal with
  | none => exact h
  | some j => simp only [trail, hdecode]

/-! ### Models -/

/-- A struct type with a history: its columns have different names, and its field `History` is a
string that is mapped to one of them. -/
structure HistoryModel where
  type : StructType
  nodup : (type.info.map (·.name)).Nodup
  field : CachedField
  mem : field ∈ type.info
  fieldByName : type.fieldByName "History" = some field.idx
  kind : type.kindAt field.idx = .string

/-- The model that the operations on a table lock. -/
def historyOnlyModel : HistoryModel where
  type := historyOnlyRow
  nodup := by decide +kernel
  field := ⟨0, "history", false, false, false, false, false⟩
  mem := by decide +kernel
  fieldByName := by decide +kernel
  kind := by decide +kernel

namespace HistoryModel

variable (m : HistoryModel)

/-- The column of the history. -/
def column : String := m.field.name

theorem historyFieldIndex {s : Struct} (h : s.type = m.type) :
    historyFieldIndex s = some m.field.idx := by
  simp [Kiya.historyFieldIndex, h, m.fieldByName, m.kind]

theorem idx_lt : m.field.idx < m.type.fields.length := StructType.idx_lt_of_mem_info m.mem

/-- The field of a column of the locked model is the delivered value, put into a zero field. -/
theorem field_modelOf {sv : Server} {t : Table} {r : Stored} {f : CachedField}
    (hf : f ∈ m.type.info) (hcol : f.name ∈ t.columns) :
    (sv.modelOf t m.type r).field f.idx =
      setFieldValue (m.type.kindAt f.idx) (m.type.kindAt f.idx).zero
        (sv.deliver f.name (r f.name)) := by
  have hname : f.name ∈ m.type.info.map (·.name) := List.mem_map_of_mem hf
  have hselected : selected t (m.type.info.map (·.name)) = m.type.info.map (·.name) := by
    unfold selected
    rw [if_neg]
    intro hempty
    rw [List.isEmpty_iff.mp hempty] at hname
    cases hname
  have hget : (sv.driverRow t (selected t (m.type.info.map (·.name))) r).get f.name =
      some (sv.deliver f.name (r f.name)) := by
    rw [hselected, driverRow, GoMap.get_map_mk hname]
    simp [hcol]
  rw [modelOf, field_scanMapToStruct hf hget, Struct.type_zero,
    Struct.field_zero (StructType.idx_lt_of_mem_info hf)]

theorem type_modelOf (sv : Server) (t : Table) (r : Stored) :
    (sv.modelOf t m.type r).type = m.type := by
  rw [modelOf, type_scanMapToStruct, Struct.type_zero]

/-- The history of the locked model holds the entries that are stored. -/
theorem trail_modelOf {sv : Server} {t : Table} {r : Stored} {entries : List Json}
    (hcol : m.column ∈ t.columns) (h : trail (r m.column) = some entries) :
    trail (.str (getHistoryString (sv.modelOf t m.type r) m.field.idx)) = some entries := by
  have hfield : (sv.modelOf t m.type r).field m.field.idx =
      setFieldValue .string Kind.string.zero (sv.deliver m.field.name (r m.field.name)) := by
    rw [m.field_modelOf m.mem hcol, m.kind]
  unfold column at h
  rw [getHistoryString, hfield]
  cases hv : r m.field.name with
  | null =>
    rw [hv] at h
    rw [sv.deliver_null]
    exact h
  | str s =>
    rw [hv] at h
    rcases sv.deliver_str m.field.name s with hs | hs <;> rw [hs] <;> exact h
  | _ =>
    rw [hv] at h
    cases h

end HistoryModel

/-! ### Before the `UPDATE` of a model -/

/-- A selection with an audit column, if the model has its field. -/
def auxCols (cols : List String) (has : Bool) (colName : String) : List String :=
  if cols.isEmpty || !has || cols.contains colName then cols else cols ++ [colName]

/-- The selection of the `UPDATE` of a model. -/
def writeCols (cols : List String) (self : Struct) (changed : Bool) : List String :=
  auxCols (auxCols cols (changed && hasField self "History") "history")
    (hasField self "ModifiedBy") "modified_by"

theorem selects_ensureAuxCol (b : Builder) (self : Struct) (structField colName : String) :
    (b.ensureAuxCol self structField colName).selects =
      auxCols b.selects (hasField self structField) colName := by
  unfold ensureAuxCol auxCols
  split_ifs <;> rfl

theorem auxCols_of_not_has (cols : List String) (colName : String) :
    auxCols cols false colName = cols := by simp [auxCols]

theorem selects_withActor (b : Builder) (self : Struct) (structField colName : String) :
    (b.withActor self structField colName).2.selects =
      auxCols b.selects (hasField self structField) colName := by
  unfold withActor
  split_ifs with hfield
  · exact selects_ensureAuxCol b self structField colName
  · rw [Bool.not_eq_true] at hfield
    rw [hfield, auxCols_of_not_has]

/-- Setting the actor leaves the other fields alone. -/
theorem field_setActorField {s : Struct} {fieldName value : String} {i : Nat}
    (h : s.type.fieldByName fieldName ≠ some i) :
    (setActorField s fieldName value).field i = s.field i := by
  unfold setActorField
  split_ifs
  · rfl
  · split
    · rfl
    · rename_i j hj
      have hne : i ≠ j := by
        rintro rfl
        exact h hj
      split_ifs
      · exact s.field_setField_of_ne hne _
      · rfl

/-- Fields of different names have different indices. -/
theorem StructType.fieldByName_ne {t : StructType} {a c : String} {i : Nat} (hne : a ≠ c)
    (h : t.fieldByName a = some i) : t.fieldByName c ≠ some i := by
  intro hc
  obtain ⟨_, ha, _⟩ := List.findIdx?_eq_some_iff_getElem.mp h
  obtain ⟨_, hc', _⟩ := List.findIdx?_eq_some_iff_getElem.mp hc
  rw [decide_eq_true_eq] at ha hc'
  exact hne (ha.symm.trans hc')

namespace HistoryModel

variable (m : HistoryModel) {tb : Builder} {self old : Struct}

/-- The entry of an update. -/
def modifiedEntry (tb : Builder) (self old : Struct) (time : GoTime) : HistoryEntry :=
  ⟨"modified", diffForHistory old self tb.selects, tb.actor.1, tb.actor.2, time⟩

theorem withModifiedEntry_eq (htrack : tb.historyTrackingDisabled = false)
    (hold : old.type = m.type) (time : GoTime) :
    tb.withModifiedEntry self old time =
      if (diffForHistory old self tb.selects).isEmpty then (self, tb)
      else (self.setField m.field.idx (.str (appendHistoryJSON
        (getHistoryString old m.field.idx) (modifiedEntry tb self old time))),
        tb.ensureAuxCol self "History" "history") := by
  unfold withModifiedEntry
  rw [htrack, m.historyFieldIndex hold]
  rfl

theorem selects_prepareUpdate (htrack : tb.historyTrackingDisabled = false)
    (hold : old.type = m.type) (time : GoTime) : (tb.prepareUpdate self old time).2.selects =
      writeCols tb.selects self !(diffForHistory old self tb.selects).isEmpty := by
  rw [prepareUpdate, selects_withActor, m.withModifiedEntry_eq htrack hold, writeCols]
  split_ifs with hempty
  · simp [hempty, auxCols_of_not_has]
  · rw [Bool.not_eq_true] at hempty
    rw [hempty, selects_ensureAuxCol]
    rfl

/-- The history of the model: the caller's if no tracked column differs, and else that of the locked
row with a new entry. -/
theorem history_prepareUpdate (htrack : tb.historyTrackingDisabled = false)
    (hold : old.type = m.type) (hself : self.type = m.type) (time : GoTime) :
    (tb.prepareUpdate self old time).1.field m.field.idx =
      if (diffForHistory old self tb.selects).isEmpty then self.field m.field.idx
      else .str (appendHistoryJSON (getHistoryString old m.field.idx)
        (modifiedEntry tb self old time)) := by
  have hactor : ∀ (b : Builder) (s : Struct), s.type = m.type →
      (b.withActor s "ModifiedBy" "modified_by").1.field m.field.idx = s.field m.field.idx := by
    intro b s hs
    unfold withActor
    split_ifs
    · refine field_setActorField ?_
      rw [hs]
      exact StructType.fieldByName_ne (by decide) m.fieldByName
    · rfl
  rw [prepareUpdate, m.withModifiedEntry_eq htrack hold]
  split_ifs
  · exact hactor _ _ hself
  · refine (hactor _ _ ?_).trans (self.field_setField_self (hself ▸ m.idx_lt) _)
    exact hself

end HistoryModel

end Kiya
