import Kiya.Db.Audit

/-!
# The audit trail of a row

An operation on a row writes a new value to the history column, or leaves it alone. This module
computes the trail of the locked row afterwards and compares it with the trail before: `AppendOnly`
says that it was extended by one entry, and `KeepsTrail` when this is so. The history column has to
be written, the new entry needs an encoding, and the earlier entries have to survive being decoded
and encoded again. An update of no tracked column keeps the trail exactly if it leaves the column
alone or the caller's model holds the trail already.
-/

namespace Kiya

open Builder RowOp GoMap List

/-! ### The value of the history column -/

/-- Is the column of a field among those that a statement with this selection writes? -/
def Written (f : CachedField) (cols : List String) : Prop :=
  sanitizeIdentifier f.name ≠ "" ∧ notSelected cols f.name = false ∧
    (cols.isEmpty && (f.isAutofill || f.isAutoincrement)) = false

instance (f : CachedField) (cols : List String) : Decidable (Written f cols) :=
  inferInstanceAs (Decidable (_ ∧ _ ∧ _))

/-- The value of a field as it is written to its column. -/
def valueFrom (s : Struct) (f : CachedField) : Value :=
  if f.isNullable && (s.field f.idx).isZero then .nil else s.field f.idx

/-- The value of a column that is written from a model. -/
def storedFrom (s : Struct) (f : CachedField) : DbVal := (valueFrom s f).store

theorem writtenValue_eq (s : Struct) (cols : List String) {f : CachedField}
    (hident : sanitizeIdentifier f.name ≠ "") :
    writtenValue s cols f = if Written f cols then some (valueFrom s f) else none := by
  unfold writtenValue Written
  split_ifs with hsel hauto hwritten hwritten <;> simp_all [valueFrom]

/-- The columns that the `UPDATE` of a model assigns. -/
theorem get_columnsOf_structToMap {s : Struct} {cols : List String} {f : CachedField}
    (hnames : (s.type.info.map (·.name)).Nodup) (hf : f ∈ s.type.info) :
    (columnsOf (structToMap s cols)).get f.name =
      if Written f cols then some (valueFrom s f) else none := by
  rw [get_columnsOf, get_structToMap hnames hf]
  by_cases hident : sanitizeIdentifier f.name = ""
  · rw [if_pos hident, if_neg fun hwritten : Written f cols => hwritten.1 hident]
  · rw [if_neg hident, writtenValue_eq s cols hident]

/-- A column after the `UPDATE` of a model. -/
theorem assign_structToMap {s : Struct} {cols : List String} {f : CachedField}
    (hnames : (s.type.info.map (·.name)).Nodup) (hf : f ∈ s.type.info) (r : Stored) :
    assign (columnsOf (structToMap s cols)) r f.name =
      if Written f cols then storedFrom s f else r f.name := by
  have hget := @get_columnsOf_structToMap s cols f hnames hf
  split_ifs at hget ⊢
  · exact assign_of_get hget r
  · exact assign_of_get_none hget r

/-- A column of a data map. -/
theorem Builder.get_filterMapData (b : Builder) (data : GoMap Value) (c : String) :
    (b.filterMapData data).get c =
      if sanitizeIdentifier c ≠ "" && !notSelected b.selects c then
        (data.get c).map fun v => if b.nullableCols.contains c && v.isZero then .nil else v
      else none := by
  unfold filterMapData
  induction data with
  | nil => simp [GoMap.get]
  | cons p data ih =>
    obtain ⟨k, v⟩ := p
    rw [filter_cons]
    by_cases hk : c = k
    · subst hk
      split_ifs with hc
      · rw [map_cons, get_cons_self, get_cons_self, Option.map_some]
      · rw [ih, if_neg hc]
    · rw [get_cons_of_ne hk, ← ih]
      split_ifs
      · rw [map_cons, get_cons_of_ne hk]
      · rfl

/-- An empty text and `NULL` are the same trail. -/
theorem trail_store_str (c : Bool) (s : GoString) :
    trail (if c && (Value.str s).isZero then Value.nil else .str s).store = trail (.str s) := by
  split_ifs with hzero
  · rw [Bool.and_eq_true] at hzero
    obtain rfl : s = .text "" := of_decide_eq_true hzero.2
    rfl
  · rfl

/-- A column after the `UPDATE` of a data map. -/
theorem assign_map (tb : Builder) (data : GoMap Value) (r : Stored) (c : String) :
    assign (columnsOf (tb.clearSelects.filterMapData data)) r c =
      if sanitizeIdentifier c = "" then r c
      else match get data c with
        | none => r c
        | some v => (if tb.nullableCols.contains c && v.isZero then Value.nil else v).store := by
  have hget := get_columnsOf (tb.clearSelects.filterMapData data) c
  rw [get_filterMapData] at hget
  split_ifs at hget ⊢ with hident hsel
  · exact assign_of_get_none hget r
  · cases hdata : get data c with
    | none =>
      rw [hdata] at hget
      exact assign_of_get_none hget r
    | some v =>
      rw [hdata] at hget
      exact assign_of_get hget r
  · simp [hident, notSelected, clearSelects] at hsel

/-- The history column has a valid name. -/
theorem sanitizeIdentifier_history_ne : sanitizeIdentifier "history" ≠ "" := by decide +kernel

variable {tb : Builder} {entries : List Json}

/-- The trail after the `UPDATE` of a data map with a history. -/
theorem trail_assign_map {data : GoMap Value} {s : GoString}
    (hdata : data.get "history" = some (.str s)) (r : Stored) :
    trail (assign (columnsOf (tb.clearSelects.filterMapData data)) r "history") =
      trail (.str s) := by
  rw [assign_map, if_neg sanitizeIdentifier_history_ne, hdata]
  exact trail_store_str _ s

/-! ### One row -/

/-- An entry with these changes has an encoding, and the earlier entries come back as they are. -/
def Appends (tb : Builder) (changes : GoMap Value) (entries : List Json) : Prop :=
  (marshalMap changes).isSome ∧ tb.actor.1.marshal.isSome ∧ entries.map recodeEntry = entries

/-- A trail that is extended by exactly one entry. -/
def Extends (entries : List Json) (v : DbVal) : Prop := ∃ e, trail v = some (entries ++ [e])

theorem HistoryEntry.isSome_marshal_iff (e : HistoryEntry) :
    e.marshal.isSome ↔ (marshalMap e.changes).isSome ∧ e.actorID.marshal.isSome := by
  unfold HistoryEntry.marshal
  cases marshalMap e.changes <;> cases e.actorID.marshal <;> simp

/-- **Appending an entry.** The trail is extended by one entry exactly if `Appends` holds. -/
theorem extends_append_iff {s : GoString} (h : trail (.str s) = some entries) (action : String)
    (changes : GoMap Value) (time : GoTime) :
    Extends entries (.str (appendHistoryJSON s ⟨action, changes, tb.actor.1, tb.actor.2, time⟩)) ↔
      Appends tb changes entries := by
  have hsome := HistoryEntry.isSome_marshal_iff ⟨action, changes, tb.actor.1, tb.actor.2, time⟩
  unfold Extends Appends
  rw [trail_appendHistoryJSON _ h, ← and_assoc, ← hsome]
  cases HistoryEntry.marshal ⟨action, changes, tb.actor.1, tb.actor.2, time⟩ with
  | none => simp
  | some j =>
    simp only [Option.isSome_some, true_and]
    constructor
    · rintro ⟨e, he⟩
      exact (append_inj' (Option.some.inj he) rfl).1
    · intro hrecode
      exact ⟨j, by rw [hrecode]⟩

/-- The trail of a value that is not the new history. -/
theorem not_extends_of_trail {v : DbVal} (h : trail v = some entries) : ¬Extends entries v := by
  rintro ⟨e, he⟩
  rw [h] at he
  have hlen := congrArg List.length (Option.some.inj he)
  simp at hlen

namespace RowOp

/-- Does an update change no tracked column of the locked row? -/
def ChangesNothing (tb : Builder) (old : Struct) : RowOp → Prop
  | .update self => diffForHistory old self tb.selects = []
  | .upsert self => diffForHistory old self tb.selects = []
  | _ => False

/-- The trail is extended by exactly one entry; an update of no tracked column may also leave it
as it is. -/
def AppendOnly (tb : Builder) (old : Struct) (entries : List Json) (op : RowOp) (v : DbVal) :
    Prop :=
  Extends entries v ∨ (op.ChangesNothing tb old ∧ trail v = some entries)

end RowOp

namespace HistoryModel

variable (m : HistoryModel)

/-- When an update keeps the trail. If no tracked column differs, the caller's history is what is
written, if it is written at all. -/
def UpdateKeepsTrail (tb : Builder) (old : Struct) (entries : List Json) (self : Struct) : Prop :=
  if diffForHistory old self tb.selects = [] then
    Written m.field (writeCols tb.selects self false) →
      trail (storedFrom self m.field) = some entries ∨ Extends entries (storedFrom self m.field)
  else
    Written m.field (writeCols tb.selects self true) ∧
      Appends tb (diffForHistory old self tb.selects) entries

/-- When an operation keeps the trail. A delete and a restore write the column `history`,
whatever the column of the model is. -/
def KeepsTrail (tb : Builder) (old : Struct) (entries : List Json) : RowOp → Prop
  | .update self => m.UpdateKeepsTrail tb old entries self
  | .upsert self => m.UpdateKeepsTrail tb old entries self
  | .delete _ =>
    tb.softDeleteCondition ≠ "" ∧ m.column = "history" ∧ Appends tb [] entries
  | .restore _ => m.column = "history" ∧ Appends tb [] entries
  | .updateMap data => Appends tb data entries
  | .deleteRaw _ => tb.softDeleteCondition ≠ "" ∧ Appends tb [] entries
  | .restoreRaw => Appends tb [] entries

section Update

variable {m} {tb : Builder} {self old : Struct} {r : Stored} {entries : List Json}

/-- The history column after the update of a model. -/
theorem assign_prepareUpdate (htrack : tb.historyTrackingDisabled = false)
    (hold : old.type = m.type) (hself : self.type = m.type) (time : GoTime) (r : Stored) :
    assign (columnsOf (structToMap (tb.prepareUpdate self old time).1
      (tb.prepareUpdate self old time).2.selects)) r m.column =
      if Written m.field (writeCols tb.selects self !(diffForHistory old self tb.selects).isEmpty)
      then storedFrom (tb.prepareUpdate self old time).1 m.field else r m.column := by
  have htype : (tb.prepareUpdate self old time).1.type = m.type :=
    (Atomic.type_prepareUpdate tb self old time).trans hself
  rw [m.selects_prepareUpdate htrack hold]
  exact assign_structToMap (htype ▸ m.nodup) (htype ▸ m.mem) r

theorem appendOnly_update_iff (htrack : tb.historyTrackingDisabled = false)
    (hold : old.type = m.type) (hself : self.type = m.type)
    (hentries : trail (.str (getHistoryString old m.field.idx)) = some entries)
    (hr : trail (r m.column) = some entries) (time : GoTime) :
    (update self).AppendOnly tb old entries
      (assign (columnsOf (structToMap (tb.prepareUpdate self old time).1
        (tb.prepareUpdate self old time).2.selects)) r m.column) ↔
      m.UpdateKeepsTrail tb old entries self := by
  have hhistory := m.history_prepareUpdate htrack hold hself time
  rw [assign_prepareUpdate htrack hold hself]
  unfold UpdateKeepsTrail AppendOnly
  by_cases hdiff : diffForHistory old self tb.selects = []
  · have hstored : storedFrom (tb.prepareUpdate self old time).1 m.field =
        storedFrom self m.field := by
      rw [hdiff, isEmpty_nil, if_pos rfl] at hhistory
      rw [storedFrom, storedFrom, valueFrom, valueFrom, hhistory]
    rw [if_pos hdiff, hstored, hdiff]
    simp only [ChangesNothing, hdiff, true_and, isEmpty_nil, Bool.not_true]
    split_ifs with hwritten
    · exact ⟨fun h _ => h.symm, fun h => (h hwritten).symm⟩
    · exact ⟨fun _ h => absurd h hwritten, fun _ => .inr hr⟩
  · have hempty : (diffForHistory old self tb.selects).isEmpty = false := by
      simpa using hdiff
    rw [hempty, if_neg Bool.false_ne_true] at hhistory
    rw [if_neg hdiff, hempty]
    simp only [ChangesNothing, hdiff, false_and, or_false, Bool.not_false]
    split_ifs with hwritten
    · have htrail : trail (storedFrom (tb.prepareUpdate self old time).1 m.field) =
          trail (.str (appendHistoryJSON (getHistoryString old m.field.idx)
            (modifiedEntry tb self old time))) := by
        rw [storedFrom, valueFrom, hhistory]
        exact trail_store_str _ _
      rw [Extends, htrail]
      simp only [hwritten, true_and]
      exact extends_append_iff hentries _ _ _
    · simp only [hwritten, false_and, iff_false]
      exact not_extends_of_trail hr

end Update

section Lifecycle

variable {m} {tb : Builder} {self old : Struct} {r : Stored} {entries : List Json}

/-- The columns of a soft delete or a restore. -/
theorem lifecycleData_eq (htrack : tb.historyTrackingDisabled = false) (hold : old.type = m.type)
    (action : String) (deletedAt deletedBy : Value) (time : GoTime) :
    tb.lifecycleData self old action deletedAt deletedBy time =
      [("deleted_at", deletedAt)] ++
        (if hasField self "DeletedBy" then [("deleted_by", deletedBy)] else []) ++
        [("history", .str (appendHistoryJSON (getHistoryString old m.field.idx)
          ⟨action, [], tb.actor.1, tb.actor.2, time⟩))] := by
  unfold lifecycleData
  rw [htrack, m.historyFieldIndex hold]
  rfl

theorem get_lifecycleData (htrack : tb.historyTrackingDisabled = false) (hold : old.type = m.type)
    (action : String) (deletedAt deletedBy : Value) (time : GoTime) :
    GoMap.get (tb.lifecycleData self old action deletedAt deletedBy time) "history" =
      some (.str (appendHistoryJSON (getHistoryString old m.field.idx)
        ⟨action, [], tb.actor.1, tb.actor.2, time⟩)) := by
  rw [lifecycleData_eq htrack hold]
  split_ifs <;> simp [GoMap.get, List.lookup]

/-- A value that is no history and is not taken for one. -/
def NoEntries (v : Value) : Prop := trail v.store = none ∨ trail v.store = some []

theorem noEntries_text (s : String) : NoEntries (.str (.text s)) := by
  unfold NoEntries
  simp only [Value.store, trail]
  split_ifs
  · exact .inr rfl
  · exact .inl rfl

theorem not_extends_of_noEntries {v : Value} (h : NoEntries v) (c : Bool) :
    ¬Extends entries (if c && v.isZero then Value.nil else v).store := by
  rintro ⟨e, he⟩
  split_ifs at he
  · simp [Value.store, trail] at he
  · rcases h with h | h <;> rw [h] at he <;> simp at he

theorem extends_lifecycle_iff (htrack : tb.historyTrackingDisabled = false)
    (hold : old.type = m.type) {action : String} {deletedAt deletedBy : Value}
    (hat : NoEntries deletedAt) (hby : NoEntries deletedBy)
    (hentries : trail (.str (getHistoryString old m.field.idx)) = some entries)
    (hr : trail (r m.column) = some entries) (time : GoTime) :
    Extends entries (assign (columnsOf (tb.clearSelects.filterMapData
      (tb.lifecycleData self old action deletedAt deletedBy time))) r m.column) ↔
      m.column = "history" ∧ Appends tb [] entries := by
  by_cases hcol : m.column = "history"
  · rw [hcol, Extends, trail_assign_map (get_lifecycleData htrack hold _ _ _ _)]
    simp only [true_and]
    exact extends_append_iff hentries _ _ _
  · -- any other column keeps its trail, or it is one of those that hold no history
    simp only [hcol, false_and, iff_false]
    have hvalue : ∀ v, get (tb.lifecycleData self old action deletedAt deletedBy time)
        m.column = some v → NoEntries v := by
      intro v hv
      have hmem := mem_of_get hv
      rw [lifecycleData_eq htrack hold] at hmem
      simp only [mem_append, mem_singleton, Prod.mk.injEq, hcol, false_and, or_false] at hmem
      rcases hmem with ⟨-, rfl⟩ | hmem
      · exact hat
      · split_ifs at hmem
        · obtain ⟨-, rfl⟩ := Prod.mk.inj (mem_singleton.mp hmem)
          exact hby
        · cases hmem
    rw [assign_map]
    split_ifs
    · exact not_extends_of_trail hr
    · split
      · exact not_extends_of_trail hr
      · rename_i v hv
        exact not_extends_of_noEntries (hvalue v hv) _

end Lifecycle

section Table

variable {m} {tb : Builder} {old : Struct} {r : Stored} {entries : List Json}

theorem column_of_historyOnlyRow (h : m.type = historyOnlyRow) :
    m.column = "history" ∧ m.field.idx = 0 := by
  have hinfo : historyOnlyRow.info =
      [⟨0, "history", false, false, false, false, false⟩] := by decide +kernel
  have hmem := m.mem
  rw [h, hinfo] at hmem
  rw [column, mem_singleton.mp hmem]
  exact ⟨rfl, rfl⟩

theorem extends_withEntry_iff (hentries : trail (.str (getHistoryString old 0)) = some entries)
    (data : GoMap Value) (action : String) (changes : GoMap Value) (time : GoTime) :
    Extends entries (assign (columnsOf (tb.clearSelects.filterMapData
      (tb.withEntry data (getHistoryString old 0) action changes time))) r "history") ↔
      Appends tb changes entries := by
  rw [withEntry, Extends, trail_assign_map (get_set_self _ _ _)]
  exact extends_append_iff hentries _ _ _

end Table

variable {op : RowOp}

theorem not_keepsTrail_of_removes {old : Struct}
    (h : op.Removes tb) : ¬m.KeepsTrail tb old entries op := by
  cases op with
  | delete | deleteRaw => exact fun hkeeps => hkeeps.1 h
  | _ => cases h

/-- The trail that an operation assigns to the locked row. -/
theorem appendOnly_assign_iff {sv : Server} {t : Table} {r : Stored}
    (htrack : tb.historyTrackingDisabled = false)
    (hmodel : op.model = m.type) (hremoves : ¬op.Removes tb) (hcol : m.column ∈ t.columns)
    (hr : trail (r m.column) = some entries) (times : Nat → GoTime) :
    op.AppendOnly tb (sv.modelOf t m.type r) entries
      (assign (columnsOf (op.values tb (sv.modelOf t m.type r) times)) r m.column) ↔
      m.KeepsTrail tb (sv.modelOf t m.type r) entries op := by
  have hold := m.type_modelOf sv t r
  have hentries : trail (.str (getHistoryString (sv.modelOf t m.type r) m.field.idx)) =
      some entries := m.trail_modelOf hcol hr
  cases op with
  | update | upsert => exact appendOnly_update_iff htrack hold hmodel hentries hr _
  | delete self =>
    have hne : tb.softDeleteCondition ≠ "" := hremoves
    simp only [AppendOnly, ChangesNothing, false_and, or_false, KeepsTrail, hne,
      ne_eq, not_false_eq_true, true_and]
    exact extends_lifecycle_iff htrack hold (.inl rfl) (noEntries_text _) hentries hr _
  | restore self =>
    simp only [AppendOnly, ChangesNothing, false_and, or_false, KeepsTrail]
    exact extends_lifecycle_iff htrack hold (.inr rfl) (.inr rfl) hentries hr _
  | updateMap data =>
    obtain ⟨hname, hidx⟩ := column_of_historyOnlyRow hmodel.symm
    simp only [AppendOnly, ChangesNothing, false_and, or_false, KeepsTrail, hname]
    exact extends_withEntry_iff (hidx ▸ hentries) _ _ _ _
  | deleteRaw model =>
    have hne : tb.softDeleteCondition ≠ "" := hremoves
    obtain ⟨hname, hidx⟩ := column_of_historyOnlyRow hmodel.symm
    simp only [AppendOnly, ChangesNothing, false_and, or_false, KeepsTrail, hname, hne,
      ne_eq, not_false_eq_true, true_and]
    exact extends_withEntry_iff (hidx ▸ hentries) _ _ _ _
  | restoreRaw =>
    obtain ⟨hname, hidx⟩ := column_of_historyOnlyRow hmodel.symm
    simp only [AppendOnly, ChangesNothing, false_and, or_false, KeepsTrail, hname]
    exact extends_withEntry_iff (hidx ▸ hentries) _ _ _ _

end HistoryModel

theorem RowOp.removes_builder_iff (b : Builder) (op : RowOp) :
    op.Removes (op.builder b) ↔ op.Removes b := by
  have hsoft : b.applyScope.intoTx.softDeleteCondition = b.softDeleteCondition :=
    softDeleteCondition_applyScope b
  cases op with
  | delete | deleteRaw => simp only [Removes, builder, hsoft]
  | _ => exact Iff.rfl

theorem RowOp.historyTrackingDisabled_builder (b : Builder) (op : RowOp) :
    (op.builder b).historyTrackingDisabled = b.historyTrackingDisabled := by
  cases op <;> exact historyTrackingDisabled_applyScope _

/-- **The trail of a row is append-only exactly under `KeepsTrail`.** A tracked operation that
succeeds and matches one row, which holds a trail, extends the trail by one entry, or leaves it as
it is if it is an update of no tracked column, if and only if `KeepsTrail` holds of the model, the
selection, the caller's struct and the stored row. -/
theorem appendOnly_iff_keepsTrail (m : HistoryModel) {sv : Server} {b : Builder} {op : RowOp}
    {db db' : Db} {q : Nat × Stored} {entries : List Json}
    (htrack : b.historyTrackingDisabled = false) (hcond : op.Conditional b)
    (hmodel : op.model = m.type) (hcol : m.column ∈ (db.tables (op.table b)).columns)
    (hq : sv.matching (db.tables (op.table b)) (op.builder b).whereText = [q])
    (hentries : trail (q.2 m.column) = some entries)
    (hrun : sv.exec (op.run b) db = (.ok (), db')) :
    (∃ r', (db'.tables (op.table b)).row q.1 = some r' ∧
      op.AppendOnly (op.builder b) (op.lockedModel sv b db q.2) entries (r' m.column)) ↔
      m.KeepsTrail (op.builder b) (op.lockedModel sv b db q.2) entries op := by
  have hlocked : op.lockedModel sv b db q.2 = sv.modelOf (db.tables (op.table b)) m.type q.2 := by
    rw [lockedModel, hmodel]
  have htrack' := (op.historyTrackingDisabled_builder b).trans htrack
  have hmem : q ∈ sv.matching (db.tables (op.table b)) (op.builder b).whereText := by
    rw [hq]
    exact mem_singleton_self q
  obtain ⟨hrow, hsat⟩ := mem_filter.mp hmem
  rcases (op.atomic_run sv db (fun _ _ => htrack) hcond).of_exec_eq_ok hrun with
    ⟨hremoves, htables⟩ | ⟨hremoves, q', hpick, htables⟩
  · -- the row is gone, and with it its trail
    rw [← op.removes_builder_iff] at hremoves
    refine iff_of_false ?_ (m.not_keepsTrail_of_removes hremoves)
    rintro ⟨r', hr', -⟩
    rw [htables, Db.tables_set_self, Table.row_eq_some_iff] at hr'
    have hq' := mem_filter.mp hr'
    obtain rfl := Option.some.inj ((Table.row_eq_some_iff.mpr hrow).symm.trans
      (Table.row_eq_some_iff.mpr hq'.1))
    simp [hsat] at hq'
  · obtain rfl : q' = q := by
      have hq' := sv.pick_mem hpick
      rw [hq] at hq'
      exact mem_singleton.mp hq'
    rw [← op.removes_builder_iff] at hremoves
    rw [hlocked, ← m.appendOnly_assign_iff htrack' hmodel hremoves hcol hentries
      fun i => db.clock (db.ticks + i), ← hlocked]
    have hrow' : (db'.tables (op.table b)).row q'.1 =
        some (assign (op.assigned sv b db q'.2) q'.2) := by
      rw [htables, Db.tables_set_self, Server.row_updated]
      exact ⟨q'.2, Table.row_eq_some_iff.mpr hrow, (if_pos hsat).symm⟩
    constructor
    · rintro ⟨r', hr', happend⟩
      obtain rfl := Option.some.inj (hrow'.symm.trans hr')
      exact happend
    · exact fun happend => ⟨_, hrow', happend⟩

/-! Notes with a history. -/

/-- Notes, whose field `History` has the given `history` tag. -/
def noteType (historyTag : String) : StructType :=
  { tableName := "notes"
    fields :=
      [{ name := "ID", kind := .int 64, db := "id,primary,autoincrement" },
        { name := "Title", kind := .string, db := "title" },
        { name := "History", kind := .string, db := "history", history := historyTag }] }

/-- A note in the hands of a caller, who did not read its history. -/
def note (historyTag title : String) : Struct :=
  ⟨noteType historyTag, [.int 1, .str (.text title), .str (.text "")], rfl⟩

/-- The entry of a new note. -/
def noteCreated : Json :=
  entryJson (.str "created") [("title", .str "draft")] none (.str "") (.time 0 0)

/-- A stored note with the title `draft`. -/
def storedNote (id : Int) (entries : List Json) : Stored := fun c =>
  if c = "id" then .int id
  else if c = "title" then .str (.text "draft")
  else if c = "history" then .str (.json (.arr entries) 0)
  else .null

/-- One stored note. -/
def noteTable : Table :=
  ⟨["id", "title", "history"], [(1, storedNote 1 [noteCreated])], by decide⟩

/-- A database with the note. -/
def notesDb : Db := { tables := fun _ => noteTable, clock := fun n => { instant := n } }

/-- The note with the id 1. -/
def noteById : Builder := ({ table := "notes" } : Builder).whereEq "id" (.int 1)

/-- A server that finds the note with the id 1. -/
def noteServer : Server := plainServer fun r => r "id" = .int 1

/-- Notes whose history is tracked like any other column. -/
def noteModel : HistoryModel where
  type := noteType ""
  nodup := by decide +kernel
  field := ⟨2, "history", false, false, false, false, false⟩
  mem := by decide +kernel
  fieldByName := by decide +kernel
  kind := by decide +kernel

/-- A new title appends an entry. -/
theorem note_update_appends :
    ∃ r₁, ((noteServer.exec ((update (note "" "final")).run noteById) notesDb).2.tables
        "notes").row 1 = some r₁ ∧
      (update (note "" "final")).AppendOnly
        ((update (note "" "final")).builder noteById)
        ((update (note "" "final")).lockedModel noteServer noteById notesDb
          (storedNote 1 [noteCreated])) [noteCreated] (r₁ "history") := by
  have hok :
      (noteServer.exec ((update (note "" "final")).run noteById) notesDb).1 = .ok () := by
    decide +kernel
  refine (@appendOnly_iff_keepsTrail noteModel noteServer noteById (.update (note "" "final"))
    notesDb _ (1, storedNote 1 [noteCreated]) [noteCreated] rfl trivial rfl (by decide +kernel) rfl
    rfl (Prod.ext hok rfl)).mpr ?_
  change noteModel.UpdateKeepsTrail _ _ _ _
  rw [HistoryModel.UpdateKeepsTrail, if_neg (by decide +kernel)]
  exact ⟨by decide +kernel, by decide +kernel, by decide +kernel, by decide +kernel⟩

/-- With the tag `history:"-"` on the history itself, an update that changes nothing else writes the
caller's empty history over the trail. -/
theorem note_update_erases_trail :
    (noteServer.exec ((update (note "-" "draft")).run noteById) notesDb).1 = .ok () ∧
      noteServer.matching noteTable ((update (note "-" "draft")).builder noteById).whereText =
        [(1, storedNote 1 [noteCreated])] ∧
      trail (storedNote 1 [noteCreated] "history") = some [noteCreated] ∧
      ¬∃ r₁, ((noteServer.exec ((update (note "-" "draft")).run noteById) notesDb).2.tables
          "notes").row 1 = some r₁ ∧
        (update (note "-" "draft")).AppendOnly
          ((update (note "-" "draft")).builder noteById)
          ((update (note "-" "draft")).lockedModel noteServer noteById notesDb
            (storedNote 1 [noteCreated])) [noteCreated] (r₁ "history") := by
  refine ⟨by decide +kernel, rfl, rfl, ?_⟩
  rintro ⟨r₁, hr₁, happend⟩
  have htrail : trail (r₁ "history") = some [] := by
    have hmap : ((((noteServer.exec ((update (note "-" "draft")).run noteById)
        notesDb).2.tables "notes").row 1).map fun r => trail (r "history")) = some (some []) := by
      decide +kernel
    rw [hr₁] at hmap
    exact Option.some.inj hmap
  rcases happend with ⟨e, he⟩ | ⟨-, hsame⟩
  · rw [htrail] at he
    cases he
  · rw [htrail] at hsame
    cases hsame

end Kiya
