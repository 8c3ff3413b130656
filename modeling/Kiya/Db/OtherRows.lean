import Kiya.Db.Trail

/-!
# The rows beside the locked row

The locking read of an operation returns one row, but its `UPDATE` goes to every row that meets the
condition. So the history that was made from the locked row is assigned to all of them.
`OthersKeepHistory` says that each of the other rows keeps its own history, or has it extended by
one entry. It is so if the operation fails or removes the rows. Otherwise it depends on the rows
before the operation (`OthersFit`): if the history is written with a new entry, then every other row
that meets the condition must hold the entries of the locked row already, with or without the new
one. If only one row meets the condition, or the column is not written, there is nothing to ask for.
-/

namespace Kiya

open Builder List

/-- The same history, or the same entries with at most one more. -/
def SameOrGrown (v v' : DbVal) : Prop :=
  v' = v ∨ ∃ entries, trail v = some entries ∧ (trail v' = some entries ∨ Extends entries v')

/-- Every row of every table that is still there, but the locked one, has its own history, or its
own history extended by one entry. -/
def OthersKeepHistory (sv : Server) (b : Builder) (op : RowOp) (column : String) (db db' : Db) :
    Prop :=
  ∀ name id r r', ¬(name = op.table b ∧ (op.locked sv b db).map Prod.fst = some id) →
    (db.tables name).row id = some r → (db'.tables name).row id = some r' →
    SameOrGrown (r column) (r' column)

/-- A history holds the entries of `existing`, with or without the new entry. If that has no
encoding, then `existing` is written as it was read. -/
def EntryFits (existing : GoString) (e : HistoryEntry) (v : DbVal) : Prop :=
  match e.marshal with
  | some j => trail v = some (decodeEntries existing) ∨
      trail v = some (decodeEntries existing ++ [j])
  | none => SameOrGrown v (.str existing)

namespace HistoryModel

variable (m : HistoryModel)

/-- When an update keeps the history `v` of another row. If no tracked column of the locked row
differs, the caller's history is what is written, if it is written at all. -/
def UpdateFits (tb : Builder) (old : Struct) (time : GoTime) (v : DbVal) (self : Struct) : Prop :=
  if diffForHistory old self tb.selects = [] then
    Written m.field (writeCols tb.selects self false) → SameOrGrown v (storedFrom self m.field)
  else
    Written m.field (writeCols tb.selects self true) →
      EntryFits (getHistoryString old m.field.idx) (modifiedEntry tb self old time) v

/-- When an operation keeps the history `v` of another row, by the row that is locked. -/
def Fits (tb : Builder) (old : Struct) (times : Nat → GoTime) (v : DbVal) : RowOp → Prop
  | .update self => m.UpdateFits tb old (times 0) v self
  | .upsert self => m.UpdateFits tb old (times 0) v self
  | .delete _ => m.column = "history" → EntryFits (getHistoryString old m.field.idx)
      ⟨"deleted", [], tb.actor.1, tb.actor.2, times 1⟩ v
  | .restore _ => m.column = "history" → EntryFits (getHistoryString old m.field.idx)
      ⟨"restored", [], tb.actor.1, tb.actor.2, times 0⟩ v
  | .updateMap data => EntryFits (getHistoryString old m.field.idx)
      ⟨"modified", data, tb.actor.1, tb.actor.2, times 0⟩ v
  | .deleteRaw _ => EntryFits (getHistoryString old m.field.idx)
      ⟨"deleted", [], tb.actor.1, tb.actor.2, times 1⟩ v
  | .restoreRaw => EntryFits (getHistoryString old m.field.idx)
      ⟨"restored", [], tb.actor.1, tb.actor.2, times 0⟩ v

/-- The histories of all other rows that meet the condition fit the one of the locked row. -/
def OthersFit (sv : Server) (b : Builder) (op : RowOp) (db : Db) : Prop :=
  ∀ q, op.locked sv b db = some q →
    ∀ q' ∈ sv.matching (db.tables (op.table b)) (op.builder b).whereText, q'.1 ≠ q.1 →
      m.Fits (op.builder b) (op.lockedModel sv b db q.2) (fun i => db.clock (db.ticks + i))
        (q'.2 m.column) op

/-- The statement of an operation does not write the history column of the model. -/
def LeavesAlone (tb : Builder) : RowOp → Prop
  | .update self | .upsert self =>
    ∀ changed, ¬Written m.field (writeCols tb.selects self changed)
  | .delete _ | .restore _ => m.column ≠ "history"
  | _ => False

end HistoryModel

/-! ### What is assigned to another row -/

section Assigned

variable {v v' v'' : DbVal} {tb : Builder} {self old : Struct} {r : Stored}

/-- Only the entries of a history count, if it has some. -/
theorem sameOrGrown_congr (htrail : trail v' = trail v'') (hnone : trail v' = none → v' = v'') :
    SameOrGrown v v' ↔ SameOrGrown v v'' := by
  cases hentries : trail v' with
  | none => rw [hnone hentries]
  | some entries =>
    have hsame : ∀ w, trail w = some entries → (SameOrGrown v w ↔
        ∃ es, trail v = some es ∧ (entries = es ∨ ∃ e, entries = es ++ [e])) := by
      intro w hw
      simp only [SameOrGrown, Extends, hw, Option.some.injEq, or_iff_right_iff_imp]
      rintro rfl
      exact ⟨entries, hw, .inl rfl⟩
    rw [hsame v' hentries, hsame v'' (htrail ▸ hentries)]

theorem sameOrGrown_store_iff (c : Bool) (s : GoString) :
    SameOrGrown v (if c && (Value.str s).isZero then Value.nil else .str s).store ↔
      SameOrGrown v (.str s) := by
  refine sameOrGrown_congr (trail_store_str c s) fun hnone => ?_
  split_ifs at hnone ⊢
  · cases hnone
  · rfl

/-- **Which histories a new entry fits.** -/
theorem sameOrGrown_append_iff (s : GoString) (e : HistoryEntry) :
    SameOrGrown v (.str (appendHistoryJSON s e)) ↔ EntryFits s e v := by
  unfold appendHistoryJSON EntryFits
  cases e.marshal with
  | none => rfl
  | some j =>
    have htrail : trail (.str (.json (.arr (decodeEntries s ++ [j])) 0)) =
        some (decodeEntries s ++ [j]) := rfl
    simp only [SameOrGrown, Extends, htrail, Option.some.injEq]
    constructor
    · rintro (rfl | ⟨entries, hv, rfl | ⟨e', he'⟩⟩)
      · exact .inr htrail
      · exact .inr hv
      · exact .inl ((append_inj' he' rfl).1 ▸ hv)
    · rintro (hv | hv)
      · exact .inr ⟨_, hv, .inr ⟨j, rfl⟩⟩
      · exact .inr ⟨_, hv, .inl rfl⟩

/-- A history with a new entry, in a data map. -/
theorem sameOrGrown_map_iff {data : GoMap Value} {s : GoString} {e : HistoryEntry}
    (hdata : data.get "history" = some (.str (appendHistoryJSON s e))) (r : Stored) :
    SameOrGrown v (assign (columnsOf (tb.clearSelects.filterMapData data)) r "history") ↔
      EntryFits s e v := by
  rw [assign_map, if_neg sanitizeIdentifier_history_ne, hdata, ← sameOrGrown_append_iff]
  exact sameOrGrown_store_iff _ _

namespace HistoryModel

variable {m : HistoryModel}

theorem sameOrGrown_update_iff (htrack : tb.historyTrackingDisabled = false)
    (hold : old.type = m.type) (hself : self.type = m.type) (time : GoTime) (r : Stored) :
    SameOrGrown (r m.column) (assign (columnsOf (structToMap
      (tb.prepareUpdate self old time).1 (tb.prepareUpdate self old time).2.selects)) r m.column) ↔
      m.UpdateFits tb old time (r m.column) self := by
  have hhistory := m.history_prepareUpdate htrack hold hself time
  rw [assign_prepareUpdate htrack hold hself, UpdateFits]
  have hunwritten : ∀ {P Q : Prop}, ¬P → (SameOrGrown (r m.column) (r m.column) ↔ (P → Q)) :=
    fun h => iff_of_true (.inl rfl) fun hP => absurd hP h
  by_cases hdiff : diffForHistory old self tb.selects = []
  · rw [if_pos hdiff, hdiff]
    rw [hdiff, isEmpty_nil, if_pos rfl] at hhistory
    split_ifs with hwritten
    · rw [storedFrom, valueFrom, hhistory]
      exact ⟨fun h _ => h, fun h => h hwritten⟩
    · exact hunwritten hwritten
  · have hempty : (diffForHistory old self tb.selects).isEmpty = false := by simpa using hdiff
    rw [if_neg hdiff, hempty]
    rw [hempty, if_neg Bool.false_ne_true] at hhistory
    split_ifs with hwritten
    · rw [storedFrom, valueFrom, hhistory, sameOrGrown_store_iff, sameOrGrown_append_iff]
      exact ⟨fun h _ => h, fun h => h hwritten⟩
    · exact hunwritten hwritten

/-- A soft delete and a restore write no column but `history` and those of the deletion. -/
theorem sameOrGrown_lifecycle_iff (htrack : tb.historyTrackingDisabled = false)
    (hold : old.type = m.type) (hname : m.column ≠ "deleted_at" ∧ m.column ≠ "deleted_by")
    (action : String) (deletedAt deletedBy : Value) (time : GoTime) (r : Stored) :
    SameOrGrown (r m.column) (assign (columnsOf (tb.clearSelects.filterMapData
      (tb.lifecycleData self old action deletedAt deletedBy time))) r m.column) ↔
      (m.column = "history" → EntryFits (getHistoryString old m.field.idx)
        ⟨action, [], tb.actor.1, tb.actor.2, time⟩ (r m.column)) := by
  by_cases hcol : m.column = "history"
  · simp only [hcol, forall_const]
    exact sameOrGrown_map_iff (get_lifecycleData htrack hold _ _ _ _) r
  · have hget : GoMap.get (tb.lifecycleData self old action deletedAt deletedBy time) m.column =
        none := by
      rw [lifecycleData_eq htrack hold, cons_append, nil_append, cons_append,
        GoMap.get_cons_of_ne hname.1]
      split_ifs
      · rw [cons_append, GoMap.get_cons_of_ne hname.2, nil_append, GoMap.get_cons_of_ne hcol]
        rfl
      · rw [nil_append, GoMap.get_cons_of_ne hcol]
        rfl
    rw [assign_map, hget, ite_self]
    exact iff_of_true (.inl rfl) fun h => absurd h hcol

/-- **Which histories an operation keeps.** -/
theorem sameOrGrown_assign_iff {op : RowOp} (htrack : tb.historyTrackingDisabled = false)
    (hold : old.type = m.type) (hmodel : op.model = m.type)
    (hname : m.column ≠ "deleted_at" ∧ m.column ≠ "deleted_by") (times : Nat → GoTime)
    (r : Stored) :
    SameOrGrown (r m.column) (assign (columnsOf (op.values tb old times)) r m.column) ↔
      m.Fits tb old times (r m.column) op := by
  cases op with
  | update | upsert => exact sameOrGrown_update_iff htrack hold hmodel _ r
  | delete | restore => exact sameOrGrown_lifecycle_iff htrack hold hname _ _ _ _ r
  | updateMap | deleteRaw | restoreRaw =>
    obtain ⟨hcol, hidx⟩ := column_of_historyOnlyRow hmodel.symm
    rw [Fits, hcol, hidx]
    exact sameOrGrown_map_iff (GoMap.get_set_self _ _ _) r

end HistoryModel

end Assigned

/-! ### All rows -/

variable {sv : Server} {b : Builder} {op : RowOp} {column : String} {db db' : Db}

theorem othersKeepHistory_of_tables_eq (h : db'.tables = db.tables) :
    OthersKeepHistory sv b op column db db' := by
  intro name id r r' _ hr hr'
  rw [h] at hr'
  obtain rfl := Option.some.inj (hr.symm.trans hr')
  exact .inl rfl

/-- A removed row takes its history with it, and the others are as they were. -/
theorem othersKeepHistory_of_deleted {cond : Option Where}
    (h : db'.tables = (db.set (op.table b) (sv.deleted (db.tables (op.table b)) cond)).tables) :
    OthersKeepHistory sv b op column db db' := by
  intro name id r r' _ hr hr'
  have hkept : (db.tables name).row id = some r' := by
    rw [h] at hr'
    by_cases hname : name = op.table b
    · subst hname
      rw [Db.tables_set_self] at hr'
      exact Server.row_of_row_deleted hr'
    · rwa [Db.tables_set_of_ne db hname] at hr'
  obtain rfl := Option.some.inj (hr.symm.trans hkept)
  exact .inl rfl

section Update

variable {q : Nat × Stored} (hq : op.locked sv b db = some q)
  (h : db'.tables = (db.set (op.table b) (sv.updated (db.tables (op.table b))
    (op.builder b).whereText (op.assigned sv b db q.2))).tables)

include hq h

/-- The rows that are assigned the history of the locked row are those that meet the condition. -/
theorem othersKeepHistory_iff_of_updated :
    OthersKeepHistory sv b op column db db' ↔
      ∀ q' ∈ sv.matching (db.tables (op.table b)) (op.builder b).whereText, q'.1 ≠ q.1 →
        SameOrGrown (q'.2 column) (assign (op.assigned sv b db q.2) q'.2 column) := by
  constructor
  · intro hothers q' hmem hne
    obtain ⟨hrow, hsat⟩ := mem_filter.mp hmem
    refine hothers (op.table b) q'.1 _ _ ?_ (Table.row_eq_some_iff.mpr hrow) ?_
    · rintro ⟨-, hid⟩
      rw [hq] at hid
      exact hne (Option.some.inj hid).symm
    · rw [h, Db.tables_set_self, Server.row_updated]
      exact ⟨q'.2, Table.row_eq_some_iff.mpr hrow, (if_pos hsat).symm⟩
  · intro hfits name id r r' hlocked hr hr'
    rw [h] at hr'
    by_cases hname : name = op.table b
    · subst hname
      rw [Db.tables_set_self, Server.row_updated] at hr'
      obtain ⟨r₀, hr₀, rfl⟩ := hr'
      obtain rfl := Option.some.inj (hr.symm.trans hr₀)
      split_ifs with hsat
      · refine hfits (id, r) (mem_filter.mpr ⟨Table.row_eq_some_iff.mp hr, hsat⟩) ?_
        rintro rfl
        exact hlocked ⟨rfl, by rw [hq]; rfl⟩
      · exact .inl rfl
    · rw [Db.tables_set_of_ne db hname] at hr'
      obtain rfl := Option.some.inj (hr.symm.trans hr')
      exact .inl rfl

theorem othersKeepHistory_iff_othersFit (m : HistoryModel)
    (htrack : b.historyTrackingDisabled = false) (hmodel : op.model = m.type)
    (hname : m.column ≠ "deleted_at" ∧ m.column ≠ "deleted_by") :
    OthersKeepHistory sv b op m.column db db' ↔ m.OthersFit sv b op db := by
  have hold : (op.lockedModel sv b db q.2).type = m.type := by
    rw [RowOp.lockedModel, hmodel]
    exact m.type_modelOf sv _ _
  have hstep := HistoryModel.sameOrGrown_assign_iff
    ((op.historyTrackingDisabled_builder b).trans htrack) hold hmodel hname
    fun i => db.clock (db.ticks + i)
  rw [othersKeepHistory_iff_of_updated hq h]
  constructor
  · intro hothers q₁ hq₁ q' hmem hne
    obtain rfl := Option.some.inj (hq.symm.trans hq₁)
    exact (hstep q'.2).mp (hothers q' hmem hne)
  · exact fun hfit q' hmem hne => (hstep q'.2).mpr (hfit q hq q' hmem hne)

end Update

namespace HistoryModel

variable (m : HistoryModel)

/-- If no other row meets the condition, there is none to keep. -/
theorem othersFit_of_unique {q : Nat × Stored}
    (h : sv.matching (db.tables (op.table b)) (op.builder b).whereText = [q]) :
    m.OthersFit sv b op db := by
  intro q₁ hq₁ q' hmem hne
  have hmem₁ := sv.pick_mem hq₁
  rw [h, mem_singleton] at hmem hmem₁
  exact absurd (hmem ▸ hmem₁ ▸ rfl) hne

/-- A history that is not written fits every row. -/
theorem othersFit_of_leavesAlone (h : m.LeavesAlone (op.builder b) op) :
    m.OthersFit sv b op db := by
  have hupdate : ∀ {tb : Builder} {old : Struct} {time : GoTime} {v : DbVal} {self : Struct},
      (∀ changed, ¬Written m.field (writeCols tb.selects self changed)) →
        m.UpdateFits tb old time v self := by
    intro tb old time v self hwritten
    rw [UpdateFits]
    split_ifs
    · exact fun h => absurd h (hwritten _)
    · exact fun h => absurd h (hwritten _)
  intro q _ q' _ _
  cases op with
  | update | upsert => exact hupdate h
  | delete | restore => exact fun hcol => absurd hcol h
  | _ => exact h.elim

end HistoryModel

/-- **Other rows keep their histories exactly if the locked row's fits them.** An operation with a
condition, on a model with a history that is tracked, gives no row the history of another if it
fails. If it succeeds, it does not exactly if it removes the rows, or every other row that meets
the condition holds a history before it that the new entry of the locked row fits. -/
theorem others_keep_history_iff (m : HistoryModel) {sv : Server} {b : Builder} {op : RowOp}
    {db db' : Db} {res : Except Err Unit} (htrack : b.historyTrackingDisabled = false)
    (hcond : op.Conditional b) (hmodel : op.model = m.type)
    (hname : m.column ≠ "deleted_at" ∧ m.column ≠ "deleted_by")
    (hrun : sv.exec (op.run b) db = (res, db')) :
    (∀ e, res = .error e → OthersKeepHistory sv b op m.column db db') ∧
      (res = .ok () → (OthersKeepHistory sv b op m.column db db' ↔
        op.Removes b ∨ m.OthersFit sv b op db)) := by
  have hatomic := op.atomic_run sv db (fun _ _ => htrack) hcond
  constructor
  · rintro e rfl
    exact othersKeepHistory_of_tables_eq (hatomic.of_exec_eq_error hrun)
  · rintro rfl
    rcases hatomic.of_exec_eq_ok hrun with ⟨hremoves, htables⟩ | ⟨hremoves, q, hq, htables⟩
    · exact iff_of_true (othersKeepHistory_of_deleted htables) (.inl hremoves)
    · rw [othersKeepHistory_iff_othersFit hq htables m htrack hmodel hname]
      exact ⟨.inr, fun h => h.resolve_left hremoves⟩

/-- The entry of a note that was imported. -/
def noteImported : Json :=
  entryJson (.str "imported") [("title", .str "draft")] none (.str "") (.time 5 0)

/-- A database with two notes of the same title. The second one has the given history. -/
def twoNotesDb (entries : List Json) : Db where
  tables _ := ⟨["id", "title", "history"],
    [(1, storedNote 1 [noteCreated]), (2, storedNote 2 entries)], by simp⟩
  clock n := { instant := n }

/-- A new title, for all notes with a given one. -/
def retitle : RowOp := .updateMap [("title", .str (.text "final"))]

/-- The condition on the title. -/
def noteByTitle : Builder :=
  ({ table := "notes" } : Builder).whereEq "title" (.str (.text "draft"))

/-- A server that finds the notes with the title `draft`. -/
def titleServer : Server := plainServer fun r => r "title" = .str (.text "draft")

/-- If the condition is the title of both notes and their histories are the same, then the second
note has its own history afterwards, and the new entry. -/
theorem retitle_by_title_keeps_same_history :
    (titleServer.exec (retitle.run noteByTitle) (twoNotesDb [noteCreated])).1 = .ok () ∧
      OthersKeepHistory titleServer noteByTitle retitle "history" (twoNotesDb [noteCreated])
        (titleServer.exec (retitle.run noteByTitle) (twoNotesDb [noteCreated])).2 := by
  have hok : (titleServer.exec (retitle.run noteByTitle) (twoNotesDb [noteCreated])).1 =
      .ok () := by decide +kernel
  refine ⟨hok, ((@others_keep_history_iff historyOnlyModel titleServer noteByTitle retitle
    (twoNotesDb [noteCreated]) _ _ rfl trivial rfl (by decide +kernel) rfl).2 hok).mpr (.inr ?_)⟩
  intro q hq q' hmem hne
  obtain rfl := Option.some.inj (hq.symm.trans rfl)
  have hmatching : titleServer.matching ((twoNotesDb [noteCreated]).tables "notes")
      (retitle.builder noteByTitle).whereText =
      [(1, storedNote 1 [noteCreated]), (2, storedNote 2 [noteCreated])] := rfl
  rcases mem_pair.mp (hmatching ▸ hmem) with rfl | rfl
  · exact absurd rfl hne
  · exact .inl (by decide +kernel)

/-- If the histories differ, the second note has the history of the first afterwards, and its own
is gone. -/
theorem retitle_by_title_replaces_history :
    (titleServer.exec (retitle.run noteByTitle) (twoNotesDb [noteImported])).1 = .ok () ∧
      ¬OthersKeepHistory titleServer noteByTitle retitle "history" (twoNotesDb [noteImported])
        (titleServer.exec (retitle.run noteByTitle) (twoNotesDb [noteImported])).2 := by
  refine ⟨by decide +kernel, fun hothers => ?_⟩
  have hafter : (((titleServer.exec (retitle.run noteByTitle)
      (twoNotesDb [noteImported])).2.tables "notes").row 2).map
        (fun r => (trail (r "history")).map List.head?) = some (some (some noteCreated)) := by
    decide +kernel
  obtain ⟨r', hr', htrail⟩ := Option.map_eq_some_iff.mp hafter
  obtain ⟨entries', hentries', hhead⟩ := Option.map_eq_some_iff.mp htrail
  have hsame := hothers "notes" 2 (storedNote 2 [noteImported]) r' (by decide +kernel) rfl hr'
  -- the first entry of the second note was `noteImported`
  have hne : (some noteImported : Option Json) ≠ some noteCreated := by decide +kernel
  rcases hsame with heq | ⟨entries, hentries, hgrown⟩
  · rw [heq] at hentries'
    obtain rfl := Option.some.inj hentries'
    exact hne hhead
  · obtain rfl := Option.some.inj hentries
    rcases hgrown with heq | ⟨e, he⟩
    · obtain rfl := Option.some.inj (hentries'.symm.trans heq)
      exact hne hhead
    · obtain rfl := Option.some.inj (hentries'.symm.trans he)
      exact hne hhead

end Kiya
