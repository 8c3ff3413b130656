import Kiya.Db.Appended
import Kiya.Db.RowLock

/-!
# Concurrent operations on one row

The operations that always add an entry are the updates of a data map, the soft deletes and the
restores. They obey the protocol of `RowLock`: whatever the answers are, they lock the row inside a
transaction of their own before they read its history, write under the same lock, and commit only
what they wrote. So in any interleaving of any number of them no entry is lost.
-/

namespace Kiya

open Builder Phase Interleaving List

open Prog hiding bind_assoc

/-! ### Rules for programs -/

/-- What is known of the last phase if a program succeeds, and if it fails. -/
def Outcome {α : Type} (ok error : Phase → Prop) : Except Err α → Phase → Prop
  | .ok _ => ok
  | .error _ => error

/-- The transaction has written the row. -/
def Phase.Written : Phase → Prop
  | .wrote _ _ => True
  | _ => False

/-- The transaction is open. -/
def Phase.Open : Phase → Prop
  | .opened => True
  | .locked _ => True
  | .wrote _ _ => True
  | _ => False

/-- The transaction is committed. -/
def Phase.Committed : Phase → Prop
  | .committed => True
  | _ => False

/-- The transaction was not begun, or has ended without effect. -/
def Phase.Undone : Phase → Prop
  | .idle => True
  | .aborted => True
  | _ => False

variable {b : Builder} {rs : RowServer} {E : Json → Prop}

section Rules

variable {α β : Type} {rs : RowServer} {E : Json → Prop} {φ : Phase} {ok error : Phase → Prop}

variable {Q : Except Err β → Phase → Prop}

theorem obeys_check_bind {res : Except Err α} {f : α → DbM β} (herror : ∀ e, Q (.error e) φ)
    (hok : ∀ a, res = .ok a → (f a).run.Obeys (rs.phases E) φ Q) :
    (check res >>= f).run.Obeys (rs.phases E) φ Q := by
  cases res with
  | ok a => exact hok a rfl
  | error e => exact herror e

theorem obeys_now_bind {f : GoTime → DbM β} (h : ∀ time, (f time).run.Obeys (rs.phases E) φ Q) :
    (now >>= f).run.Obeys (rs.phases E) φ Q := by
  refine Obeys.liftBind ⟨by cases φ <;> trivial, ?_⟩
  intro time φ' hstep
  obtain rfl : φ' = φ := by cases φ <;> exact hstep
  exact h time

theorem obeys_discard {m : DbM α} (a : β) (h : m.run.Obeys (rs.phases E) φ (Outcome ok error)) :
    (m >>= fun _ => pure a).run.Obeys (rs.phases E) φ (Outcome ok error) := by
  refine Obeys.bindExcept (h.mono fun res φ' hres => ?_)
  cases res with
  | ok | error => exact hres

/-- A transaction around a part that locks and writes. -/
theorem obeys_withTx {fn : Builder → DbM α} (htx : b.inTx = false)
    (h : (fn b.intoTx).run.Obeys (rs.phases E) .opened (Outcome Phase.Written Phase.Open)) :
    (b.withTx fn).run.Obeys (rs.phases E) .idle (Outcome Committed Undone) := by
  rw [withTx, if_neg (by simp [htx])]
  refine Obeys.bindExcept ⟨trivial, ?_⟩
  rintro res φ₁ (⟨rfl, rfl⟩ | ⟨⟨e, rfl⟩, rfl⟩)
  · refine Obeys.liftBind (h.mono fun res φ₂ hres => ?_)
    cases res with
    | ok a =>
      cases φ₂ with
      | wrote r r' =>
        refine Obeys.bindExcept ⟨trivial, ?_⟩
        rintro res φ₃ (⟨rfl, rfl⟩ | ⟨⟨e, rfl⟩, rfl⟩) <;> trivial
      | _ => cases hres
    | error e =>
      have hrollback : (rs.phases E).allowed .rollback φ₂ := by
        cases φ₂ with
        | opened | locked | wrote => trivial
        | _ => cases hres
      refine Obeys.bindExcept ⟨hrollback, ?_⟩
      rintro res φ₃ rfl
      trivial
  · trivial

end Rules

/-! ### Locking and writing -/

/-- A builder inside a transaction, about the row. -/
structure OnRow (rs : RowServer) (type : StructType) (tb : Builder) : Prop where
  applied : tb.scopeApplied = true
  inTx : tb.inTx = true
  plain : tb.rawQuery = ""
  tracked : tb.historyTrackingDisabled = false
  table : tb.tableFor type.tableName = rs.table

variable {r : Stored} {data : GoMap Value}

section Locking

variable {β : Type} {rs : RowServer} {E : Json → Prop} {tb : Builder} {ok : Phase → Prop}
  {Q : Except Err β → Phase → Prop}

variable {clone : Builder}

/-- Finding the row, with a lock. -/
theorem obeys_find_bind (happ : tb.scopeApplied = true) (hlock : tb.lockForUpdate = true)
    (htx : tb.inTx = true) (hraw : tb.rawQuery = "") {s : Struct} {f : Option Any → DbM β}
    (hclone : clone = { tb with
      limit := some 1
      selects := if tb.selects.isEmpty then s.type.info.map (·.name) else tb.selects
      table := tb.tableFor s.type.tableName })
    (htable : clone.table = rs.table) (herror : ∀ e, Q (.error e) .opened)
    (hnone : (f none).run.Obeys (rs.phases E) .opened Q)
    (hsome : ∀ r, (f (some (.structPtr (scanMapToStruct
      (rs.server.driverRow (rs.tableOf r) (Server.selected (rs.tableOf r) clone.selects) r)
      s)))).run.Obeys (rs.phases E) (.locked r) Q) :
    (tb.find (some (.structPtr s)) >>= f).run.Obeys (rs.phases E) .opened Q := by
  rw [find_bind_eq happ]
  refine obeys_check_bind herror fun c hc => ?_
  obtain rfl : c = clone := (findClone_structPtr hc hraw).trans hclone.symm
  have hraw' : c.rawQuery = "" := by rw [hclone]; exact hraw
  have hlock' : c.lockForUpdate = true := by rw [hclone]; exact hlock
  have htx' : c.inTx = true := by rw [hclone]; exact htx
  obtain ⟨hkind, hstmt, hcond⟩ := kind_build_select hraw'
  rw [hlock'] at hkind
  refine Obeys.bindExcept ⟨⟨htx', hstmt.trans htable, _, hkind⟩, ?_⟩
  rintro res φ (⟨⟨e, rfl⟩, rfl⟩ | ⟨rfl, rfl⟩ | ⟨cols, row, r, hcols, hread, rfl, rfl⟩)
  · exact herror e
  · exact hnone
  · obtain rfl : c.selects = cols := by
      rw [hkind] at hcols
      injection hcols
    have hrow := Server.read_eq_ok hread
    cases hpick : rs.server.pick (c.build .select)
        (rs.server.matching (rs.tableOf r) (c.build .select).cond) with
    | none =>
      rw [hpick] at hrow
      cases hrow
    | some q =>
      -- the table has no other row
      have hq : q = (0, r) := mem_singleton.mp (mem_filter.mp (rs.server.pick_mem hpick)).1
      rw [hpick, hq] at hrow
      obtain rfl := Option.some.inj hrow
      exact hsome r

/-- Locking the row of a model. -/
theorem obeys_lockCurrentRow_bind {self : Struct} (h : OnRow rs self.type tb)
    {f : Option Struct → DbM β}
    (hnone : (f none).run.Obeys (rs.phases E) .opened (Outcome ok Open))
    (hsome : ∀ r, (f (some (rs.server.modelOf (rs.tableOf r) self.type r))).run.Obeys
      (rs.phases E) (.locked r) (Outcome ok Open)) :
    (tb.lockCurrentRow self >>= f).run.Obeys (rs.phases E) .opened (Outcome ok Open) := by
  rw [lockCurrentRow, bind_assoc]
  refine obeys_find_bind (by exact h.applied) rfl (by exact h.inTx) (by exact h.plain) rfl h.table
    (fun _ => trivial) ?_ ?_
  · exact hnone
  · exact hsome

/-- Locking the history of the row. The hint changes the error of a failed read and nothing else. -/
theorem obeys_loadRawHistoryColumn_bind (h : OnRow rs historyOnlyRow tb)
    {f : Option GoString → DbM β}
    (hnone : (f none).run.Obeys (rs.phases E) .opened (Outcome ok Open))
    (hsome : ∀ r, (f (some (getHistoryString
      (rs.server.modelOf (rs.tableOf r) historyOnlyRow r) 0))).run.Obeys
      (rs.phases E) (.locked r) (Outcome ok Open)) :
    (withHistoryHint tb.loadRawHistoryColumn >>= f).run.Obeys (rs.phases E) .opened
      (Outcome ok Open) := by
  have hload : tb.loadRawHistoryColumn.run.Obeys (rs.phases E) .opened fun res φ =>
      match res with
      | .ok a => (f a).run.Obeys (rs.phases E) φ (Outcome ok Open)
      | .error _ => φ.Open := by
    rw [loadRawHistoryColumn]
    exact obeys_find_bind (by exact h.applied) rfl (by exact h.inTx) (by exact h.plain) rfl h.table
      (fun _ => trivial) hnone hsome
  refine Obeys.bindExcept (Obeys.bind (hload.mono fun res φ hres => ?_))
  cases res with
  | ok | error => exact hres

/-- A row that an `UPDATE` affects meets its condition. -/
theorem sat_of_affected_ne_zero {cond : Option Where} {sets : GoMap Value}
    (h : rs.server.affected (rs.tableOf r) cond sets ≠ 0) : rs.server.sat cond r = true := by
  by_contra hsat
  have hmatching : rs.server.matching (rs.tableOf r) cond = [] := by
    simp [Server.matching, RowServer.tableOf, hsat]
  exact h (by simp [Server.affected, hmatching])

/-- An `UPDATE` of the locked row that must affect it. -/
theorem obeys_updateStmt (htx : clone.inTx = true) (hraw : clone.rawQuery = "")
    (htable : clone.table = rs.table) {values : GoMap Value}
    (hsets : (columnsOf values).isEmpty = false)
    (hgrew : Grew E r (assign (columnsOf values) r)) :
    (execStmt clone (clone.build (.update values)) >>= fun res =>
      requireAffected res.1).run.Obeys (rs.phases E) (.locked r)
      (Outcome Phase.Written Phase.Open) := by
  obtain ⟨hkind, hstmt⟩ := kind_build_update hraw hsets
  refine Obeys.bindExcept ⟨⟨htx, hstmt.trans htable, _, hkind, fun _ => hgrew⟩, ?_⟩
  rintro res φ (⟨⟨e, rfl⟩, rfl⟩ | ⟨sets, -, rfl, rfl⟩)
  · trivial
  · have hopen : ∀ c : Bool, (if c then Phase.wrote r (assign sets r) else .locked r).Open := by
      intro c
      cases c <;> trivial
    by_cases hzero : rs.server.affected (rs.tableOf r) (clone.build (.update values)).cond sets = 0
    · simp only [hzero, requireAffected]
      exact hopen _
    · have hsat := sat_of_affected_ne_zero hzero
      have hne : ((rs.server.affected (rs.tableOf r)
          (clone.build (.update values)).cond sets : Nat) :
          Int) ≠ 0 := by exact_mod_cast hzero
      rw [if_pos hsat]
      show (requireAffected _).run.Obeys _ _ _
      rw [requireAffected, if_neg hne]
      trivial

/-- The `UPDATE` of the row, with an entry more. -/
theorem obeys_execLifecycle {type : StructType} (h : OnRow rs type tb) {v : Value}
    (hdata : data.get "history" = some v)
    (hgrew : Grew E r (assign (columnsOf (tb.clearSelects.filterMapData data)) r)) :
    (tb.execLifecycle data).run.Obeys (rs.phases E) (.locked r)
      (Outcome Phase.Written Phase.Open) := by
  have hsets : (columnsOf (tb.clearSelects.filterMapData data)).isEmpty = false := by
    have hget := get_columnsOf (tb.clearSelects.filterMapData data) "history"
    have hident := sanitizeIdentifier_history_ne
    rw [if_neg hident, get_filterMapData, hdata] at hget
    by_contra hempty
    rw [Bool.not_eq_false, List.isEmpty_iff] at hempty
    rw [hempty] at hget
    simp [hident, GoMap.get, notSelected, clearSelects] at hget
  simp only [execLifecycle, execUpdate, rowData,
    applyScope_of_applied (show tb.clearSelects.scopeApplied = true from h.applied),
    Bool.not_true, Bool.false_eq_true, if_false, bind_assoc]
  refine obeys_check_bind (fun _ => trivial) fun row hrow => ?_
  obtain rfl := Except.ok.inj hrow
  split_ifs
  · trivial
  simp only [bind_assoc, pure_bind]
  refine obeys_check_bind (fun _ => trivial) fun clone hclone => ?_
  obtain ⟨rfl, hname⟩ := Atomic.requireTable_eq_ok hclone
  have htable : tb.clearSelects.tableFor "" = rs.table := by
    have hne : tb.table ≠ "" := fun h => hname h rfl
    have hrow := h.table
    unfold tableFor at hrow ⊢
    rw [if_neg hne] at hrow
    exact (if_neg hne).trans hrow
  exact obeys_updateStmt (by exact h.inTx) (by exact h.plain) htable hsets hgrew

end Locking

/-! ### The operations -/

/-- An `UPDATE` of a data map with the locked history and a new entry. -/
theorem HistoryModel.grew (m : HistoryModel)
    (hcol : m.column = "history") {tb : Builder} {entry : HistoryEntry}
    (hdata : data.get "history" = some (.str (appendHistoryJSON
      (getHistoryString (rs.server.modelOf (rs.tableOf r) m.type r) m.field.idx) entry)))
    (hentry : ∃ e, entry.marshal = some e ∧ E e) :
    Grew E r (assign (columnsOf (tb.clearSelects.filterMapData data)) r) := by
  obtain ⟨e, hmarshal, he⟩ := hentry
  intro entries hentries hstable
  have hlocked := @HistoryModel.trail_modelOf m rs.server (rs.tableOf r) r entries
    (hcol ▸ rs.history) (hcol ▸ hentries)
  have hrecode : entries.map recodeEntry = entries :=
    (map_congr_left hstable).trans (map_id' entries)
  refine ⟨e, he, ?_⟩
  rw [trail_assign_map hdata, trail_appendHistoryJSON entry hlocked, hmarshal, hrecode]

section Operations

variable {rs : RowServer} {E : Json → Prop} {tb : Builder}

/-- The entries of an action satisfy `E`, whenever the action takes place. -/
def Enters (E : Json → Prop) (tb : Builder) (action : String) (changes : GoMap Value) : Prop :=
  ∀ time, ∃ e, HistoryEntry.marshal ⟨action, changes, tb.actor.1, tb.actor.2, time⟩ = some e ∧ E e

section Model

variable {m : HistoryModel} {self : Struct} (hcol : m.column = "history")
  (h : OnRow rs m.type tb) (hself : self.type = m.type)

include hcol h hself

theorem obeys_deleteLocked (hsoft : tb.softDeleteCondition ≠ "") (hE : Enters E tb "deleted" []) :
    (tb.deleteLocked self).run.Obeys (rs.phases E) .opened
      (Outcome Phase.Written Phase.Open) := by
  refine obeys_lockCurrentRow_bind (hself ▸ h) trivial fun r => ?_
  simp only [if_neg hsoft, hself]
  refine obeys_now_bind fun _ => obeys_now_bind fun time => obeys_discard _ ?_
  have hdata := @HistoryModel.get_lifecycleData m tb self _ h.tracked
    (m.type_modelOf rs.server (rs.tableOf r) r) "deleted"
  exact obeys_execLifecycle h (hdata _ _ time) (m.grew hcol (hdata _ _ time) (hE time))

theorem obeys_restoreLocked (hE : Enters E tb "restored" []) :
    (tb.restoreLocked self).run.Obeys (rs.phases E) .opened
      (Outcome Phase.Written Phase.Open) := by
  refine obeys_lockCurrentRow_bind (hself ▸ h) trivial fun r => ?_
  simp only [hself]
  refine obeys_now_bind fun time => obeys_discard _ ?_
  have hdata := @HistoryModel.get_lifecycleData m tb self _ h.tracked
    (m.type_modelOf rs.server (rs.tableOf r) r) "restored"
  exact obeys_execLifecycle h (hdata _ _ time) (m.grew hcol (hdata _ _ time) (hE time))

end Model

section Table

variable (h : OnRow rs historyOnlyRow tb)

include h

/-- The `UPDATE` of a data map with an entry. -/
theorem obeys_execLifecycle_withEntry {action : String} {changes : GoMap Value}
    (hE : Enters E tb action changes) (data : GoMap Value) (r : Stored) (time : GoTime) :
    (tb.execLifecycle (tb.withEntry data (getHistoryString
      (rs.server.modelOf (rs.tableOf r) historyOnlyRow r) 0) action changes
        time)).run.Obeys (rs.phases E) (.locked r) (Outcome Phase.Written Phase.Open) := by
  have hdata := GoMap.get_set_self data "history" (.str (appendHistoryJSON (getHistoryString
    (rs.server.modelOf (rs.tableOf r) historyOnlyRow r) 0)
    ⟨action, changes, tb.actor.1, tb.actor.2, time⟩))
  exact obeys_execLifecycle h hdata (historyOnlyModel.grew rfl hdata (hE time))

theorem obeys_updateMapLocked (hE : Enters E tb "modified" data) :
    (tb.updateMapLocked data).run.Obeys (rs.phases E) .opened
      (Outcome Phase.Written Phase.Open) := by
  refine obeys_loadRawHistoryColumn_bind h trivial fun r => ?_
  exact obeys_now_bind fun time => obeys_execLifecycle_withEntry h hE data r time

theorem obeys_deleteRawLocked (hsoft : tb.softDeleteCondition ≠ "") (model : Any)
    (hE : Enters E tb "deleted" []) :
    (tb.deleteRawLocked model).run.Obeys (rs.phases E) .opened
      (Outcome Phase.Written Phase.Open) := by
  rw [deleteRawLocked, if_neg hsoft]
  refine obeys_loadRawHistoryColumn_bind h trivial fun r => ?_
  exact obeys_now_bind fun _ => obeys_now_bind fun time =>
    obeys_execLifecycle_withEntry h hE _ r time

theorem obeys_restoreRawLocked (hE : Enters E tb "restored" []) :
    tb.restoreRawLocked.run.Obeys (rs.phases E) .opened (Outcome Phase.Written Phase.Open) := by
  refine obeys_loadRawHistoryColumn_bind h trivial fun r => ?_
  exact obeys_now_bind fun time => obeys_execLifecycle_withEntry h hE _ r time

end Table

end Operations

/-! ### Clients -/

namespace RowOp

/-- The operations that always add an entry: updates of a data map, soft deletes and restores. -/
def AlwaysEnters (b : Builder) : RowOp → Prop
  | .update _ => False
  | .upsert _ => False
  | .delete _ => b.softDeleteCondition ≠ ""
  | .restore _ => True
  | .updateMap _ => True
  | .deleteRaw _ => b.softDeleteCondition ≠ ""
  | .restoreRaw => True

/-- The action that an entry names. -/
def action : RowOp → String
  | .update _ => "modified"
  | .upsert _ => "modified"
  | .delete _ => "deleted"
  | .restore _ => "restored"
  | .updateMap _ => "modified"
  | .deleteRaw _ => "deleted"
  | .restoreRaw => "restored"

/-- The changes that the entry of an operation which always adds one lists. -/
def changes : RowOp → GoMap Value
  | .updateMap data => data
  | _ => []

/-- The entry of an operation which always adds one. -/
def entry (b : Builder) (op : RowOp) (time : GoTime) : HistoryEntry :=
  ⟨op.action, op.changes, (op.builder b).actor.1, (op.builder b).actor.2, time⟩

end RowOp

/-- **The operations that always add an entry obey the protocol.** -/
theorem RowOp.obeys_run {m : HistoryModel} {op : RowOp} (henters : op.AlwaysEnters b)
    (hmodel : op.model = m.type)
    (hcol : m.column = "history") (hrow : OnRow rs m.type (op.builder b)) (htx : b.inTx = false)
    (htrack : b.historyTrackingDisabled = false)
    (hE : Enters E (op.builder b) op.action op.changes) :
    (op.run b).run.Obeys (rs.phases E) .idle (Outcome Committed Undone) := by
  have hinTx : ∀ b : Builder, b.applyScope.inTx = b.inTx := Builder.inTx_applyScope
  have hsoft : b.applyScope.intoTx.softDeleteCondition = b.softDeleteCondition :=
    Builder.softDeleteCondition_applyScope b
  have hrow' : OnRow rs op.model (op.builder b) := hmodel ▸ hrow
  cases op with
  | update | upsert => cases henters
  | delete self =>
    refine obeys_discard () (obeys_check_bind (fun _ => trivial) fun _ _ =>
      obeys_withTx ((hinTx b).trans htx) ?_)
    exact obeys_deleteLocked hcol hrow hmodel (hsoft ▸ henters) hE
  | restore self =>
    refine obeys_discard () (obeys_check_bind (fun _ => trivial) fun _ _ =>
      obeys_withTx ((hinTx _).trans htx) ?_)
    exact obeys_restoreLocked hcol hrow hmodel hE
  | updateMap data =>
    simp only [run, Builder.update, Option.getD_some, htrack]
    refine obeys_check_bind (fun _ => trivial) fun _ _ =>
      obeys_withTx ((hinTx b).trans htx) ?_
    exact obeys_updateMapLocked hrow' hE
  | deleteRaw model =>
    refine obeys_check_bind (fun _ => trivial) fun _ _ =>
      obeys_withTx ((hinTx b).trans htx) ?_
    exact obeys_deleteRawLocked hrow' (hsoft ▸ henters) model hE
  | restoreRaw =>
    refine obeys_check_bind (fun _ => trivial) fun _ _ =>
      obeys_withTx ((hinTx _).trans htx) ?_
    exact obeys_restoreRawLocked hrow' hE

/-- A client that runs one operation on the row, in a transaction of its own. Its entry has an
encoding, and comes back from being decoded and encoded again. -/
structure AuditClient (rs : RowServer) where
  b : Builder
  op : RowOp
  enters : op.AlwaysEnters b
  model : HistoryModel
  locks : op.model = model.type
  column : model.column = "history"
  table : op.table b = rs.table
  plain : b.rawQuery = ""
  ownTx : b.inTx = false
  tracked : b.historyTrackingDisabled = false
  encodes : ∀ time, ∃ e, (op.entry b time).marshal = some e ∧ recodeEntry e = e

namespace AuditClient

variable {rs : RowServer} (c : AuditClient rs)

/-- The requests of the client. -/
def prog : Prog Cmd Cmd.Resp (Except Err Unit) := (c.op.run c.b).run

/-- An entry of the client, made at some time. -/
def IsEntry (e : Json) : Prop := ∃ time, (c.op.entry c.b time).marshal = some e

theorem recodeEntry_of_isEntry {e : Json} (h : c.IsEntry e) : recodeEntry e = e := by
  obtain ⟨time, htime⟩ := h
  obtain ⟨e', he', hrecode⟩ := c.encodes time
  obtain rfl := Option.some.inj (htime.symm.trans he')
  exact hrecode

theorem onRow : OnRow rs c.model.type (c.op.builder c.b) := by
  refine ⟨?_, ?_, ?_, ?_, ?_⟩
  · cases c.op <;> exact scopeApplied_applyScope _
  · cases c.op <;> rfl
  · rw [← c.plain]
    cases c.op <;> exact rawQuery_applyScope _
  · rw [c.op.historyTrackingDisabled_builder]
    exact c.tracked
  · rw [← c.locks]
    exact c.table

/-- **A client obeys the protocol.** -/
theorem obeys : c.prog.Obeys (rs.phases c.IsEntry) .idle
    (Outcome Committed Undone) := by
  refine c.op.obeys_run c.enters c.locks c.column c.onRow c.ownTx c.tracked fun time => ?_
  obtain ⟨e, he, -⟩ := c.encodes time
  exact ⟨e, he, time, he⟩

end AuditClient

/-! ### Every interleaving -/

section Interleavings

variable {ι : Type} [DecidableEq ι] {rs : RowServer}

/-- The clients before their first request. -/
def startOn (clients : ι → AuditClient rs) (r : Stored) :
    Config ι Cmd Cmd.Resp (Except Err Unit) (RowState ι) :=
  ⟨fun i => (clients i).prog, { row := r }⟩

/-- **No entry is lost.** Whatever the interleaving of the clients, the history is the initial one
with one entry for each client that has committed, in the order of the commits; and a client that
has come to its end has committed exactly if it reports success. -/
theorem no_entry_lost (clients : ι → AuditClient rs) {r : Stored} {initial : List Json}
    (hinitial : trail (r "history") = some initial) (hstable : Stable initial)
    {cfg : Config ι Cmd Cmd.Resp (Except Err Unit) (RowState ι)}
    (hreach : Reaches rs.Answers (startOn clients r) cfg) :
    cfg.shared.log.Nodup ∧
      (∃ es, trail (cfg.shared.row "history") = some (initial ++ es) ∧
        List.Forall₂ (fun i e => (clients i).IsEntry e) cfg.shared.log es) ∧
      ∀ i res, cfg.progs i = .ret res → (i ∈ cfg.shared.log ↔ res = .ok ()) := by
  have hE : ∀ i e, (clients i).IsEntry e → recodeEntry e = e :=
    fun i e => (clients i).recodeEntry_of_isEntry
  have hstart : Inv (fun i => rs.phases (clients i).IsEntry)
      (Accounted (fun i => (clients i).IsEntry) initial)
      (fun i φ s => φ.Holds (fun i => (clients i).IsEntry) i s)
      (fun _ => Outcome Committed Undone) (startOn clients r) := by
    refine ⟨⟨nodup_nil, [], by simpa [startOn] using hinitial, by simpa using hstable, .nil⟩,
      fun i => ⟨.idle, ⟨nofun, rfl, not_mem_nil⟩, (clients i).obeys⟩⟩
  obtain ⟨⟨hnodup, es, htrail, -, hes⟩, hclients⟩ := (simulation hE).invariant hstart hreach
  refine ⟨hnodup, ⟨es, htrail, hes⟩, fun i res hret => ?_⟩
  obtain ⟨φ, hφ, hobeys⟩ := hclients i
  rw [hret] at hobeys
  cases res with
  | ok u =>
    cases φ with
    | committed => exact iff_of_true hφ.2.2 rfl
    | _ => cases hobeys
  | error e =>
    cases φ with
    | idle | aborted => exact iff_of_false hφ.2.2 nofun
    | _ => cases hobeys

end Interleavings

/-! Two clients work on the same note. -/

/-- The row of the note with the id 1. -/
def noteRow : RowServer where
  server := noteServer
  table := "notes"
  columns := ["id", "title", "history", "deleted_at"]
  history := by decide

/-- A client that gives the note a new title, by a data map. -/
def retitleClient : AuditClient noteRow where
  b := noteById
  op := .updateMap [("title", .str (.text "final"))]
  enters := trivial
  model := historyOnlyModel
  locks := rfl
  column := rfl
  table := by decide +kernel
  plain := rfl
  ownTx := rfl
  tracked := rfl
  encodes _ := ⟨_, rfl, recodeEntry_entryJson _ _ _ _ _ rfl rfl rfl⟩

/-- A client that deletes the note. -/
def deleteClient : AuditClient noteRow where
  b := { noteById with softDeleteCondition := "deleted_at IS NULL" }
  op := .delete (note "" "draft")
  enters := (by decide : "deleted_at IS NULL" ≠ "")
  model := noteModel
  locks := rfl
  column := rfl
  table := by decide +kernel
  plain := rfl
  ownTx := rfl
  tracked := rfl
  encodes _ := ⟨_, rfl, recodeEntry_entryJson _ _ _ _ _ rfl rfl rfl⟩

/-- The two clients. -/
def noteClients : Fin 2 → AuditClient noteRow
  | 0 => retitleClient
  | 1 => deleteClient

/-- Both begin; the second has to wait for the lock until the first has committed. -/
def retitleAndDelete : Config (Fin 2) Cmd Cmd.Resp (Except Err Unit)
    (RowState (Fin 2)) :=
  [0, 1, 0, 1, 0, 0, 1, 0, 1, 1, 1, 1, 1].foldl
    (Config.advance fun i => noteRow.serve i { instant := 0 })
    (startOn noteClients (storedNote 1 [noteCreated]))

/-- Both entries are there, in the order of the commits. -/
theorem retitle_and_delete_keep_both :
    retitleAndDelete.shared.log = [0, 1] ∧
      (∃ es, trail (retitleAndDelete.shared.row "history") = some ([noteCreated] ++ es) ∧
        List.Forall₂ (fun i e => (noteClients i).IsEntry e)
          retitleAndDelete.shared.log es) := by
  have hreach : Reaches noteRow.Answers
      (startOn noteClients (storedNote 1 [noteCreated])) retitleAndDelete :=
    reaches_foldl_advance (fun h => .inl ⟨_, h⟩) _ _
  have hstable : Stable [noteCreated] := by
    intro e he
    obtain rfl := mem_singleton.mp he
    rfl
  exact ⟨by decide +kernel, (no_entry_lost noteClients rfl hstable hreach).2.1⟩

end Kiya
