import Kiya.Db.Issued
import Kiya.Db.Server

/-!
# Operations that lock a row and write

The operations on the row of a model, and those on a row of a table, share one shape: inside a
transaction they read one row with a lock, and then update **all** rows that meet the condition.
This module says what such a run does to the tables: it fails and leaves them alone, or it
assigns the same values to every row that meets the condition, and these values depend on the
one row that was locked.
-/

namespace Kiya

open Server Builder Atomic

namespace Builder

/-- The table that statements about a model go to. -/
def tableFor (b : Builder) (name : String) : String :=
  if b.table = "" then sanitizeIdentifier name else b.table

/-- The statement that locks a row of a model. -/
def lockStmt (b : Builder) (t : StructType) : Stmt :=
  ({ b with
    dest := .nil, selects := t.info.map (·.name), lockForUpdate := true, limit := some 1
    table := b.tableFor t.tableName } : Builder).build .select

end Builder

/-- A stored row as a model. -/
def Server.modelOf (sv : Server) (t : Table) (type : StructType) (r : Stored) : Struct :=
  scanMapToStruct (sv.driverRow t (selected t (type.info.map (·.name))) r) (Struct.zero type)

variable {b clone : Builder} {s : Struct}

/-- The clone that finds a row of a struct type. -/
theorem Builder.findClone_structPtr (h : b.findClone (.structPtr s) = .ok clone)
    (hraw : b.rawQuery = "") : clone = { b with
      limit := some 1
      selects := if b.selects.isEmpty then s.type.info.map (·.name) else b.selects
      table := b.tableFor s.type.tableName } := by
  unfold findClone at h
  rw [if_neg (by simpa using hraw)] at h
  obtain ⟨c, hc, htable⟩ := exists_of_bind_eq_ok h
  obtain rfl := Except.ok.inj hc
  split_ifs at htable
  obtain rfl := Except.ok.inj htable
  unfold withTable withCols tableFor
  split_ifs <;> simp_all

theorem Builder.kind_build_select (hraw : b.rawQuery = "") :
    (b.build .select).kind = .select b.selects b.lockForUpdate ∧
      (b.build .select).table = b.table ∧ (b.build .select).cond = b.whereText := by
  have hbuild : b.build .select = b.buildSelect := by simp [build, hraw]
  rw [hbuild]
  exact ⟨rfl, rfl, rfl⟩

theorem Builder.kind_build_update (hraw : b.rawQuery = "") {values : GoMap Value}
    (hsets : (columnsOf values).isEmpty = false) :
    (b.build (.update values)).kind = .update (columnsOf values) ∧
      (b.build (.update values)).table = b.table := by
  have hbuild : b.build (.update values) = b.buildUpdate values := by simp [build, hraw]
  rw [hbuild]
  simp [buildUpdate, hsets]

theorem Builder.kind_build_of_raw {a : Action} (hraw : b.rawQuery ≠ "") :
    (b.build a).kind = .raw := by
  simp [build, hraw]

/-- Finding a row of a struct type is one read, after some checks. -/
theorem Builder.find_bind_eq {β : Type} (happ : b.scopeApplied = true) (s : Struct)
    (f : Option Any → DbM β) :
    (b.find (some (.structPtr s)) >>= f) = (do
      let clone ← check (b.findClone (.structPtr s))
      let row ← getRow clone (clone.build .select)
      f (row.map fun row => scanInto row (.structPtr s))) := by
  simp only [find, applyScope_of_applied happ]
  simp [isNil, bind_assoc]

/-- A read that found a row found it among those that meet the condition. -/
theorem Server.read_eq_ok {sv : Server} {t : Table} {s : Stmt} {cols : List String}
    {row : Option Row} (h : sv.read t s cols true = .ok row) :
    row = (sv.pick s (sv.matching t s.cond)).map fun q => sv.driverRow t (selected t cols) q.2 := by
  unfold Server.read at h
  simp only at h
  split_ifs at h
  exact (Except.ok.inj h).symm

namespace Atomic

variable {α β : Type} {sv : Server} {db : Db} {tb : Builder} {R : β → Db → Prop} {name : String}
  {a : β}

/-- Finding one row of a struct type, with a lock. -/
theorem find_bind (happ : tb.scopeApplied = true) (hlock : tb.lockForUpdate = true)
    {f : Option Any → DbM β} (hclone : clone = { tb with
      limit := some 1
      selects := if tb.selects.isEmpty then s.type.info.map (·.name) else tb.selects
      table := tb.tableFor s.type.tableName })
    (hnone : Atomic sv (f none) db R)
    (hsome : ∀ q, sv.pick (clone.build .select)
        (sv.matching (db.tables clone.table) clone.whereText) = some q →
      Atomic sv (f (some (.structPtr (scanMapToStruct
        (sv.driverRow (db.tables clone.table) (selected (db.tables clone.table) clone.selects) q.2)
        s)))) db R) :
    Atomic sv (tb.find (some (.structPtr s)) >>= f) db R := by
  rw [find_bind_eq happ]
  refine check_bind fun c hc => getRow_bind fun cols lock row hkind hread => ?_
  have hraw : c.rawQuery = "" := by
    by_contra hne
    rw [kind_build_of_raw hne] at hkind
    cases hkind
  have hraw' : tb.rawQuery = "" := by
    have hsame : SameCond tb tb := ⟨rfl, rfl, rfl, happ⟩
    rwa [← (hsame.findClone hc).raw]
  have hceq : c = clone := (findClone_structPtr hc hraw').trans hclone.symm
  obtain ⟨hkind', htable, hcond⟩ := kind_build_select hraw
  rw [hkind'] at hkind
  obtain ⟨rfl, rfl⟩ : c.selects = cols ∧ c.lockForUpdate = lock := by
    simpa using hkind
  have hlock' : c.lockForUpdate = true := by
    rwa [hceq, hclone]
  rw [hlock'] at hread
  have hrow := Server.read_eq_ok hread
  rw [htable, hcond, hceq] at hrow
  cases hpick : sv.pick (clone.build .select)
      (sv.matching (db.tables clone.table) clone.whereText) with
  | none =>
    rw [hpick] at hrow
    rwa [hrow]
  | some q =>
    rw [hpick] at hrow
    rw [hrow]
    exact hsome q hpick

/-- Locking the row of a model. -/
theorem lockCurrentRow_bind (happ : tb.scopeApplied = true) {self : Struct}
    {f : Option Struct → DbM β} (hname : name = tb.tableFor self.type.tableName)
    (hnone : Atomic sv (f none) db R) (hsome : ∀ q, sv.pick (tb.lockStmt self.type)
        (sv.matching (db.tables name) tb.whereText) = some q →
      Atomic sv (f (some (sv.modelOf (db.tables name) self.type q.2))) db R) :
    Atomic sv (tb.lockCurrentRow self >>= f) db R := by
  subst hname
  rw [lockCurrentRow, bind_assoc]
  refine find_bind (by exact happ) rfl rfl ?_ ?_
  · exact hnone
  · exact hsome

/-- The hint changes the error of a read and nothing else. -/
theorem withHistoryHint_bind {m : DbM α} {f : α → DbM β} (h : Atomic sv (m >>= f) db R) :
    Atomic sv (withHistoryHint m >>= f) db R := by
  have hexec : sv.exec (withHistoryHint m) db =
      ((sv.exec m db).1.mapError Err.historyColumnHint, (sv.exec m db).2) := by
    rw [Server.exec, withHistoryHint, ExceptT.run_mk, Prog.run_bind]
    rfl
  unfold Atomic at h ⊢
  rw [Server.exec_bind] at h ⊢
  rw [hexec]
  cases hm : sv.exec m db with
  | mk r db₁ =>
    rw [hm] at h
    cases r with
    | ok | error => exact h

/-- Locking the history of a row, which is the only column of a model of its own. -/
theorem loadRawHistoryColumn_bind (happ : tb.scopeApplied = true)
    {f : Option GoString → DbM β} (hname : name = tb.tableFor historyOnlyRow.tableName)
    (hnone : Atomic sv (f none) db R) (hsome : ∀ q, sv.pick (tb.lockStmt historyOnlyRow)
        (sv.matching (db.tables name) tb.whereText) = some q →
      Atomic sv (f (some (getHistoryString
        (sv.modelOf (db.tables name) historyOnlyRow q.2) 0))) db R) :
    Atomic sv (withHistoryHint tb.loadRawHistoryColumn >>= f) db R := by
  subst hname
  refine withHistoryHint_bind ?_
  rw [loadRawHistoryColumn, bind_assoc]
  exact find_bind (by exact happ) rfl rfl hnone hsome

/-! ### Writing -/

theorem requireTable_eq_ok (h : b.requireTable name = .ok clone) :
    clone = { b with table := b.tableFor name } ∧ (b.table = "" → name ≠ "") := by
  unfold requireTable at h
  unfold tableFor
  split_ifs at h ⊢ with htable hname
  · obtain rfl := Except.ok.inj h
    exact ⟨rfl, fun _ => hname⟩
  · obtain rfl := Except.ok.inj h
    exact ⟨rfl, fun h => absurd h htable⟩

theorem set_tables_self (db : Db) (name : String) : (db.set name (db.tables name)).tables =
    db.tables := by
  funext n
  by_cases hn : n = name <;> simp [Db.set, hn]

/-- An `UPDATE` is refused, or it is done. -/
theorem write_build_update (clone : Builder) (values : GoMap Value) :
    sv.write (clone.build (.update values)) db = (.error .unsupported, db) ∨
      sv.write (clone.build (.update values)) db =
        (.ok (sv.affected (db.tables clone.table) clone.whereText (columnsOf values), none),
          db.set clone.table
            (sv.updated (db.tables clone.table) clone.whereText (columnsOf values))) := by
  by_cases hraw : clone.rawQuery = ""
  · have hbuild : clone.build (.update values) = clone.buildUpdate values := by
      simp [build, hraw]
    rw [hbuild]
    simp only [buildUpdate]
    split_ifs
    · exact .inl rfl
    · simp only [Server.write]
      split_ifs
      · exact .inr rfl
      · exact .inl rfl
  · have hkind := kind_build_of_raw (a := .update values) hraw
    simp only [Server.write, hkind]
    exact .inl trivial

/-- An `UPDATE` that must affect a row. -/
theorem updateStmt_bind {values : GoMap Value} (h : R a (db.set clone.table
      (sv.updated (db.tables clone.table) clone.whereText (columnsOf values)))) :
    Atomic sv (execStmt clone (clone.build (.update values)) >>= fun res =>
      requireAffected res.1 >>= fun _ => pure a) db R := by
  have hexec : sv.exec (execStmt clone (clone.build (.update values))) db =
      sv.write (clone.build (.update values)) db := rfl
  rcases @write_build_update sv db clone values with hwrite | hwrite
  · exact bind_of_exec_eq_error (hexec.trans hwrite)
  · unfold Atomic
    rw [Server.exec_bind, hexec.trans hwrite]
    by_cases hzero : sv.affected (db.tables clone.table) clone.whereText
        (columnsOf values) = 0
    · -- the table did not change, so failing here leaves it as it was
      rw [Server.updated_of_affected_eq_zero hzero]
      simp only [hzero, requireAffected]
      exact ⟨rfl, set_tables_self db clone.table⟩
    · have hne : ((sv.affected (db.tables clone.table) clone.whereText
          (columnsOf values) : Nat) : Int) ≠ 0 := by exact_mod_cast hzero
      simp only [requireAffected, if_neg hne]
      exact ⟨rfl, h⟩

theorem execUpdate_bind (happ : tb.scopeApplied = true) {data : Any}
    {row : String × GoMap Value} (hrow : tb.rowData data = .ok row)
    (h : (tb.table = "" → row.1 ≠ "") → R a (db.set (tb.tableFor row.1)
      (sv.updated (db.tables (tb.tableFor row.1)) tb.whereText (columnsOf row.2)))) :
    Atomic sv (tb.execUpdate data true >>= fun n =>
      requireAffected n >>= fun _ => pure a) db R := by
  simp only [execUpdate, applyScope_of_applied happ, hrow, Bool.not_true,
    Bool.false_eq_true, if_false, bind_assoc]
  refine check_bind fun row' hrow' => ?_
  obtain rfl := Except.ok.inj hrow'
  split_ifs
  · exact Atomic.throw
  · simp only [bind_assoc, pure_bind]
    refine check_bind fun clone hclone => ?_
    obtain ⟨rfl, hname⟩ := requireTable_eq_ok hclone
    exact updateStmt_bind (h hname)

variable {model : Any}

/-- The clone of a `DELETE` has the table of the builder, or one that the model names. -/
theorem deleteClone_eq_ok (h : b.deleteClone model = .ok clone) :
    ∃ name, clone = { b with table := b.tableFor name } ∧
      ∀ s, model = .structPtr s → name = s.type.tableName := by
  obtain ⟨named, hnamed, hclone⟩ := exists_of_bind_eq_ok h
  split_ifs at hclone with hempty
  obtain rfl := Except.ok.inj hclone
  by_cases hnil : isNil model = true
  · rw [if_pos hnil] at hnamed
    obtain rfl := Except.ok.inj hnamed
    refine ⟨"", by rw [tableFor, if_neg hempty], ?_⟩
    rintro s rfl
    cases hnil
  · rw [if_neg hnil] at hnamed
    obtain ⟨name, hname, hnamed⟩ := exists_of_bind_eq_ok hnamed
    refine ⟨name, ?_, ?_⟩
    · unfold tableFor
      by_cases htable : b.table = ""
      · rw [if_pos htable] at hnamed ⊢
        split_ifs at hnamed
        exact (Except.ok.inj hnamed).symm
      · rw [if_neg htable] at hnamed ⊢
        exact (Except.ok.inj hnamed).symm
    · rintro s rfl
      exact (Except.ok.inj hname).symm

/-- A `DELETE` is refused, or it is done. -/
theorem execHardDelete_bind
    (h : ∀ clone, tb.clearSoftDeleteCondition.deleteClone model = .ok clone →
      R a (db.set clone.table (sv.deleted (db.tables clone.table) clone.whereText))) :
    Atomic sv (tb.execHardDelete model >>= fun _ => pure a) db R := by
  simp only [execHardDelete, bind_assoc, pure_bind]
  refine check_bind fun clone hclone => ?_
  have hexec : sv.exec (execStmt clone (clone.build .delete)) db =
      sv.write (clone.build .delete) db := rfl
  by_cases hraw : clone.rawQuery = ""
  · have hbuild : clone.build .delete = clone.buildDelete := by simp [build, hraw]
    rw [hbuild] at hexec ⊢
    unfold Atomic
    rw [Server.exec_bind, hexec]
    exact ⟨rfl, h clone hclone⟩
  · have hkind := kind_build_of_raw (a := .delete) hraw
    simp only [Server.write, hkind] at hexec
    exact bind_of_exec_eq_error hexec

theorem exist_bind {f : Bool → DbM β}
    (h : tb.applyScope.table ≠ "" → ∀ found, Atomic sv (f found) db R) :
    Atomic sv (tb.exist >>= f) db R := by
  simp only [exist]
  split_ifs with htable
  · exact Atomic.throw
  · simp only [bind_assoc, pure_bind]
    exact getRow_bind fun cols lock row _ _ => h htable _

end Atomic

/-! ### The operations -/

/-- A tracked operation on a row: of a model, or of a table. -/
inductive RowOp where
  | update (self : Struct)
  | upsert (self : Struct)
  | delete (self : Struct)
  | restore (self : Struct)
  | updateMap (data : GoMap Value)
  | deleteRaw (model : Any)
  | restoreRaw

namespace RowOp

/-- The operation as a program. -/
def run (b : Builder) : RowOp → DbM Unit
  | .update self => b.update (some (.structPtr self))
  | .upsert self => b.upsert (some (.structPtr self))
  | .delete self => b.delete (some (.structPtr self))
  | .restore self => b.restore (some (.structPtr self))
  | .updateMap data => b.update (some (.map data))
  | .deleteRaw model => b.deleteRawWithHistory model
  | .restoreRaw => b.restoreRawWithHistory

/-- The type of the row that is locked. -/
def model : RowOp → StructType
  | .update self => self.type
  | .upsert self => self.type
  | .delete self => self.type
  | .restore self => self.type
  | _ => historyOnlyRow

/-- The builder inside the transaction. A restore also sees deleted rows. -/
def builder (b : Builder) : RowOp → Builder
  | .restore _ => b.clearSoftDeleteCondition.applyScope.intoTx
  | .restoreRaw => b.clearSoftDeleteCondition.applyScope.intoTx
  | _ => b.applyScope.intoTx

/-- Is the row removed? -/
def Removes (b : Builder) : RowOp → Prop
  | .delete _ => b.softDeleteCondition = ""
  | .deleteRaw _ => b.softDeleteCondition = ""
  | _ => False

/-- An upsert needs a condition; without one it is an insert. -/
def Conditional (b : Builder) : RowOp → Prop
  | .upsert _ => b.wheres ≠ []
  | _ => True

/-- The data of the `UPDATE`, from the locked row and the readings of the clock. -/
def values (tb : Builder) (old : Struct) (times : Nat → GoTime) : RowOp → GoMap Value
  | .update self =>
    let p := tb.prepareUpdate self old (times 0)
    structToMap p.1 p.2.selects
  | .upsert self =>
    let p := tb.prepareUpdate self old (times 0)
    structToMap p.1 p.2.selects
  | .delete self =>
    tb.clearSelects.filterMapData (tb.lifecycleData self old "deleted"
      (.time (times 0)) (.str (.text tb.actor.2)) (times 1))
  | .restore self =>
    tb.clearSelects.filterMapData
      (tb.lifecycleData self old "restored" .nil .nil (times 0))
  | .updateMap data =>
    tb.clearSelects.filterMapData
      (tb.withEntry data (getHistoryString old 0) "modified" data (times 0))
  | .deleteRaw _ =>
    tb.clearSelects.filterMapData (tb.withEntry [("deleted_at", .time (times 0))]
      (getHistoryString old 0) "deleted" [] (times 1))
  | .restoreRaw =>
    tb.clearSelects.filterMapData
      (tb.withEntry [("deleted_at", .nil)] (getHistoryString old 0) "restored" [] (times 0))

end RowOp

/-- **The effect of a write under a lock.** One row was locked, and the same values, which depend
on that row, are assigned to every row that meets the condition. -/
def LockedWrite (sv : Server) (tb : Builder) (type : StructType)
    (values : Struct → (Nat → GoTime) → GoMap Value) (db db' : Db) : Prop :=
  ∃ q, sv.pick (tb.lockStmt type)
      (sv.matching (db.tables (tb.tableFor type.tableName)) tb.whereText) = some q ∧
    db'.tables = (db.set (tb.tableFor type.tableName) (sv.updated
      (db.tables (tb.tableFor type.tableName)) tb.whereText (columnsOf
        (values (sv.modelOf (db.tables (tb.tableFor type.tableName)) type q.2)
          fun i => db.clock (db.ticks + i))))).tables

namespace Atomic

variable {α : Type} {sv : Server} {db : Db} {tb : Builder}

theorem discard {m : DbM α} {R : Unit → Db → Prop} (h : Atomic sv m db fun _ => R ()) :
    Atomic sv (do let _ ← m) db R := by
  unfold Atomic
  rw [Server.exec_bind]
  cases hm : sv.exec m db with
  | mk r db₁ =>
    have hsaved := h.1
    rw [hm] at hsaved
    cases r with
    | ok a => exact ⟨hsaved, h.of_exec_eq_ok hm⟩
    | error e => exact ⟨hsaved, h.of_exec_eq_error hm⟩

theorem exists_selects_ensureAuxCol (b : Builder) (self : Struct) (structField colName : String) :
    ∃ cols, b.ensureAuxCol self structField colName = { b with selects := cols } := by
  unfold ensureAuxCol
  split_ifs <;> exact ⟨_, rfl⟩

/-- Before an `UPDATE` of a model, only the selection of the builder changes. -/
theorem exists_selects_prepareUpdate (b : Builder) (self old : Struct) (time : GoTime) :
    ∃ cols, (b.prepareUpdate self old time).2 = { b with selects := cols } := by
  have hentry : ∃ cols, (b.withModifiedEntry self old time).2 = { b with selects := cols } := by
    unfold withModifiedEntry
    split_ifs
    · exact ⟨_, rfl⟩
    · simp only
      split
      · exact ⟨_, rfl⟩
      · split_ifs
        · exact ⟨_, rfl⟩
        · exact exists_selects_ensureAuxCol b self _ _
  obtain ⟨cols, hcols⟩ := hentry
  simp only [prepareUpdate, hcols, withActor]
  split_ifs
  · exact exists_selects_ensureAuxCol { b with selects := cols } _ _ _
  · exact ⟨_, rfl⟩

theorem type_prepareUpdate (b : Builder) (self old : Struct) (time : GoTime) :
    (b.prepareUpdate self old time).1.type = self.type := by
  have hentry : (b.withModifiedEntry self old time).1.type = self.type := by
    unfold withModifiedEntry
    split_ifs
    · rfl
    · simp only
      split
      · rfl
      · split_ifs <;> rfl
  have hactor : ∀ (b : Builder) (s : Struct), (b.withActor s "ModifiedBy" "modified_by").1.type =
      s.type := by
    intro b s
    unfold withActor setActorField
    split_ifs
    · rfl
    · simp only
      split
      · rfl
      · split_ifs <;> rfl
    · rfl
  exact (hactor _ _).trans hentry

section Operations

variable (happ : tb.scopeApplied = true)

include happ

theorem updateExistingOrNotFound (self : Struct) :
    Atomic sv (tb.updateExistingOrNotFound self) db fun _ => LockedWrite sv tb self.type
      (fun old times => (RowOp.update self).values tb old times) db := by
  rw [Builder.updateExistingOrNotFound]
  refine lockCurrentRow_bind happ rfl Atomic.throw fun q hq => now_bind ?_
  obtain ⟨cols, hcols⟩ := exists_selects_prepareUpdate tb self
    (sv.modelOf (db.tables (tb.tableFor self.type.tableName)) self.type q.2) (db.clock db.ticks)
  have htype := type_prepareUpdate tb self
    (sv.modelOf (db.tables (tb.tableFor self.type.tableName)) self.type q.2) (db.clock db.ticks)
  refine execUpdate_bind (by rw [hcols]; exact happ) rfl fun _ => ⟨q, hq, ?_⟩
  simp only [RowOp.values, Nat.add_zero, htype, hcols]
  rfl

variable {data : GoMap Value} {type : StructType} {q : Nat × Stored} {ticks : Nat}

/-- The `UPDATE` of a data map, after the row was locked and the clock was read. -/
theorem execLifecycle_bind {α : Type} (db : Db) {a : α}
    {values : Struct → (Nat → GoTime) → GoMap Value} (hq : sv.pick (tb.lockStmt type)
      (sv.matching (db.tables (tb.tableFor type.tableName)) tb.whereText) = some q)
    (hdata : tb.clearSelects.filterMapData data =
      values (sv.modelOf (db.tables (tb.tableFor type.tableName)) type q.2)
        fun i => db.clock (db.ticks + i)) :
    Atomic sv (tb.execLifecycle data >>= fun _ => pure a) { db with ticks := ticks } fun _ =>
      LockedWrite sv tb type values db := by
  simp only [Builder.execLifecycle, bind_assoc]
  refine execUpdate_bind (by exact happ) rfl fun htable => ⟨q, hq, ?_⟩
  have hne : tb.table ≠ "" := fun h => htable h rfl
  have htb : ∀ name, tb.tableFor name = tb.table := fun _ => if_neg hne
  have hclear : ∀ name, tb.clearSelects.tableFor name = tb.table := fun _ => if_neg hne
  simp only [htb] at hdata
  simp only [htb, hclear, ← hdata]
  rfl

theorem execLifecycle (db : Db) {values : Struct → (Nat → GoTime) → GoMap Value}
    (hq : sv.pick (tb.lockStmt type)
      (sv.matching (db.tables (tb.tableFor type.tableName)) tb.whereText) = some q)
    (hdata : tb.clearSelects.filterMapData data =
      values (sv.modelOf (db.tables (tb.tableFor type.tableName)) type q.2)
        fun i => db.clock (db.ticks + i)) :
    Atomic sv (tb.execLifecycle data) { db with ticks := ticks } fun _ =>
      LockedWrite sv tb type values db := by
  rw [← bind_pure_unit (x := tb.execLifecycle data)]
  exact execLifecycle_bind happ db hq hdata

theorem deleteLocked (hsoft : tb.softDeleteCondition ≠ "") (self : Struct) :
    Atomic sv (tb.deleteLocked self) db fun _ => LockedWrite sv tb self.type
      (fun old times => (RowOp.delete self).values tb old times) db := by
  refine lockCurrentRow_bind happ rfl Atomic.throw fun q hq => ?_
  simp only [if_neg hsoft]
  exact now_bind (now_bind (execLifecycle_bind happ db hq rfl))

theorem restoreLocked (self : Struct) :
    Atomic sv (tb.restoreLocked self) db fun _ => LockedWrite sv tb self.type
      (fun old times => (RowOp.restore self).values tb old times) db := by
  refine lockCurrentRow_bind happ rfl Atomic.throw fun q hq => ?_
  exact now_bind (execLifecycle_bind happ db hq rfl)

theorem updateMapLocked (data : GoMap Value) :
    Atomic sv (tb.updateMapLocked data) db fun _ => LockedWrite sv tb historyOnlyRow
      (fun old times => (RowOp.updateMap data).values tb old times) db := by
  refine loadRawHistoryColumn_bind happ rfl Atomic.throw fun q hq => ?_
  exact now_bind (execLifecycle happ db hq rfl)

theorem deleteRawLocked (hsoft : tb.softDeleteCondition ≠ "") (model : Any) :
    Atomic sv (tb.deleteRawLocked model) db fun _ => LockedWrite sv tb historyOnlyRow
      (fun old times => (RowOp.deleteRaw model).values tb old times) db := by
  rw [Builder.deleteRawLocked, if_neg hsoft]
  refine loadRawHistoryColumn_bind happ rfl Atomic.throw fun q hq => ?_
  exact now_bind (now_bind (execLifecycle happ db hq rfl))

theorem restoreRawLocked :
    Atomic sv tb.restoreRawLocked db fun _ => LockedWrite sv tb historyOnlyRow
      (fun old times => RowOp.restoreRaw.values tb old times) db := by
  refine loadRawHistoryColumn_bind happ rfl Atomic.throw fun q hq => ?_
  exact now_bind (execLifecycle happ db hq rfl)

/-- Without a soft-delete condition the rows that meet the condition are removed. -/
theorem deleteLocked_of_not_soft (hsoft : tb.softDeleteCondition = "") (self : Struct) :
    Atomic sv (tb.deleteLocked self) db fun _ db' =>
      db'.tables = (db.set (tb.tableFor self.type.tableName)
        (sv.deleted (db.tables (tb.tableFor self.type.tableName)) tb.whereText)).tables := by
  have hclear : tb.clearSoftDeleteCondition = tb := by
    rw [clearSoftDeleteCondition, ← hsoft]
  refine lockCurrentRow_bind happ rfl Atomic.throw fun q hq => ?_
  simp only [if_pos hsoft]
  refine execHardDelete_bind fun clone hclone => ?_
  rw [hclear] at hclone
  obtain ⟨name, rfl, hname⟩ := deleteClone_eq_ok hclone
  obtain rfl := hname self rfl
  rfl

theorem deleteRawLocked_of_not_soft (hsoft : tb.softDeleteCondition = "") (model : Any)
    (name : String) :
    Atomic sv (tb.deleteRawLocked model) db fun _ db' =>
      db'.tables = (db.set (tb.tableFor name)
        (sv.deleted (db.tables (tb.tableFor name)) tb.whereText)).tables := by
  have hclear : tb.clearSoftDeleteCondition = tb := by
    rw [clearSoftDeleteCondition, ← hsoft]
  rw [Builder.deleteRawLocked, if_pos hsoft]
  refine exist_bind fun htable found => ?_
  rw [applyScope_of_applied happ] at htable
  cases found with
  | false => exact Atomic.throw
  | true =>
    refine execHardDelete_bind fun clone hclone => ?_
    rw [hclear] at hclone
    obtain ⟨name', rfl, -⟩ := deleteClone_eq_ok hclone
    simp only [tableFor, if_neg htable]

end Operations

end Atomic

namespace RowOp

/-- The table that an operation works on. -/
def table (b : Builder) (op : RowOp) : String := (op.builder b).tableFor op.model.tableName

/-- The row that the locking read returns. -/
def locked (sv : Server) (b : Builder) (db : Db) (op : RowOp) : Option (Nat × Stored) :=
  sv.pick ((op.builder b).lockStmt op.model)
    (sv.matching (db.tables (op.table b)) (op.builder b).whereText)

/-- The locked row as a model. -/
def lockedModel (sv : Server) (b : Builder) (db : Db) (r : Stored) (op : RowOp) : Struct :=
  sv.modelOf (db.tables (op.table b)) op.model r

/-- What the `UPDATE` of an operation assigns, if `r` is the locked row. -/
def assigned (sv : Server) (b : Builder) (db : Db) (r : Stored) (op : RowOp) : GoMap Value :=
  columnsOf (op.values (op.builder b) (op.lockedModel sv b db r)
    fun i => db.clock (db.ticks + i))

end RowOp

/-- **What an operation on a row does.** It fails and leaves the tables as they were; or it removes
the rows that meet its condition; or it assigns values that depend on the locked row to all rows
that meet its condition. -/
theorem RowOp.atomic_run (sv : Server) (db : Db) {op : RowOp}
    (htrack : ∀ data, op = .updateMap data → b.historyTrackingDisabled = false)
    (hcond : op.Conditional b) :
    Atomic sv (op.run b) db fun _ db' =>
      (op.Removes b ∧ db'.tables = (db.set (op.table b)
        (sv.deleted (db.tables (op.table b)) (op.builder b).whereText)).tables) ∨
      (¬op.Removes b ∧ ∃ q, op.locked sv b db = some q ∧ db'.tables = (db.set (op.table b)
        (sv.updated (db.tables (op.table b)) (op.builder b).whereText
          (op.assigned sv b db q.2))).tables) := by
  have happ : ∀ b : Builder, b.applyScope.intoTx.scopeApplied = true :=
    Builder.scopeApplied_applyScope
  have hsoft : b.applyScope.intoTx.softDeleteCondition = b.softDeleteCondition :=
    Builder.softDeleteCondition_applyScope b
  cases op with
  | update self =>
    refine discard (check_bind fun _ _ =>
      withTx (fun _ _ _ h => h) fun saved => ?_)
    exact (updateExistingOrNotFound (happ b) self).mono fun _ _ h => .inr ⟨id, h⟩
  | upsert self =>
    refine discard ?_
    rw [Builder.upsertWithHistory, if_neg (by simpa [Conditional] using hcond)]
    refine withTx (fun _ _ _ h => h) fun saved => ?_
    exact (updateExistingOrNotFound (happ b) self).mono fun _ _ h => .inr ⟨id, h⟩
  | delete self =>
    refine discard (check_bind fun _ _ =>
      withTx (fun _ _ _ h => h) fun saved => ?_)
    by_cases hremoves : b.softDeleteCondition = ""
    · exact (deleteLocked_of_not_soft (happ b) (hsoft.trans hremoves) self).mono
        fun _ _ h => .inl ⟨hremoves, h⟩
    · exact (deleteLocked (happ b) (hsoft ▸ hremoves) self).mono
        fun _ _ h => .inr ⟨hremoves, h⟩
  | restore self =>
    refine discard (check_bind fun _ _ =>
      withTx (fun _ _ _ h => h) fun saved => ?_)
    exact (restoreLocked (happ _) self).mono fun _ _ h => .inr ⟨id, h⟩
  | updateMap data =>
    simp only [run, Builder.update, Option.getD_some, htrack data rfl]
    refine check_bind fun _ _ => withTx (fun _ _ _ h => h) fun saved => ?_
    exact (updateMapLocked (happ b) data).mono fun _ _ h => .inr ⟨id, h⟩
  | deleteRaw model =>
    refine check_bind fun _ _ => withTx (fun _ _ _ h => h) fun saved => ?_
    by_cases hremoves : b.softDeleteCondition = ""
    · exact (deleteRawLocked_of_not_soft (happ b) (hsoft.trans hremoves) model _).mono
        fun _ _ h => .inl ⟨hremoves, h⟩
    · exact (deleteRawLocked (happ b) (hsoft ▸ hremoves) model).mono
        fun _ _ h => .inr ⟨hremoves, h⟩
  | restoreRaw =>
    refine check_bind fun _ _ => withTx (fun _ _ _ h => h) fun saved => ?_
    exact (restoreRawLocked (happ _)).mono fun _ _ h => .inr ⟨id, h⟩

end Kiya
