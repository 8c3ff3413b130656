import Kiya.Db.Trail

/-!
# Writes without a condition

`Update`, `Delete`, `Purge` and `Restore` check that there is a condition before they ask the
database for anything. But they apply the scope first, and its conditions count: whoever has a
scope may write all rows of the scope without having asked for it. `Refused` says that an operation
is turned down as it should be, and the main result that this is so exactly if neither the caller
nor the scope has added a condition.
-/

namespace Kiya

open Builder

variable {α β : Type}

/-- The operation fails with `ErrWhereClauseRequired`, and asks for nothing but the time. -/
def Refused (m : DbM α) : Prop :=
  m.run.All (fun c => c = .now) fun r => r = .error .whereClauseRequired

variable {m : DbM α} {b : Builder} {fn : Builder → DbM α} {f : GoTime → DbM β} {r : Except Err α}

namespace Refused

theorem check_bind (f : α → DbM β) : Refused (check (.error .whereClauseRequired) >>= f) := rfl

theorem now_bind (h : ∀ time, Refused (f time)) : Refused (now >>= f) :=
  ⟨rfl, h⟩

theorem discard (h : Refused m) (a : β) : Refused (m >>= fun _ => pure a) := by
  refine Prog.All.bind h fun r hr => ?_
  rw [hr]
  rfl

end Refused

/-! ### Operations that go on -/

theorem not_refused_throw {e : Err} (h : e ≠ .whereClauseRequired) :
    ¬Refused (throw e : DbM α) := fun hr => h (by injection hr)

theorem not_refused_check_bind {f : α → DbM β}
    (herror : r ≠ .error .whereClauseRequired) (hok : ∀ a, r = .ok a → ¬Refused (f a)) :
    ¬Refused (check r >>= f) := by
  cases r with
  | ok a => exact hok a rfl
  | error e => exact not_refused_throw fun h => herror (by rw [h])

theorem not_refused_getRow_bind (b : Builder) (s : Stmt) (f : Option Row → DbM β) :
    ¬Refused (getRow b s >>= f) := fun h => nomatch h.1

theorem not_refused_execStmt_bind (b : Builder) (s : Stmt) (f : Int × Option Int → DbM β) :
    ¬Refused (execStmt b s >>= f) := fun h => nomatch h.1

theorem not_refused_now_bind (h : ∀ time, ¬Refused (f time)) :
    ¬Refused (now >>= f) := fun hr => h { instant := 0 } (hr.2 { instant := 0 })

theorem not_refused_withTx (h : ¬Refused (fn b)) : ¬Refused (b.withTx fn) := by
  unfold withTx
  split_ifs
  · exact h
  · exact fun hr => nomatch hr.1

/-- If a part goes on, then what is put behind it does not change that. -/
theorem not_refused_discard (h : ¬Refused m) (a : β) : ¬Refused (m >>= fun _ => pure a) := by
  intro hr
  refine h ((Prog.All.of_bind hr).mono (fun _ hc => hc) fun r hr => ?_)
  cases r with
  | ok _ => cases hr
  | error e =>
    injection hr with he
    rw [he]

/-! ### Errors of the checks -/

theorem getTableNameFromModel_ne_whereClauseRequired (d : Any) :
    getTableNameFromModel d ≠ .error .whereClauseRequired := by
  cases d with
  | slicePtr elem => cases elem <;> simp [getTableNameFromModel]
  | _ => simp [getTableNameFromModel]

theorem bind_ne_whereClauseRequired {f : α → Except Err β}
    (hr : r ≠ .error .whereClauseRequired) (hf : ∀ a, f a ≠ .error .whereClauseRequired) :
    r.bind f ≠ .error .whereClauseRequired := by
  cases r with
  | ok a => exact hf a
  | error e => exact fun h => hr (by injection h with h; rw [h])

theorem findClone_ne_whereClauseRequired (b : Builder) (d : Any) :
    b.findClone d ≠ .error .whereClauseRequired := by
  unfold findClone
  split_ifs
  · simp
  · refine bind_ne_whereClauseRequired ?_ fun clone => ?_
    · cases d with
      | slicePtr elem =>
        cases elem with
        | none => simp only; split_ifs <;> simp
        | some t => simp
      | otherPtr => simp only; split_ifs <;> simp
      | _ => simp
    · split_ifs <;> simp

theorem rowData_ne_whereClauseRequired (b : Builder) (data : Any) :
    b.rowData data ≠ .error .whereClauseRequired := by
  unfold rowData
  split
  · simp
  · simp
  · simp
  · simp
  · simp
  · split
    · simp
    · rename_i e he
      intro h
      injection h with h
      rw [h] at he
      exact getTableNameFromModel_ne_whereClauseRequired _ he

theorem requireTable_ne_whereClauseRequired (b : Builder) (name : String) :
    b.requireTable name ≠ .error .whereClauseRequired := by
  unfold requireTable
  split_ifs <;> simp

theorem deleteClone_ne_whereClauseRequired (b : Builder) (model : Any) :
    b.deleteClone model ≠ .error .whereClauseRequired := by
  refine bind_ne_whereClauseRequired ?_ fun clone => ?_
  · by_cases hnil : isNil model = true
    · simp [hnil]
    · rw [if_neg hnil]
      refine bind_ne_whereClauseRequired (getTableNameFromModel_ne_whereClauseRequired model)
        fun name => ?_
      split_ifs <;> simp
  · split_ifs
    · simp
    · simp

/-! ### The operations, after the check -/

theorem Builder.find_eq {d : Any} (hd : isNil d = false) :
    b.find (some d) = (do
      let clone ← check (b.applyScope.findClone d)
      let row ← getRow clone (clone.build .select)
      return row.map fun row => scanInto row d) := by
  simp [find, hd]

theorem not_refused_lockCurrentRow_bind (b : Builder) (self : Struct)
    (f : Option Struct → DbM β) : ¬Refused (b.lockCurrentRow self >>= f) := by
  rw [lockCurrentRow, bind_assoc, find_eq rfl, bind_assoc]
  refine not_refused_check_bind (findClone_ne_whereClauseRequired _ _) fun clone _ => ?_
  rw [bind_assoc]
  exact not_refused_getRow_bind _ _ _

theorem not_refused_loadRawHistoryColumn_bind (b : Builder) (f : Option GoString → DbM β) :
    ¬Refused (withHistoryHint b.loadRawHistoryColumn >>= f) := by
  rw [loadRawHistoryColumn, find_eq rfl]
  cases hclone : findClone _ (.structPtr (Struct.zero historyOnlyRow)) with
  | ok clone =>
    intro h
    cases h.1
  | error e =>
    intro h
    have hhint : (Except.error (Err.historyColumnHint e) : Except Err β) =
      .error .whereClauseRequired := h
    injection hhint with hhint
    cases hhint

section Conditions

variable (hcond : b.applyScope.wheres ≠ [])

include hcond

theorem checkWhereRequired_of_wheres : b.applyScope.checkWhereRequired = .ok () := by
  simp [checkWhereRequired, hcond]

theorem not_refused_execUpdate (data : Any) (skip : Bool) : ¬Refused (b.execUpdate data skip) := by
  have hupdate : ¬Refused (do
      let row ← check (b.applyScope.rowData data)
      if row.2.isEmpty then throw .emptyData
      let clone ← check (b.applyScope.requireTable row.1)
      let res ← execStmt clone (clone.build (.update row.2))
      return res.1) := by
    refine not_refused_check_bind (rowData_ne_whereClauseRequired _ _) fun row _ => ?_
    simp only
    split
    · exact not_refused_throw (by simp)
    · refine not_refused_check_bind (requireTable_ne_whereClauseRequired _ _) fun clone _ => ?_
      exact not_refused_execStmt_bind _ _ _
  unfold execUpdate
  simp only
  split
  · rwa [checkWhereRequired_of_wheres hcond]
  · exact hupdate

theorem not_refused_execDelete (model : Any) (skip : Bool) :
    ¬Refused (b.execDelete model skip) := by
  unfold execDelete
  simp only
  split
  · refine not_refused_now_bind fun time => not_refused_execUpdate ?_ _ _
    rwa [applyScope_of_applied (scopeApplied_applyScope b)]
  · have hdelete : ¬Refused (do
        let clone ← check (b.applyScope.deleteClone model)
        let res ← execStmt clone (clone.build .delete)
        return res.1) := by
      refine not_refused_check_bind (deleteClone_ne_whereClauseRequired _ _) fun clone _ => ?_
      exact not_refused_execStmt_bind _ _ _
    split
    · rwa [checkWhereRequired_of_wheres hcond]
    · exact hdelete

/-- After the check, a transaction begins, or the operation goes on in the one it is in. -/
theorem not_refused_check_withTx (h : ∀ tb, ¬Refused (fn tb)) :
    ¬Refused (do
      check b.applyScope.checkWhereRequired
      b.applyScope.withTx fn) := by
  rw [checkWhereRequired_of_wheres hcond]
  exact not_refused_withTx (h _)

end Conditions

theorem not_refused_deleteRawLocked (tb : Builder) (model : Any) :
    ¬Refused (tb.deleteRawLocked model) := by
  unfold deleteRawLocked
  split
  · rw [exist]
    simp only
    split
    · exact not_refused_throw (by simp)
    · intro h
      cases h.1
  · exact not_refused_loadRawHistoryColumn_bind _ _

/-! ### The check fails -/

section NoConditions

variable (hcond : b.applyScope.checkWhereRequired = .error .whereClauseRequired)

include hcond

theorem refused_execUpdate (data : Any) : Refused (b.execUpdate data false) := by
  unfold execUpdate
  simp only [Bool.not_false, if_true, hcond]
  exact Refused.check_bind _

theorem refused_execDelete (model : Any) : Refused (b.execDelete model false) := by
  unfold execDelete
  simp only [Bool.not_false, if_true, hcond]
  split
  · refine Refused.now_bind fun time => refused_execUpdate ?_ _
    rwa [applyScope_of_applied (scopeApplied_applyScope b)]
  · exact Refused.check_bind _

theorem refused_check_withTx (fn : Builder → DbM α) :
    Refused (do
      check b.applyScope.checkWhereRequired
      b.applyScope.withTx fn) := by
  rw [hcond]
  exact Refused.check_bind _

end NoConditions

/-! ### Conditions of the caller and of the scope -/

/-- There are no conditions once the scope was applied: the caller made none, and the scope adds
none, or has been applied before. -/
def Builder.Unconditioned (b : Builder) : Prop :=
  b.wheres = [] ∧ (b.scopeApplied = true ∨ b.scopeGroup = [])

theorem wheres_applyScope_eq_nil (b : Builder) : b.applyScope.wheres = [] ↔ b.Unconditioned := by
  unfold applyScope Unconditioned scopedWheres
  by_cases happlied : b.scopeApplied = true
  · simp [happlied]
  · by_cases hgroup : b.scopeGroup = []
    · simp [happlied, hgroup]
    · by_cases hwheres : b.wheres = [] <;> simp [happlied, hgroup, hwheres]

/-- A soft-delete condition is none that the check counts. -/
theorem unconditioned_clearSoftDeleteCondition (b : Builder) :
    b.clearSoftDeleteCondition.Unconditioned ↔ b.Unconditioned := Iff.rfl

theorem checkWhereRequired_of_unconditioned (hguard : b.unsafeAllowEmptyWhere = false)
    (h : b.Unconditioned) : b.applyScope.checkWhereRequired = .error .whereClauseRequired := by
  have hwheres := (wheres_applyScope_eq_nil b).mpr h
  simp [checkWhereRequired, hwheres, hguard]

namespace Terminal

/-- The operations that demand a condition. -/
def Guarded : Terminal → Prop
  | .update _ | .delete _ | .purge _ | .restore _ => True
  | _ => False

/-- An update has something to write: an argument, or a bound model. -/
def HasData (b : Builder) : Terminal → Prop
  | .update data => data.getD b.dest ≠ .nil
  | _ => True

end Terminal

/-- What one path of an operation does, in either case. -/
theorem refused_path (hguard : b.unsafeAllowEmptyWhere = false)
    (hno : b.applyScope.checkWhereRequired = .error .whereClauseRequired → Refused m)
    (hsome : b.applyScope.wheres ≠ [] → ¬Refused m) : Refused m ↔ b.Unconditioned := by
  refine ⟨fun h => ?_, fun h => hno (checkWhereRequired_of_unconditioned hguard h)⟩
  by_contra hcond
  exact hsome (fun hwheres => hcond ((wheres_applyScope_eq_nil b).mp hwheres)) h

theorem refused_discard_iff (a : β) : Refused (m >>= fun _ => pure a) ↔ Refused m :=
  ⟨fun h => by_contra fun hm => not_refused_discard hm a h, fun h => h.discard a⟩

section Paths

variable (hguard : b.unsafeAllowEmptyWhere = false)

include hguard

theorem refused_execUpdate_iff (data : Any) : Refused (b.execUpdate data false) ↔ b.Unconditioned :=
  refused_path hguard (fun h => refused_execUpdate h data)
    fun h => not_refused_execUpdate h data false

theorem refused_execDelete_iff (model : Any) :
    Refused (b.execDelete model false) ↔ b.Unconditioned :=
  refused_path hguard (fun h => refused_execDelete h model)
    fun h => not_refused_execDelete h model false

theorem refused_check_withTx_iff (hfn : ∀ tb, ¬Refused (fn tb)) :
    Refused (do
      check b.applyScope.checkWhereRequired
      b.applyScope.withTx fn) ↔ b.Unconditioned :=
  refused_path hguard (fun h => refused_check_withTx h fn)
    fun h => not_refused_check_withTx h hfn

theorem refused_update_iff (data : Option Any) :
    Refused (b.update data) ↔ b.Unconditioned ∧ data.getD b.dest ≠ .nil := by
  unfold update
  cases data.getD b.dest with
  | nil => simpa using not_refused_throw (by simp)
  | structPtr self =>
    simp only [ne_eq, reduceCtorEq, not_false_eq_true, and_true, refused_discard_iff]
    exact refused_check_withTx_iff hguard fun tb => not_refused_lockCurrentRow_bind tb self _
  | map m =>
    simp only [ne_eq, reduceCtorEq, not_false_eq_true, and_true]
    split
    · simpa only [refused_discard_iff] using refused_execUpdate_iff hguard _
    · exact refused_check_withTx_iff hguard fun tb => not_refused_loadRawHistoryColumn_bind tb _
  | _ =>
    simp only [ne_eq, reduceCtorEq, not_false_eq_true, and_true, refused_discard_iff]
    exact refused_execUpdate_iff hguard _

theorem refused_delete_iff (model : Option Any) : Refused (b.delete model) ↔ b.Unconditioned := by
  unfold delete
  split
  · rw [refused_discard_iff]
    exact refused_check_withTx_iff hguard fun tb => not_refused_lockCurrentRow_bind tb _ _
  · split
    · simpa only [refused_discard_iff] using refused_execDelete_iff hguard _
    · exact refused_check_withTx_iff hguard fun tb => not_refused_deleteRawLocked tb _

theorem refused_purge_iff (model : Option Any) : Refused (b.purge model) ↔ b.Unconditioned := by
  rw [← unconditioned_clearSoftDeleteCondition]
  have hundel : b.clearSoftDeleteCondition.unsafeAllowEmptyWhere = false := hguard
  unfold purge
  split
  · rw [refused_discard_iff]
    exact refused_check_withTx_iff hundel fun tb => not_refused_lockCurrentRow_bind tb _ _
  · rw [refused_discard_iff]
    exact refused_execDelete_iff hundel _

theorem refused_restore_iff (model : Option Any) : Refused (b.restore model) ↔ b.Unconditioned := by
  rw [← unconditioned_clearSoftDeleteCondition]
  have hundel : b.clearSoftDeleteCondition.unsafeAllowEmptyWhere = false := hguard
  unfold restore
  split
  · rw [refused_discard_iff]
    exact refused_check_withTx_iff hundel fun tb => not_refused_lockCurrentRow_bind tb _ _
  · split
    · simpa only [refused_discard_iff] using refused_execUpdate_iff hundel _
    · exact refused_check_withTx_iff hundel fun tb => not_refused_loadRawHistoryColumn_bind tb _

/-- **Writes without a condition are refused**, unless the scope adds a condition; and an update
without data fails for another reason. -/
theorem unconditioned_write_refused_iff (op : Terminal) (hop : op.Guarded) :
    Refused (op.run b) ↔ b.Unconditioned ∧ op.HasData b := by
  cases op with
  | update data => exact refused_update_iff hguard data
  | delete model => exact (refused_delete_iff hguard model).trans (and_iff_left trivial).symm
  | purge model => exact (refused_purge_iff hguard model).trans (and_iff_left trivial).symm
  | restore model => exact (refused_restore_iff hguard model).trans (and_iff_left trivial).symm
  | _ => exact hop.elim

end Paths

/-- All notes, without a condition. -/
def allNotes : Builder := { table := "notes", softDeleteCondition := "deleted_at IS NULL" }

/-- All notes in the scope of one tenant, without history. -/
def tenantNotes : Builder :=
  { allNotes with
    scope := some fun _ _ => [("tenant_id", .int 7)]
    res := some ⟨none⟩
    historyTrackingDisabled := true }

/-- Without a scope, to delete all notes is refused. -/
theorem allNotes_delete_refused :
    Refused ((Terminal.delete none).run allNotes) :=
  (unconditioned_write_refused_iff rfl (.delete none) trivial).mpr
    ⟨⟨rfl, Or.inr rfl⟩, trivial⟩

/-- In a scope it is not, although the caller made no condition: all notes of the tenant are
deleted. -/
theorem tenantNotes_delete_not_refused :
    tenantNotes.wheres = [] ∧ tenantNotes.unsafeAllowEmptyWhere = false ∧
      ¬Issues (fun _ => False) ((Terminal.delete none).run tenantNotes) ∧
      ¬Refused ((Terminal.delete none).run tenantNotes) := by
  refine ⟨rfl, rfl, fun h => ?_, fun h => ?_⟩
  · exact (h.2 { instant := 0 }).1 _ rfl
  · exact nomatch (h.2 { instant := 0 }).1

end Kiya
