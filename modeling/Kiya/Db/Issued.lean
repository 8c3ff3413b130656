import Kiya.Db.Operations

/-!
# The statements an operation issues

Operations reach the database on many paths: clones of the builder, reads that lock, a soft
delete that is an update, a hard delete. `Issues P m` says that every statement on every path of
`m` has the property `P`, whatever the database answers; its rules follow the way operations
are put together.

Once the scope has been applied, no path changes the conditions any more. The main result,
`issues_run`, says so for every terminal operation: each of its statements is built from the
conditions of one builder, `Terminal.prepared`, after its scope was applied.
-/

namespace Kiya

open Builder

/-! ### Properties of all statements -/

/-- Every statement a program issues has the property `P`, whatever the database answers. -/
def Issues {α : Type} (P : Stmt → Prop) (m : DbM α) : Prop :=
  m.run.All (fun c => ∀ s, c.stmt = some s → P s) fun _ => True

variable {b : Builder}

namespace Issues

variable {α β : Type} {P P' : Stmt → Prop} {m : DbM α} {s : Stmt}

theorem mono (h : Issues P m) (hP : ∀ s, P s → P' s) : Issues P' m :=
  Prog.All.mono h (fun _ hc s hs => hP s (hc s hs)) fun _ _ => trivial

protected theorem pure (a : α) : Issues P (pure a : DbM α) := trivial

protected theorem throw (e : Err) : Issues P (throw e : DbM α) := trivial

variable {f : α → DbM β}

protected theorem bind (hm : Issues P m) (hf : ∀ a, Issues P (f a)) : Issues P (m >>= f) := by
  refine Prog.All.bind hm fun r _ => ?_
  cases r with
  | ok a => exact hf a
  | error e => trivial

theorem bind_pure {g : α → β} (hm : Issues P m) : Issues P (m >>= fun a => pure (g a)) :=
  Issues.bind hm fun _ => .pure _

/-- A search finds nothing, or the program goes on with what it finds. -/
theorem found_bind {m : DbM (Option α)} {f : Option α → DbM β} (hm : Issues P m)
    (hnone : Issues P (f none)) (hsome : ∀ a, Issues P (f (some a))) : Issues P (m >>= f) :=
  .bind hm fun
    | none => hnone
    | some a => hsome a

/-- After a check, its result is known. -/
theorem check_bind {r : Except Err α} (hf : ∀ a, r = .ok a → Issues P (f a)) :
    Issues P (check r >>= f) := by
  cases r with
  | ok a => exact hf a rfl
  | error e => exact trivial

theorem getRow (h : P s) : Issues P (getRow b s) :=
  And.intro (fun _ ht => Option.some.inj ht ▸ h) fun _ => trivial

theorem selectRows (h : P s) : Issues P (selectRows b s) :=
  And.intro (fun _ ht => Option.some.inj ht ▸ h) fun _ => trivial

theorem execStmt (h : P s) : Issues P (execStmt b s) :=
  And.intro (fun _ ht => Option.some.inj ht ▸ h) fun _ => trivial

theorem now : Issues P now := And.intro (fun _ hs => nomatch hs) fun _ => trivial

theorem beginTx : Issues P beginTx := And.intro (fun _ hs => nomatch hs) fun _ => trivial

theorem commit : Issues P commit := And.intro (fun _ hs => nomatch hs) fun _ => trivial

theorem rollback : Issues P rollback := And.intro (fun _ hs => nomatch hs) fun _ => trivial

theorem requireAffected (affected : Int) : Issues P (requireAffected affected) := by
  unfold Builder.requireAffected
  split_ifs
  · exact .throw _
  · exact .pure _

theorem withHistoryHint (h : Issues P m) : Issues P (withHistoryHint m) :=
  Prog.All.bind h fun _ _ => trivial

/-- A transaction issues no other statements than the function run in it. -/
theorem withTx {fn : Builder → DbM α} (h : Issues P (fn b))
    (htx : Issues P (fn b.intoTx)) : Issues P (b.withTx fn) := by
  unfold Builder.withTx
  split_ifs
  · exact h
  refine .bind Issues.beginTx fun _ => ?_
  refine .bind (Prog.All.bind htx fun _ _ => trivial) fun r => ?_
  cases r with
  | error e => exact .bind Issues.rollback fun _ => .throw e
  | ok a => exact .bind Issues.commit fun _ => .pure a

end Issues

/-! ### Conditions that stay as they are -/

/-- The builder `b` has the conditions of `b₀`, and its scope was applied. -/
structure SameCond (b₀ b : Builder) : Prop where
  wheres : b.wheres = b₀.wheres
  soft : b.softDeleteCondition = b₀.softDeleteCondition
  raw : b.rawQuery = b₀.rawQuery
  applied : b.scopeApplied = true

/-- The statement is built from the conditions of `b₀`. -/
def CondOf (b₀ : Builder) (s : Stmt) : Prop := ∃ b a, SameCond b₀ b ∧ s = b.build a

theorem applyScope_of_applied (h : b.scopeApplied = true) : b.applyScope = b := by
  rw [applyScope, if_pos h]

theorem sameCond_applyScope (b : Builder) : SameCond b.applyScope b.applyScope :=
  ⟨rfl, rfl, rfl, scopeApplied_applyScope b⟩

theorem exists_of_bind_eq_ok {α β : Type} {r : Except Err α} {f : α → Except Err β} {c : β}
    (h : r.bind f = .ok c) : ∃ a, r = .ok a ∧ f a = .ok c := by
  cases r with
  | error e => cases h
  | ok a => exact ⟨a, rfl, h⟩

namespace SameCond

variable {b₀ : Builder} (h : SameCond b₀ b)

include h

theorem condOf (a : Action) : CondOf b₀ (b.build a) := ⟨b, a, h, rfl⟩

theorem applyScope : SameCond b₀ b.applyScope := by
  rwa [applyScope_of_applied h.applied]

theorem withTable (name : String) : SameCond b₀ (b.withTable name) := by
  unfold Builder.withTable
  split_ifs
  · exact { h with }
  · exact h

theorem withCols (t : StructType) : SameCond b₀ (b.withCols t) := by
  unfold Builder.withCols
  split_ifs
  · exact { h with }
  · exact h

theorem ensureAuxCol (self : Struct) (structField colName : String) :
    SameCond b₀ (b.ensureAuxCol self structField colName) := by
  unfold Builder.ensureAuxCol
  split_ifs
  · exact h
  · exact { h with }

variable {c : Builder} {d : Any}

theorem findClone (hc : b.findClone d = .ok c) : SameCond b₀ c := by
  have hlimit : SameCond b₀ { b with limit := some 1 } := { h with }
  unfold Builder.findClone at hc
  split_ifs at hc
  · exact Except.ok.inj hc ▸ h
  obtain ⟨c', hc', hctable⟩ := exists_of_bind_eq_ok hc
  split_ifs at hctable
  obtain rfl := Except.ok.inj hctable
  split at hc'
  · exact Except.ok.inj hc' ▸ (hlimit.withCols _).withTable _
  · exact Except.ok.inj hc' ▸ (hlimit.withCols _).withTable _
  · split_ifs at hc'
    exact Except.ok.inj hc' ▸ hlimit
  · split_ifs at hc'
    exact Except.ok.inj hc' ▸ hlimit
  · cases hc'

theorem findAllClone (hc : b.findAllClone d = .ok c) : SameCond b₀ c := by
  unfold Builder.findAllClone at hc
  by_cases hraw : b.rawQuery ≠ ""
  · rw [if_pos hraw] at hc
    exact Except.ok.inj hc ▸ h
  rw [if_neg hraw] at hc
  obtain ⟨c', hc', hctable⟩ := exists_of_bind_eq_ok hc
  split_ifs at hctable
  obtain rfl := Except.ok.inj hctable
  split at hc'
  · exact Except.ok.inj hc' ▸ (h.withCols _).withTable _
  · exact Except.ok.inj hc' ▸ h
  · split_ifs at hc'
    · split at hc'
      · exact Except.ok.inj hc' ▸ h.withTable _
      · cases hc'
      · cases hc'
    · exact Except.ok.inj hc' ▸ h

theorem requireTable {name : String} (hc : b.requireTable name = .ok c) : SameCond b₀ c := by
  unfold Builder.requireTable at hc
  split_ifs at hc
  · exact Except.ok.inj hc ▸ { h with }
  · exact Except.ok.inj hc ▸ h

theorem deleteClone {model : Any} (hc : b.deleteClone model = .ok c) : SameCond b₀ c := by
  obtain ⟨c', hc', hctable⟩ := exists_of_bind_eq_ok hc
  split_ifs at hctable
  obtain rfl := Except.ok.inj hctable
  by_cases hnil : isNil model = true
  · rw [if_pos hnil] at hc'
    exact Except.ok.inj hc' ▸ h
  rw [if_neg hnil] at hc'
  obtain ⟨name, -, hname⟩ := exists_of_bind_eq_ok hc'
  split_ifs at hname
  · exact Except.ok.inj hname ▸ { h with }
  · exact Except.ok.inj hname ▸ h

theorem withActor (self : Struct) (structField colName : String) :
    SameCond b₀ (b.withActor self structField colName).2 := by
  unfold Builder.withActor
  split_ifs
  · exact h.ensureAuxCol ..
  · exact h

theorem withModifiedEntry (self old : Struct) (time : GoTime) :
    SameCond b₀ (b.withModifiedEntry self old time).2 := by
  unfold Builder.withModifiedEntry
  split_ifs
  · exact h
  simp only
  split
  · exact h
  · split_ifs
    · exact h
    · exact h.ensureAuxCol ..

theorem prepareUpdate (self old : Struct) (time : GoTime) :
    SameCond b₀ (b.prepareUpdate self old time).2 := (h.withModifiedEntry ..).withActor ..

end SameCond

/-! ### The paths of the operations

Operations apply the scope first, if it was not applied before. So the lemmas about them ask for
the conditions of `b.applyScope`; inside an operation, `SameCond.applyScope` gives them. -/

section Inner

variable {b₀ : Builder} (h : SameCond b₀ b)

include h

theorem issues_deleteStmt (model : Any) :
    Issues (CondOf b₀) (do
      let clone ← check (b.deleteClone model)
      let res ← execStmt clone (clone.build .delete)
      return res.1) := by
  refine .check_bind fun clone hclone => ?_
  exact .bind_pure (.execStmt ((h.deleteClone hclone).condOf _))

theorem issues_updateStmt (data : Any) :
    Issues (CondOf b₀) (do
      let row ← check (b.rowData data)
      if row.2.isEmpty then throw .emptyData
      let clone ← check (b.requireTable row.1)
      let res ← execStmt clone (clone.build (.update row.2))
      return res.1) := by
  refine .check_bind fun row _ => ?_
  simp only
  split
  · exact .throw _
  refine .check_bind fun clone hclone => ?_
  exact .bind_pure (.execStmt ((h.requireTable hclone).condOf _))

theorem issues_execHardDelete (hsoft : b₀.softDeleteCondition = "") (model : Any) :
    Issues (CondOf b₀) (b.execHardDelete model) := by
  have hclone : SameCond b₀ b.clearSoftDeleteCondition := ⟨h.wheres, hsoft.symm, h.raw, h.applied⟩
  exact issues_deleteStmt hclone model

/-- Inside `withTx` the conditions are the same. -/
theorem issues_withTx {α : Type} {fn : Builder → DbM α}
    (hfn : ∀ tb, SameCond b₀ tb → Issues (CondOf b₀) (fn tb)) : Issues (CondOf b₀) (b.withTx fn) :=
  Issues.withTx (hfn b h) (hfn _ { h with })

end Inner

section Reads

variable {b₀ : Builder} (h : SameCond b₀ b.applyScope)

include h

theorem issues_find (dest : Option Any) : Issues (CondOf b₀) (b.find dest) := by
  unfold find
  simp only
  split
  · exact .throw _
  refine .check_bind fun clone hclone => ?_
  exact .bind_pure (.getRow ((h.findClone hclone).condOf _))

theorem issues_findOrFail (dest : Option Any) : Issues (CondOf b₀) (b.findOrFail dest) := by
  exact .found_bind (issues_find h dest) (.throw _) fun _ => .pure _

theorem issues_findAll (dest : Option Any) : Issues (CondOf b₀) (b.findAll dest) := by
  unfold findAll
  simp only
  split
  · exact .throw _
  refine .check_bind fun clone hclone => ?_
  exact .selectRows ((h.findAllClone hclone).condOf _)

theorem issues_count : Issues (CondOf b₀) b.count := by
  have hclone : SameCond b₀ { b.applyScope with selects := ["COUNT(*)"] } := { h with }
  unfold count
  simp only
  split
  · exact .throw _
  exact .found_bind (.getRow (hclone.condOf _)) (.throw _) fun _ => .pure _

theorem issues_exist : Issues (CondOf b₀) b.exist := by
  have hclone : SameCond b₀ { b.applyScope with selects := ["1"], limit := some 1 } := { h with }
  unfold exist
  simp only
  split
  · exact .throw _
  exact .bind_pure (.getRow (hclone.condOf _))

theorem issues_paginate (dest : Any) (page perPage : Int) :
    Issues (CondOf b₀) (b.paginate dest page perPage) := by
  unfold paginate
  refine .bind (issues_count h) fun total => ?_
  split
  · exact .pure _
  · refine .bind_pure (issues_findAll (SameCond.applyScope ?_) _)
    exact { h with }

end Reads

section Writes

variable {b₀ : Builder} (h : SameCond b₀ b.applyScope)

include h

theorem issues_execUpdate (data : Any) (skipWhereCheck : Bool) :
    Issues (CondOf b₀) (b.execUpdate data skipWhereCheck) := by
  unfold execUpdate
  simp only
  split
  · exact .check_bind fun _ _ => issues_updateStmt h data
  · exact issues_updateStmt h data

theorem issues_execDelete (model : Any) (skipWhereCheck : Bool) :
    Issues (CondOf b₀) (b.execDelete model skipWhereCheck) := by
  unfold execDelete
  simp only
  split
  · exact .bind Issues.now fun _ => issues_execUpdate h.applyScope ..
  split
  · exact .check_bind fun _ _ => issues_deleteStmt h model
  · exact issues_deleteStmt h model

end Writes

section Locked

variable {b₀ tb : Builder} (h : SameCond b₀ tb)

include h

theorem issues_lockCurrentRow (self : Struct) : Issues (CondOf b₀) (tb.lockCurrentRow self) := by
  refine .bind (issues_find (SameCond.applyScope ?_) _) fun found => ?_
  · exact { h with }
  · split
    · exact .pure _
    · exact .pure _

theorem issues_loadRawHistoryColumn :
    Issues (CondOf b₀) (withHistoryHint tb.loadRawHistoryColumn) := by
  refine .withHistoryHint (.bind (issues_find (SameCond.applyScope ?_) _) ?_)
  · exact { h with }
  · intro found
    split
    · exact .pure _
    · exact .pure _

theorem issues_updateExistingOrNotFound (self : Struct) :
    Issues (CondOf b₀) (tb.updateExistingOrNotFound self) := by
  refine .found_bind (issues_lockCurrentRow h self) (.throw _) fun old => ?_
  refine .bind Issues.now fun time => ?_
  have hprep := h.prepareUpdate self old time
  refine .bind (issues_execUpdate hprep.applyScope _ _) fun affected => ?_
  exact .bind_pure (.requireAffected affected)

theorem issues_execLifecycle (data : GoMap Value) : Issues (CondOf b₀) (tb.execLifecycle data) := by
  have hclone : SameCond b₀ { tb with selects := [] } := { h with }
  exact .bind (issues_execUpdate hclone.applyScope _ _) Issues.requireAffected

end Locked

section WithHistory

variable {b₀ : Builder} (h : SameCond b₀ b.applyScope)

include h

theorem issues_updateWithHistory (self : Struct) : Issues (CondOf b₀) (b.updateWithHistory self) :=
  Issues.check_bind fun _ _ =>
    issues_withTx h fun _ htb => issues_updateExistingOrNotFound htb self

theorem issues_deleteWithHistory (self : Struct) :
    Issues (CondOf b₀) (b.deleteWithHistory self) := by
  refine .check_bind fun _ _ => issues_withTx h fun tb htb => ?_
  refine .found_bind (issues_lockCurrentRow htb self) (.throw _) fun old => ?_
  simp only
  split
  · rename_i hsoft
    have hsoft₀ : b₀.softDeleteCondition = "" := htb.soft ▸ hsoft
    exact .bind_pure (issues_execHardDelete htb hsoft₀ _)
  · refine .bind Issues.now fun _ => .bind Issues.now fun _ => ?_
    exact .bind_pure (issues_execLifecycle htb _)

theorem issues_updateMapWithHistory (data : GoMap Value) :
    Issues (CondOf b₀) (b.updateMapWithHistory data) := by
  refine .check_bind fun _ _ => issues_withTx h fun tb htb => ?_
  exact .found_bind (issues_loadRawHistoryColumn htb) (.throw _) fun _ =>
    .bind Issues.now fun _ => issues_execLifecycle htb _

theorem issues_deleteRawWithHistory (model : Any) :
    Issues (CondOf b₀) (b.deleteRawWithHistory model) := by
  refine .check_bind fun _ _ => issues_withTx h fun tb htb => ?_
  rw [deleteRawLocked]
  split
  · rename_i hsoft
    refine .bind (issues_exist htb.applyScope) fun found => ?_
    split
    · have hsoft₀ : b₀.softDeleteCondition = "" := htb.soft ▸ hsoft
      exact .bind_pure (issues_execHardDelete htb hsoft₀ model)
    · exact .throw _
  · exact .found_bind (issues_loadRawHistoryColumn htb) (.throw _) fun _ =>
      .bind Issues.now fun _ => .bind Issues.now fun _ => issues_execLifecycle htb _

theorem issues_update (data : Option Any) : Issues (CondOf b₀) (b.update data) := by
  unfold update
  split
  · exact .throw _
  · exact .bind_pure (issues_updateWithHistory h _)
  · split
    · exact .bind_pure (issues_execUpdate h _ _)
    · exact issues_updateMapWithHistory h _
  · exact .bind_pure (issues_execUpdate h _ _)

theorem issues_delete (model : Option Any) : Issues (CondOf b₀) (b.delete model) := by
  unfold delete
  split
  · exact .bind_pure (issues_deleteWithHistory h _)
  · split
    · exact .bind_pure (issues_execDelete h _ _)
    · exact issues_deleteRawWithHistory h _

end WithHistory

section Undeleted

variable {b₀ : Builder} (h : SameCond b₀ b.clearSoftDeleteCondition.applyScope)

include h

theorem issues_restoreWithHistory (self : Struct) :
    Issues (CondOf b₀) (b.restoreWithHistory self) := by
  refine .check_bind fun _ _ => issues_withTx h fun tb htb => ?_
  refine .found_bind (issues_lockCurrentRow htb self) (.throw _) fun old => ?_
  refine .bind Issues.now fun _ => ?_
  exact .bind_pure (issues_execLifecycle htb _)

theorem issues_restoreRawWithHistory : Issues (CondOf b₀) b.restoreRawWithHistory := by
  refine .check_bind fun _ _ => issues_withTx h fun tb htb => ?_
  exact .found_bind (issues_loadRawHistoryColumn htb) (.throw _) fun _ =>
    .bind Issues.now fun _ => issues_execLifecycle htb _

theorem issues_purgeWithModel (self : Struct) : Issues (CondOf b₀) (b.purgeWithModel self) := by
  have hsoft₀ : b₀.softDeleteCondition = "" := by
    rw [← h.soft, softDeleteCondition_applyScope]
    rfl
  refine .check_bind fun _ _ => issues_withTx h fun tb htb => ?_
  exact .found_bind (issues_lockCurrentRow htb self) (.throw _) fun _ =>
    .bind_pure (issues_execHardDelete htb hsoft₀ _)

theorem issues_purge (model : Option Any) : Issues (CondOf b₀) (b.purge model) := by
  unfold purge
  split
  · exact .bind_pure (issues_purgeWithModel h _)
  · exact .bind_pure (issues_execDelete h _ _)

theorem issues_restore (model : Option Any) : Issues (CondOf b₀) (b.restore model) := by
  unfold restore
  split
  · exact .bind_pure (issues_restoreWithHistory h _)
  · split
    · exact .bind_pure (issues_execUpdate h _ _)
    · exact issues_restoreRawWithHistory h

end Undeleted

/-! ### Terminal operations -/

/-- A terminal operation that reads or writes rows by a condition, with its arguments. -/
inductive Terminal where
  | find (dest : Option Any)
  | findOrFail (dest : Option Any)
  | findAll (dest : Option Any)
  | count
  | exist
  | paginate (dest : Any) (page perPage : Int)
  | update (data : Option Any)
  | updateAll (data : Any)
  | delete (model : Option Any)
  | deleteAll (data : Any)
  | purge (model : Option Any)
  | purgeAll (model : Option Any)
  | restore (model : Option Any)
  | retain (keepIDs : List Int) (hard : Bool) (conds : List CondCall)

namespace Terminal

/-- Run the operation. -/
def run (b : Builder) : Terminal → DbM Unit
  | .find dest => do let _ ← b.find dest
  | .findOrFail dest => do let _ ← b.findOrFail dest
  | .findAll dest => do let _ ← b.findAll dest
  | .count => do let _ ← b.count
  | .exist => do let _ ← b.exist
  | .paginate dest page perPage => do let _ ← b.paginate dest page perPage
  | .update data => b.update data
  | .updateAll data => do let _ ← b.updateAll data
  | .delete model => b.delete model
  | .deleteAll data => do let _ ← b.deleteAll data
  | .purge model => b.purge model
  | .purgeAll model => do let _ ← b.purgeAll model
  | .restore model => b.restore model
  | .retain keepIDs hard conds => do let _ ← b.retain keepIDs hard conds

/-- The builder whose conditions the statements of the operation have: `Retain` adds some, and
`Purge` and `Restore` see deleted rows. -/
def prepared (b : Builder) : Terminal → Builder
  | .purge _ => b.clearSoftDeleteCondition
  | .purgeAll _ => b.clearSoftDeleteCondition
  | .restore _ => b.clearSoftDeleteCondition
  | .retain keepIDs hard conds =>
    match b.destKeyColumn with
    | .ok pkCol => b.retainBuilder pkCol keepIDs hard conds
    | .error _ => b
  | _ => b

theorem prepared_retain {pkCol : String} (h : b.destKeyColumn = .ok pkCol)
    (keepIDs : List Int) (hard : Bool) (conds : List CondCall) :
    prepared b (.retain keepIDs hard conds) = b.retainBuilder pkCol keepIDs hard conds := by
  simp [prepared, h]

theorem prepared_retain_of_error {e : Err} (h : b.destKeyColumn = .error e)
    (keepIDs : List Int) (hard : Bool) (conds : List CondCall) :
    prepared b (.retain keepIDs hard conds) = b := by
  simp [prepared, h]

end Terminal

/-- **One set of conditions.** Every statement that a terminal operation issues is built from
the conditions of its prepared builder, after the scope was applied to them. -/
theorem issues_run (b : Builder) (op : Terminal) :
    Issues (CondOf (op.prepared b).applyScope) (op.run b) := by
  have h := sameCond_applyScope b
  have hundel := sameCond_applyScope b.clearSoftDeleteCondition
  cases op with
  | find dest => exact .bind_pure (issues_find h dest)
  | findOrFail dest => exact .bind_pure (issues_findOrFail h dest)
  | findAll dest => exact .bind_pure (issues_findAll h dest)
  | count => exact .bind_pure (issues_count h)
  | exist => exact .bind_pure (issues_exist h)
  | paginate dest page perPage =>
    exact .bind_pure (issues_paginate h dest page perPage)
  | update data => exact issues_update h data
  | updateAll data => exact .bind_pure (issues_execUpdate h _ _)
  | delete model => exact issues_delete h model
  | deleteAll data => exact .bind_pure (issues_execDelete h _ _)
  | purge model => exact issues_purge hundel model
  | purgeAll model => exact .bind_pure (issues_execDelete hundel _ _)
  | restore model => exact issues_restore hundel model
  | retain keepIDs hard conds =>
    refine .bind_pure (.check_bind fun pkCol hpkCol => ?_)
    rw [Terminal.prepared_retain hpkCol]
    exact issues_execDelete (sameCond_applyScope _) _ _

end Kiya
