import Kiya.Db.Rows

/-!
# What `Retain` spares

`Retain` deletes the rows of a model whose keys are not in a list. The keys are protected by one
condition, `key NOT IN (…)`, which is added after the conditions of the builder and before those
of the callbacks. All of them stand in one flat list, joined by `AND` and `OR`: the protection
holds in one branch of the list, and a row that meets another branch is deleted whether it is
kept or not.

`strays` are these branches, and `Builder.unguarded` are they in the whole WHERE text, with the
soft-delete condition and the scope.
-/

namespace Kiya

open Sql Builder CondCall List Option

/-! ### The kept rows and their protection -/

/-- The key of the row is one of the kept ones. -/
def Kept (pkCol : String) (keepIDs : List Int) (r : Stored) : Prop :=
  ∃ k ∈ keepIDs, (r pkCol).toInt? = some k

/-- No row has a key that is not in a list with this key. -/
def ReadsNotIn (meaning : Stored → Atom Value → Truth) : Prop :=
  ∀ {col ids r}, Kept col ids r → meaning r (notInAtom col (ids.map .int)) = .false

namespace Builder

/-- The soft-delete condition that `Retain` leaves in force. -/
def retainSoft (b : Builder) (purge : Bool) : String :=
  if purge then "" else b.softDeleteCondition

/-- The branches `ts` of conditions that stand in parentheses, in the whole WHERE text: after the
last branch of the soft-delete condition, and before the scope. -/
def enclosing (soft : Terms (Atom Value)) (pending : List WhereClause) (ts : Terms (Atom Value)) :
    Terms (Atom Value) :=
  soft.dropLast ++ ts.flatMap fun t =>
    (if pending.isEmpty then [[]] else joinTerms (clauseTerms pending)).map
      fun g => soft.getLastD [] ++ t ++ g

/-- The branches of the WHERE text of `Retain` that the protection of the keys is not part of.
If the key column is no identifier, then there is no protection. -/
def unguarded (b : Builder) (pkCol : String) (keepIDs : List Int) (purge : Bool)
    (conds : List CondCall) : Terms (Atom Value) :=
  let c := b.retainBuilder pkCol keepIDs purge conds
  let soft := (softClause (b.retainSoft purge)).terms
  let before := clauseTerms b.wheres
  let after := clauseTerms (conds.flatMap clauses)
  if isIdent pkCol = false then c.applyScope.whereTerms.getD [[]]
  else if b.pendingScope.isEmpty && !hasOr c.wheres then
    strays ((if b.retainSoft purge = "" then [] else [(.and, soft)]) ++ before) after
  else enclosing soft b.pendingScope (strays before after)

/-- `Retain` gets as far as its statement: there is a table, and for a soft delete `deleted_at`
is among the selected columns. -/
def Writes (b : Builder) (purge : Bool) : Prop :=
  if b.retainSoft purge = "" then
    ∃ name, getTableNameFromModel b.dest = .ok name ∧
      (b.table ≠ "" ∨ sanitizeIdentifier name ≠ "")
  else b.table ≠ "" ∧ notSelected b.selects "deleted_at" = false

end Builder

/-! ### The WHERE text -/

section WhereText

variable {b : Builder} {pkCol : String} {keepIDs : List Int} {purge : Bool}
  {conds : List CondCall}

/-- The condition that protects the keys. -/
theorem clauses_notInList (hident : isIdent pkCol = true) (hplain : isPlain pkCol)
    (hne : keepIDs ≠ []) :
    ∃ w, (notInList pkCol (keepIDs.map .int)).clauses = [w] ∧ w.boolean = .and ∧
      w.terms = [[.atom (notInAtom pkCol (keepIDs.map .int))]] := by
  obtain ⟨hcol, hall⟩ : pkCol ≠ "" ∧ ∀ c ∈ pkCol.toList, isIdentChar c = true := by
    simpa [isIdent] using hident
  have hparse := parseText_not_in hcol (fun c hc => isWordChar_of_isIdentChar (hall c hc)) hplain
    (keepIDs.map Value.int)
  refine ⟨⟨.and, pkCol ++ (" NOT IN (" ++ placeholders (keepIDs.map .int) ++ ")"),
    keepIDs.map .int⟩, ?_, rfl, ?_⟩
  · simp [clauses, apply, whereNotIn, whereCol, hne, hcol,
      sanitizeIdentifier_of_isIdent hident, whereExpr]
  · refine (WhereClause.wellFormed_of_parseText ?_).2
    simpa [placeholders, String.append_assoc] using hparse

variable {I : Atom Value → Truth}

theorem exists_enclosing_iff (soft ts : Terms (Atom Value))
    (pending : List WhereClause) {es : List (Expr (Atom Value))}
    (hes : evalBranch I es = .true ↔ (∃ t ∈ ts, evalBranch I t = .true) ∧
      (pending ≠ [] → evalTerms I (joinTerms (clauseTerms pending)) = .true)) :
    evalTerms I (andTerms soft [es]) = .true ↔
      ∃ t ∈ enclosing soft pending ts, evalBranch I t = .true := by
  have hgroup : (pending ≠ [] → evalTerms I (joinTerms (clauseTerms pending)) = .true) ↔
      ∃ g ∈ (if pending.isEmpty then [[]] else joinTerms (clauseTerms pending)),
        evalBranch I g = .true := by
    split_ifs with hp
    · simp [List.isEmpty_iff.mp hp]
    · rw [evalTerms_eq_true]
      exact ⟨fun h => h (by simpa using hp), fun h _ => h⟩
  rw [evalTerms_andTerms_singleton, hes, hgroup, enclosing]
  simp only [mem_append, mem_flatMap, List.mem_map]
  constructor
  · rintro (⟨t, ht, htrue⟩ | ⟨hsoft, ⟨t, ht, htrue⟩, g, hg, htrue'⟩)
    · exact ⟨t, .inl ht, htrue⟩
    · refine ⟨_, .inr ⟨t, ht, g, hg, rfl⟩, ?_⟩
      rw [evalBranch_append, evalBranch_append, hsoft, htrue, htrue']
      rfl
  · rintro ⟨_, ht | ⟨t, ht, g, hg, rfl⟩, htrue⟩
    · exact .inl ⟨_, ht, htrue⟩
    · simp only [evalBranch_append, Truth.and_eq_true] at htrue
      exact .inr ⟨htrue.1.1, ⟨t, ht, htrue.1.2⟩, g, hg, htrue.2⟩

section Applied

variable {c : Builder} (hwf : c.WellFormed) (hscope : ∀ w ∈ c.scopeGroup, w.WellFormed)
  (hne : c.wheres ≠ [])
include hwf hscope hne

/-- Without a scope and without `OrWhere` the WHERE text is one flat list. -/
theorem whereTerms_flat (hpending : c.pendingScope = []) (hor : hasOr c.wheres = false) :
    c.applyScope.whereTerms = some (joinTerms
      ((if c.softDeleteCondition = "" then []
        else [(.and, (softClause c.softDeleteCondition).terms)]) ++ clauseTerms c.wheres)) := by
  have hwheres : c.applyScope.wheres = c.wheres := by
    rw [wheres_applyScope, hpending]
    rfl
  have hawf := wellFormed_applyScope hwf hscope
  split_ifs with hs
  · rw [whereTerms_of_no_soft hawf (by simpa using hs) (hwheres ▸ hne), hwheres]
    rfl
  · rw [whereTerms_of_soft_and hawf (by simpa using hs) (hwheres ▸ hne) (hwheres ▸ hor), hwheres,
      softDeleteCondition_applyScope]
    rfl

/-- With a scope, or with `OrWhere` and a soft-delete condition, the conditions stand in
parentheses. -/
theorem exists_branch_enclosed_iff (henclosed : c.pendingScope ≠ [] ∨ hasOr c.wheres = true)
    {ts : Terms (Atom Value)} (hts : evalTerms I (joinTerms (clauseTerms c.wheres)) = .true ↔
      ∃ t ∈ ts, evalBranch I t = .true) :
    evalTerms I (c.applyScope.whereTerms.getD [[]]) = .true ↔
      ∃ t ∈ enclosing (softClause c.softDeleteCondition).terms c.pendingScope ts,
        evalBranch I t = .true := by
  have hawf := wellFormed_applyScope hwf hscope
  have hempty : c.softDeleteCondition = "" → (softClause c.softDeleteCondition).terms = [] := by
    intro hs
    rw [hs]
    rfl
  by_cases hpending : c.pendingScope = []
  · have hwheres : c.applyScope.wheres = c.wheres := by
      rw [wheres_applyScope, hpending]
      rfl
    have hor := henclosed.resolve_left (not_not_intro hpending)
    by_cases hs : c.softDeleteCondition = ""
    · rw [whereTerms_of_no_soft hawf (by simpa using hs) (hwheres ▸ hne), hwheres, hempty hs,
        hpending, getD_some, hts]
      simp [enclosing]
    · obtain ⟨e, he, hterms⟩ := whereTerms_of_soft_or hawf (by simpa using hs) (hwheres ▸ hor)
      rw [hwheres] at he
      rw [hterms, softDeleteCondition_applyScope, getD_some]
      refine exists_enclosing_iff _ _ _ ?_
      simp [eval_ofTerms he, hts, hpending]
  · obtain ⟨e, hewf, heterms, heval⟩ := parenthesised_terms hne hwf.wheres
    obtain ⟨g, hgwf, hgterms, hgeval⟩ :=
      parenthesised_terms hpending (pendingScope_wellFormed hscope)
    have hwheres : c.applyScope.wheres =
        [parenthesised c.wheres, parenthesised c.pendingScope] := by
      rw [wheres_applyScope]
      simp [hpending, hne]
    have hjoin : joinTerms (clauseTerms [parenthesised c.wheres, parenthesised c.pendingScope]) =
        [[e, g]] := by
      simp [clauseTerms, heterms, hgterms, joinTerms]
    rw [whereTerms_of_and hawf (by simp [hwheres]) fun _ => by simp [hwheres, hasOr], hwheres,
      hjoin, softDeleteCondition_applyScope, getD_some]
    refine exists_enclosing_iff _ _ _ ?_
    simp [heval, hgeval, hts, hpending]

end Applied

/-- **Where the keys are not protected.** For a row whose key is kept, the WHERE text of `Retain`
is true exactly by one of the unguarded branches. -/
theorem exists_unguarded_iff (hkey : b.destKeyColumn = .ok pkCol) (hne : keepIDs ≠ [])
    (hwf : Terminal.WellFormed b (.retain keepIDs purge conds))
    (hscope : ∀ w ∈ b.scopeGroup, w.WellFormed)
    (hI : I (notInAtom pkCol (keepIDs.map .int)) = .false) :
    (∃ t ∈ (b.retainBuilder pkCol keepIDs purge conds).applyScope.whereTerms.getD [[]],
        evalBranch I t = .true) ↔
      ∃ t ∈ b.unguarded pkCol keepIDs purge conds, evalBranch I t = .true := by
  have hcwf : (b.retainBuilder pkCol keepIDs purge conds).WellFormed := by
    have hprepared := hwf.prepared
    rwa [Terminal.prepared_retain hkey] at hprepared
  unfold unguarded
  cases hident : isIdent pkCol with
  | false => simp
  | true =>
    simp only [Bool.true_eq_false, if_false]
    obtain ⟨w, hw, hwand, hwterms⟩ := clauses_notInList hident (hwf.key pkCol hkey) hne
    rw [retainBuilder_eq, flatMap_cons, hw, singleton_append] at hcwf ⊢
    set c : Builder := { b with
      wheres := b.wheres ++ w :: conds.flatMap clauses
      softDeleteCondition := if purge then "" else b.softDeleteCondition } with hc
    have hterms : clauseTerms c.wheres = clauseTerms b.wheres ++
        (.and, [[.atom (notInAtom pkCol (keepIDs.map .int))]]) ::
          clauseTerms (conds.flatMap clauses) := by
      simp [hc, clauseTerms, hwand, hwterms]
    have hwne : c.wheres ≠ [] := by simp [hc]
    have hbefore := complete_clauseTerms hwf.builder.wheres
    have hafter : ∀ p ∈ clauseTerms (conds.flatMap clauses), Complete p.2 := by
      refine complete_clauseTerms fun v hv => ?_
      obtain ⟨d, hd, hv⟩ := mem_flatMap.mp hv
      exact hwf.calls d hd v hv
    have hatom : (Expr.atom (notInAtom pkCol (keepIDs.map .int))).eval I ≠ .true := by
      simp [Expr.eval, hI]
    have hstrays := evalTerms_joinTerms_factor hatom hbefore hafter
    rw [← hterms] at hstrays
    rw [← evalTerms_eq_true]
    by_cases hflat : (b.pendingScope.isEmpty && !hasOr c.wheres) = true
    · rw [if_pos hflat]
      obtain ⟨hpending, hor⟩ : b.pendingScope = [] ∧ hasOr c.wheres = false := by simpa using hflat
      rw [whereTerms_flat hcwf hscope hwne hpending hor, getD_some, hterms, ← append_assoc]
      refine evalTerms_joinTerms_factor hatom (fun p hp => ?_) hafter
      rcases mem_append.mp hp with hp | hp
      · split_ifs at hp with hs
        · cases hp
        · obtain rfl := mem_singleton.mp hp
          exact (hcwf.soft hs).complete
      · exact hbefore p hp
    · rw [if_neg hflat]
      have henclosed : c.pendingScope ≠ [] ∨ hasOr c.wheres = true := by
        by_contra hno
        push Not at hno
        have hpending : b.pendingScope = [] := hno.1
        exact hflat (by simpa [hpending] using hno.2)
      exact exists_branch_enclosed_iff hcwf hscope hwne henclosed hstrays

end WhereText

/-! ### `Retain` -/

section Retain

variable {b : Builder} {pkCol : String} {keepIDs : List Int} {purge : Bool}
  {conds : List CondCall}

theorem isNil_dest (hkey : b.destKeyColumn = .ok pkCol) : isNil b.dest = false := by
  unfold destKeyColumn at hkey
  cases hd : b.dest with
  | nil => simp [hd] at hkey
  | _ => rfl

variable {model : Any} {t : Table} {id : Nat} {r : Stored} {d c : Builder} {name : String}
  {cond : Option Where}

/-- The clone for a `DELETE` of a model. -/
theorem deleteClone_eq (hnil : isNil model = false)
    (hname : getTableNameFromModel model = .ok name) :
    d.deleteClone model =
      if d.table = "" then
        if sanitizeIdentifier name = "" then .error .invalidTableName
        else .ok { d with table := sanitizeIdentifier name }
      else .ok d := by
  unfold deleteClone
  simp only [hnil, Bool.false_eq_true, if_false, hname]
  split_ifs with htable hsafe
  · simp [Except.bind, hsafe]
  · simp [Except.bind, hsafe]
  · simp [Except.bind, htable]

/-- The value that a soft delete writes. -/
def deletedAt (b : Builder) (time : GoTime) : Value :=
  if b.nullableCols.contains "deleted_at" && (Value.time time).isZero then .nil else .time time

theorem filterMapData_deleted_at (b : Builder) (time : GoTime) :
    b.filterMapData [("deleted_at", .time time)] =
      if notSelected b.selects "deleted_at" then [] else [("deleted_at", deletedAt b time)] := by
  have hident : sanitizeIdentifier "deleted_at" ≠ "" := by decide
  unfold filterMapData deletedAt
  cases hsel : notSelected b.selects "deleted_at" <;> simp [hident, hsel]

theorem columnsOf_deleted_at (v : Value) :
    columnsOf [("deleted_at", v)] = [("deleted_at", v)] := by
  have hident : sanitizeIdentifier "deleted_at" ≠ "" := by decide
  simp [columnsOf, GoMap.sortedKeys, hident, GoMap.get]

/-- A delete without a soft-delete condition is a `DELETE`. -/
theorem deleteAll_eq_of_hard (hsoft : c.softDeleteCondition = "") (model : Any) :
    c.deleteAll model = (do
      let clone ← check (c.applyScope.deleteClone model)
      let res ← execStmt clone (clone.build .delete)
      return res.1) := by
  unfold deleteAll execDelete
  simp only [softDeleteCondition_applyScope, hsoft]
  rfl

theorem exec_now_bind {α : Type} (sv : Server) (f : GoTime → DbM α) (db : Db) :
    sv.exec (now >>= f) db =
      sv.exec (f (db.clock db.ticks)) { db with ticks := db.ticks + 1 } := rfl

/-- A delete with a soft-delete condition is an `UPDATE` of `deleted_at`. -/
theorem deleteAll_eq_of_soft (hsoft : c.softDeleteCondition ≠ "") (model : Any) :
    c.deleteAll model = now >>= fun time =>
      if notSelected c.selects "deleted_at" then throw .emptyData
      else if c.table = "" then throw .tableRequired
      else do
        let res ← execStmt c.applyScope
          (c.applyScope.build (.update [("deleted_at", deletedAt c time)]))
        return res.1 := by
  unfold deleteAll execDelete
  simp only [softDeleteCondition_applyScope, hsoft, ne_eq, not_false_eq_true, if_true]
  refine congrArg (now >>= ·) (funext fun time => ?_)
  unfold execUpdate
  simp only [applyScope_of_applied (scopeApplied_applyScope c), Bool.not_true,
    Bool.false_eq_true, if_false, rowData, filterMapData_deleted_at]
  have hselects : c.applyScope.selects = c.selects := selects_applyScope c
  have htable : c.applyScope.table = c.table := by rw [applyScope_eq]
  have hdeleted : deletedAt c.applyScope time = deletedAt c time := by rw [applyScope_eq]; rfl
  rw [hselects, hdeleted]
  cases notSelected c.selects "deleted_at" with
  | true => rfl
  | false =>
    unfold requireTable
    rw [htable]
    by_cases htable : c.table = ""
    · simp only [htable, if_true]
      rfl
    · simp only [htable, if_false]
      rfl

/-- There is a clone for a `DELETE` only if there is a table. -/
theorem exists_name_of_deleteClone {d clone : Builder} (hnil : isNil model = false)
    (h : d.deleteClone model = .ok clone) :
    ∃ name, getTableNameFromModel model = .ok name ∧
      (d.table ≠ "" ∨ sanitizeIdentifier name ≠ "") := by
  cases hname : getTableNameFromModel model with
  | error e => simp [deleteClone, hnil, hname, Except.bind] at h
  | ok name =>
    refine ⟨name, rfl, ?_⟩
    by_contra hno
    push Not at hno
    rw [deleteClone_eq hnil hname, if_pos hno.1, if_pos hno.2] at h
    cases h

/-- With a table there is one. -/
theorem deleteClone_of_table (hnil : isNil model = false)
    (hname : getTableNameFromModel model = .ok name)
    (h : d.table ≠ "" ∨ sanitizeIdentifier name ≠ "") :
    ∃ clone, d.deleteClone model = .ok clone := by
  rw [deleteClone_eq hnil hname]
  split_ifs with htable hsafe
  · exact absurd hsafe (h.resolve_left (not_not_intro htable))
  · exact ⟨_, rfl⟩
  · exact ⟨_, rfl⟩

theorem retain_eq (hkey : b.destKeyColumn = .ok pkCol) : b.retain keepIDs purge conds =
      (b.retainBuilder pkCol keepIDs purge conds).deleteAll b.dest := by
  unfold retain
  rw [hkey]
  rfl

/-- `Retain` changes nothing of a builder but its conditions. -/
theorem retainBuilder_fields (b : Builder) (pkCol : String) (keepIDs : List Int) (purge : Bool)
    (conds : List CondCall) : let c := b.retainBuilder pkCol keepIDs purge conds
    c.softDeleteCondition = b.retainSoft purge ∧ c.table = b.table ∧ c.selects = b.selects ∧
      c.rawQuery = b.rawQuery ∧ c.scopeGroup = b.scopeGroup := by
  rw [retainBuilder_eq]
  exact ⟨rfl, rfl, rfl, rfl, rfl⟩

theorem SameCond.whereText_eq {b₀ b : Builder} (h : SameCond b₀ b) :
    b.whereText = b₀.whereText := by
  rw [whereText, whereText, h.wheres, h.soft]

section Exec

variable {sv : Server} (hkey : b.destKeyColumn = .ok pkCol)
include hkey

/-- A `Retain` that does not get as far as its statement writes nothing. -/
theorem tables_exec_retain_of_not_writes (h : ¬ b.Writes purge) (db : Db) :
    (sv.exec (b.retain keepIDs purge conds) db).2.tables = db.tables := by
  obtain ⟨hsoft, htable, hselects, -⟩ := retainBuilder_fields b pkCol keepIDs purge conds
  rw [retain_eq hkey]
  set c := b.retainBuilder pkCol keepIDs purge conds
  have hatable : c.applyScope.table = b.table := by
    rwa [applyScope_eq]
  unfold Writes at h
  by_cases hs : b.retainSoft purge = ""
  · rw [deleteAll_eq_of_hard (hsoft.trans hs)]
    cases hclone : c.applyScope.deleteClone b.dest with
    | error e => rfl
    | ok clone =>
      have hname := exists_name_of_deleteClone (isNil_dest hkey) hclone
      rw [hatable] at hname
      rw [if_pos hs] at h
      exact absurd hname h
  · rw [deleteAll_eq_of_soft (by rwa [hsoft])]
    rw [exec_now_bind, hselects, htable]
    rw [if_neg hs] at h
    split_ifs with hsel htab
    · rfl
    · rfl
    · exact absurd ⟨htab, by simpa using hsel⟩ h

section Statement

variable (hraw : b.rawQuery = "") (hwrites : b.Writes purge)
include hraw hwrites

/-- What a `Retain` without soft delete does. -/
theorem exec_retain_hard (hsoft : b.retainSoft purge = "") :
    ∃ name, ∀ db, (sv.exec (b.retain keepIDs purge conds) db).2 =
      db.set name (sv.deleted (db.tables name)
        (b.retainBuilder pkCol keepIDs purge conds).applyScope.whereText) := by
  obtain ⟨hcsoft, htable, -, hcraw, -⟩ := retainBuilder_fields b pkCol keepIDs purge conds
  rw [retain_eq hkey]
  set c := b.retainBuilder pkCol keepIDs purge conds
  rw [Writes, if_pos hsoft] at hwrites
  obtain ⟨name, hname, hne⟩ := hwrites
  have hatable : c.applyScope.table = b.table := by
    rwa [applyScope_eq]
  obtain ⟨clone, hclone⟩ := deleteClone_of_table (isNil_dest hkey) hname (hatable.symm ▸ hne)
  have hsame := (sameCond_applyScope c).deleteClone hclone
  have hstmt : clone.build .delete = clone.buildDelete := by
    have hcloneRaw : clone.rawQuery = "" := by
      rw [hsame.raw, rawQuery_applyScope, hcraw, hraw]
    rw [build.eq_def, if_neg (not_not_intro hcloneRaw)]
  refine ⟨clone.table, fun db => ?_⟩
  have hwrite : sv.exec (execStmt clone (clone.build .delete)) db =
      sv.write clone.buildDelete db := by
    rw [hstmt]
    rfl
  rw [deleteAll_eq_of_hard (hcsoft.trans hsoft), hclone, ← hsame.whereText_eq]
  change (sv.exec (execStmt clone (clone.build .delete) >>= fun res => pure res.1) db).2 = _
  rw [Server.exec_bind, hwrite]
  rfl

/-- What a `Retain` with soft delete does; without a column for it the statement fails. -/
theorem exec_retain_soft (hsoft : b.retainSoft purge ≠ "") (db : Db) :
    (sv.exec (b.retain keepIDs purge conds) db).2 =
      if "deleted_at" ∈ (db.tables b.table).columns then
        { db with ticks := db.ticks + 1 }.set b.table (sv.updated (db.tables b.table)
          (b.retainBuilder pkCol keepIDs purge conds).applyScope.whereText
          [("deleted_at", deletedAt b (db.clock db.ticks))])
      else { db with ticks := db.ticks + 1 } := by
  obtain ⟨hcsoft, htable, hselects, hcraw, -⟩ := retainBuilder_fields b pkCol keepIDs purge conds
  have hdeleted : ∀ time,
      deletedAt (b.retainBuilder pkCol keepIDs purge conds) time = deletedAt b time := by
    intro time
    rw [retainBuilder_eq]
    rfl
  rw [retain_eq hkey]
  set c := b.retainBuilder pkCol keepIDs purge conds
  rw [Writes, if_neg hsoft] at hwrites
  rw [deleteAll_eq_of_soft (by rwa [hcsoft])]
  set sets : GoMap Value := [("deleted_at", deletedAt b (db.clock db.ticks))] with hsets
  set db₁ : Db := { db with ticks := db.ticks + 1 }
  have hatable : c.applyScope.table = b.table := by
    rwa [applyScope_eq]
  have hstmt : ∃ head args, c.applyScope.build (.update sets) =
      { kind := .update sets, table := b.table, head := head, headArgs := args
        cond := c.applyScope.whereText } := by
    rw [build.eq_def, if_neg (not_not_intro (by simp [hcraw, hraw])), ← hatable]
    simp only [buildUpdate, hsets, columnsOf_deleted_at]
    exact ⟨_, _, rfl⟩
  obtain ⟨head, args, hstmt⟩ := hstmt
  have hexec : ∀ s, sv.exec (execStmt c.applyScope s) db₁ = sv.write s db₁ := fun _ => rfl
  rw [exec_now_bind, hselects, hwrites.2, if_neg (by simp), htable, if_neg hwrites.1, hdeleted,
    Server.exec_bind, hstmt, hexec]
  unfold Server.write
  dsimp only
  by_cases hcol : "deleted_at" ∈ (db.tables b.table).columns
  · rw [if_pos hcol, if_pos (by simpa [hsets] using hcol)]
    rfl
  · rw [if_neg hcol, if_neg (by simpa [hsets] using hcol)]

end Statement

end Exec

/-- A row that a condition does not find stays when the rows it finds are deleted. -/
theorem row_deleted_of_not_sat {sv : Server} (h : t.row id = some r)
    (hsat : sv.sat cond r = false) : (sv.deleted t cond).row id = some r := by
  rw [Table.row_eq_some_iff] at h ⊢
  exact mem_filter.mpr ⟨h, by simp [hsat]⟩

theorem row_deleted_of_sat {sv : Server} (hsat : sv.sat cond r = true) :
    (sv.deleted t cond).row id ≠ some r := by
  rw [ne_eq, Table.row_eq_some_iff]
  intro hmem
  have hnot := (mem_filter.mp hmem).2
  simp [hsat] at hnot

/-- Replacing a table by one with the same row keeps the row. -/
theorem Db.row_set {db : Db} {name n : String} (h : (db.tables n).row id = some r)
    (ht : (db.tables name).row id = some r → t.row id = some r) :
    ((db.set name t).tables n).row id = some r := by
  by_cases hn : n = name
  · subst hn
    rw [Db.tables_set_self]
    exact ht h
  · rwa [Db.tables_set_of_ne _ hn]

/-- A time that is not the one in a column. -/
theorem exists_deletedAt_ne (b : Builder) (v : DbVal) : ∃ time, (deletedAt b time).store ≠ v := by
  by_cases h : (deletedAt b ⟨0, 0, 0⟩).store = v
  · refine ⟨⟨1, 0, 0⟩, ?_⟩
    rw [← h]
    simp [deletedAt, Value.isZero, zeroInstant, Value.store]
  · exact ⟨_, h⟩

variable {sv : Server} {meaning : Stored → Atom Value → Truth}

/-- Which of the kept rows `Retain` finds. -/
theorem sat_retain_iff (hsql : sv.ReadsSql meaning) (hin : ReadsNotIn meaning)
    (hkey : b.destKeyColumn = .ok pkCol) (hne : keepIDs ≠ [])
    (hwf : Terminal.WellFormed b (.retain keepIDs purge conds))
    (hscope : ∀ w ∈ b.scopeGroup, w.WellFormed) (hkept : Kept pkCol keepIDs r) :
    sv.sat (b.retainBuilder pkCol keepIDs purge conds).applyScope.whereText r = true ↔
      ∃ t ∈ b.unguarded pkCol keepIDs purge conds, evalBranch (meaning r) t = .true := by
  have hcwf : (b.retainBuilder pkCol keepIDs purge conds).WellFormed := by
    have hprepared := hwf.prepared
    rwa [Terminal.prepared_retain hkey] at hprepared
  have hcscope := (retainBuilder_fields b pkCol keepIDs purge conds).2.2.2.2
  rw [hsql.sat_whereText_iff (wellFormed_applyScope hcwf (hcscope ▸ hscope)),
    exists_unguarded_iff hkey hne hwf hscope (hin hkept)]

/-- A `Retain` that writes deletes every row that its condition finds. -/
theorem exists_not_spared (hkey : b.destKeyColumn = .ok pkCol) (hraw : b.rawQuery = "")
    (hwrites : b.Writes purge)
    (hsat : sv.sat (b.retainBuilder pkCol keepIDs purge conds).applyScope.whereText r = true) :
    ∃ (db : Db) (name : String), (db.tables name).row 0 = some r ∧
      ((sv.exec (b.retain keepIDs purge conds) db).2.tables name).row 0 ≠ some r := by
  obtain ⟨time, htime⟩ := exists_deletedAt_ne b (r "deleted_at")
  let table : Table := ⟨["deleted_at"], [(0, r)], by simp⟩
  have hrow : table.row 0 = some r := rfl
  let db : Db := { tables := fun _ => table, clock := fun _ => time }
  by_cases hsoft : b.retainSoft purge = ""
  · obtain ⟨name, hexec⟩ := @exec_retain_hard b pkCol keepIDs purge conds sv hkey hraw hwrites hsoft
    refine ⟨db, name, hrow, ?_⟩
    rw [hexec, Db.tables_set_self]
    exact row_deleted_of_sat hsat
  · refine ⟨db, b.table, hrow, ?_⟩
    rw [exec_retain_soft hkey hraw hwrites hsoft, if_pos (mem_singleton.mpr rfl),
      Db.tables_set_self, ne_eq, Server.row_updated]
    rintro ⟨r₀, hr₀, heq⟩
    obtain rfl : r = r₀ := Option.some.inj (hrow.symm.trans hr₀)
    rw [if_pos hsat] at heq
    have hassign : assign [("deleted_at", deletedAt b time)] r "deleted_at" =
        (deletedAt b time).store := assign_of_get (by simp [GoMap.get]) r
    exact htime (hassign.symm.trans (congrFun heq.symm "deleted_at"))

/-- **When `Retain` spares the kept rows.** For a builder that is bound to a model and has no raw
query, any conditions, any keys and any callbacks: on every database no row with a kept key is
deleted or marked as deleted if and only if no such row meets an `OR` branch that the protection is
not part of, or `Retain` fails before its statement. -/
theorem kept_rows_spared_iff (hsql : sv.ReadsSql meaning) (hin : ReadsNotIn meaning)
    (hkey : b.destKeyColumn = .ok pkCol) (hraw : b.rawQuery = "") (hne : keepIDs ≠ [])
    (hwf : Terminal.WellFormed b (.retain keepIDs purge conds))
    (hscope : ∀ w ∈ b.scopeGroup, w.WellFormed) :
    (∀ (db : Db) (name : String) (id : Nat) (r : Stored), (db.tables name).row id = some r →
        Kept pkCol keepIDs r →
        ((sv.exec (b.retain keepIDs purge conds) db).2.tables name).row id = some r) ↔
      (b.Writes purge → ∀ r, Kept pkCol keepIDs r →
        ∀ t ∈ b.unguarded pkCol keepIDs purge conds, evalBranch (meaning r) t ≠ .true) := by
  constructor
  · intro hspared hwrites r hkept t ht htrue
    have hsat := (sat_retain_iff hsql hin hkey hne hwf hscope hkept).mpr ⟨t, ht, htrue⟩
    obtain ⟨db, name, hrow, hlost⟩ := exists_not_spared hkey hraw hwrites hsat
    exact hlost (hspared db name 0 r hrow hkept)
  · intro hguarded db name id r hrow hkept
    by_cases hwrites : b.Writes purge
    · have hsat : sv.sat (b.retainBuilder pkCol keepIDs purge conds).applyScope.whereText r =
          false := by
        rw [← Bool.not_eq_true, sat_retain_iff hsql hin hkey hne hwf hscope hkept]
        rintro ⟨t, ht, htrue⟩
        exact hguarded hwrites r hkept t ht htrue
      by_cases hsoft : b.retainSoft purge = ""
      · obtain ⟨table, hexec⟩ :=
          @exec_retain_hard b pkCol keepIDs purge conds sv hkey hraw hwrites hsoft
        rw [hexec]
        exact Db.row_set hrow fun hr => row_deleted_of_not_sat hr hsat
      · rw [exec_retain_soft hkey hraw hwrites hsoft]
        split_ifs
        · refine Db.row_set hrow fun hr => ?_
          exact Server.row_updated.mpr ⟨r, hr, by simp [hsat]⟩
        · exact hrow
    · rwa [tables_exec_retain_of_not_writes hkey hwrites]

end Retain

theorem mem_placeholderItems {v : Value} {vs : List Value} (h : v ∈ vs) :
    .arg v ∈ placeholderItems vs := by
  fun_induction placeholderItems vs with
  | case1 => cases h
  | case2 w => simpa using h
  | case3 w w' vs ih =>
    rcases mem_cons.mp h with rfl | h
    · exact mem_cons_self
    · exact mem_cons_of_mem _ (mem_cons_of_mem _ (ih h))

theorem readsNotIn_simpleMeaning : ReadsNotIn simpleMeaning := by
  rintro col ids r ⟨k, hk, hkey⟩
  have hmem : (.arg (.int k) : Item Value) ∈ placeholderItems (ids.map .int) :=
    mem_placeholderItems (List.mem_map_of_mem hk)
  simp [simpleMeaning, notInAtom, hkey, hmem, Truth.ofBool]

/-- Tasks with a level, whose table marks deleted rows. -/
def tasks : Builder :=
  { table := "tasks"
    softDeleteCondition := "deleted_at IS NULL"
    dest := .struct
      (Struct.zero ⟨"tasks", [{ name := "ID", kind := .int 64, db := "id,primary" }]⟩) }

theorem wellFormed_tasks_retain (op : CondCall) (hop : ∀ w ∈ op.clauses, w.WellFormed) :
    Terminal.WellFormed tasks (.retain [1, 2] false [op]) := by
  refine ⟨⟨by decide +kernel, fun _ => by decide +kernel⟩, by simpa [Terminal.calls] using hop, ?_⟩
  intro pkCol hpkCol
  have hkey : tasks.destKeyColumn = .ok "id" := rfl
  obtain rfl : "id" = pkCol := Except.ok.inj (hkey.symm.trans hpkCol)
  decide +kernel

/-- A task with a high level. -/
def highTask : Stored := fun c =>
  if c = "id" then .int 1 else if c = "level" then .int 9 else .null

/-- A database with this task. -/
def tasksDb : Db where
  tables _ := ⟨["id", "level", "deleted_at"], [(0, highTask)], by simp⟩
  clock _ := ⟨7, 0, 0⟩

/-- With a condition joined by `AND`, the task is spared. -/
theorem tasks_where_spared :
    (((sqlServer simpleMeaning).exec (tasks.retain [1, 2] false [.expr "level > ?" [.int 5]])
      tasksDb).2.tables "tasks").row 0 = some highTask := by
  refine (kept_rows_spared_iff (readsSql_sqlServer _) readsNotIn_simpleMeaning rfl rfl (by decide)
    (wellFormed_tasks_retain _ (by decide +kernel)) (by decide +kernel)).mpr ?_ tasksDb "tasks" 0
    highTask rfl ⟨1, by decide, rfl⟩
  intro _ r _ t ht
  have hnone : tasks.unguarded "id" [1, 2] false [.expr "level > ?" [.int 5]] = [] := by
    decide +kernel
  change t ∈ tasks.unguarded "id" _ _ _ at ht
  cases ht

/-- With a condition joined by `OR`, a task with a high level is marked as deleted though its key
is to be kept: the text is `deleted_at IS NULL AND (id NOT IN (?, ?) OR level > ?)`. -/
theorem tasks_orWhere_not_spared :
    ¬ ∀ (db : Db) (name : String) (id : Nat) (r : Stored), (db.tables name).row id = some r →
      Kept "id" [1, 2] r →
      (((sqlServer simpleMeaning).exec (tasks.retain [1, 2] false [.orExpr "level > ?" [.int 5]])
        db).2.tables name).row id = some r := by
  intro hspared
  have hrow := hspared tasksDb "tasks" 0 highTask rfl ⟨1, by decide, rfl⟩
  have hmarked : (((((sqlServer simpleMeaning).exec
      (tasks.retain [1, 2] false [.orExpr "level > ?" [.int 5]]) tasksDb).2.tables
        "tasks").row 0).map fun r => r "deleted_at") = some (.time 7) := by decide +kernel
  rw [hrow] at hmarked
  exact absurd hmarked (by decide +kernel)

end Kiya
