import Kiya.Db.Where
import Kiya.Db.Issued

/-!
# The tenant scope

A scope function restricts every statement to rows with given values in some columns. The
builder adds the restriction as one condition in parentheses and puts the conditions before it
in parentheses too, so that no `OR` among them can get around it. The soft-delete condition is
not put in parentheses: it is written in front, followed by `AND`.

So for every terminal operation and each of its statements the restriction is enforced exactly if
the soft-delete condition in force cannot be met by one of its `OR` branches other than the last.
-/

namespace Kiya

open Sql Builder CondCall Terminal List

/-! ### What is to be enforced -/

/-- The atom `col = value`. -/
def scopeAtom (col : String) (value : Value) : Atom Value :=
  [.word col.toList, .sym '=', .arg value]

/-- The condition implies `col = value` for every entry whose column is an identifier. -/
def Enforces (conds : GoMap Value) (cond : Option Where) : Prop :=
  ∀ col value, conds.get col = some value → isIdent col = true →
    ∃ ts, (cond.bind fun w => parseText w.text w.args) = some ts ∧
      ∀ I, evalTerms I ts = .true → I (scopeAtom col value) = .true

/-- The scope names a column that is an identifier. -/
def NamesColumn (conds : GoMap Value) : Prop :=
  ∃ col value, conds.get col = some value ∧ isIdent col = true

/-- No `OR` branch of a condition but its last one can be true. -/
def LastBranchOnly (cond : String) : Prop :=
  ∀ t ∈ (softClause cond).terms.dropLast, ∀ I, evalBranch I t ≠ .true

/-- A name that is no keyword of the Boolean grammar. -/
def isPlain (col : String) : Prop := keyword col.toList = .plain

instance (col : String) : Decidable (isPlain col) := inferInstanceAs (Decidable (_ = _))

/-- A builder made by `Table`, with a scope function and resources, whose scope was neither
skipped nor applied yet, and without a nil pointer as its destination. -/
structure Builder.Scoped (b : Builder) (scope : ScopeFunc) (res : Res) : Prop where
  scope : b.scope = some scope
  res : b.res = some res
  notSkipped : b.scopeSkipped = false
  notApplied : b.scopeApplied = false
  dest : b.destIsNilPtr = false
  table : b.rawQuery = ""

/-- The conditions that a call adds. -/
def CondCall.clauses (c : CondCall) : List WhereClause := (c.apply {}).wheres

/-- The condition calls that an operation makes on behalf of the caller. -/
def Terminal.calls : Terminal → List CondCall
  | .retain _ _ conds => conds
  | _ => []

/-- The conditions of a builder and those an operation adds can be read. -/
structure Terminal.WellFormed (b : Builder) (op : Terminal) : Prop where
  builder : b.WellFormed
  calls : ∀ c ∈ op.calls, ∀ w ∈ c.clauses, w.WellFormed
  key : ∀ pkCol, b.destKeyColumn = .ok pkCol → isPlain pkCol

/-! ### Conditions in parentheses -/

theorem isWordChar_of_isIdentChar {c : Char} (h : isIdentChar c = true) : isWordChar c = true := by
  simp only [isIdentChar, Bool.or_eq_true, decide_eq_true_eq] at h
  simp only [isWordChar, Bool.or_eq_true, decide_eq_true_eq]
  exact .inl h

@[simp] theorem boolean_parenthesised (ws : List WhereClause) :
    (parenthesised ws).boolean = .and := rfl

variable {ws : List WhereClause} {k : String}

/-- Conditions in parentheses are one factor. -/
theorem parenthesised_ofTerms (hne : ws ≠ []) (h : ∀ w ∈ ws, w.WellFormed) :
    ∃ e, ofTerms (joinTerms (clauseTerms ws)) = some e ∧ (parenthesised ws).WellFormed ∧
      (parenthesised ws).terms = [[e]] := by
  obtain ⟨w, ws, rfl⟩ := exists_cons_of_ne_nil hne
  obtain ⟨e, he, hparen⟩ := parseText_paren (parseText_joinWheres h)
  obtain ⟨hwf, hterms⟩ := WhereClause.wellFormed_of_parseText (w := parenthesised (w :: ws)) hparen
  exact ⟨e, he, hwf, hterms⟩

theorem parenthesised_terms (hne : ws ≠ []) (h : ∀ w ∈ ws, w.WellFormed) :
    ∃ e, (parenthesised ws).WellFormed ∧ (parenthesised ws).terms = [[e]] ∧
      ∀ I, e.eval I = evalTerms I (joinTerms (clauseTerms ws)) := by
  obtain ⟨e, he, hwf, hterms⟩ := parenthesised_ofTerms hne h
  exact ⟨e, hwf, hterms, fun I => eval_ofTerms he⟩

/-! ### The condition of the scope -/

/-- The atoms of the scope, in the order in which they are written. -/
def scopeAtoms (conds : GoMap Value) : List (Atom Value) :=
  (conds.sortedKeys.filter fun k => sanitizeIdentifier k ≠ "").map fun k =>
    scopeAtom k ((conds.get k).getD .nil)

theorem isIdent_of_sanitizeIdentifier_ne (h : sanitizeIdentifier k ≠ "") : isIdent k = true := by
  by_contra hk
  exact h (sanitizeIdentifier_of_not_isIdent (by simpa using hk))

theorem parseText_of_isIdent (hident : isIdent k = true) (hplain : isPlain k)
    (v : Value) : parseText (k ++ " = ?") [v] = some [[.atom (scopeAtom k v)]] := by
  obtain ⟨hne, hall⟩ : k ≠ "" ∧ ∀ c ∈ k.toList, isIdentChar c = true := by
    simpa [isIdent] using hident
  exact parseText_equals hne (fun c hc => isWordChar_of_isIdentChar (hall c hc)) hplain v

section Group

variable {conds : GoMap Value} (hplain : ∀ p ∈ conds, isIdent p.1 = true → isPlain p.1)

include hplain

/-- The conditions of a scope can be read, as its atoms. -/
theorem wellFormed_scopeClauses :
    (∀ w ∈ scopeClauses conds, w.WellFormed) ∧
      clauseTerms (scopeClauses conds) =
        (scopeAtoms conds).map fun a => (Conn.and, [[Expr.atom a]]) := by
  have hterms : ∀ k ∈ conds.sortedKeys.filter fun k => sanitizeIdentifier k ≠ "",
      (⟨.and, sanitizeIdentifier k ++ " = ?", [(conds.get k).getD .nil]⟩ : WhereClause).WellFormed ∧
      (⟨.and, sanitizeIdentifier k ++ " = ?", [(conds.get k).getD .nil]⟩ : WhereClause).terms =
        [[.atom (scopeAtom k ((conds.get k).getD .nil))]] := by
    intro k hk
    obtain ⟨hmem, hne⟩ : k ∈ conds.sortedKeys ∧ sanitizeIdentifier k ≠ "" := by
      simpa using hk
    have hident := isIdent_of_sanitizeIdentifier_ne hne
    obtain ⟨p, hp, rfl⟩ := mem_map.mp (GoMap.mem_sortedKeys.mp hmem)
    refine WhereClause.wellFormed_of_parseText ?_
    simp only [sanitizeIdentifier_of_isIdent hident]
    exact parseText_of_isIdent hident (hplain p hp hident) _
  refine ⟨?_, ?_⟩
  · intro w hw
    obtain ⟨k, hk, rfl⟩ := mem_map.mp hw
    exact (hterms k hk).1
  · rw [clauseTerms, scopeClauses, scopeAtoms, map_map, map_map]
    refine map_congr_left fun k hk => ?_
    exact congrArg (Prod.mk Conn.and) (hterms k hk).2

/-- The conditions of a scope, in parentheses, are one factor that is true only if all atoms of
the scope are. -/
theorem parenthesised_scopeClauses (hne : scopeAtoms conds ≠ []) :
    ∃ e, (parenthesised (scopeClauses conds)).WellFormed ∧
      (parenthesised (scopeClauses conds)).terms = [[e]] ∧
      ∀ I, e.eval I = .true → ∀ a ∈ scopeAtoms conds, I a = .true := by
  obtain ⟨hwf, hterms⟩ := wellFormed_scopeClauses hplain
  have hgroup : scopeClauses conds ≠ [] := by
    intro hnil
    rw [hnil] at hterms
    exact hne (map_eq_nil_iff.mp hterms.symm)
  obtain ⟨e, hewf, heterms, heval⟩ := parenthesised_terms hgroup hwf
  refine ⟨e, hewf, heterms, fun I he a ha => ?_⟩
  obtain ⟨a₀, as, has⟩ := exists_cons_of_ne_nil hne
  have hjoin : joinTerms (clauseTerms (scopeClauses conds)) =
      [(scopeAtoms conds).map Expr.atom] := by
    have hfactors := joinTerms_factors (Expr.atom a₀) (as.map Expr.atom)
    rw [← map_cons, ← has, map_map] at hfactors
    rwa [hterms]
  rw [heval I, hjoin, evalTerms_cons, evalTerms_nil, Truth.or_false, evalBranch,
    Truth.all_eq_true] at he
  exact he (I a) (mem_map.mpr ⟨.atom a, mem_map_of_mem ha, rfl⟩)

end Group

/-! ### The WHERE text of a scoped builder -/

section Scoped

variable {c : Builder} {scope : ScopeFunc} {res : Res}

/-- What `applyScope` does if nothing keeps it from applying. -/
theorem Builder.Scoped.wheres_applyScope (hs : c.Scoped scope res)
    (hgroup : scopeClauses (scope c.scopeFields res) ≠ []) :
    c.applyScope.wheres = (if c.wheres.isEmpty then [] else [parenthesised c.wheres]) ++
      [parenthesised (scopeClauses (scope c.scopeFields res))] := by
  have hscope : c.scopeGroup = scopeClauses (scope c.scopeFields res) := by
    simp [scopeGroup, hs.scope, hs.res, hs.notSkipped, hs.dest]
  rw [applyScope, if_neg (by simp [hs.notApplied])]
  by_cases hw : c.wheres = []
  · simp [scopedWheres, hscope, hw, hgroup]
  · simp [scopedWheres, hscope, hw, hgroup]

/-- **The WHERE text of a scoped builder**: the soft-delete condition, and one branch that is
true only if all atoms of the scope are. -/
theorem Builder.Scoped.whereTerms_applyScope (hs : c.Scoped scope res) (hwf : c.WellFormed)
    (hplain : ∀ p ∈ scope c.scopeFields res, isIdent p.1 = true → isPlain p.1)
    (hne : scopeAtoms (scope c.scopeFields res) ≠ []) :
    ∃ es, c.applyScope.whereTerms = some (andTerms (softClause c.softDeleteCondition).terms [es]) ∧
      ∀ I, evalBranch I es = .true → ∀ a ∈ scopeAtoms (scope c.scopeFields res), I a = .true := by
  set conds := scope c.scopeFields res with hconds
  obtain ⟨e, hewf, heterms, heval⟩ := parenthesised_scopeClauses hplain hne
  have hgroup : scopeClauses conds ≠ [] := by
    intro hnil
    rw [scopeClauses, map_eq_nil_iff] at hnil
    exact hne (by rw [scopeAtoms, hnil, map_nil])
  have hwheres := hs.wheres_applyScope hgroup
  -- the conditions are single factors, joined by `AND`; the last is that of the scope
  obtain ⟨fs, hfs, hfwf⟩ : ∃ fs : List (Expr (Atom Value)),
      clauseTerms c.applyScope.wheres = (fs ++ [e]).map (fun f => (Conn.and, [[f]])) ∧
      ∀ w ∈ c.applyScope.wheres, w.WellFormed := by
    rw [hwheres]
    by_cases hw : c.wheres = []
    · refine ⟨[], ?_, by simpa [hw] using hewf⟩
      simp [hw, clauseTerms, ← hconds, heterms]
    · obtain ⟨e₁, hwf₁, hterms₁, -⟩ := parenthesised_terms hw hwf.wheres
      refine ⟨[e₁], ?_, by simpa [hw] using ⟨hwf₁, hewf⟩⟩
      simp [hw, clauseTerms, ← hconds, heterms, hterms₁]
  obtain ⟨f, gs, hcons⟩ := exists_cons_of_ne_nil (show fs ++ [e] ≠ [] by simp)
  have hjoin : joinTerms (clauseTerms c.applyScope.wheres) = [fs ++ [e]] := by
    rw [hfs, hcons, joinTerms_factors]
  have hwf' : c.applyScope.WellFormed :=
    ⟨hfwf, by rw [softDeleteCondition_applyScope]; exact hwf.soft⟩
  have hne' : c.applyScope.wheres ≠ [] := by simp [hwheres]
  have hor : hasOr c.applyScope.wheres = false := by
    rw [hwheres]
    split_ifs <;> simp [hasOr]
  refine ⟨fs ++ [e], ?_, ?_⟩
  · rw [whereTerms_of_and hwf' hne' fun _ => hor, hjoin, softDeleteCondition_applyScope]
  · intro I hes
    rw [evalBranch_append, Truth.and_eq_true] at hes
    refine heval I ?_
    simpa using hes.2

/-- **When a scoped builder enforces its scope.** -/
theorem Builder.Scoped.enforces_iff (hs : c.Scoped scope res) (hwf : c.WellFormed)
    (hplain : ∀ p ∈ scope c.scopeFields res, isIdent p.1 = true → isPlain p.1)
    (hsome : NamesColumn (scope c.scopeFields res)) :
    Enforces (scope c.scopeFields res) c.applyScope.whereText ↔
      LastBranchOnly c.softDeleteCondition := by
  have hmem : ∀ col value, (scope c.scopeFields res).get col = some value →
      isIdent col = true → scopeAtom col value ∈ scopeAtoms (scope c.scopeFields res) := by
    intro col value hget hident
    refine mem_map.mpr ⟨col, mem_filter.mpr ⟨GoMap.mem_sortedKeys_of_get hget, ?_⟩, ?_⟩
    · have hne : col ≠ "" := by
        rintro rfl
        cases hident
      simpa [sanitizeIdentifier_of_isIdent hident] using hne
    · rw [hget]
      rfl
  obtain ⟨col₀, value₀, hget₀, hident₀⟩ := hsome
  obtain ⟨es, hterms, hes⟩ := hs.whereTerms_applyScope hwf hplain
    (ne_nil_of_mem (hmem _ _ hget₀ hident₀))
  constructor
  · -- a branch that stands alone is met by a row of any tenant
    intro henf t ht I hI
    have hsoft : c.softDeleteCondition ≠ "" := by
      intro hempty
      rw [hempty] at ht
      cases ht
    have hparse := (hwf.soft hsoft).parseText_eq
    have hnoarg := forall_termAtoms_of_parseText hparse
    set J : Atom Value → Truth := fun a => if a.any Item.isArg then .false else I a with hJ
    have hJt : evalBranch J t = .true := by
      rw [← hI]
      refine evalBranch_congr (dropLast_subset _ ht) fun a ha => ?_
      have hany : a.any Item.isArg = false := by
        simpa using hnoarg a ha
      simp only [hJ, hany]
      rfl
    obtain ⟨ts, hts, himp⟩ := henf col₀ value₀ hget₀ hident₀
    obtain rfl : ts = _ := Option.some.inj (hts.symm.trans hterms)
    have hfalse := himp J ((evalTerms_andTerms_singleton _ es).mpr (.inl ⟨t, ht, hJt⟩))
    simp [hJ, scopeAtom, Item.isArg] at hfalse
  · intro hlast col value hget hident
    refine ⟨_, hterms, fun I hI => ?_⟩
    refine hes I ?_ _ (hmem col value hget hident)
    rcases (evalTerms_andTerms_singleton _ es).mp hI with ⟨t, ht, htrue⟩ | ⟨-, htrue⟩
    · exact absurd htrue (hlast t ht I)
    · exact htrue

end Scoped

/-! ### The terminal operations -/

section Prepared

variable {b : Builder}

/-- A condition call adds its conditions and changes nothing else. -/
theorem CondCall.apply_eq (b : Builder) (c : CondCall) :
    c.apply b = { b with wheres := b.wheres ++ c.clauses } := by
  have hcol : ∀ (col rest : String) (args : List Value),
      b.whereCol col rest args =
        { b with wheres := b.wheres ++ (({} : Builder).whereCol col rest args).wheres } := by
    intro col rest args
    unfold whereCol
    split_ifs
    · simp
    · rfl
  cases c with
  | expr | orExpr => rfl
  | inList col vals =>
    simp only [clauses, apply, whereIn]
    split_ifs
    · simp
    · rfl
    · exact hcol ..
  | notInList col vals =>
    simp only [clauses, apply, whereNotIn]
    split_ifs
    · simp
    · exact hcol ..
  | _ => exact hcol ..

theorem foldl_apply_eq (b : Builder) (cs : List CondCall) : cs.foldl apply b =
      { b with wheres := b.wheres ++ cs.flatMap clauses } := by
  induction cs generalizing b with
  | nil => simp
  | cons c cs ih => rw [foldl_cons, ih, apply_eq]; simp

/-- What `Retain` makes of a builder. -/
theorem retainBuilder_eq (b : Builder) (pkCol : String) (keepIDs : List Int) (hard : Bool)
    (conds : List CondCall) :
    b.retainBuilder pkCol keepIDs hard conds = { b with
        wheres := b.wheres ++
          (notInList pkCol (keepIDs.map .int) :: conds).flatMap clauses
        softDeleteCondition := if hard then "" else b.softDeleteCondition } := by
  have hfold := foldl_apply_eq b (notInList pkCol (keepIDs.map .int) :: conds)
  rw [foldl_cons] at hfold
  unfold retainBuilder
  simp only
  rw [show b.whereNotIn pkCol (keepIDs.map .int) =
    apply b (.notInList pkCol (keepIDs.map .int)) from rfl, hfold]
  split_ifs <;> rfl

theorem wellFormed_notInList {col : String} (hplain : isPlain col) (vals : List Value) :
    ∀ w ∈ (notInList col vals).clauses, w.WellFormed := by
  intro w hw
  simp only [clauses, apply, whereNotIn, whereCol] at hw
  split_ifs at hw with hvals hcol
  · cases hw
  · cases hw
  have hident := isIdent_of_sanitizeIdentifier_ne hcol
  obtain rfl : w = _ := mem_singleton.mp hw
  obtain ⟨hne, hall⟩ : col ≠ "" ∧ ∀ c ∈ col.toList, isIdentChar c = true := by
    simpa [isIdent] using hident
  have hword := fun c hc => isWordChar_of_isIdentChar (hall c hc)
  have hparse := parseText_not_in hne hword hplain vals
  rw [WhereClause.WellFormed, sanitizeIdentifier_of_isIdent hident]
  exact Option.isSome_iff_exists.mpr ⟨_, by simpa [placeholders, String.append_assoc] using hparse⟩

theorem Terminal.WellFormed.prepared {op : Terminal} (h : op.WellFormed b) :
    (op.prepared b).WellFormed := by
  have hundel : b.clearSoftDeleteCondition.WellFormed :=
    ⟨h.builder.wheres, fun hne => absurd rfl hne⟩
  cases op with
  | purge | purgeAll | restore => exact hundel
  | retain keepIDs hard conds =>
    cases hkey : b.destKeyColumn with
    | error e =>
      rw [prepared_retain_of_error hkey]
      exact h.builder
    | ok pkCol =>
      rw [prepared_retain hkey, retainBuilder_eq]
      refine ⟨fun w hw => ?_, ?_⟩
      · rcases mem_append.mp hw with hw | hw
        · exact h.builder.wheres w hw
        · obtain ⟨c, hc, hwc⟩ := mem_flatMap.mp hw
          rcases mem_cons.mp hc with rfl | hc
          · exact wellFormed_notInList (h.key pkCol hkey) _ w hwc
          · exact h.calls c hc w hwc
      · cases hard with
        | false => exact h.builder.soft
        | true => exact fun hne => absurd rfl hne
  | _ => exact h.builder

theorem Builder.Scoped.prepared {scope : ScopeFunc} {res : Res} (hs : b.Scoped scope res)
    (op : Terminal) :
    (op.prepared b).Scoped scope res ∧ (op.prepared b).scopeFields = b.scopeFields := by
  cases op with
  | retain keepIDs hard conds =>
    cases hkey : b.destKeyColumn with
    | error e =>
      rw [prepared_retain_of_error hkey]
      exact ⟨hs, rfl⟩
    | ok pkCol =>
      rw [prepared_retain hkey, retainBuilder_eq]
      exact ⟨{ hs with }, rfl⟩
  | _ => exact ⟨{ hs with }, rfl⟩

/-- A statement built from given conditions that reads or writes rows by a condition has the
WHERE text of these. -/
theorem CondOf.cond_eq {b₀ : Builder} {s : Stmt} (h : CondOf b₀ s)
    (hkind : s.kind.isConditional = true) : s.cond = b₀.whereText := by
  obtain ⟨b, a, hb, rfl⟩ := h
  rw [cond_build hkind, whereText, whereText, hb.wheres, hb.soft]

/-- **When the tenant scope is enforced.** For a builder with a scope and any first terminal
operation, each `SELECT`, `UPDATE` and `DELETE` it issues, whatever the database answers, is
restricted to the scope if and only if the soft-delete condition in force cannot be met by an
`OR` branch other than its last, or the scope names no column. -/
theorem scope_enforced_iff {scope : ScopeFunc} {res : Res} (hs : b.Scoped scope res)
    {op : Terminal} (hwf : op.WellFormed b)
    (hplain : ∀ p ∈ scope b.scopeFields res, isIdent p.1 = true → isPlain p.1) :
    Issues (fun s => s.kind.isConditional = true →
      (Enforces (scope b.scopeFields res) s.cond ↔
        (NamesColumn (scope b.scopeFields res) →
          LastBranchOnly (op.prepared b).softDeleteCondition))) (op.run b) := by
  obtain ⟨hs', hfields⟩ := hs.prepared op
  refine (issues_run b op).mono fun s hcond hkind => ?_
  by_cases hsome : NamesColumn (scope b.scopeFields res)
  · have hiff := hs'.enforces_iff hwf.prepared (by rwa [hfields]) (by rwa [hfields])
    rw [hfields, ← hcond.cond_eq hkind] at hiff
    simpa [hsome] using hiff
  · -- nothing is to be enforced
    have hnone : Enforces (scope b.scopeFields res) s.cond :=
      fun col value hget hident => absurd ⟨col, value, hget, hident⟩ hsome
    simp [hsome, hnone]

end Prepared

/-- The users of one tenant, with a condition that has an `OR` of its own. -/
def tenantUsers (soft : String) : Builder :=
  ({ table := "users"
     softDeleteCondition := soft
     dest := .struct
       (Struct.zero ⟨"users", [{ name := "ID", kind := .int 64, db := "id,primary" }]⟩)
     scope := some fun _ _ => [("tenant_id", .int 7)]
     res := some ⟨none⟩ } : Builder)
    |>.whereExpr "role = ? OR owner = ?" [.str (.text "admin"), .int 3]

/-- With the soft-delete condition of a model, `Retain` stays in the scope, also if a callback
adds an `OR`. -/
theorem tenantUsers_retain_enforced :
    Issues (fun s => s.kind.isConditional = true → Enforces [("tenant_id", .int 7)] s.cond)
      (run (tenantUsers "deleted_at IS NULL")
        (.retain [1, 2] false [.orExpr "level > ?" [.int 5]])) := by
  have hkey : (tenantUsers "deleted_at IS NULL").destKeyColumn = .ok "id" := rfl
  have hwf : WellFormed (tenantUsers "deleted_at IS NULL")
      (.retain [1, 2] false [.orExpr "level > ?" [.int 5]]) := by
    refine ⟨⟨by decide +kernel, fun _ => by decide +kernel⟩, by decide +kernel, ?_⟩
    intro pkCol hpkCol
    obtain rfl : "id" = pkCol := Except.ok.inj (hkey.symm.trans hpkCol)
    decide +kernel
  have hiff := @scope_enforced_iff (tenantUsers "deleted_at IS NULL")
    (fun _ _ => [("tenant_id", .int 7)]) ⟨none⟩ ⟨rfl, rfl, rfl, rfl, rfl, rfl⟩ _ hwf
    (by decide +kernel)
  have hlast : LastBranchOnly "deleted_at IS NULL" := by
    have hterms : (softClause "deleted_at IS NULL").terms.dropLast = [] := by decide +kernel
    intro t ht
    rw [hterms] at ht
    cases ht
  exact hiff.mono fun s h hkind => (h hkind).mpr fun _ => hlast

/-- A soft-delete condition with an `OR` lets rows of every tenant through: the text is
`deleted_at IS NULL OR deleted_at > now() AND (role = ? OR owner = ?) AND (tenant_id = ?)`. -/
theorem tenantUsers_count_not_enforced :
    ¬ Issues (fun s => s.kind.isConditional = true → Enforces [("tenant_id", .int 7)] s.cond)
      (run (tenantUsers "deleted_at IS NULL OR deleted_at > now()") .count) := by
  rintro ⟨hfirst, -⟩
  obtain ⟨ts, hts, himp⟩ := hfirst _ rfl rfl "tenant_id" (.int 7) (by decide +kernel)
    (by decide +kernel)
  have hterms : (tenantUsers "deleted_at IS NULL OR deleted_at > now()").applyScope.whereTerms =
      some [[.atom notDeleted],
        [.atom [.word "deleted_at".toList, .sym '>', .word "now".toList, .lparen, .rparen],
          .or (.atom (scopeAtom "role" (.str (.text "admin"))))
            (.atom (scopeAtom "owner" (.int 3))),
          .atom (scopeAtom "tenant_id" (.int 7))]] := by decide +kernel
  obtain rfl := Option.some.inj (hterms.symm.trans hts)
  -- a row that is not deleted, of another tenant
  have hother := himp (fun a => .ofBool (a = notDeleted)) (by decide +kernel)
  exact absurd hother (by decide +kernel)

end Kiya
