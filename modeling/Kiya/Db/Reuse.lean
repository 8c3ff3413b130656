import Kiya.Db.Rows
import Kiya.Lib.Sql.Flat

/-!
# A builder that is used again

A query can be shaped and read in turns: conditions are added, rows are counted, more conditions
are added. The reads work on a clone, but not all they do is done to the clone. The first read puts
the conditions so far in parentheses, adds the scope after them and will not do so again; and a
`Paginate` that finds rows leaves its limit and offset behind.

So what comes after a read differs from what a fresh builder with the same calls would issue: the
conditions added after the first read stand behind the scope and not under it, and a count is
limited to a page. `Undisturbed` says when this does not happen.
-/

namespace Kiya

open Sql Builder
open List hiding count

/-! ### Calls that shape a query -/

/-- `strings.ToLower` on one character, as far as an ASCII letter comes out of it. -/
def lowerChar (c : Char) : Char :=
  if c.toNat = 0x130 then 'i' else if c.toNat = 0x212a then 'k' else c.toLower

/-- Does a text contain another? -/
def containsText (cs : List Char) (w : String) : Bool := w.toList <:+: cs

/-- The characters of an `ORDER BY` expression. -/
def isOrderChar (c : Char) : Bool :=
  isIdentChar c || c = ',' || c.toNat ∈ [0x9, 0xa, 0xc, 0xd, 0x20]

/-- `SanitizeOrderBy`. -/
def sanitizeOrderBy (expr : String) : String :=
  let cs := trimSpace expr.toList
  if cs.isEmpty then ""
  else if ["select", "case", "when"].any (containsText (cs.map lowerChar)) then ""
  else if cs.all isOrderChar then String.ofList cs
  else ""

/-- `SanitizeOnClause`. -/
def sanitizeOnClause (on : String) : String :=
  if ["--", "/*", ";", "(", ")"].any (containsText on.toList) then "1=0"
  else if ["select ", " union "].any (containsText (on.toList.map lowerChar)) then "1=0"
  else on

/-- A call that shapes a query. -/
inductive BuilderCall where
  | cond (c : CondCall)
  | join (table on typ : String)
  | groupBy (cols : List String)
  | having (expr : String) (args : List Value)
  | orderBy (expr : String)
  | limit (n : Int)
  | offset (n : Int)

/-- Make the call. -/
def BuilderCall.apply (b : Builder) : BuilderCall → Builder
  | .cond c => c.apply b
  | .join table on typ =>
    if sanitizeIdentifier table = "" then b
    else { b with joins := b.joins ++ [⟨typ, sanitizeIdentifier table, sanitizeOnClause on⟩] }
  | .groupBy cols =>
    { b with groupBys := b.groupBys ++ (cols.map sanitizeIdentifier).filter fun c => c ≠ "" }
  | .having expr args => { b with havings := b.havings ++ [⟨.and, expr, args⟩] }
  | .orderBy expr =>
    if sanitizeOrderBy expr = "" then b
    else { b with orderBys := b.orderBys ++ [sanitizeOrderBy expr] }
  | .limit n => { b with limit := some n }
  | .offset n => { b with offset := some n }

/-- The conditions that a call adds. -/
def BuilderCall.clauses : BuilderCall → List WhereClause
  | .cond c => c.clauses
  | _ => []

/-! ### Reads -/

/-- A read whose statements are compared. -/
inductive Read where
  | find (dest : Option Any)
  | findAll (dest : Option Any)
  | count

/-- Run the read. -/
def Read.run (b : Builder) : Read → DbM Unit
  | .find dest => do let _ ← b.find dest
  | .findAll dest => do let _ ← b.findAll dest
  | .count => do let _ ← b.count

/-- What can be done with a builder. -/
inductive Use where
  | call (c : BuilderCall)
  | read (q : Read)
  | exist
  | paginate (dest : Any) (page perPage : Int)

/-- What a use does to the builder: a read applies the scope, and `Paginate` sets limit and offset
if it finds rows. -/
inductive UseEffect where
  | call (c : BuilderCall)
  | read
  | paged (page perPage : Int)

open UseEffect

/-- The builder after an effect. -/
def UseEffect.apply (b : Builder) : UseEffect → Builder
  | .call c => c.apply b
  | .read => b.applyScope
  | .paged page perPage => b.applyScope.pageBuilder page perPage

/-- Use a builder. What a read returns, be it an error, is up to the caller, who goes on. -/
def Use.run (b : Builder) : Use → Prog Cmd Cmd.Resp UseEffect
  | .call c => pure (.call c)
  | .read q => do
    let _ ← (q.run b).run
    pure .read
  | .exist => do
    let _ ← b.exist.run
    pure .read
  | .paginate dest page perPage => do
    match ← b.count.run with
    | .error _ => pure .read
    | .ok total =>
      if total = 0 then pure .read
      else do
        let page := normalPage page
        let perPage := normalPerPage perPage
        let _ ← ((b.applyScope.pageBuilder page perPage).findAll (some dest)).run
        pure (.paged page perPage)

/-- Use a builder again and again. -/
def runUses (b : Builder) : List Use → Prog Cmd Cmd.Resp (List UseEffect)
  | [] => pure []
  | u :: us => do
    let e ← u.run b
    let es ← runUses (e.apply b) us
    pure (e :: es)

/-- The builder after some effects. -/
def Builder.after (b : Builder) (es : List UseEffect) : Builder := es.foldl apply b

/-- The call of a use. -/
def Use.call? : Use → Option BuilderCall
  | .call c => some c
  | _ => none

/-- The call of an effect. -/
def UseEffect.call? : UseEffect → Option BuilderCall
  | .call c => some c
  | _ => none

/-- A fresh builder with the same calls and no read. -/
def Builder.fresh (b : Builder) (cs : List BuilderCall) : Builder := cs.foldl BuilderCall.apply b

/-- The statement that an operation issues first. -/
def firstStmt {α : Type} (m : DbM α) : Option Stmt :=
  match m.run with
  | .ret _ => none
  | .call c _ => c.stmt

/-! ### Statements that are the same -/

/-- Two conditions are the same, up to redundant parentheses. -/
def SameWhere (w w' : Option Where) : Prop :=
  w = w' ∨ ∃ v v' ts ts', w = some v ∧ w' = some v' ∧ parseText v.text v.args = some ts ∧
    parseText v'.text v'.args = some ts' ∧ flatTerms ts = flatTerms ts'

/-- Two statements are the same, with the same arguments, up to redundant parentheses. -/
structure Stmt.Same (s t : Stmt) : Prop where
  kind : s.kind = t.kind
  table : s.table = t.table
  head : s.head = t.head
  headArgs : s.headArgs = t.headArgs
  cond : SameWhere s.cond t.cond
  tail : s.tail = t.tail
  tailArgs : s.tailArgs = t.tailArgs

/-! ### Effects that leave no trace -/

/-- The conditions that effects add. -/
def clausesOf (es : List UseEffect) : List WhereClause :=
  (es.filterMap call?).flatMap BuilderCall.clauses

/-- The conditions that are added before the first read. -/
def early : List UseEffect → List WhereClause
  | .call c :: es => c.clauses ++ early es
  | _ => []

/-- The conditions that are added after the first read. -/
def late : List UseEffect → List WhereClause
  | .call _ :: es => late es
  | _ :: es => clausesOf es
  | [] => []

/-- The limit that a `Paginate` has left behind, if no call of `Limit` followed. -/
def leftLimit (es : List UseEffect) : Option Int :=
  es.foldl (fun l e =>
    match e with
    | .paged _ perPage => some perPage
    | .call (.limit _) => none
    | _ => l) none

/-- The offset that a `Paginate` has left behind, if no call of `Offset` followed. -/
def leftOffset (es : List UseEffect) : Option Int :=
  es.foldl (fun l e =>
    match e with
    | .paged page perPage => some (wrapInt 64 ((page - 1) * perPage))
    | .call (.offset _) => none
    | _ => l) none

/-- The factors of conditions, without redundant parentheses. -/
def factors (ws : List WhereClause) : List (Expr (Atom Value)) :=
  asFactors (flatTerms (joinTerms (clauseTerms ws)))

/-- Conditions `later` that only repeat a scope, so that it makes no difference whether they stand
before or after it; and there is no `OR`, neither in them nor in the conditions before. -/
structure Repeats (earlier later scope : List WhereClause) : Prop where
  joined : hasOr later = false
  branch : (joinTerms (clauseTerms later)).length ≤ 1
  branch_earlier : (joinTerms (clauseTerms earlier)).length ≤ 1
  exchange : factors scope ++ factors later = factors later ++ factors scope

/-- `Find` sets a limit of its own. -/
def Read.limits : Read → Bool
  | .find _ => true
  | _ => false

/-- The effects leave no trace in a read: if there is a scope, then no conditions were added after
the first read but repetitions of it; and a limit and an offset that a `Paginate` has left behind
are the ones of the builder. -/
structure Undisturbed (b : Builder) (es : List UseEffect) (q : Read) : Prop where
  scope : b.pendingScope ≠ [] → late es ≠ [] →
    Repeats (b.wheres ++ early es) (late es) b.pendingScope
  limit : q.limits = false → ∀ n, leftLimit es = some n →
    (b.fresh (es.filterMap call?)).limit = some n
  offset : ∀ n, leftOffset es = some n → (b.fresh (es.filterMap call?)).offset = some n

/-! ### Conditions around a scope -/

/-- Conditions after the scope of a builder was applied to them. -/
def Builder.scoped (b : Builder) (ws : List WhereClause) : List WhereClause :=
  ({ b with wheres := ws } : Builder).applyScope.wheres

variable (b : Builder) (c : BuilderCall) (cs : List BuilderCall) (ws : List WhereClause)
  (es : List UseEffect)

theorem scoped_eq :
    b.scoped ws =
      if b.pendingScope.isEmpty then ws
      else if ws.isEmpty then [parenthesised b.pendingScope]
      else [parenthesised ws, parenthesised b.pendingScope] :=
  wheres_applyScope _

theorem sameWhere_iff {c d : Builder} {ts us : Terms (Atom Value)}
    (hc : c.whereTerms = some ts) (hd : d.whereTerms = some us) :
    SameWhere c.whereText d.whereText ↔ flatTerms ts = flatTerms us := by
  obtain ⟨v, hv, hts⟩ := Option.bind_eq_some_iff.mp hc
  obtain ⟨v', hv', hus⟩ := Option.bind_eq_some_iff.mp hd
  constructor
  · rintro (heq | ⟨w, w', ts', us', hw, hw', hts', hus', hflat⟩)
    · obtain rfl : v = v' := Option.some.inj (hv.symm.trans (heq.trans hv'))
      rw [Option.some.inj (hts.symm.trans hus)]
    · obtain rfl : v = w := Option.some.inj (hv.symm.trans hw)
      obtain rfl : v' = w' := Option.some.inj (hv'.symm.trans hw')
      rw [Option.some.inj (hts.symm.trans hts'), Option.some.inj (hus.symm.trans hus'), hflat]
  · exact fun hflat => .inr ⟨v, v', ts, us, hv, hv', hts, hus, hflat⟩

/-- What `applyScope` makes of conditions is one branch of two factors, or of one. -/
theorem scoped_terms {b : Builder} {ws : List WhereClause} (hws : ∀ w ∈ ws, w.WellFormed)
    (hscope : ∀ w ∈ b.pendingScope, w.WellFormed) (hpending : b.pendingScope ≠ []) :
    (∀ w ∈ b.scoped ws, w.WellFormed) ∧ hasOr (b.scoped ws) = false ∧
      joinTerms (clauseTerms (b.scoped ws)) = [(ofTerms (joinTerms (clauseTerms ws))).toList ++
          (ofTerms (joinTerms (clauseTerms b.pendingScope))).toList] := by
  obtain ⟨g, hg, hgwf, hgterms⟩ := parenthesised_ofTerms hpending hscope
  rw [scoped_eq, if_neg (by simpa using hpending)]
  by_cases hnil : ws = []
  · subst hnil
    refine ⟨by simpa using hgwf, rfl, ?_⟩
    have hnone : ofTerms (joinTerms (clauseTerms [])) = none := rfl
    rw [hg, hnone]
    simpa [clauseTerms, joinTerms] using hgterms
  · obtain ⟨e, he, hewf, heterms⟩ := parenthesised_ofTerms hnil hws
    rw [if_neg (by simpa using hnil)]
    refine ⟨by simpa using ⟨hewf, hgwf⟩, rfl, ?_⟩
    rw [he, hg]
    simp [clauseTerms, joinTerms, heterms, hgterms]

theorem complete_joinTerms {ws : List WhereClause} (hne : ws ≠ [])
    (h : ∀ w ∈ ws, w.WellFormed) : Complete (joinTerms (clauseTerms ws)) :=
  Complete.joinTerms (by simpa [clauseTerms] using hne) (complete_clauseTerms h)

/-- Conditions that are added with `AND`. -/
theorem joinTerms_append_of_and {ws vs : List WhereClause} (hws : ∀ w ∈ ws, w.WellFormed)
    (hne : vs ≠ []) (hor : hasOr vs = false) : joinTerms (clauseTerms (ws ++ vs)) =
      andTerms (joinTerms (clauseTerms ws)) (joinTerms (clauseTerms vs)) := by
  obtain ⟨v, vs, rfl⟩ := exists_cons_of_ne_nil hne
  have hand : v.boolean = .and := by
    simp only [hasOr, List.any_cons, Bool.or_eq_false_iff, decide_eq_false_iff_not] at hor
    cases hv : v.boolean with
    | and => rfl
    | or => exact absurd hv hor.1
  have happend := joinTerms_append_and (complete_clauseTerms hws) v.terms (clauseTerms vs)
  simpa [clauseTerms, hand] using happend

theorem scoped_ne_nil {b : Builder} (hpending : b.pendingScope ≠ []) (ws : List WhereClause) :
    b.scoped ws ≠ [] := by
  rw [scoped_eq, if_neg (by simpa using hpending)]
  split_ifs <;> simp

section Scoped

variable {b : Builder} {earlier later : List WhereClause}
  (hearlier : ∀ w ∈ earlier, w.WellFormed) (hlater : ∀ w ∈ later, w.WellFormed)
  (hscope : ∀ w ∈ b.pendingScope, w.WellFormed)
  (hsoft : b.softDeleteCondition ≠ "" → (softClause b.softDeleteCondition).WellFormed)

section Pending

variable (hpending : b.pendingScope ≠ [])
include hearlier hlater hscope hsoft hpending

/-- The conditions under the scope. -/
theorem whereTerms_scoped_append :
    ({ b with wheres := b.scoped (earlier ++ later) } : Builder).whereTerms =
      some (andTerms (softClause b.softDeleteCondition).terms
        [(ofTerms (joinTerms (clauseTerms (earlier ++ later)))).toList ++
          (ofTerms (joinTerms (clauseTerms b.pendingScope))).toList]) := by
  obtain ⟨hwf, hor, hterms⟩ := scoped_terms (forall_mem_append.mpr ⟨hearlier, hlater⟩) hscope
    hpending
  have hwhere : ({ b with wheres := b.scoped (earlier ++ later) } : Builder).whereTerms = _ :=
    whereTerms_of_and ⟨hwf, hsoft⟩ (scoped_ne_nil hpending _) fun _ => hor
  rw [hwhere, hterms]

variable (hlast : later ≠ [])
include hlast

/-- Conditions behind the scope that are joined by `AND`. -/
theorem sameWhere_scoped_iff_of_and (hor : hasOr later = false) :
    SameWhere ({ b with wheres := b.scoped earlier ++ later } : Builder).whereText
        ({ b with wheres := b.scoped (earlier ++ later) } : Builder).whereText ↔
      Repeats earlier later b.pendingScope := by
  obtain ⟨hwf, hxor, hterms⟩ := scoped_terms hearlier hscope hpending
  have hx : ({ b with wheres := b.scoped earlier ++ later } : Builder).whereTerms = _ :=
    whereTerms_of_and ⟨forall_mem_append.mpr ⟨hwf, hlater⟩, hsoft⟩ (by simp [hlast]) fun _ => by
      rw [hasOr, List.any_append, ← hasOr, ← hasOr, hxor, hor]
      rfl
  have hy := whereTerms_scoped_append hearlier hlater hscope hsoft hpending
  rw [joinTerms_append_of_and hwf hlast hor, hterms] at hx
  rw [joinTerms_append_of_and hearlier hlast hor] at hy
  have hlc := complete_joinTerms hlast hlater
  obtain ⟨u, us, hu⟩ := exists_cons_of_ne_nil hlc.1
  have ha : joinTerms (clauseTerms earlier) = [] ∨ Complete (joinTerms (clauseTerms earlier)) := by
    by_cases hfirst : earlier = []
    · exact .inl (by rw [hfirst]; rfl)
    · exact .inr (complete_joinTerms hfirst hearlier)
  have hfactors : us = [] → factors later = flatFactors u := by
    rintro rfl
    rw [factors, hu, flatTerms_singleton, asFactors_flatBranch]
  rw [sameWhere_iff hx hy]
  rw [hu] at hlc ⊢
  rw [flatTerms_group_iff ha (complete_joinTerms hpending hscope) hlc]
  constructor
  · rintro ⟨hus, hbranch, hexchange⟩
    refine ⟨hor, by simp [hu, hus], hbranch, ?_⟩
    rwa [hfactors hus]
  · rintro ⟨-, hbranch, hbranch', hexchange⟩
    have hus : us = [] := by simpa [hu] using hbranch
    rw [hfactors hus] at hexchange
    exact ⟨hus, hbranch', hexchange⟩

/-- Conditions behind the scope of which one is joined by `OR`. -/
theorem not_sameWhere_scoped_of_or (hor : hasOr later = true) :
    ¬ SameWhere ({ b with wheres := b.scoped earlier ++ later } : Builder).whereText
        ({ b with wheres := b.scoped (earlier ++ later) } : Builder).whereText := by
  obtain ⟨hwf, -, -⟩ := scoped_terms hearlier hscope hpending
  have hxwf := forall_mem_append.mpr ⟨hwf, hlater⟩
  have hxor : hasOr (b.scoped earlier ++ later) = true := by
    rw [hasOr, List.any_append, ← hasOr, ← hasOr, hor, Bool.or_true]
  have hy := whereTerms_scoped_append hearlier hlater hscope hsoft hpending
  have hgs := complete_joinTerms hpending hscope
  have hab : Complete (joinTerms (clauseTerms (earlier ++ later))) :=
    complete_joinTerms (by simp [hlast]) (forall_mem_append.mpr ⟨hearlier, hlater⟩)
  have hx : Complete (joinTerms (clauseTerms (b.scoped earlier ++ later))) :=
    complete_joinTerms (by simp [hlast]) hxwf
  have hlen : 2 ≤ (joinTerms (clauseTerms (b.scoped earlier ++ later))).length := by
    refine two_le_length_joinTerms (complete_clauseTerms hxwf) ?_
    obtain ⟨w, hw, hwor⟩ : ∃ w ∈ later, w.boolean = .or := by simpa [hasOr] using hor
    obtain ⟨v, vs, hvs⟩ := exists_cons_of_ne_nil (scoped_ne_nil hpending earlier)
    refine ⟨(w.boolean, w.terms), ?_, hwor⟩
    rw [hvs, cons_append, clauseTerms, map_cons, tail_cons]
    exact mem_map_of_mem (mem_append_right _ hw)
  intro hsame
  by_cases hs : b.softDeleteCondition = ""
  · have hterms : ({ b with wheres := b.scoped earlier ++ later } : Builder).whereTerms = _ :=
      whereTerms_of_and ⟨hxwf, hsoft⟩ (by simp [hlast]) fun hne => absurd hs hne
    have hempty : (softClause b.softDeleteCondition).terms = [] := by
      rw [hs]
      rfl
    rw [hempty, andTerms_nil] at hterms hy
    exact flatTerms_ne_group hab hgs hx hlen ((sameWhere_iff hterms hy).mp hsame)
  · obtain ⟨e, he, hterms⟩ := @whereTerms_of_soft_or
      { b with wheres := b.scoped earlier ++ later } ⟨hxwf, hsoft⟩ hs hxor
    refine flatTerms_andTerms_ne_group hab hgs hx hlen (hsoft hs).complete ?_
    rw [he]
    exact (sameWhere_iff hterms hy).mp hsame

end Pending

include hearlier hlater hscope hsoft

/-- **Conditions behind the scope.** They are the same as under it, up to redundant parentheses,
only if they repeat it. -/
theorem sameWhere_scoped_iff :
    SameWhere ({ b with wheres := b.scoped earlier ++ later } : Builder).whereText
        ({ b with wheres := b.scoped (earlier ++ later) } : Builder).whereText ↔
      (b.pendingScope ≠ [] → later ≠ [] → Repeats earlier later b.pendingScope) := by
  by_cases hpending : b.pendingScope = []
  · have hnone : ∀ ws, b.scoped ws = ws := fun ws => by rw [scoped_eq, hpending]; rfl
    rw [hnone, hnone]
    exact iff_of_true (.inl rfl) fun h => absurd hpending h
  by_cases hlast : later = []
  · subst hlast
    rw [append_nil, append_nil]
    exact iff_of_true (.inl rfl) fun _ h => absurd rfl h
  simp only [ne_eq, hpending, not_false_eq_true, hlast, forall_const]
  cases hor : hasOr later with
  | false =>
    exact sameWhere_scoped_iff_of_and hearlier hlater hscope hsoft hpending hlast hor
  | true =>
    refine iff_of_false
      (not_sameWhere_scoped_of_or hearlier hlater hscope hsoft hpending hlast hor) fun h => ?_
    have hjoined := h.joined
    rw [hor] at hjoined
    cases hjoined

end Scoped

/-! ### The builder after some effects -/

/-- What a call does. -/
theorem BuilderCall.apply_eq :
    ∃ joins groupBys havings orderBys, c.apply b = { b with
        wheres := b.wheres ++ c.clauses
        joins := joins
        groupBys := groupBys
        havings := havings
        orderBys := orderBys
        limit := match c with
          | .limit n => some n
          | _ => b.limit
        offset := match c with
          | .offset n => some n
          | _ => b.offset } := by
  cases c with
  | cond c => exact ⟨_, _, _, _, CondCall.apply_eq b c⟩
  | join | orderBy =>
    simp only [BuilderCall.apply, BuilderCall.clauses, append_nil]
    split_ifs <;> exact ⟨_, _, _, _, rfl⟩
  | _ =>
    simp only [BuilderCall.apply, BuilderCall.clauses, append_nil]
    exact ⟨_, _, _, _, rfl⟩

section Calls

variable (b : Builder) (c : BuilderCall)

theorem wheres_apply : (c.apply b).wheres = b.wheres ++ c.clauses := by
  obtain ⟨_, _, _, _, h⟩ := c.apply_eq b
  rw [h]

theorem pendingScope_apply : (c.apply b).pendingScope = b.pendingScope := by
  obtain ⟨_, _, _, _, h⟩ := c.apply_eq b
  rw [h]
  rfl

theorem scopeApplied_apply : (c.apply b).scopeApplied = b.scopeApplied := by
  obtain ⟨_, _, _, _, h⟩ := c.apply_eq b
  rw [h]

theorem limit_apply : (c.apply b).limit = match c with
    | .limit n => some n
    | _ => b.limit := by
  obtain ⟨_, _, _, _, h⟩ := c.apply_eq b
  rw [h]

theorem offset_apply : (c.apply b).offset = match c with
    | .offset n => some n
    | _ => b.offset := by
  obtain ⟨_, _, _, _, h⟩ := c.apply_eq b
  rw [h]

end Calls

/-- Two builders that differ in nothing but what a read can leave behind. -/
def Alike (b c : Builder) : Prop :=
  ∃ ws applied limit offset,
    c = { b with wheres := ws, scopeApplied := applied, limit := limit, offset := offset }

namespace Alike

variable {b c : Builder}

protected theorem refl (b : Builder) : Alike b b := ⟨_, _, _, _, rfl⟩

theorem call (h : Alike b c) (d : BuilderCall) : Alike (d.apply b) (d.apply c) := by
  obtain ⟨ws, applied, limit, offset, rfl⟩ := h
  cases d with
  | cond d =>
    simp only [BuilderCall.apply, CondCall.apply_eq]
    exact ⟨_, _, _, _, rfl⟩
  | join | orderBy =>
    simp only [BuilderCall.apply]
    split_ifs <;> exact ⟨_, _, _, _, rfl⟩
  | _ => exact ⟨_, _, _, _, rfl⟩

theorem applyScope (h : Alike b c) : Alike b c.applyScope := by
  obtain ⟨ws, applied, limit, offset, rfl⟩ := h
  rw [applyScope_eq]
  exact ⟨_, _, _, _, rfl⟩

theorem pageBuilder (h : Alike b c) (page perPage : Int) :
    Alike b (c.pageBuilder page perPage) := by
  obtain ⟨ws, applied, limit, offset, rfl⟩ := h
  exact ⟨_, _, _, _, rfl⟩

end Alike

/-- Reads leave nothing else behind. -/
theorem alike_after {b c : Builder} (h : Alike b c) (es : List UseEffect) :
    Alike (b.fresh (es.filterMap call?)) (c.after es) := by
  induction es generalizing b c with
  | nil => exact h
  | cons e es ih =>
    cases e with
    | call d => exact ih (h.call d)
    | read => exact ih h.applyScope
    | paged page perPage => exact ih (h.applyScope.pageBuilder page perPage)

theorem scoped_apply : (c.apply b).scoped ws = b.scoped ws := by
  rw [scoped_eq, scoped_eq, pendingScope_apply]

theorem clausesOf_call : clausesOf (.call c :: es) = c.clauses ++ clausesOf es := by
  simp [clausesOf, call?]

theorem early_append_late : early es ++ late es = clausesOf es := by
  induction es with
  | nil => rfl
  | cons e es ih =>
    cases e with
    | call c => rw [clausesOf_call, early, late, append_assoc, ih]
    | read | paged => rfl

theorem wheres_fresh : (b.fresh cs).wheres = b.wheres ++ cs.flatMap BuilderCall.clauses := by
  induction cs generalizing b with
  | nil => simp [fresh]
  | cons c cs ih =>
    have hind := ih (c.apply b)
    rw [wheres_apply] at hind
    simpa [fresh] using hind

theorem scoped_fresh : (b.fresh cs).scoped ws = b.scoped ws := by
  induction cs generalizing b with
  | nil => rfl
  | cons c cs ih => exact (ih (c.apply b)).trans (scoped_apply b c ws)

/-- After the scope has been applied, conditions are only added. -/
theorem after_of_applied {b : Builder} (h : b.scopeApplied = true) (es : List UseEffect) :
    (b.after es).wheres = b.wheres ++ clausesOf es ∧ (b.after es).scopeApplied = true := by
  induction es generalizing b with
  | nil => exact ⟨(append_nil _).symm, h⟩
  | cons e es ih =>
    have hscoped : b.applyScope = b := applyScope_of_applied h
    cases e with
    | call c =>
      have hind := ih ((scopeApplied_apply b c).trans h)
      rwa [wheres_apply, append_assoc, ← clausesOf_call] at hind
    | read =>
      rw [Builder.after, foldl_cons, apply, hscoped]
      exact ih h
    | paged page perPage =>
      rw [Builder.after, foldl_cons, apply, hscoped]
      exact @ih (b.pageBuilder page perPage) h

/-- **The conditions after some effects**: those before the first read are under the scope, those
after it are behind the scope. -/
theorem wheres_applyScope_after :
    (b.after es).applyScope.wheres = b.scoped (b.wheres ++ early es) ++ late es := by
  induction es generalizing b with
  | nil => simp [Builder.after, early, late, Builder.scoped]
  | cons e es ih =>
    have hread : ∀ c : Builder, c.scopeApplied = true → c.wheres = b.applyScope.wheres →
        (c.after es).applyScope.wheres = b.scoped (b.wheres ++ []) ++ clausesOf es := by
      intro c hc hwheres
      obtain ⟨hafter, happlied⟩ := after_of_applied hc es
      rw [applyScope_of_applied happlied, hafter, hwheres, append_nil]
      rfl
    cases e with
    | call c =>
      have hind := ih (c.apply b)
      rwa [scoped_apply, wheres_apply, append_assoc] at hind
    | read => exact hread b.applyScope (Builder.scopeApplied_applyScope b) rfl
    | paged page perPage =>
      exact hread (b.applyScope.pageBuilder page perPage) (Builder.scopeApplied_applyScope b) rfl

theorem wheres_applyScope_fresh : (b.fresh (es.filterMap call?)).applyScope.wheres =
      b.scoped (b.wheres ++ early es ++ late es) := by
  rw [append_assoc, early_append_late, ← scoped_fresh b (es.filterMap call?), clausesOf,
    ← wheres_fresh]
  rfl

theorem after_concat (e : UseEffect) : b.after (es ++ [e]) = e.apply (b.after es) := by
  rw [Builder.after, foldl_append]
  rfl

theorem fresh_concat (c : BuilderCall) :
    b.fresh ((es ++ [call c]).filterMap call?) =
      c.apply (b.fresh (es.filterMap call?)) := by
  rw [filterMap_append, fresh, foldl_append]
  rfl

theorem fresh_concat_read {e : UseEffect} (h : e.call? = none) :
    b.fresh ((es ++ [e]).filterMap call?) = b.fresh (es.filterMap call?) := by
  rw [filterMap_append]
  simp [h]

/-- The limit and the offset after some effects. -/
theorem page_after :
    (b.after es).limit = (leftLimit es).or (b.fresh (es.filterMap call?)).limit ∧
      (b.after es).offset = (leftOffset es).or (b.fresh (es.filterMap call?)).offset := by
  induction es using List.reverseRecOn with
  | nil => exact ⟨rfl, rfl⟩
  | append_singleton es e ih =>
    rw [after_concat, leftLimit, leftOffset, foldl_append, foldl_append]
    cases e with
    | call c =>
      rw [fresh_concat, apply, limit_apply, limit_apply, offset_apply, offset_apply]
      cases c with
      | limit => exact ⟨rfl, ih.2⟩
      | offset => exact ⟨ih.1, rfl⟩
      | _ => exact ih
    | read =>
      rwa [fresh_concat_read b es rfl, apply, applyScope_eq]
    | paged page perPage => exact ⟨rfl, rfl⟩

/-! ### The statements -/

/-- The clone that a read builds its statement with. -/
def Read.clone (b : Builder) : Read → Except Err Builder
  | .find dest =>
    if isNil (dest.getD b.dest) then .error .destinationNil
    else b.findClone (dest.getD b.dest)
  | .findAll dest =>
    if isNil (dest.getD b.dest) then .error .destinationNil
    else b.findAllClone (dest.getD b.dest)
  | .count =>
    if b.table = "" then .error .tableRequired else .ok { b with selects := ["COUNT(*)"] }

/-- The statement that a read builds, if it does not fail before. -/
def Read.stmt (b : Builder) (q : Read) : Option Stmt :=
  match q.clone b with
  | .ok c => some (c.build .select)
  | .error _ => none

/-- A read issues the statement that it builds, after the scope was applied. -/
theorem firstStmt_run (q : Read) : firstStmt (q.run b) = q.stmt b.applyScope := by
  cases q with
  | find dest =>
    unfold Read.run find Read.stmt Read.clone
    dsimp only
    cases isNil (dest.getD b.applyScope.dest) with
    | true => rfl
    | false => cases b.applyScope.findClone (dest.getD b.applyScope.dest) <;> rfl
  | findAll dest =>
    unfold Read.run findAll Read.stmt Read.clone
    dsimp only
    cases isNil (dest.getD b.applyScope.dest) with
    | true => rfl
    | false => cases b.applyScope.findAllClone (dest.getD b.applyScope.dest) <;> rfl
  | count =>
    unfold Read.run count Read.stmt Read.clone
    by_cases htable : b.applyScope.table = "" <;> simp only [htable, if_true, if_false] <;> rfl

/-- The table and the columns of a read depend on nothing but those of the builder and the
destination. -/
def Read.target (b : Builder) (q : Read) : Except Err (String × List String) :=
  (q.clone { table := b.table, selects := b.selects, dest := b.dest }).map fun c =>
    (c.table, c.selects)

theorem withCols_eq (t : StructType) : b.withCols t =
      { b with selects := if b.selects.isEmpty then t.info.map (·.name) else b.selects } := by
  unfold withCols
  split_ifs <;> rfl

theorem withTable_eq (name : String) : b.withTable name =
      { b with table := if b.table = "" then sanitizeIdentifier name else b.table } := by
  unfold withTable
  split_ifs <;> rfl

theorem clone_eq {b : Builder} (hraw : b.rawQuery = "") (q : Read) :
    q.clone b = (q.target b).map fun p =>
      { b with table := p.1, selects := p.2, limit := if q.limits then some 1 else b.limit } := by
  cases q with
  | find dest =>
    unfold Read.target Read.clone findClone Read.limits
    simp only [hraw, ne_eq, not_true_eq_false, if_false, if_true, withCols_eq, withTable_eq]
    generalize dest.getD b.dest = d
    cases d with
    | structPtr s =>
      simp only [isNil, Except.bind]
      split_ifs <;> rfl
    | slicePtr t =>
      cases t with
      | none =>
        by_cases htable : b.table = "" <;> simp [isNil, htable, Except.bind, Except.map]
      | some t =>
        simp only [isNil, Except.bind]
        split_ifs <;> rfl
    | otherPtr =>
      by_cases htable : b.table = "" <;> simp [isNil, htable, Except.bind, Except.map]
    | _ => rfl
  | findAll dest =>
    have hself : b = { b with rawQuery := "" } := by rw [← hraw]
    unfold Read.target Read.clone findAllClone Read.limits
    simp only [hraw, ne_eq, not_true_eq_false, if_false, withCols_eq, withTable_eq]
    generalize dest.getD b.dest = d
    cases d with
    | nil => rfl
    | slicePtr t =>
      cases t with
      | none =>
        by_cases htable : b.table = ""
        · simp [isNil, htable, Except.bind, Except.map]
        · simp [isNil, htable, Except.bind, Except.map]
          exact hself
      | some t =>
        simp only [isNil, Except.bind]
        split_ifs <;> rfl
    | structPtr s | struct s =>
      by_cases htable : b.table = ""
      · by_cases hsafe : sanitizeIdentifier s.type.tableName = "" <;>
          simp [isNil, htable, hsafe, getTableNameFromModel, Except.bind, Except.map]
      · simp [isNil, htable, Except.bind, Except.map]
        exact hself
    | _ =>
      by_cases htable : b.table = ""
      · simp [isNil, htable, getTableNameFromModel, Except.bind, Except.map]
      · simp [isNil, htable, Except.bind, Except.map]
        exact hself
  | count =>
    unfold Read.target Read.clone Read.limits
    by_cases htable : b.table = "" <;> simp [htable, Except.map]

theorem stmt_of_target_error {b : Builder} (hraw : b.rawQuery = "") {q : Read} {e : Err}
    (he : q.target b = .error e) : q.stmt b = none := by
  rw [Read.stmt, clone_eq hraw, he]
  rfl

theorem build_select {b : Builder} (hraw : b.rawQuery = "") : b.build .select = b.buildSelect := by
  rw [build.eq_def, if_neg (not_not_intro hraw)]

theorem stmt_of_target {b : Builder} (hraw : b.rawQuery = "") {q : Read}
    {p : String × List String} (hp : q.target b = .ok p) : q.stmt b = some ({ b with
      table := p.1, selects := p.2, limit := if q.limits then some 1 else b.limit } :
        Builder).buildSelect := by
  rw [Read.stmt, clone_eq hraw, hp]
  exact congrArg some (build_select hraw)

theorem limit_offset_of_tail {l l' o o' : Option Int} {pre post : String} {args : List Value}
    (htail : pre ++ (if l.isSome then " LIMIT ?" else "") ++
        (if o.isSome then " OFFSET ?" else "") ++ post =
      pre ++ (if l'.isSome then " LIMIT ?" else "") ++
        (if o'.isSome then " OFFSET ?" else "") ++ post)
    (hargs : args ++ (l.toList ++ o.toList).map .int = args ++ (l'.toList ++ o'.toList).map .int) :
    l = l' ∧ o = o' := by
  have htext := congrArg String.toList htail
  simp only [String.toList_append, append_assoc, append_cancel_left_eq] at htext
  rw [← append_assoc, ← append_assoc, append_cancel_right_eq] at htext
  rw [append_cancel_left_eq, List.map_inj_right fun _ _ h => Value.int.inj h] at hargs
  cases l <;> cases l' <;> cases o <;> cases o' <;> simp_all

theorem sameWhere_congr {c d c' d' : Builder} (hwheres : c.wheres = c'.wheres)
    (hsoft : c.softDeleteCondition = c'.softDeleteCondition) (hwheres' : d.wheres = d'.wheres)
    (hsoft' : d.softDeleteCondition = d'.softDeleteCondition) :
    SameWhere c.whereText d.whereText ↔ SameWhere c'.whereText d'.whereText := by
  simp only [whereText, hwheres, hsoft, hwheres', hsoft']

/-- Two `SELECT`s of builders that differ in conditions, limit and offset only. -/
theorem same_select_iff (c d d' : Builder) (applied : Bool) (limit offset : Option Int)
    (hsoft : d.softDeleteCondition = c.softDeleteCondition) (hwheres : d'.wheres = c.wheres)
    (hsoft' : d'.softDeleteCondition = c.softDeleteCondition) :
    Stmt.Same ({ c with
        wheres := d.wheres, scopeApplied := applied, limit := limit, offset := offset } :
          Builder).buildSelect c.buildSelect ↔
      SameWhere d.whereText d'.whereText ∧ limit = c.limit ∧ offset = c.offset := by
  rw [@sameWhere_congr d d' { c with wheres := d.wheres } c rfl hsoft hwheres hsoft']
  constructor
  · intro h
    exact ⟨h.cond, limit_offset_of_tail h.tail h.tailArgs⟩
  · rintro ⟨hcond, rfl, rfl⟩
    exact ⟨rfl, rfl, rfl, rfl, hcond, rfl, rfl⟩

/-! ### Runs -/

section Runs

variable {σ : Type} (h : (c : Cmd) → σ → Cmd.Resp c × σ)

theorem call?_run (u : Use) (st : σ) : (((u.run b).run h st).1).call? = u.call? := by
  cases u with
  | call c => rfl
  | read | exist => unfold Use.run; rw [Prog.run_bind]; rfl
  | paginate dest page perPage =>
    unfold Use.run
    rw [Prog.run_bind]
    cases hcount : (b.count.run.run h st).1 with
    | error e => rfl
    | ok total =>
      by_cases htotal : total = 0
      · simp only [htotal, if_true]
        rfl
      · simp only [htotal, if_false]
        rw [Prog.run_bind]
        rfl

/-- The calls are the same in every run. -/
theorem calls_runUses (b : Builder) (us : List Use) (st : σ) :
    ((runUses b us).run h st).1.filterMap call? = us.filterMap Use.call? := by
  induction us generalizing b st with
  | nil => rfl
  | cons u us ih =>
    unfold runUses
    rw [Prog.run_bind, Prog.run_bind]
    simp only [Prog.pure_eq, Prog.run_ret, filterMap_cons, call?_run, ih]

end Runs

/-- Calls shape the query and change nothing else. -/
theorem fresh_fields :
    (b.fresh cs).table = b.table ∧ (b.fresh cs).selects = b.selects ∧
      (b.fresh cs).dest = b.dest ∧ (b.fresh cs).rawQuery = b.rawQuery ∧
      (b.fresh cs).softDeleteCondition = b.softDeleteCondition := by
  induction cs generalizing b with
  | nil => exact ⟨rfl, rfl, rfl, rfl, rfl⟩
  | cons c cs ih =>
    obtain ⟨_, _, _, _, happly⟩ := c.apply_eq b
    have hind := ih (c.apply b)
    rw [happly] at hind
    have hcons : b.fresh (c :: cs) = (c.apply b).fresh cs := rfl
    rwa [hcons, happly]

/-- Calls do not change what a read is about. -/
theorem target_fresh (q : Read) : q.target (b.fresh cs).applyScope = q.target b := by
  obtain ⟨htable, hselects, hdest, -, -⟩ := fresh_fields b cs
  rw [applyScope_eq, Read.target, Read.target, ← htable, ← hselects, ← hdest]

theorem Stmt.Same.refl (s : Stmt) : s.Same s := ⟨rfl, rfl, rfl, rfl, .inl rfl, rfl, rfl⟩

/-- The builder after some effects, when the scope has been applied. -/
theorem applyScope_after_eq :
    (b.after es).applyScope = { (b.fresh (es.filterMap call?)).applyScope with
        wheres := b.scoped (b.wheres ++ early es) ++ late es
        scopeApplied := true
        limit := (b.after es).limit
        offset := (b.after es).offset } := by
  obtain ⟨ws, applied, limit, offset, hafter⟩ := alike_after (Alike.refl b) es
  rw [applyScope_eq (b.after es), wheres_applyScope_after, applyScope_eq (b.fresh _), hafter]

/-- A raw query is what is issued. -/
theorem firstStmt_run_of_raw {c d : Builder} (hcd : Alike c d) (hraw : c.rawQuery ≠ "") (q : Read) :
    firstStmt (q.run d) = firstStmt (q.run c) := by
  obtain ⟨ws, applied, limit, offset, rfl⟩ := hcd
  rw [firstStmt_run, firstStmt_run, Builder.applyScope_eq c,
    Builder.applyScope_eq { c with wheres := ws, scopeApplied := applied, limit := limit
                                   offset := offset }]
  cases q <;>
    simp only [Read.stmt, Read.clone, findClone, findAllClone, hraw, ne_eq, not_false_eq_true,
      if_true] <;>
    split_ifs <;> simp [build.eq_def, hraw]

theorem or_eq_right_iff {l l' : Option Int} : l.or l' = l' ↔ ∀ n, l = some n → l' = some n := by
  cases l <;> cases l' <;> simp [eq_comm]

section Main

variable {b : Builder} (hwf : b.WellFormed) (hscope : ∀ w ∈ b.scopeGroup, w.WellFormed)
include hwf hscope

/-- The statement without a raw query. -/
theorem same_firstStmt_of_target {es : List UseEffect}
    (hcalls : ∀ w ∈ clausesOf es, w.WellFormed) (hraw : b.rawQuery = "") {q : Read}
    {p : String × List String} (hp : q.target b = .ok p) :
    Option.Rel Stmt.Same (firstStmt (q.run (b.after es)))
        (firstStmt (q.run (b.fresh (es.filterMap call?)))) ↔ Undisturbed b es q := by
  set b₀ := b.fresh (es.filterMap call?) with hb₀
  obtain ⟨-, -, -, hrawEq, hsoft⟩ := fresh_fields b (es.filterMap call?)
  rw [← hb₀] at hrawEq hsoft
  have hraw₀ : b₀.applyScope.rawQuery = "" := by rw [rawQuery_applyScope, hrawEq, hraw]
  have htarget : q.target b₀.applyScope = .ok p := (target_fresh b _ q).trans hp
  have hafter := applyScope_after_eq b es
  rw [← hb₀] at hafter
  have hstmt := @stmt_of_target { b₀.applyScope with
    wheres := b.scoped (b.wheres ++ early es) ++ late es, scopeApplied := true
    limit := (b.after es).limit, offset := (b.after es).offset } hraw₀ q p htarget
  rw [firstStmt_run, firstStmt_run, hafter, hstmt, stmt_of_target hraw₀ htarget,
    Option.rel_some_some]
  have hsoft' : b.softDeleteCondition = b₀.applyScope.softDeleteCondition := by
    rw [softDeleteCondition_applyScope, hsoft]
  refine (same_select_iff { b₀.applyScope with
      table := p.1, selects := p.2, limit := if q.limits then some 1 else b₀.applyScope.limit }
    { b with wheres := b.scoped (b.wheres ++ early es) ++ late es }
    { b with wheres := b.scoped (b.wheres ++ early es ++ late es) } true
    (if q.limits then some 1 else (b.after es).limit) (b.after es).offset
    hsoft' (wheres_applyScope_fresh b es).symm hsoft').trans ?_
  have hearly : ∀ w ∈ b.wheres ++ early es, w.WellFormed :=
    forall_mem_append.mpr ⟨hwf.wheres, fun w hw =>
      hcalls w (early_append_late es ▸ mem_append_left _ hw)⟩
  have hlate : ∀ w ∈ late es, w.WellFormed := fun w hw =>
    hcalls w (early_append_late es ▸ mem_append_right _ hw)
  have hlimit : b₀.applyScope.limit = b₀.limit := by rw [applyScope_eq]
  have hoffset : b₀.applyScope.offset = b₀.offset := by rw [applyScope_eq]
  rw [sameWhere_scoped_iff hearly hlate (pendingScope_wellFormed hscope) hwf.soft, hoffset, hlimit,
    (page_after b es).1, (page_after b es).2, ← hb₀, or_eq_right_iff]
  constructor
  · rintro ⟨hrepeats, hl, ho⟩
    refine ⟨hrepeats, fun hq => ?_, ho⟩
    rw [hq] at hl
    exact or_eq_right_iff.mp hl
  · rintro ⟨hrepeats, hl, ho⟩
    refine ⟨hrepeats, ?_, ho⟩
    cases hq : q.limits with
    | true => rfl
    | false => exact or_eq_right_iff.mpr (hl hq)

theorem same_firstStmt_iff {es : List UseEffect} (hcalls : ∀ w ∈ clausesOf es, w.WellFormed)
    (q : Read) :
    Option.Rel Stmt.Same (firstStmt (q.run (b.after es)))
        (firstStmt (q.run (b.fresh (es.filterMap call?)))) ↔
      (b.rawQuery = "" → (∃ c, q.clone b = .ok c) → Undisturbed b es q) := by
  by_cases hraw : b.rawQuery = ""
  · cases htarget : q.target b with
    | ok p =>
      rw [same_firstStmt_of_target hwf hscope hcalls hraw htarget]
      have hclone := clone_eq hraw q
      rw [htarget] at hclone
      exact ⟨fun h _ _ => h, fun h => h hraw ⟨_, hclone⟩⟩
    | error e =>
      -- the read fails before its statement, in both runs
      set b₀ := b.fresh (es.filterMap call?) with hb₀
      have hraw₀ : b₀.applyScope.rawQuery = "" := by
        rw [rawQuery_applyScope, (fresh_fields b _).2.2.2.1, hraw]
      have htarget₀ : q.target b₀.applyScope = .error e := (target_fresh b _ q).trans htarget
      have hafter : q.stmt (b.after es).applyScope = none := by
        rw [applyScope_after_eq]
        refine stmt_of_target_error (e := e) ?_ ?_
        · exact hraw₀
        · exact htarget₀
      rw [firstStmt_run, firstStmt_run, hafter, stmt_of_target_error hraw₀ htarget₀]
      refine iff_of_true .none fun _ ⟨c, hc⟩ => ?_
      rw [clone_eq hraw, htarget] at hc
      cases hc
  · have hraw' : (b.fresh (es.filterMap call?)).rawQuery ≠ "" := by
      rwa [(fresh_fields b (es.filterMap call?)).2.2.2.1]
    rw [firstStmt_run_of_raw (alike_after (Alike.refl b) es) hraw']
    refine iff_of_true ?_ fun h => absurd h hraw
    cases firstStmt (q.run (b.fresh (es.filterMap call?))) with
    | none => exact .none
    | some s => exact .some (.refl s)

/-- **When reads leave no trace.** For any builder and any sequence of calls and reads, on any
database: the statement of a read that comes after them, with its arguments, is the same as on a
fresh builder with the same calls, up to redundant parentheses, if and only if the reads are
`Undisturbed`; or no statement is issued; or it is a raw query. -/
theorem undisturbed_iff {uses : List Use}
    (hcalls : ∀ c ∈ uses.filterMap Use.call?, ∀ w ∈ c.clauses, w.WellFormed) {σ : Type}
    (h : (c : Cmd) → σ → Cmd.Resp c × σ) (st : σ) (q : Read) :
    Option.Rel Stmt.Same (firstStmt (q.run (b.after ((runUses b uses).run h st).1)))
        (firstStmt (q.run (b.fresh (uses.filterMap Use.call?)))) ↔
      (b.rawQuery = "" → (∃ c, q.clone b = .ok c) →
        Undisturbed b ((runUses b uses).run h st).1 q) := by
  have hes := calls_runUses h b uses st
  rw [← hes]
  refine same_firstStmt_iff hwf hscope (fun w hw => ?_) q
  rw [clausesOf, hes] at hw
  obtain ⟨c, hc, hw⟩ := mem_flatMap.mp hw
  exact hcalls c hc w hw

end Main

/-- A database that counts `n` rows. -/
def countingDb (n : Int) : (c : Cmd) → Unit → Cmd.Resp c × Unit
  | .get _ _, st => (.ok (some [("COUNT(*)", .int n)]), st)
  | .select _ _, st => (.ok [], st)
  | .exec _ _, st => (.ok (0, none), st)
  | .beginTx, st => (.ok (), st)
  | .commit, st => (.ok (), st)
  | .rollback, st => (.ok (), st)
  | .now, st => (⟨0, 0, 0⟩, st)

/-- Users of one tenant are counted and then listed in an order. -/
def countThenOrder : List Use :=
  [.call (.cond (.eq "level" (.int 3))), .read .count, .call (.orderBy "name DESC")]

/-- The order that is added after the count makes no difference. -/
theorem tenantUsers_countThenOrder :
    Option.Rel Stmt.Same
      (firstStmt (Read.run ((tenantUsers "deleted_at IS NULL").after
        ((runUses (tenantUsers "deleted_at IS NULL") countThenOrder).run (countingDb 25) ()).1)
        (.findAll (some (.slicePtr none)))))
      (firstStmt (Read.run ((tenantUsers "deleted_at IS NULL").fresh
        (countThenOrder.filterMap Use.call?)) (.findAll (some (.slicePtr none))))) := by
  refine (@undisturbed_iff (tenantUsers "deleted_at IS NULL")
    ⟨by decide +kernel, fun _ => by decide +kernel⟩ (by decide +kernel) countThenOrder ?_ Unit
    (countingDb 25) () (.findAll (some (.slicePtr none)))).mpr fun _ _ => ?_
  · intro c hc w hw
    rcases mem_pair.mp hc with rfl | rfl
    · revert w
      decide +kernel
    · cases hw
  · have heffects : ((runUses (tenantUsers "deleted_at IS NULL") countThenOrder).run
        (countingDb 25) ()).1 = [.call (.cond (.eq "level" (.int 3))), .read,
          .call (.orderBy "name DESC")] := rfl
    rw [heffects]
    refine ⟨fun _ h => absurd rfl h, fun _ n h => ?_, fun n h => ?_⟩
    · cases h
    · cases h

/-- Users of one tenant are counted, and then a condition is added with `OR`: the text is now
`(role = ? OR owner = ?) AND (tenant_id = ?) OR level > ?`, which finds users of every tenant. And
after the second page of notes was read, a count is limited to this page. -/
theorem reads_leave_traces :
    (¬ Option.Rel Stmt.Same
      (firstStmt (Read.run ((tenantUsers "").after ((runUses (tenantUsers "")
        [.read .count, .call (.cond (.orExpr "level > ?" [.int 5]))]).run (countingDb 25) ()).1)
        (.findAll (some (.slicePtr none)))))
      (firstStmt (Read.run ((tenantUsers "").fresh [.cond (.orExpr "level > ?" [.int 5])])
        (.findAll (some (.slicePtr none)))))) ∧
    ¬ Option.Rel Stmt.Same
      (firstStmt (Read.run (Builder.after { table := "notes" } ((runUses { table := "notes" }
        [.paginate (.slicePtr none) 2 10]).run (countingDb 25) ()).1) .count))
      (firstStmt (Read.run (fresh { table := "notes" } []) .count)) := by
  constructor
  · have heffects : ((runUses (tenantUsers "")
        [.read .count, .call (.cond (.orExpr "level > ?" [.int 5]))]).run (countingDb 25) ()).1 =
          [.read, .call (.cond (.orExpr "level > ?" [.int 5]))] := rfl
    rw [heffects]
    intro hsame
    have hundisturbed := (@same_firstStmt_iff (tenantUsers "")
      ⟨by decide +kernel, fun h => absurd rfl h⟩ (by decide +kernel)
      [.read, .call (.cond (.orExpr "level > ?" [.int 5]))] (by decide +kernel)
      (.findAll (some (.slicePtr none)))).mp hsame rfl ⟨_, rfl⟩
    have hjoined := (hundisturbed.scope (by decide +kernel) (by decide +kernel)).joined
    exact absurd hjoined (by decide)
  · have heffects : ((runUses { table := "notes" } [.paginate (.slicePtr none) 2 10]).run
        (countingDb 25) ()).1 = [.paged 2 10] := rfl
    rw [heffects]
    intro hsame
    have hundisturbed := (@same_firstStmt_iff { table := "notes" }
      ⟨by decide +kernel, fun h => absurd rfl h⟩ (by decide +kernel) [.paged 2 10]
      (by decide +kernel) .count).mp hsame rfl ⟨_, rfl⟩
    cases hundisturbed.limit rfl 10 rfl

end Kiya
