import Kiya.Db.Statement

/-!
# What the WHERE text means

`buildWheres` joins the soft-delete condition and the conditions of a builder as texts. This
module compares what the joined text says, read with the precedence of SQL, with what was asked
for: the soft-delete condition **and** the conditions, each taken as one unit, `AND` binding
tighter than `OR`.

Only one of the three rules of `buildWheres` adds parentheses, around all the conditions
together, and it is chosen by the calls that added them, not by their texts. So a condition
with an `OR` of its own is torn apart wherever it stands next to an `AND`. The main
result says that this is all that goes wrong.
-/

namespace Kiya

open Sql Builder List

/-! ### Conditions that can be read -/

/-- A condition is well formed if it can be read, with exactly its arguments. -/
def WhereClause.WellFormed (w : WhereClause) : Prop := (parseText w.expr w.args).isSome = true

/-- The form of a condition. -/
def WhereClause.terms (w : WhereClause) : Terms (Atom Value) :=
  (parseText w.expr w.args).getD []

/-- The conditions with their connectives. -/
def clauseTerms (ws : List WhereClause) : List (Conn × Terms (Atom Value)) :=
  ws.map fun w => (w.boolean, w.terms)

/-- The soft-delete condition as a condition. -/
def softClause (cond : String) : WhereClause := ⟨.and, cond, []⟩

variable {w : WhereClause} {ws : List WhereClause}

theorem WhereClause.WellFormed.parseText_eq (h : w.WellFormed) :
    parseText w.expr w.args = some w.terms := by
  obtain ⟨ts, hts⟩ := Option.isSome_iff_exists.mp h
  rw [WhereClause.terms, hts]
  rfl

variable {ts : Terms (Atom Value)}

theorem WhereClause.wellFormed_of_parseText (h : parseText w.expr w.args = some ts) :
    w.WellFormed ∧ w.terms = ts := by
  refine ⟨?_, ?_⟩
  · rw [WhereClause.WellFormed, h]
    rfl
  · rw [WhereClause.terms, h]
    rfl

theorem WhereClause.WellFormed.complete (h : w.WellFormed) :
    Complete w.terms := complete_of_parseText h.parseText_eq

theorem complete_clauseTerms (h : ∀ w ∈ ws, w.WellFormed) : ∀ p ∈ clauseTerms ws, Complete p.2 := by
  intro p hp
  obtain ⟨w, hw, rfl⟩ := mem_map.mp hp
  exact (h w hw).complete

/-! ### Joined texts -/

theorem joinWheres_cons_cons (w w' : WhereClause) (ws : List WhereClause) :
    joinWheres (w :: w' :: ws) =
      w.expr ++ " " ++ w'.boolean.text ++ " " ++ joinWheres (w' :: ws) := by
  simp [joinWheres, joinRest, String.append_assoc]

/-- The joined conditions are read as `joinTerms` says. -/
theorem parseText_joinWheres (h : ∀ v ∈ w :: ws, v.WellFormed) :
    parseText (joinWheres (w :: ws)) (joinArgs (w :: ws)) =
      some (joinTerms (clauseTerms (w :: ws))) := by
  induction ws generalizing w with
  | nil =>
    have hw : joinWheres [w] = w.expr := by simp [joinWheres, joinRest]
    rw [hw]
    simpa [joinArgs, clauseTerms, joinTerms] using (h w mem_cons_self).parseText_eq
  | cons w' ws ih =>
    have hw := (h w mem_cons_self).parseText_eq
    have hrest := ih fun v hv => h v (mem_cons_of_mem _ hv)
    have hargs : joinArgs (w :: w' :: ws) = w.args ++ joinArgs (w' :: ws) := by simp [joinArgs]
    have hjoin := parseText_join w'.boolean hw hrest
    rw [joinWheres_cons_cons, hargs, hjoin]
    simp only [clauseTerms, map_cons]
    cases w'.boolean with
    | and | or => rw [joinTerms]; rfl

/-- Without `OrWhere`, the third rule writes the same text as the loop over all conditions. -/
theorem andAll_eq_joinRest (h : hasOr ws = false) : andAll ws = joinRest ws := by
  induction ws with
  | nil => rfl
  | cons w ws ih =>
    obtain ⟨hw, hws⟩ : w.boolean ≠ .or ∧ hasOr ws = false := by simpa [hasOr] using h
    have hand : w.boolean = .and := by
      cases hb : w.boolean with
      | and => rfl
      | or => exact absurd hb hw
    have htext : (" AND " : String) = " " ++ Conn.and.text ++ " " := by decide
    rw [andAll, joinRest, ih hws, hand, htext]

/-! ### What was asked, and what is written -/

namespace Builder

/-- The builder's conditions can be read. -/
structure WellFormed (b : Builder) : Prop where
  wheres : ∀ w ∈ b.wheres, w.WellFormed
  soft : b.softDeleteCondition ≠ "" → (softClause b.softDeleteCondition).WellFormed

/-- What was asked for: the soft-delete condition, and the conditions taken as units. -/
def asked (b : Builder) (I : Atom Value → Truth) : Truth :=
  (if b.softDeleteCondition = "" then Truth.true
    else evalTerms I (softClause b.softDeleteCondition).terms).and
  (if b.wheres.isEmpty then .true else combine (units I (clauseTerms b.wheres)))

/-- The WHERE text, read with the precedence of SQL, says what was asked for; no text says
that every row is meant. -/
def Denotes (b : Builder) : Prop :=
  match b.whereText with
  | none => ∀ I, b.asked I = .true
  | some w => ∃ ts, parseText w.text w.args = some ts ∧ ∀ I, evalTerms I ts = b.asked I

/-- No condition with a top-level `OR` stands next to an `AND` that is written beside it. The
soft-delete condition counts as the first of the conditions, unless `OrWhere` was called: then
they stand in parentheses. -/
def Grouped (b : Builder) : Prop :=
  if b.softDeleteCondition = "" then Separated (clauseTerms b.wheres)
  else if hasOr b.wheres then
    (softClause b.softDeleteCondition).terms.length ≤ 1 ∧ Separated (clauseTerms b.wheres)
  else Separated (clauseTerms (softClause b.softDeleteCondition :: b.wheres))

/-- The atoms of the conditions are distinct. -/
def DistinctAtoms (b : Builder) : Prop :=
  ((clauseTerms (softClause b.softDeleteCondition :: b.wheres)).flatMap
    fun p => termAtoms p.2).Nodup

/-- The form of the WHERE text. -/
def whereTerms (b : Builder) : Option (Terms (Atom Value)) :=
  b.whereText.bind fun w => parseText w.text w.args

end Builder

/-! ### The three rules -/

section Rules

variable {b : Builder}

theorem Builder.denotes_iff (h : b.whereTerms = some ts) :
    b.Denotes ↔ ∀ I, evalTerms I ts = b.asked I := by
  obtain ⟨w, hw, hparse⟩ := Option.bind_eq_some_iff.mp h
  unfold Denotes
  rw [hw]
  simp only
  constructor
  · rintro ⟨us, hus, hasked⟩
    obtain rfl : us = ts := Option.some.inj (hus.symm.trans hparse)
    exact hasked
  · exact fun hasked => ⟨ts, hparse, hasked⟩

/-- No soft-delete condition: the conditions one after the other. -/
theorem whereTerms_of_no_soft (hwf : b.WellFormed) (hsoft : b.softDeleteCondition = "")
    (hne : b.wheres ≠ []) : b.whereTerms = some (joinTerms (clauseTerms b.wheres)) := by
  obtain ⟨w, ws, hws⟩ := exists_cons_of_ne_nil hne
  have hparse := @parseText_joinWheres w ws (hws ▸ hwf.wheres)
  simp [whereTerms, whereText, hsoft, hws, hparse]

/-- The soft-delete condition alone. -/
theorem whereTerms_of_soft_only (hwf : b.WellFormed) (hsoft : b.softDeleteCondition ≠ "")
    (hws : b.wheres = []) : b.whereTerms = some (softClause b.softDeleteCondition).terms := by
  have hparse := (hwf.soft hsoft).parseText_eq
  have htext : b.whereText = some ⟨b.softDeleteCondition, []⟩ := by
    simp [whereText, hsoft, hws]
  rwa [whereTerms, htext]

/-- The soft-delete condition and the conditions, all joined by `AND`. -/
theorem whereTerms_of_soft_and (hwf : b.WellFormed) (hsoft : b.softDeleteCondition ≠ "")
    (hne : b.wheres ≠ []) (hor : hasOr b.wheres = false) : b.whereTerms =
      some (joinTerms (clauseTerms (softClause b.softDeleteCondition :: b.wheres))) := by
  have hwfs : ∀ v ∈ softClause b.softDeleteCondition :: b.wheres, v.WellFormed := by
    intro v hv
    rcases mem_cons.mp hv with rfl | hv
    · exact hwf.soft hsoft
    · exact hwf.wheres v hv
  have htext : b.whereText = some ⟨joinWheres (softClause b.softDeleteCondition :: b.wheres),
      joinArgs (softClause b.softDeleteCondition :: b.wheres)⟩ := by
    simp [whereText, hsoft, hne, hor, joinWheres, joinArgs, softClause, andAll_eq_joinRest hor]
  rw [whereTerms, htext]
  exact parseText_joinWheres hwfs

/-- Without parentheses: the soft-delete condition if there is one, and the conditions. -/
theorem whereTerms_of_and (hwf : b.WellFormed) (hne : b.wheres ≠ [])
    (hor : b.softDeleteCondition ≠ "" → hasOr b.wheres = false) :
    b.whereTerms = some (andTerms (softClause b.softDeleteCondition).terms
      (joinTerms (clauseTerms b.wheres))) := by
  by_cases hsoft : b.softDeleteCondition = ""
  · rw [whereTerms_of_no_soft hwf hsoft hne, hsoft]
    have hempty : (softClause "").terms = [] := rfl
    rw [hempty, andTerms_nil]
  · obtain ⟨w, ws, hws⟩ := exists_cons_of_ne_nil hne
    have hand : w.boolean = .and := by
      have hall := hor hsoft
      simp only [hws, hasOr, List.any_cons, Bool.or_eq_false_iff, decide_eq_false_iff_not] at hall
      cases hw : w.boolean with
      | and => rfl
      | or => exact absurd hw hall.1
    rw [whereTerms_of_soft_and hwf hsoft hne (hor hsoft), hws]
    simp only [clauseTerms, map_cons, hand]
    rw [joinTerms]

/-- The soft-delete condition, and the conditions in parentheses. -/
theorem whereTerms_of_soft_or (hwf : b.WellFormed) (hsoft : b.softDeleteCondition ≠ "")
    (hor : hasOr b.wheres = true) : ∃ e, ofTerms (joinTerms (clauseTerms b.wheres)) = some e ∧
      b.whereTerms = some (andTerms (softClause b.softDeleteCondition).terms [[e]]) := by
  have hne : b.wheres ≠ [] := by
    rintro hnil
    rw [hnil] at hor
    cases hor
  obtain ⟨w, ws, hws⟩ := exists_cons_of_ne_nil hne
  have hparse := @parseText_joinWheres w ws (hws ▸ hwf.wheres)
  rw [← hws] at hparse
  obtain ⟨e, he, hparen⟩ := parseText_paren hparse
  have hjoin := parseText_join .and (hwf.soft hsoft).parseText_eq hparen
  have htext : b.whereText = some ⟨b.softDeleteCondition ++ " " ++ Conn.and.text ++ " " ++
      ("(" ++ joinWheres b.wheres ++ ")"), [] ++ joinArgs b.wheres⟩ := by
    have hand : b.softDeleteCondition ++ " AND (" ++ joinWheres b.wheres ++ ")" =
        b.softDeleteCondition ++ " " ++ Conn.and.text ++ " " ++
          ("(" ++ joinWheres b.wheres ++ ")") := by
      simp [← String.toList_inj, Conn.text]
    simp [whereText, hsoft, hne, hor, ← hand]
  refine ⟨e, he, ?_⟩
  rwa [whereTerms, htext]

theorem asked_of_no_soft (hsoft : b.softDeleteCondition = "") (hne : b.wheres ≠ [])
    (I : Atom Value → Truth) : b.asked I = combine (units I (clauseTerms b.wheres)) := by
  simp [asked, hsoft, hne]

theorem asked_of_soft (hsoft : b.softDeleteCondition ≠ "") (hne : b.wheres ≠ [])
    (I : Atom Value → Truth) :
    b.asked I = (evalTerms I (softClause b.softDeleteCondition).terms).and
      (combine (units I (clauseTerms b.wheres))) := by
  simp [asked, hsoft, hne]

/-- With `AND` everywhere, the soft-delete condition is one more unit. -/
theorem asked_of_soft_and (hsoft : b.softDeleteCondition ≠ "") (hne : b.wheres ≠ [])
    (hor : hasOr b.wheres = false) (I : Atom Value → Truth) : b.asked I =
      combine (units I (clauseTerms (softClause b.softDeleteCondition :: b.wheres))) := by
  obtain ⟨w, ws, hws⟩ := exists_cons_of_ne_nil hne
  rw [asked_of_soft hsoft hne]
  rw [hws] at hor ⊢
  simp only [clauseTerms, map_cons, units_cons]
  rw [combine_of_and]
  rintro p hp
  obtain ⟨v, hv, hpv⟩ : ∃ v ∈ w :: ws, p.1 = v.boolean := by
    rcases mem_cons.mp hp with rfl | hp
    · exact ⟨w, mem_cons_self, rfl⟩
    · obtain ⟨q, hq, rfl⟩ := mem_map.mp hp
      obtain ⟨v, hv, rfl⟩ := mem_map.mp hq
      exact ⟨v, mem_cons_of_mem _ hv, rfl⟩
  have hvor : v.boolean ≠ .or := by
    have hall : ∀ v ∈ w :: ws, v.boolean ≠ .or := by simpa [hasOr] using hor
    exact hall v hv
  rw [hpv]
  cases hb : v.boolean with
  | and => rfl
  | or => exact absurd hb hvor

end Rules

/-! ### Reading and meaning -/

section Meaning

variable {b : Builder}

/-- Conditions that are grouped are read as they were meant. -/
theorem denotes_of_grouped (hwf : b.WellFormed) (hg : b.Grouped) : b.Denotes := by
  have hc := complete_clauseTerms hwf.wheres
  by_cases hsoft : b.softDeleteCondition = ""
  · by_cases hne : b.wheres = []
    · simp [Denotes, whereText, asked, hsoft, hne]
    · rw [denotes_iff (whereTerms_of_no_soft hwf hsoft hne)]
      intro I
      rw [Grouped, if_pos hsoft] at hg
      rw [asked_of_no_soft hsoft hne]
      exact evalTerms_joinTerms I (by simpa [clauseTerms] using hne) hc hg
  rw [Grouped, if_neg hsoft] at hg
  by_cases hor : hasOr b.wheres = true
  · -- the conditions stand in parentheses, next to the soft-delete condition
    rw [if_pos hor] at hg
    obtain ⟨e, he, hterms⟩ := whereTerms_of_soft_or hwf hsoft hor
    have hne : b.wheres ≠ [] := by
      rintro hnil
      rw [hnil] at hor
      cases hor
    rw [denotes_iff hterms]
    intro I
    obtain ⟨s, hs⟩ := (hwf.soft hsoft).complete.eq_singleton hg.1
    have hjoin := evalTerms_joinTerms I (by simpa [clauseTerms] using hne) hc hg.2
    rw [asked_of_soft hsoft hne, hs, andTerms_singleton, evalTerms_cons, evalBranch_append,
      evalBranch_cons, eval_ofTerms he, hjoin]
    simp
  rw [if_neg hor] at hg
  rw [Bool.not_eq_true] at hor
  by_cases hne : b.wheres = []
  · rw [denotes_iff (whereTerms_of_soft_only hwf hsoft hne)]
    intro I
    simp [asked, hsoft, hne]
  · rw [denotes_iff (whereTerms_of_soft_and hwf hsoft hne hor)]
    intro I
    rw [asked_of_soft_and hsoft hne hor]
    refine evalTerms_joinTerms I (by simp [clauseTerms]) (complete_clauseTerms ?_) hg
    intro v hv
    rcases mem_cons.mp hv with rfl | hv
    · exact hwf.soft hsoft
    · exact hwf.wheres v hv

/-- Conditions that are not grouped and have distinct atoms are misread: some truth values of
the atoms select a row that was not asked for. -/
theorem exists_misread (hwf : b.WellFormed) (hd : b.DistinctAtoms) (hg : ¬ b.Grouped) :
    ∃ ts I, b.whereTerms = some ts ∧ evalTerms I ts = .true ∧ b.asked I = .false := by
  have hc := complete_clauseTerms hwf.wheres
  have hdw : ((clauseTerms b.wheres).flatMap fun p => termAtoms p.2).Nodup := by
    rw [DistinctAtoms, clauseTerms, map_cons, flatMap_cons] at hd
    exact hd.of_append_right
  by_cases hsoft : b.softDeleteCondition = ""
  · rw [Grouped, if_pos hsoft] at hg
    have hne : b.wheres ≠ [] := by
      rintro hnil
      exact hg (by rw [hnil]; trivial)
    obtain ⟨I, hread, hmeant⟩ := exists_joinTerms_ne_combine hc hdw hg
    exact ⟨_, I, whereTerms_of_no_soft hwf hsoft hne, hread,
      by rw [asked_of_no_soft hsoft hne, hmeant]⟩
  rw [Grouped, if_neg hsoft] at hg
  by_cases hor : hasOr b.wheres = true
  · rw [if_pos hor] at hg
    obtain ⟨e, he, hterms⟩ := whereTerms_of_soft_or hwf hsoft hor
    have hne : b.wheres ≠ [] := by
      rintro hnil
      rw [hnil] at hor
      cases hor
    have hcs : Complete (softClause b.softDeleteCondition).terms := (hwf.soft hsoft).complete
    by_cases hlen : (softClause b.softDeleteCondition).terms.length ≤ 1
    · -- the conditions are misread among themselves
      have hsep : ¬ Separated (clauseTerms b.wheres) := fun hsep => hg ⟨hlen, hsep⟩
      obtain ⟨bs, hbs, htargets⟩ := exists_targets hc hsep
      have hlength : (true :: bs).length =
          (clauseTerms (softClause b.softDeleteCondition :: b.wheres)).length := by
        simpa [clauseTerms] using hbs
      obtain ⟨I, hI⟩ := exists_meets hlength hd
      obtain ⟨hs, hrest⟩ := List.forall₂_cons.mp hI
      obtain ⟨hread, hmeant⟩ := htargets I hrest
      have hst := hs.evalTerms hcs
      obtain ⟨s, hsingle⟩ := hcs.eq_singleton hlen
      refine ⟨_, I, hterms, ?_, by rw [asked_of_soft hsoft hne, hmeant, Truth.and_false]⟩
      simp only [hsingle] at hst
      rw [hsingle, andTerms_singleton, evalTerms_cons, evalBranch_append, evalBranch_cons,
        eval_ofTerms he, hread]
      simpa using hst
    · -- the first branch of the soft-delete condition stands alone
      obtain ⟨f, fs, tl, hsoftTerms⟩ := hcs.exists_cons
      obtain ⟨v, tl, rfl⟩ := exists_cons_of_ne_nil
        (show tl ≠ [] from fun h => hlen (by rw [hsoftTerms, h]; simp))
      have hlength : (true :: List.replicate (clauseTerms b.wheres).length false).length =
          (clauseTerms (softClause b.softDeleteCondition :: b.wheres)).length := by
        simp [clauseTerms]
      obtain ⟨I, hI⟩ := exists_meets hlength hd
      obtain ⟨hs, hrest⟩ := List.forall₂_cons.mp hI
      refine ⟨_, I, hterms, ?_, ?_⟩
      · refine evalTerms_of_mem (t := f :: fs) (by rw [hsoftTerms]; simp) fun g hg => ?_
        exact hs (f :: fs) (by simp only [hsoftTerms]; simp) g hg
      · rw [asked_of_soft hsoft hne, combine_of_meets_false hc hrest, Truth.and_false]
  rw [if_neg hor] at hg
  rw [Bool.not_eq_true] at hor
  have hne : b.wheres ≠ [] := by
    rintro hnil
    exact hg (by rw [hnil]; trivial)
  have hcs : ∀ p ∈ clauseTerms (softClause b.softDeleteCondition :: b.wheres), Complete p.2 := by
    refine complete_clauseTerms fun v hv => ?_
    rcases mem_cons.mp hv with rfl | hv
    · exact hwf.soft hsoft
    · exact hwf.wheres v hv
  obtain ⟨I, hread, hmeant⟩ := exists_joinTerms_ne_combine hcs hd hg
  exact ⟨_, I, whereTerms_of_soft_and hwf hsoft hne hor, hread,
    by rw [asked_of_soft_and hsoft hne hor, hmeant]⟩

/-- **What the WHERE text means.** For every soft-delete condition and every list of conditions
that can be read: if no condition with a top-level `OR` stands next to an `AND`, then the text
says what was asked for. If the atoms are distinct, it does so in no other case. -/
theorem denotes_iff_grouped (hwf : b.WellFormed) :
    (b.Grouped → b.Denotes) ∧ (b.DistinctAtoms → (b.Denotes ↔ b.Grouped)) := by
  refine ⟨denotes_of_grouped hwf, fun hd => ⟨fun hden => ?_, denotes_of_grouped hwf⟩⟩
  by_contra hg
  obtain ⟨ts, I, hterms, hread, hmeant⟩ := exists_misread hwf hd hg
  have heq := (denotes_iff hterms).mp hden I
  rw [hread, hmeant] at heq
  cases heq

end Meaning

instance (w : WhereClause) : Decidable w.WellFormed := inferInstanceAs (Decidable (_ = true))

instance (b : Builder) : Decidable b.Grouped := by
  unfold Grouped
  infer_instance

/-- A model with soft delete, searched for active administrators. -/
def activeAdmins : Builder :=
  ({ table := "users", softDeleteCondition := "deleted_at IS NULL" } : Builder)
    |>.whereExpr "role = ?" [.str (.text "admin")]
    |>.whereExpr "active = ? AND level BETWEEN ? AND ?" [.bool true, .int 1, .int 9]

/-- Its WHERE text says what was asked for. -/
theorem activeAdmins_denotes : activeAdmins.Denotes :=
  (denotes_iff_grouped ⟨by decide +kernel, fun _ => by decide +kernel⟩).1 (by decide +kernel)

/-- The same model, with one condition that has an `OR` of its own. -/
def adminsOrOwners : Builder :=
  ({ table := "users", softDeleteCondition := "deleted_at IS NULL" } : Builder)
    |>.whereExpr "role = ? OR owner = ?" [.str (.text "admin"), .int 7]

/-- The atom of the soft-delete condition. -/
def notDeleted : Atom Value :=
  [.word "deleted_at".toList, .word "IS".toList, .word "NULL".toList]

/-- Its WHERE text, `deleted_at IS NULL AND role = ? OR owner = ?`, selects deleted rows. -/
theorem adminsOrOwners_shows_deleted :
    ¬ adminsOrOwners.Denotes ∧ ∃ ts I, adminsOrOwners.whereTerms = some ts ∧
      evalTerms I ts = .true ∧ I notDeleted = .false := by
  have hterms : adminsOrOwners.whereTerms = some
      [[.atom notDeleted, .atom [.word "role".toList, .sym '=', .arg (.str (.text "admin"))]],
        [.atom [.word "owner".toList, .sym '=', .arg (.int 7)]]] := by decide +kernel
  -- a deleted row of the owner
  let I : Atom Value → Truth := fun a =>
    .ofBool (a = [.word "owner".toList, .sym '=', .arg (.int 7)])
  have hsoft : (softClause adminsOrOwners.softDeleteCondition).terms = [[.atom notDeleted]] := by
    decide +kernel
  refine ⟨fun hden => ?_, _, I, hterms, by decide +kernel, by decide +kernel⟩
  have heq := (denotes_iff hterms).mp hden I
  rw [asked_of_soft (by decide +kernel) (by decide +kernel), hsoft] at heq
  have hdeleted : evalTerms I [[.atom notDeleted]] = .false := by decide +kernel
  rw [hdeleted, Truth.false_and] at heq
  exact absurd heq (by decide +kernel)

end Kiya
