import Mathlib.Data.List.Basic

/-!
# Boolean expressions of SQL

The Boolean layer of SQL conditions: three truth values, expressions over opaque atoms, and
the two-level form in which a parser reads them.

A text such as `a AND b OR c` is read as a list of `OR` branches, each a list of `AND`
factors: `[[a, b], [c]]`. This form, `Terms`, keeps the precedence of the two connectives and
forgets nothing but the way equal connectives are associated:

* writing `OR` between two texts appends their branches;
* writing `AND` between two texts joins the last branch of the first with the first branch of
  the second (`andTerms`), whatever these branches are;
* parentheses turn a whole form into one factor (`ofTerms`).

Expressions have no constants, so each can be made true and each can be made false by a choice
of truth values for its atoms (`Expr.eval_of_demand`), and expressions without a common atom
independently of one another (`exists_meets_demands`).
-/

namespace Sql

open List Option

/-! ### Truth values -/

/-- The truth values of SQL. -/
inductive Truth where
  | false
  | unknown
  | true
  deriving DecidableEq, Repr

namespace Truth

/-- Conjunction: the smaller of two truth values. -/
def and : Truth → Truth → Truth
  | .true, t => t
  | .false, _ => .false
  | .unknown, .false => .false
  | .unknown, _ => .unknown

/-- Disjunction: the larger of two truth values. -/
def or : Truth → Truth → Truth
  | .false, t => t
  | .true, _ => .true
  | .unknown, .true => .true
  | .unknown, _ => .unknown

/-- Negation. -/
def not : Truth → Truth
  | .true => .false
  | .false => .true
  | .unknown => .unknown

/-- The truth value of a condition that is never unknown. -/
def ofBool : Bool → Truth
  | .true => .true
  | .false => .false

@[simp] theorem ofBool_true : ofBool Bool.true = .true := rfl

variable (t : Truth)

@[simp] theorem true_and : Truth.true.and t = t := rfl

@[simp] theorem and_true : t.and .true = t := by cases t <;> rfl

@[simp] theorem false_and : Truth.false.and t = .false := rfl

@[simp] theorem and_false : t.and .false = .false := by cases t <;> rfl

@[simp] theorem false_or : Truth.false.or t = t := rfl

@[simp] theorem or_false : t.or .false = t := by cases t <;> rfl

@[simp] theorem true_or : Truth.true.or t = .true := rfl

@[simp] theorem or_true : t.or .true = .true := by cases t <;> rfl

theorem and_assoc (s t u : Truth) : (s.and t).and u = s.and (t.and u) := by
  cases s <;> cases t <;> cases u <;> rfl

theorem or_assoc (s t u : Truth) : (s.or t).or u = s.or (t.or u) := by
  cases s <;> cases t <;> cases u <;> rfl

variable {s t : Truth}

@[simp] theorem and_eq_true : s.and t = .true ↔ s = .true ∧ t = .true := by
  cases s <;> cases t <;> simp [and]

@[simp] theorem or_eq_true : s.or t = .true ↔ s = .true ∨ t = .true := by
  cases s <;> cases t <;> simp [or]

variable (b : Bool)

@[simp] theorem not_ofBool : (ofBool b).not = ofBool !b := by cases b <;> rfl

@[simp] theorem and_ofBool_self : (ofBool b).and (ofBool b) = ofBool b := by
  cases b <;> rfl

@[simp] theorem or_ofBool_self : (ofBool b).or (ofBool b) = ofBool b := by
  cases b <;> rfl

/-- Conjunction of a list. -/
def all (ts : List Truth) : Truth := ts.foldr and .true

/-- Disjunction of a list. -/
def any (ts : List Truth) : Truth := ts.foldr or .false

@[simp] theorem all_nil : all [] = .true := rfl

@[simp] theorem all_cons (t : Truth) (ts : List Truth) : all (t :: ts) = t.and (all ts) := rfl

@[simp] theorem any_nil : any [] = .false := rfl

@[simp] theorem any_cons (t : Truth) (ts : List Truth) : any (t :: ts) = t.or (any ts) := rfl

theorem all_append (ss ts : List Truth) : all (ss ++ ts) = (all ss).and (all ts) := by
  induction ss with
  | nil => rfl
  | cons s ss ih => rw [cons_append, all_cons, all_cons, ih, and_assoc]

theorem any_append (ss ts : List Truth) : any (ss ++ ts) = (any ss).or (any ts) := by
  induction ss with
  | nil => rfl
  | cons s ss ih => rw [cons_append, any_cons, any_cons, ih, or_assoc]

theorem all_eq_true {ts : List Truth} : all ts = .true ↔ ∀ t ∈ ts, t = .true := by
  induction ts with
  | nil => simp
  | cons t ts ih => simp [ih]

theorem any_eq_true {ts : List Truth} : any ts = .true ↔ .true ∈ ts := by
  induction ts with
  | nil => simp
  | cons t ts ih => rw [any_cons, or_eq_true, ih, mem_cons, eq_comm]

end Truth

/-! ### Expressions -/

/-- A Boolean expression over atoms of type `α`. -/
inductive Expr (α : Type) where
  | atom (a : α)
  | not (e : Expr α)
  | and (e f : Expr α)
  | or (e f : Expr α)
  deriving DecidableEq, Repr

variable {α : Type} {I : α → Truth} {e : Expr α}

namespace Expr

/-- The truth value of an expression, given those of its atoms. -/
def eval (I : α → Truth) : Expr α → Truth
  | .atom a => I a
  | .not e => (e.eval I).not
  | .and e f => (e.eval I).and (f.eval I)
  | .or e f => (e.eval I).or (f.eval I)

/-- The atoms of an expression, one for each occurrence. -/
def atoms : Expr α → List α
  | .atom a => [a]
  | .not e => e.atoms
  | .and e f => e.atoms ++ f.atoms
  | .or e f => e.atoms ++ f.atoms

/-- Truth values, one for each occurrence of an atom, under which an expression is `b`. -/
def demand : Expr α → Bool → List (α × Bool)
  | .atom a, b => [(a, b)]
  | .not e, b => e.demand !b
  | .and e f, b => e.demand b ++ f.demand b
  | .or e f, b => e.demand b ++ f.demand b

theorem map_fst_demand (e : Expr α) (b : Bool) : (e.demand b).map Prod.fst = e.atoms := by
  induction e generalizing b with
  | atom a => rfl
  | not e ih => exact ih _
  | and e f ihe ihf => simp [demand, atoms, ihe, ihf]
  | or e f ihe ihf => simp [demand, atoms, ihe, ihf]

/-- Any expression can be made true, and can be made false, if its atoms are free to take
the values demanded. -/
theorem eval_of_demand {b : Bool}
    (h : ∀ p ∈ e.demand b, I p.1 = .ofBool p.2) : e.eval I = .ofBool b := by
  induction e generalizing b with
  | atom a => exact h (a, b) (by simp [demand])
  | not e ih =>
    have he : e.eval I = .ofBool !b := ih h
    simp [eval, he]
  | and e f ihe ihf =>
    have he := ihe (b := b) fun p hp => h p (by simp [demand, hp])
    have hf := ihf (b := b) fun p hp => h p (by simp [demand, hp])
    simp [eval, he, hf]
  | or e f ihe ihf =>
    have he := ihe (b := b) fun p hp => h p (by simp [demand, hp])
    have hf := ihf (b := b) fun p hp => h p (by simp [demand, hp])
    simp [eval, he, hf]

end Expr

/-- The truth value of an expression depends on its atoms only. -/
theorem Expr.eval_congr {I J : α → Truth} (h : ∀ a ∈ e.atoms, I a = J a) : e.eval I = e.eval J := by
  induction e with
  | atom a => exact h a (by simp [atoms])
  | not e ih => exact congrArg Truth.not (ih h)
  | and e f ihe ihf =>
    rw [eval, eval, ihe fun a ha => h a (mem_append_left _ ha),
      ihf fun a ha => h a (mem_append_right _ ha)]
  | or e f ihe ihf =>
    rw [eval, eval, ihe fun a ha => h a (mem_append_left _ ha),
      ihf fun a ha => h a (mem_append_right _ ha)]

/-- Demands on distinct atoms can be met together. -/
theorem exists_meets_demands {ps : List (α × Bool)} (h : (ps.map Prod.fst).Nodup) :
    ∃ I : α → Truth, ∀ p ∈ ps, I p.1 = .ofBool p.2 := by
  classical
  induction ps with
  | nil => exact ⟨fun _ => .unknown, by simp⟩
  | cons q ps ih =>
    obtain ⟨hq, hps⟩ := nodup_cons.mp h
    obtain ⟨I, hI⟩ := ih hps
    refine ⟨fun a => if a = q.1 then .ofBool q.2 else I a, fun p hp => ?_⟩
    rcases mem_cons.mp hp with rfl | hp
    · simp
    · have hne : p.1 ≠ q.1 := fun heq => hq (heq ▸ List.mem_map_of_mem hp)
      simp [hne, hI p hp]

/-! ### Terms -/

/-- An expression as read off a text: its `OR` branches, each with its `AND` factors. -/
abbrev Terms (α : Type) := List (List (Expr α))

/-- The truth value of one branch. -/
def evalBranch (I : α → Truth) (fs : List (Expr α)) : Truth := .all (fs.map (Expr.eval I))

/-- The truth value of a form. -/
def evalTerms (I : α → Truth) (ts : Terms α) : Truth := .any (ts.map (evalBranch I))

/-- The atoms of a form, one for each occurrence. -/
def termAtoms (ts : Terms α) : List α := ts.flatten.flatMap Expr.atoms

/-- `AND` between two texts: it binds the last branch of the one and the first of the other. -/
def andTerms : Terms α → Terms α → Terms α
  | [], us => us
  | [t], u :: us => (t ++ u) :: us
  | [t], [] => [t]
  | t :: t' :: ts, us => t :: andTerms (t' :: ts) us

/-- The conjunction of the factors of a branch. -/
def conj : List (Expr α) → Option (Expr α)
  | [] => none
  | e :: es => some (es.foldl .and e)

/-- The disjunction of the branches of a form. -/
def disj : List (Expr α) → Option (Expr α)
  | [] => none
  | e :: es => some (es.foldl .or e)

/-- A form as one expression; `none` if a branch is missing. -/
def ofTerms (ts : Terms α) : Option (Expr α) := ts.mapM conj >>= disj

/-- A form with at least one branch, and no empty one. -/
def Complete (ts : Terms α) : Prop := ts ≠ [] ∧ ∀ t ∈ ts, t ≠ []

instance (ts : Terms α) : Decidable (Complete ts) := inferInstanceAs (Decidable (_ ∧ _))

@[simp] theorem evalBranch_nil (I : α → Truth) : evalBranch I [] = .true := rfl

@[simp] theorem evalBranch_cons (I : α → Truth) (e : Expr α) (es : List (Expr α)) :
    evalBranch I (e :: es) = (e.eval I).and (evalBranch I es) := rfl

theorem evalBranch_append (I : α → Truth) (fs gs : List (Expr α)) :
    evalBranch I (fs ++ gs) = (evalBranch I fs).and (evalBranch I gs) := by
  rw [evalBranch, map_append, Truth.all_append]
  rfl

@[simp] theorem evalTerms_nil (I : α → Truth) : evalTerms I [] = .false := rfl

@[simp] theorem evalTerms_cons (I : α → Truth) (t : List (Expr α)) (ts : Terms α) :
    evalTerms I (t :: ts) = (evalBranch I t).or (evalTerms I ts) := rfl

theorem evalTerms_append (I : α → Truth) (ts us : Terms α) :
    evalTerms I (ts ++ us) = (evalTerms I ts).or (evalTerms I us) := by
  rw [evalTerms, map_append, Truth.any_append]
  rfl

theorem eval_foldl_and (I : α → Truth) (e : Expr α) (es : List (Expr α)) :
    (es.foldl Expr.and e).eval I = (e.eval I).and (evalBranch I es) := by
  induction es generalizing e with
  | nil => simp
  | cons f es ih => rw [foldl_cons, ih, evalBranch_cons, ← Truth.and_assoc, Expr.eval]

theorem eval_foldl_or (I : α → Truth) (e : Expr α) (es : List (Expr α)) :
    (es.foldl Expr.or e).eval I = (e.eval I).or (.any (es.map (Expr.eval I))) := by
  induction es generalizing e with
  | nil => simp
  | cons f es ih =>
    rw [foldl_cons, ih, map_cons, Truth.any_cons, ← Truth.or_assoc, Expr.eval]

theorem eval_conj {fs : List (Expr α)} (h : conj fs = some e) : e.eval I = evalBranch I fs := by
  cases fs with
  | nil => cases h
  | cons f fs =>
    obtain rfl := Option.some.inj h
    exact eval_foldl_and I f fs

variable {ts us : Terms α} {es : List (Expr α)}

theorem mapM_conj_cons {t : List (Expr α)} (h : (t :: ts).mapM conj = some es) :
    ∃ e, conj t = some e ∧ ∃ es', ts.mapM conj = some es' ∧ e :: es' = es := by
  simpa [mapM_cons, bind_eq_some_iff] using h

theorem mapM_conj_eval (h : ts.mapM conj = some es) :
    es.map (Expr.eval I) = ts.map (evalBranch I) := by
  induction ts generalizing es with
  | nil =>
    obtain rfl : es = [] := by simpa using h.symm
    rfl
  | cons t ts ih =>
    obtain ⟨e, he, es', hes', rfl⟩ := mapM_conj_cons h
    rw [map_cons, map_cons, ih hes', eval_conj he]

/-- Parentheses keep the meaning of a form. -/
theorem eval_ofTerms (h : ofTerms ts = some e) : e.eval I = evalTerms I ts := by
  obtain ⟨es, hes, hdisj⟩ := bind_eq_some_iff.mp h
  rw [evalTerms, ← mapM_conj_eval hes]
  cases es with
  | nil => cases hdisj
  | cons f fs =>
    obtain rfl := Option.some.inj hdisj
    rw [eval_foldl_or]
    rfl

theorem atoms_foldl_and (e : Expr α) (es : List (Expr α)) :
    (es.foldl Expr.and e).atoms = e.atoms ++ es.flatMap Expr.atoms := by
  induction es generalizing e with
  | nil => simp
  | cons f es ih => simp [ih, Expr.atoms]

theorem atoms_foldl_or (e : Expr α) (es : List (Expr α)) :
    (es.foldl Expr.or e).atoms = e.atoms ++ es.flatMap Expr.atoms := by
  induction es generalizing e with
  | nil => simp
  | cons f es ih => simp [ih, Expr.atoms]

theorem flatMap_atoms_of_mapM_conj (h : ts.mapM conj = some es) :
    es.flatMap Expr.atoms = termAtoms ts := by
  induction ts generalizing es with
  | nil =>
    obtain rfl : es = [] := by simpa using h.symm
    rfl
  | cons t ts ih =>
    obtain ⟨e, he, es', hes', rfl⟩ := mapM_conj_cons h
    have hatoms : e.atoms = t.flatMap Expr.atoms := by
      cases t with
      | nil => cases he
      | cons f fs =>
        obtain rfl := Option.some.inj he
        exact atoms_foldl_and f fs
    rw [flatMap_cons, ih hes', hatoms, termAtoms, termAtoms, flatten_cons, flatMap_append]

/-- Parentheses keep the atoms of a form. -/
theorem atoms_ofTerms (h : ofTerms ts = some e) : e.atoms = termAtoms ts := by
  obtain ⟨es, hes, hdisj⟩ := bind_eq_some_iff.mp h
  rw [← flatMap_atoms_of_mapM_conj hes]
  cases es with
  | nil => cases hdisj
  | cons f fs =>
    obtain rfl := Option.some.inj hdisj
    exact atoms_foldl_or f fs

/-- A complete form is one expression. -/
theorem exists_ofTerms (h : Complete ts) : ∃ e, ofTerms ts = some e := by
  have hconj : ∀ us : Terms α, (∀ t ∈ us, t ≠ []) →
      ∃ es, us.mapM conj = some es ∧ es.length = us.length := by
    intro us hus
    induction us with
    | nil => exact ⟨[], by simp⟩
    | cons u us ih =>
      obtain ⟨es, hes, hlen⟩ := ih fun t ht => hus t (mem_cons_of_mem _ ht)
      obtain ⟨f, fs, rfl⟩ := exists_cons_of_ne_nil (hus u mem_cons_self)
      exact ⟨fs.foldl .and f :: es, by simp [conj, hes], by simp [hlen]⟩
  obtain ⟨es, hes, hlen⟩ := hconj ts h.2
  cases es with
  | nil => exact absurd (length_eq_zero_iff.mp hlen.symm) h.1
  | cons f fs => exact ⟨fs.foldl .or f, by simp [ofTerms, hes, disj]⟩

/-! ### Joining texts -/

@[simp] theorem andTerms_nil (us : Terms α) : andTerms [] us = us := by
  rw [andTerms]

@[simp] theorem andTerms_singleton (t u : List (Expr α)) (us : Terms α) :
    andTerms [t] (u :: us) = (t ++ u) :: us := by
  rw [andTerms]

@[simp] theorem andTerms_cons_cons (t t' : List (Expr α)) (ts us : Terms α) :
    andTerms (t :: t' :: ts) us = t :: andTerms (t' :: ts) us := by
  rw [andTerms]

theorem andTerms_append_singleton (ts : Terms α) (t u : List (Expr α)) (us : Terms α) :
    andTerms (ts ++ [t]) (u :: us) = ts ++ (t ++ u) :: us := by
  induction ts with
  | nil => simp
  | cons s ts ih =>
    cases ts with
    | nil => simp
    | cons s' ts =>
      have hcons : andTerms (s :: s' :: (ts ++ [t])) (u :: us) =
          s :: andTerms (s' :: ts ++ [t]) (u :: us) := andTerms_cons_cons ..
      exact hcons.trans (congrArg (s :: ·) ih)

@[simp] theorem andTerms_nil_right (ts : Terms α) : andTerms ts [] = ts := by
  induction ts with
  | nil => simp
  | cons t ts ih =>
    cases ts with
    | nil => rw [andTerms]
    | cons t' ts => rw [andTerms_cons_cons, ih]

/-- `AND` is associative on forms. -/
theorem andTerms_assoc (ts us vs : Terms α) :
    andTerms (andTerms ts us) vs = andTerms ts (andTerms us vs) := by
  rcases ts.eq_nil_or_concat with rfl | ⟨ts, t, rfl⟩
  · simp
  rcases us with - | ⟨u, us⟩
  · simp
  rcases vs with - | ⟨v, vs⟩
  · simp
  rw [concat_eq_append, andTerms_append_singleton]
  -- the middle form may be a single branch, which then joins both others
  rcases us.eq_nil_or_concat with rfl | ⟨us, u', rfl⟩
  · rw [andTerms_append_singleton, andTerms_singleton, andTerms_append_singleton, append_assoc]
  · rw [concat_eq_append, ← cons_append, ← append_assoc,
      andTerms_append_singleton, ← cons_append, andTerms_append_singleton,
      cons_append, andTerms_append_singleton]
    simp

/-- `OR` after `AND`. -/
theorem andTerms_append {ts us vs : Terms α} (hus : us ≠ []) :
    andTerms ts (us ++ vs) = andTerms ts us ++ vs := by
  obtain ⟨u, us, rfl⟩ := exists_cons_of_ne_nil hus
  rcases ts.eq_nil_or_concat with rfl | ⟨ts, t, rfl⟩
  · simp
  · rw [concat_eq_append, cons_append, andTerms_append_singleton,
      andTerms_append_singleton, append_assoc, cons_append]

theorem andTerms_ne_nil (hus : us ≠ []) : andTerms ts us ≠ [] := by
  obtain ⟨u, us, rfl⟩ := exists_cons_of_ne_nil hus
  rcases ts.eq_nil_or_concat with rfl | ⟨ts, t, rfl⟩
  · simp
  · rw [concat_eq_append, andTerms_append_singleton]
    simp

theorem flatten_andTerms (ts us : Terms α) :
    (andTerms ts us).flatten = ts.flatten ++ us.flatten := by
  rcases us with - | ⟨u, us⟩
  · simp
  rcases ts.eq_nil_or_concat with rfl | ⟨ts, t, rfl⟩
  · simp
  · rw [concat_eq_append, andTerms_append_singleton]
    simp

theorem termAtoms_andTerms (ts us : Terms α) :
    termAtoms (andTerms ts us) = termAtoms ts ++ termAtoms us := by
  rw [termAtoms, flatten_andTerms, flatMap_append]
  rfl

theorem evalBranch_congr {I J : α → Truth} {t : List (Expr α)} (ht : t ∈ ts)
    (h : ∀ a ∈ termAtoms ts, I a = J a) : evalBranch I t = evalBranch J t := by
  refine congrArg Truth.all (map_congr_left fun e he => Expr.eval_congr fun a ha => h a ?_)
  exact mem_flatMap.mpr ⟨e, mem_flatten.mpr ⟨t, ht, he⟩, ha⟩

theorem evalTerms_eq_true : evalTerms I ts = .true ↔ ∃ t ∈ ts, evalBranch I t = .true := by
  rw [evalTerms, Truth.any_eq_true, List.mem_map]

/-- A form with factors after it: all branches but the last stand alone. -/
theorem evalTerms_andTerms_singleton (ts : Terms α) (es : List (Expr α)) :
    evalTerms I (andTerms ts [es]) = .true ↔ (∃ t ∈ ts.dropLast, evalBranch I t = .true) ∨
        (evalBranch I (ts.getLastD []) = .true ∧ evalBranch I es = .true) := by
  rcases ts.eq_nil_or_concat with rfl | ⟨ts, t, rfl⟩
  · simp
  · rw [concat_eq_append, andTerms_append_singleton, evalTerms_append, Truth.or_eq_true,
      evalTerms_eq_true]
    simp [evalBranch_append]

theorem Complete.append (hts : Complete ts) (hus : Complete us) : Complete (ts ++ us) := by
  refine ⟨by simp [hts.1], fun t ht => ?_⟩
  rcases mem_append.mp ht with ht | ht
  · exact hts.2 t ht
  · exact hus.2 t ht

theorem Complete.andTerms (hts : Complete ts) (hus : Complete us) : Complete (andTerms ts us) := by
  obtain ⟨u, us, rfl⟩ := exists_cons_of_ne_nil hus.1
  rcases ts.eq_nil_or_concat with rfl | ⟨ts, t, rfl⟩
  · exact absurd rfl hts.1
  · rw [concat_eq_append] at hts ⊢
    rw [andTerms_append_singleton]
    refine ⟨by simp, fun s hs => ?_⟩
    rcases mem_append.mp hs with hs | hs
    · exact hts.2 s (mem_append_left _ hs)
    · rcases mem_cons.mp hs with rfl | hs
      · simp [hts.2 t (by simp)]
      · exact hus.2 s (mem_cons_of_mem _ hs)

end Sql
