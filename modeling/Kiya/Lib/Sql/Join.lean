import Kiya.Lib.Sql.Expr

/-!
# Conditions joined by connectives

A list of conditions with connectives between them, `x₁ c₂ x₂ c₃ x₃ …`, can be meant in one
way and read in another. What is *meant* is `combine`: each condition is one unit with one
truth value, and `AND` binds tighter than `OR`. What is *read* off the joined text is
`joinTerms`: the text has no trace of where one condition ends and the next begins, so `AND`
binds the two branches that happen to stand next to it.

The two agree if no condition with several `OR` branches stands next to an `AND`
(`Separated`, `evalTerms_joinTerms`). Otherwise, if the atoms are distinct, some truth values
of theirs make what is read true and what is meant false (`exists_joinTerms_ne_combine`).
-/

namespace Sql

open List

variable {α β : Type}

/-- The two connectives. -/
inductive Conn where
  | and
  | or
  deriving DecidableEq, Repr

/-- The form read off `x₁ c₂ x₂ c₃ x₃ …`; the connective of the first condition is not
written. -/
def joinTerms : List (Conn × Terms α) → Terms α
  | [] => []
  | [(_, t)] => t
  | (_, t) :: (.and, u) :: rest => andTerms t (joinTerms ((.and, u) :: rest))
  | (_, t) :: (.or, u) :: rest => t ++ joinTerms ((.or, u) :: rest)

/-- The conditions between two `OR`s. -/
def blocks : List (Conn × β) → List (List β)
  | [] => []
  | [(_, b)] => [[b]]
  | (_, b) :: (.and, b') :: rest =>
    match blocks ((.and, b') :: rest) with
    | [] => [[b]]
    | g :: gs => (b :: g) :: gs
  | (_, b) :: (.or, b') :: rest => [b] :: blocks ((.or, b') :: rest)

/-- What is meant by truth values with connectives between them. -/
def combine (us : List (Conn × Truth)) : Truth := .any ((blocks us).map .all)

/-- The truth values of a list of conditions. -/
def units (I : α → Truth) (cs : List (Conn × Terms α)) : List (Conn × Truth) :=
  cs.map fun c => (c.1, evalTerms I c.2)

/-- No condition with several branches stands next to an `AND`. -/
def Separated : List (Conn × Terms α) → Prop
  | [] => True
  | [_] => True
  | (_, t) :: (.and, u) :: rest =>
    t.length ≤ 1 ∧ u.length ≤ 1 ∧ Separated ((.and, u) :: rest)
  | (_, _) :: (.or, u) :: rest => Separated ((.or, u) :: rest)

instance decidableSeparated : (cs : List (Conn × Terms α)) → Decidable (Separated cs)
  | [] => .isTrue trivial
  | [_] => .isTrue trivial
  | (_, t) :: (.and, u) :: rest =>
    have := decidableSeparated ((.and, u) :: rest)
    inferInstanceAs (Decidable (t.length ≤ 1 ∧ u.length ≤ 1 ∧ Separated ((.and, u) :: rest)))
  | (_, _) :: (.or, u) :: rest => decidableSeparated ((.or, u) :: rest)

@[simp] theorem units_nil (I : α → Truth) : units I [] = [] := rfl

@[simp] theorem units_cons (I : α → Truth) (c : Conn) (t : Terms α) (rest : List (Conn × Terms α)) :
    units I ((c, t) :: rest) = (c, evalTerms I t) :: units I rest := rfl

/-! ### Blocks -/

theorem exists_blocks_cons (p : Conn × β) (rest : List (Conn × β)) :
    ∃ b g gs, blocks (p :: rest) = (b :: g) :: gs := by
  obtain ⟨c, b⟩ := p
  match rest with
  | [] => exact ⟨b, [], [], rfl⟩
  | (.and, b') :: rest =>
    cases h : blocks ((.and, b') :: rest) with
    | nil => exact ⟨b, [], [], by rw [blocks, h]⟩
    | cons g gs => exact ⟨b, g, gs, by rw [blocks, h]⟩
  | (.or, b') :: rest => exact ⟨b, [], _, rfl⟩

variable (c : Conn) (t u : Truth)

@[simp] theorem combine_singleton : combine [(c, t)] = t := by
  simp [combine, blocks]

@[simp] theorem combine_or (rest : List (Conn × Truth)) :
    combine ((c, t) :: (.or, u) :: rest) = t.or (combine ((.or, u) :: rest)) := by
  simp [combine, blocks]

/-- `AND` in front of a list goes to its first block. -/
theorem combine_and (rest : List (Conn × Truth)) :
    ∃ (g : List Truth) (gs : List (List Truth)),
      combine ((.and, u) :: rest) = (Truth.all g).or (.any (gs.map .all)) ∧
      combine ((c, t) :: (.and, u) :: rest) = (t.and (.all g)).or (.any (gs.map .all)) := by
  obtain ⟨b, g, gs, h⟩ := exists_blocks_cons (.and, u) rest
  refine ⟨b :: g, gs, ?_, ?_⟩
  · rw [combine, h]
    rfl
  · rw [combine, blocks, h]
    rfl

/-- Units joined by `AND` only are one block. -/
theorem blocks_of_and (b : β) {rest : List (Conn × β)} (h : ∀ p ∈ rest, p.1 = .and) :
    blocks ((c, b) :: rest) = [b :: rest.map Prod.snd] := by
  induction rest generalizing c b with
  | nil => rfl
  | cons p rest ih =>
    obtain ⟨c', b'⟩ := p
    obtain rfl : c' = .and := h (c', b') mem_cons_self
    rw [blocks, ih .and b' fun p hp => h p (mem_cons_of_mem _ hp)]
    rfl

theorem combine_of_and (c c' : Conn) (t u : Truth) {rest : List (Conn × Truth)}
    (h : ∀ p ∈ (c', u) :: rest, p.1 = .and) :
    combine ((c, t) :: (c', u) :: rest) = t.and (combine ((c', u) :: rest)) := by
  rw [combine, combine, blocks_of_and c t h,
    blocks_of_and c' u fun p hp => h p (mem_cons_of_mem _ hp)]
  simp

/-- A false first unit makes its block false. -/
theorem combine_and_of_false {rest : List (Conn × Truth)}
    (h : combine ((.and, u) :: rest) = .false) :
    combine ((c, t) :: (.and, u) :: rest) = .false := by
  obtain ⟨g, gs, hg, hcombine⟩ := combine_and c t u rest
  rw [hcombine]
  rw [hg] at h
  generalize Truth.all g = s at h ⊢
  generalize Truth.any (gs.map .all) = v at h ⊢
  cases s <;> cases v <;> cases t <;> simp_all [Truth.or, Truth.and]

/-- Units that are all false combine to false. -/
theorem combine_of_all_false {us : List (Conn × Truth)} (h : ∀ p ∈ us, p.2 = .false) :
    combine us = .false := by
  match us with
  | [] => rfl
  | [(c, t)] => rw [combine_singleton]; exact h (c, t) (by simp)
  | (c, t) :: (.and, u) :: rest =>
    exact combine_and_of_false c t u (combine_of_all_false fun p hp => h p (mem_cons_of_mem _ hp))
  | (c, t) :: (.or, u) :: rest =>
    have ht : t = .false := h (c, t) mem_cons_self
    rw [combine_or, ht, Truth.false_or]
    exact combine_of_all_false fun p hp => h p (mem_cons_of_mem _ hp)

/-! ### Where reading and meaning agree -/

variable {ts : Terms α} {cs : List (Conn × Terms α)} {I : α → Truth}

theorem Complete.exists_cons (h : Complete ts) : ∃ e es tl, ts = (e :: es) :: tl := by
  obtain ⟨t, tl, rfl⟩ := exists_cons_of_ne_nil h.1
  obtain ⟨e, es, rfl⟩ := exists_cons_of_ne_nil (h.2 t mem_cons_self)
  exact ⟨e, es, tl, rfl⟩

theorem Complete.eq_singleton (h : Complete ts) (hlen : ts.length ≤ 1) : ∃ t, ts = [t] := by
  obtain ⟨e, es, tl, rfl⟩ := h.exists_cons
  have htl : tl = [] := length_eq_zero_iff.mp (by simpa using hlen)
  exact ⟨e :: es, by rw [htl]⟩

theorem Complete.joinTerms {cs : List (Conn × Terms α)} (hne : cs ≠ [])
    (h : ∀ p ∈ cs, Complete p.2) : Complete (joinTerms cs) := by
  match cs with
  | [(c, t)] => exact h (c, t) (by simp)
  | (c, t) :: (.and, u) :: rest =>
    exact (h (c, t) (by simp)).andTerms
      (Complete.joinTerms (by simp) fun p hp => h p (mem_cons_of_mem _ hp))
  | (c, t) :: (.or, u) :: rest =>
    exact (h (c, t) (by simp)).append
      (Complete.joinTerms (by simp) fun p hp => h p (mem_cons_of_mem _ hp))

/-- The branches read and the blocks meant agree in their disjunction and, if the first
condition has a single branch, also in the first of them. -/
private theorem joinTerms_agrees (I : α → Truth) {c : Conn} {t : Terms α}
    {rest : List (Conn × Terms α)} (hc : ∀ p ∈ (c, t) :: rest, Complete p.2)
    (hs : Separated ((c, t) :: rest)) :
    ∃ h tl g gs, joinTerms ((c, t) :: rest) = h :: tl ∧
      blocks (units I ((c, t) :: rest)) = g :: gs ∧
      evalTerms I (h :: tl) = .any ((g :: gs).map .all) ∧
      (t.length ≤ 1 → evalBranch I h = .all g ∧ evalTerms I tl = .any (gs.map .all)) := by
  match rest with
  | [] =>
    obtain ⟨e, es, tl, rfl⟩ := (hc (c, t) (by simp)).exists_cons
    refine ⟨e :: es, tl, _, [], rfl, rfl, by simp, fun hlen => ?_⟩
    obtain rfl : tl = [] := length_eq_zero_iff.mp (by simpa using hlen)
    simp
  | (.and, u) :: rest =>
    obtain ⟨ht, hu, hrest⟩ := hs
    obtain ⟨x, rfl⟩ := (hc (c, t) (by simp)).eq_singleton ht
    obtain ⟨h, tl, g, gs, hj, hb, -, hagree⟩ :=
      joinTerms_agrees I (fun p hp => hc p (mem_cons_of_mem _ hp)) hrest
    obtain ⟨hh, htl⟩ := hagree hu
    -- the single branch of the first condition goes to the first branch, and to the first block
    have hx : evalTerms I [x] = evalBranch I x := by simp
    refine ⟨x ++ h, tl, evalTerms I [x] :: g, gs, ?_, ?_, ?_, fun _ => ?_⟩
    · rw [joinTerms, hj, andTerms_singleton]
    · rw [units_cons, units_cons, blocks, ← units_cons, hb]
    · rw [evalTerms_cons, evalBranch_append, hh, htl, hx]
      rfl
    · rw [evalBranch_append, hh, hx]
      exact ⟨rfl, htl⟩
  | (.or, u) :: rest =>
    obtain ⟨h, tl, g, gs, hj, hb, heq, -⟩ :=
      joinTerms_agrees I (fun p hp => hc p (mem_cons_of_mem _ hp)) hs
    obtain ⟨e, es, ts, rfl⟩ := (hc (c, t) (by simp)).exists_cons
    refine ⟨e :: es, ts ++ h :: tl, [evalTerms I ((e :: es) :: ts)], g :: gs, ?_, ?_, ?_,
      fun hlen => ?_⟩
    · rw [joinTerms, hj, cons_append]
    · rw [units_cons, units_cons, blocks, ← units_cons, hb]
    · rw [← cons_append, evalTerms_append, heq]
      simp
    · obtain rfl : ts = [] := length_eq_zero_iff.mp (by simpa using hlen)
      exact ⟨by simp, heq⟩

/-- **Separated conditions are read as they are meant.** -/
theorem evalTerms_joinTerms (I : α → Truth) (hne : cs ≠ [])
    (hc : ∀ p ∈ cs, Complete p.2) (hs : Separated cs) :
    evalTerms I (joinTerms cs) = combine (units I cs) := by
  obtain ⟨⟨c, t⟩, rest, rfl⟩ := exists_cons_of_ne_nil hne
  obtain ⟨h, tl, g, gs, hj, hb, heq, -⟩ := joinTerms_agrees I hc hs
  rw [hj, heq, combine, hb]

theorem length_andTerms {ts us : Terms α} (hts : ts ≠ []) (hus : us ≠ []) :
    (andTerms ts us).length + 1 = ts.length + us.length := by
  obtain ⟨u, us, rfl⟩ := exists_cons_of_ne_nil hus
  rcases ts.eq_nil_or_concat with rfl | ⟨ts, t, rfl⟩
  · exact absurd rfl hts
  · rw [concat_eq_append, andTerms_append_singleton]
    simp only [length_append, length_cons, length_nil]
    omega

/-- An `OR` between conditions makes several branches. -/
theorem two_le_length_joinTerms {cs : List (Conn × Terms α)} (hc : ∀ p ∈ cs, Complete p.2)
    (h : ∃ p ∈ cs.tail, p.1 = .or) : 2 ≤ (joinTerms cs).length := by
  match cs, hc, h with
  | [], _, ⟨p, hp, _⟩ => cases hp
  | [_], _, ⟨p, hp, _⟩ => cases hp
  | (c, t) :: (.and, u) :: rest, hc, ⟨p, hp, hor⟩ =>
    have hc' : ∀ p ∈ (.and, u) :: rest, Complete p.2 := fun p hp => hc p (mem_cons_of_mem _ hp)
    have hrest : p ∈ rest := by
      rcases mem_cons.mp hp with rfl | hp
      · cases hor
      · exact hp
    have hind := two_le_length_joinTerms hc' ⟨p, hrest, hor⟩
    have ht : Complete t := hc (c, t) mem_cons_self
    have hlen := length_andTerms ht.1 (Complete.joinTerms (by simp) hc').1
    have hpos := length_pos_iff.mpr ht.1
    rw [joinTerms]
    omega
  | (c, t) :: (.or, u) :: rest, hc, _ =>
    have hc' : ∀ p ∈ (.or, u) :: rest, Complete p.2 := fun p hp => hc p (mem_cons_of_mem _ hp)
    have ht : Complete t := hc (c, t) mem_cons_self
    have hpos := length_pos_iff.mpr ht.1
    have hpos' := length_pos_iff.mpr (Complete.joinTerms (by simp) hc').1
    rw [joinTerms, length_append]
    omega

/-! ### One factor among the conditions -/

/-- The branches that a factor joined in front by `AND` is not part of. -/
def beyond : List (Conn × Terms α) → Terms α
  | [] => []
  | (.and, u) :: rest => (joinTerms ((.and, u) :: rest)).tail
  | (.or, u) :: rest => joinTerms ((.or, u) :: rest)

/-- The branches that a factor between conditions, joined by `AND`, is not part of. -/
def strays (before after : List (Conn × Terms α)) : Terms α :=
  (joinTerms before).dropLast ++ beyond after

theorem andTerms_append_left {ts us vs : Terms α} (hus : us ≠ []) :
    andTerms (ts ++ us) vs = ts ++ andTerms us vs := by
  induction ts with
  | nil => rfl
  | cons t ts ih =>
    obtain ⟨x, xs, hx⟩ := exists_cons_of_ne_nil (show ts ++ us ≠ [] by simp [hus])
    rw [cons_append, hx, andTerms_cons_cons, ← hx, ih, cons_append]

/-- Conditions before an `AND`, and from it on. -/
theorem joinTerms_append_and {before : List (Conn × Terms α)}
    (hc : ∀ p ∈ before, Complete p.2) (u : Terms α) (after : List (Conn × Terms α)) :
    joinTerms (before ++ (.and, u) :: after) =
      andTerms (joinTerms before) (joinTerms ((.and, u) :: after)) := by
  match before with
  | [] => rw [joinTerms, andTerms_nil]; rfl
  | [(c, t)] => rw [singleton_append, joinTerms, joinTerms]
  | (c, t) :: (.and, v) :: rest =>
    have hc' : ∀ p ∈ (.and, v) :: rest, Complete p.2 := fun p hp => hc p (mem_cons_of_mem _ hp)
    rw [cons_append, cons_append, joinTerms, ← cons_append,
      joinTerms_append_and hc' u after, joinTerms, andTerms_assoc]
  | (c, t) :: (.or, v) :: rest =>
    have hc' : ∀ p ∈ (.or, v) :: rest, Complete p.2 := fun p hp => hc p (mem_cons_of_mem _ hp)
    rw [cons_append, cons_append, joinTerms, ← cons_append,
      joinTerms_append_and hc' u after, joinTerms,
      andTerms_append_left (Complete.joinTerms (by simp) hc').1]

/-- Conditions without an `OR`, between them or in one of them, have one branch. -/
theorem length_joinTerms_le_one {cs : List (Conn × Terms α)}
    (h : ∀ p ∈ cs, p.1 = .and ∧ p.2.length ≤ 1) : (joinTerms cs).length ≤ 1 := by
  induction cs using joinTerms.induct with
  | case1 => exact Nat.zero_le 1
  | case2 c t => exact (h _ mem_cons_self).2
  | case3 c t u rest ih =>
    obtain ⟨hfirst, hrest⟩ := forall_mem_cons.mp h
    have hlen := ih hrest
    rw [joinTerms]
    match t, joinTerms ((.and, u) :: rest), hfirst.2, hlen with
    | [], us, _, hus => exact hus
    | [t], [], _, _ => exact Nat.le_refl 1
    | [t], [u], _, _ => exact Nat.le_refl 1
  | case4 c t u rest ih => cases (h _ (mem_cons_of_mem _ mem_cons_self)).1

/-- A factor in front is part of the first branch only. -/
theorem exists_joinTerms_factor (e : Expr α) {after : List (Conn × Terms α)}
    (hc : ∀ p ∈ after, Complete p.2) :
    ∃ es, joinTerms ((.and, [[e]]) :: after) = (e :: es) :: beyond after := by
  match after with
  | [] => exact ⟨[], rfl⟩
  | (.and, u) :: rest =>
    obtain ⟨f, fs, tl, htl⟩ := (Complete.joinTerms (by simp) hc).exists_cons
    refine ⟨f :: fs, ?_⟩
    rw [joinTerms, beyond, htl, andTerms_singleton]
    rfl
  | (.or, u) :: rest => exact ⟨[], by rw [joinTerms, beyond]; rfl⟩

variable {e : Expr α} {b : Bool} {bs : List Bool}

/-- **Where a factor is not true**, the conditions around it are true exactly by a branch that
it is not part of. -/
theorem evalTerms_joinTerms_factor (he : e.eval I ≠ .true)
    {before after : List (Conn × Terms α)} (hb : ∀ p ∈ before, Complete p.2)
    (ha : ∀ p ∈ after, Complete p.2) :
    evalTerms I (joinTerms (before ++ (.and, [[e]]) :: after)) = .true ↔
      ∃ t ∈ strays before after, evalBranch I t = .true := by
  obtain ⟨es, hes⟩ := exists_joinTerms_factor e ha
  rw [joinTerms_append_and hb, hes, strays, ← evalTerms_eq_true]
  rcases (joinTerms before).eq_nil_or_concat with hnil | ⟨ts, t, hts⟩
  · rw [hnil]
    simp [he]
  · rw [hts, concat_eq_append, andTerms_append_singleton, dropLast_concat]
    simp [evalTerms_append, evalBranch_append, he]

/-- Single factors joined by `AND` are one branch. -/
theorem joinTerms_factors (e : Expr α) (es : List (Expr α)) :
    joinTerms ((e :: es).map fun f => (Conn.and, [[f]])) = [e :: es] := by
  induction es generalizing e with
  | nil => rfl
  | cons f es ih =>
    have hrest := ih f
    rw [map_cons] at hrest ⊢
    rw [map_cons, joinTerms, hrest, andTerms_singleton]
    rfl

variable {es : List (Expr α)}

/-- **Where one of the last factors is not true**, the conditions are true exactly by a branch
before the last one. -/
theorem evalTerms_joinTerms_factors {before : List (Conn × Terms α)}
    (hb : ∀ p ∈ before, Complete p.2) (hmem : e ∈ es) (he : e.eval I ≠ .true) :
    evalTerms I (joinTerms (before ++ es.map fun f => (.and, [[f]]))) = .true ↔
      ∃ t ∈ (joinTerms before).dropLast, evalBranch I t = .true := by
  obtain ⟨f, fs, rfl⟩ := exists_cons_of_ne_nil (ne_nil_of_mem hmem)
  have hfactors : evalBranch I (f :: fs) ≠ .true := by
    intro htrue
    rw [evalBranch, Truth.all_eq_true] at htrue
    exact he (htrue _ (mem_map_of_mem hmem))
  have hjoin := joinTerms_factors f fs
  rw [map_cons] at hjoin ⊢
  rw [joinTerms_append_and hb, hjoin, evalTerms_andTerms_singleton]
  exact or_iff_left fun h => hfactors h.2

/-! ### Where they differ -/

/-- Every factor of a form has the truth value `b`. -/
def AllFactors (I : α → Truth) (b : Bool) (ts : Terms α) : Prop :=
  ∀ t ∈ ts, ∀ e ∈ t, e.eval I = .ofBool b

/-- Every factor of the `i`-th condition has the `i`-th truth value. -/
abbrev Meets (I : α → Truth) (cs : List (Conn × Terms α)) (bs : List Bool) : Prop :=
  List.Forall₂ (fun p b => AllFactors I b p.2) cs bs

theorem evalBranch_of_allFactors (h : ∀ f ∈ e :: es, f.eval I = .ofBool b) :
    evalBranch I (e :: es) = .ofBool b := by
  induction es generalizing e with
  | nil => simpa using h e (by simp)
  | cons f es ih =>
    rw [evalBranch_cons, h e (by simp), ih fun g hg => h g (mem_cons_of_mem _ hg)]
    simp

theorem AllFactors.evalBranch (h : AllFactors I b ts)
    {t : List (Expr α)} (ht : t ∈ ts) (hne : t ≠ []) : evalBranch I t = .ofBool b := by
  obtain ⟨e, es, rfl⟩ := exists_cons_of_ne_nil hne
  exact evalBranch_of_allFactors (h _ ht)

theorem AllFactors.evalTerms (hc : Complete ts)
    (h : AllFactors I b ts) : evalTerms I ts = .ofBool b := by
  obtain ⟨t, tl, rfl⟩ := exists_cons_of_ne_nil hc.1
  have ht : Sql.evalBranch I t = .ofBool b := h.evalBranch mem_cons_self (hc.2 t mem_cons_self)
  induction tl with
  | nil => simp [ht]
  | cons u tl ih =>
    have hu := h.evalBranch (t := u) (by simp) (hc.2 u (by simp))
    have hrest := ih ⟨by simp, fun s hs => hc.2 s (by grind)⟩ (fun s hs => h s (by grind))
    rw [evalTerms_cons, ht] at hrest
    rw [evalTerms_cons, evalTerms_cons, ht, hu, ← Truth.or_assoc, Truth.or_ofBool_self, hrest]

/-- A form with a branch whose factors are all true is true. -/
theorem evalTerms_of_mem {t : List (Expr α)} (ht : t ∈ ts)
    (h : ∀ e ∈ t, e.eval I = .true) : evalTerms I ts = .true := by
  have hbranch : evalBranch I t = .true := by
    rw [evalBranch, Truth.all_eq_true]
    simpa using h
  rw [evalTerms, Truth.any_eq_true]
  exact mem_map.mpr ⟨t, ht, hbranch⟩

theorem combine_of_meets_false (hc : ∀ p ∈ cs, Complete p.2)
    (h : Meets I cs (List.replicate cs.length false)) : combine (units I cs) = .false := by
  refine combine_of_all_false fun p hp => ?_
  obtain ⟨q, hq, rfl⟩ := mem_map.mp hp
  have hall : AllFactors I false q.2 := by
    clear hc hp
    induction cs with
    | nil => simp at hq
    | cons r cs ih =>
      obtain ⟨hr, hrest⟩ := List.forall₂_cons.mp h
      rcases mem_cons.mp hq with rfl | hq
      · exact hr
      · exact ih hrest hq
  exact hall.evalTerms (hc q hq)

/-- If the conditions are not separated, there are truth values, one for each condition, that
make what is read true and what is meant false. -/
theorem exists_targets {cs : List (Conn × Terms α)} (hc : ∀ p ∈ cs, Complete p.2)
    (hs : ¬ Separated cs) :
    ∃ bs : List Bool, bs.length = cs.length ∧ ∀ I : α → Truth, Meets I cs bs →
      evalTerms I (joinTerms cs) = .true ∧ combine (units I cs) = .false := by
  match cs with
  | [] => exact absurd trivial hs
  | [_] => exact absurd trivial hs
  | (c, t) :: (.or, u) :: rest =>
    obtain ⟨bs, hlen, hbs⟩ := exists_targets (fun p hp => hc p (mem_cons_of_mem _ hp)) hs
    refine ⟨false :: bs, by simpa using hlen, fun I hI => ?_⟩
    obtain ⟨ht, hrest⟩ := List.forall₂_cons.mp hI
    obtain ⟨hread, hmeant⟩ := hbs I hrest
    refine ⟨by rw [joinTerms, evalTerms_append, hread, Truth.or_true], ?_⟩
    have htf : evalTerms I t = .false := ht.evalTerms (hc (c, t) (by simp))
    rwa [units_cons, units_cons, combine_or, htf]
  | (c, t) :: (.and, u) :: rest =>
    have hct : Complete t := hc (c, t) (by simp)
    have hcu : Complete u := hc (.and, u) (by simp)
    have hcrest : ∀ p ∈ (Conn.and, u) :: rest, Complete p.2 :=
      fun p hp => hc p (mem_cons_of_mem _ hp)
    by_cases ht : t.length ≤ 1
    · obtain ⟨x, rfl⟩ := hct.eq_singleton ht
      by_cases hsep : Separated ((Conn.and, u) :: rest)
      · -- the second condition has two branches and nothing binds the last one
        have hu : ¬ u.length ≤ 1 := fun hu => hs ⟨ht, hu, hsep⟩
        obtain ⟨e, es, tl, rfl⟩ := hcu.exists_cons
        obtain ⟨v, tl, rfl⟩ := exists_cons_of_ne_nil (show tl ≠ [] from fun h => hu (by simp [h]))
        refine ⟨false :: true :: List.replicate rest.length false, by simp, fun I hI => ?_⟩
        obtain ⟨hx, hrest⟩ := List.forall₂_cons.mp hI
        obtain ⟨hu', hrest⟩ := List.forall₂_cons.mp hrest
        have hxf : evalTerms I [x] = .false := hx.evalTerms hct
        have hut : evalTerms I ((e :: es) :: v :: tl) = .true := hu'.evalTerms hcu
        match rest with
        | [] =>
          refine ⟨evalTerms_of_mem (t := v) (by simp [joinTerms]) (hu' v (by simp)), ?_⟩
          simp only [units_cons, units_nil, combine, blocks]
          rw [hxf]
          rfl
        | (.and, _) :: _ => exact absurd hsep.1 hu
        | (.or, w) :: rest =>
          refine ⟨evalTerms_of_mem (t := v) (by simp [joinTerms]) (hu' v (by simp)), ?_⟩
          have hlast : combine (units I ((.or, w) :: rest)) = .false :=
            combine_of_meets_false (fun p hp => hcrest p (mem_cons_of_mem _ hp)) hrest
          simp only [units_cons, combine, blocks, map_cons, Truth.any_cons] at hlast ⊢
          rwa [hxf]
      · obtain ⟨bs, hlen, hbs⟩ := exists_targets hcrest hsep
        refine ⟨true :: bs, by simpa using hlen, fun I hI => ?_⟩
        obtain ⟨hx, hrest⟩ := List.forall₂_cons.mp hI
        obtain ⟨hread, hmeant⟩ := hbs I hrest
        obtain ⟨h, tl, hj⟩ := exists_cons_of_ne_nil (Complete.joinTerms (by simp) hcrest).1
        refine ⟨?_, combine_and_of_false c _ _ hmeant⟩
        have hxt : evalBranch I x = .true := hx.evalBranch (by simp) (hct.2 x (by simp))
        rw [joinTerms, hj, andTerms_singleton, evalTerms_cons, evalBranch_append, hxt,
          Truth.true_and, ← evalTerms_cons, ← hj, hread]
    · -- the first branch of the first condition stands alone
      obtain ⟨e, es, tl, rfl⟩ := hct.exists_cons
      obtain ⟨v, tl, rfl⟩ := exists_cons_of_ne_nil (show tl ≠ [] from fun h => ht (by simp [h]))
      refine ⟨true :: List.replicate (rest.length + 1) false, by simp, fun I hI => ?_⟩
      obtain ⟨ht', hrest⟩ := List.forall₂_cons.mp hI
      refine ⟨evalTerms_of_mem (t := e :: es) (by simp [joinTerms]) (ht' _ (by simp)), ?_⟩
      exact combine_and_of_false c _ _ (combine_of_meets_false hcrest hrest)

/-- The demands that give each condition its truth value. -/
def demands (cs : List (Conn × Terms α)) (bs : List Bool) : List (α × Bool) :=
  (cs.zip bs).flatMap fun q => q.1.2.flatten.flatMap (Expr.demand · q.2)

theorem map_fst_demands (h : bs.length = cs.length) :
    (demands cs bs).map Prod.fst = cs.flatMap fun p => termAtoms p.2 := by
  induction cs generalizing bs with
  | nil => rfl
  | cons p cs ih =>
    obtain ⟨b, bs, rfl⟩ := exists_cons_of_length_eq_add_one h
    have hlen : bs.length = cs.length := by simpa using h
    have hrest := ih hlen
    rw [demands] at hrest ⊢
    rw [zip_cons_cons, flatMap_cons, map_append, hrest, flatMap_cons, map_flatMap, termAtoms]
    simp only [Expr.map_fst_demand]

theorem meets_of_demands (hlen : bs.length = cs.length)
    (h : ∀ q ∈ demands cs bs, I q.1 = .ofBool q.2) : Meets I cs bs := by
  induction cs generalizing bs with
  | nil =>
    obtain rfl := length_eq_zero_iff.mp hlen
    exact .nil
  | cons p cs ih =>
    obtain ⟨b, bs, rfl⟩ := exists_cons_of_length_eq_add_one hlen
    refine .cons (fun t ht e he => Expr.eval_of_demand fun q hq => h q ?_)
      (ih (by simpa using hlen) fun q hq => h q ?_)
    · rw [demands, zip_cons_cons, flatMap_cons]
      exact mem_append_left _ (mem_flatMap.mpr ⟨e, mem_flatten.mpr ⟨t, ht, he⟩, hq⟩)
    · rw [demands, zip_cons_cons, flatMap_cons]
      exact mem_append_right _ hq

/-- Conditions whose atoms are distinct can be given any truth values. -/
theorem exists_meets (hlen : bs.length = cs.length)
    (h : (cs.flatMap fun p => termAtoms p.2).Nodup) : ∃ I : α → Truth, Meets I cs bs := by
  rw [← map_fst_demands hlen] at h
  obtain ⟨I, hI⟩ := exists_meets_demands h
  exact ⟨I, meets_of_demands hlen hI⟩

/-- **Conditions that are not separated are misread**: if their atoms are distinct, some truth
values of these make what is read true and what is meant false. -/
theorem exists_joinTerms_ne_combine (hc : ∀ p ∈ cs, Complete p.2)
    (hd : (cs.flatMap fun p => termAtoms p.2).Nodup) (hs : ¬ Separated cs) :
    ∃ I : α → Truth, evalTerms I (joinTerms cs) = .true ∧ combine (units I cs) = .false := by
  obtain ⟨bs, hlen, hbs⟩ := exists_targets hc hs
  obtain ⟨I, hI⟩ := exists_meets hlen hd
  exact ⟨I, hbs I hI⟩

end Sql
