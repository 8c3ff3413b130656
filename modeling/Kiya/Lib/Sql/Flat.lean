import Kiya.Lib.Sql.Join

/-!
# Redundant parentheses

A form such as `(a AND b) AND (c OR d)` has parentheses that can be left out, around `a AND b`,
and parentheses that cannot, around `c OR d`. `flatTerms` leaves out all it can: a factor is an
atom, a negation, or a form with several branches, and a branch that is one factor is none of the
last kind. Two texts are the same up to redundant parentheses if their forms are equal after
`flatTerms`.

What is needed of it is how it meets `AND`: the factors of both sides stand one after the other,
where a form with several branches counts as one factor (`flatTerms_andTerms_cons`,
`asFactors_flatTerms_andTerms`).
-/

namespace Sql

open List

variable {α : Type}

/-- A form as factors of a branch: its own factors if it has one branch, and the whole form in
parentheses otherwise. -/
def asFactors : Terms α → List (Expr α)
  | [t] => t
  | ts => (ofTerms ts).toList

/-- An expression without redundant parentheses. -/
def Expr.flat : Expr α → Terms α
  | .atom a => [[.atom a]]
  | .not e => [(ofTerms e.flat).toList.map .not]
  | .and e f => [asFactors e.flat ++ asFactors f.flat]
  | .or e f => e.flat ++ f.flat

/-- The factors of a branch without redundant parentheses. -/
def flatFactors (t : List (Expr α)) : List (Expr α) := t.flatMap fun e => asFactors e.flat

/-- A branch without redundant parentheses. One that is a single factor may be several
branches. -/
def flatBranch : List (Expr α) → Terms α
  | [e] => e.flat
  | t => [flatFactors t]

/-- A form without redundant parentheses. -/
def flatTerms (ts : Terms α) : Terms α := ts.flatMap flatBranch

@[simp] theorem flatFactors_append (t u : List (Expr α)) :
    flatFactors (t ++ u) = flatFactors t ++ flatFactors u := flatMap_append

@[simp] theorem flatTerms_append (ts us : Terms α) :
    flatTerms (ts ++ us) = flatTerms ts ++ flatTerms us := flatMap_append

theorem flatTerms_singleton (t : List (Expr α)) : flatTerms [t] = flatBranch t := by
  simp [flatTerms]

variable {t : List (Expr α)} {ts : Terms α}

theorem flatBranch_of_length (h : t.length ≠ 1) : flatBranch t = [flatFactors t] := by
  match t, h with
  | [], _ => rfl
  | [e], h => exact absurd rfl h
  | e :: f :: t, _ => rfl

/-! ### Forms stay complete -/

theorem asFactors_ne_nil (h : Complete ts) : asFactors ts ≠ [] := by
  obtain ⟨e, he⟩ := exists_ofTerms h
  match ts, h, he with
  | [t], h, _ => exact h.2 t mem_cons_self
  | [], h, _ => exact absurd rfl h.1
  | t :: u :: ts, _, he => simp [asFactors, he]

theorem Expr.complete_flat (e : Expr α) : Complete e.flat := by
  induction e with
  | atom a => exact ⟨by simp [flat], by simp [flat]⟩
  | not e ih =>
    obtain ⟨f, hf⟩ := exists_ofTerms ih
    exact ⟨by simp [flat], by simp [flat, hf]⟩
  | and e f ihe ihf => exact ⟨by simp [flat], by simp [flat, asFactors_ne_nil ihe]⟩
  | or e f ihe ihf => exact ihe.append ihf

theorem flatFactors_ne_nil (h : t ≠ []) : flatFactors t ≠ [] := by
  obtain ⟨e, t, rfl⟩ := exists_cons_of_ne_nil h
  simp [flatFactors, asFactors_ne_nil e.complete_flat]

theorem complete_flatBranch (h : t ≠ []) : Complete (flatBranch t) := by
  by_cases hlen : t.length = 1
  · obtain ⟨e, rfl⟩ := length_eq_one_iff.mp hlen
    exact e.complete_flat
  · rw [flatBranch_of_length hlen]
    exact ⟨by simp, by simpa using flatFactors_ne_nil h⟩

theorem length_le_flatTerms (h : ∀ t ∈ ts, t ≠ []) : ts.length ≤ (flatTerms ts).length := by
  induction ts with
  | nil => simp
  | cons t ts ih =>
    have hrest := ih fun u hu => h u (mem_cons_of_mem _ hu)
    have hpos : 0 < (flatBranch t).length :=
      length_pos_iff.mpr (complete_flatBranch (h t mem_cons_self)).1
    have hcons : flatTerms (t :: ts) = flatBranch t ++ flatTerms ts := flatMap_cons
    rw [hcons, length_append, length_cons]
    omega

theorem complete_flatTerms (h : Complete ts) : Complete (flatTerms ts) := by
  refine ⟨fun hnil => ?_, fun t ht => ?_⟩
  · have hlen := length_le_flatTerms h.2
    rw [hnil] at hlen
    exact h.1 (length_eq_zero_iff.mp (Nat.le_zero.mp hlen))
  · obtain ⟨u, hu, ht⟩ := mem_flatMap.mp ht
    exact (complete_flatBranch (h.2 u hu)).2 t ht

/-! ### Parentheses -/

theorem flat_foldl_and (e : Expr α) (es : List (Expr α)) :
    (es.foldl Expr.and e).flat = flatBranch (e :: es) := by
  induction es generalizing e with
  | nil => rfl
  | cons f es ih =>
    rw [foldl_cons, ih]
    cases es with
    | nil => simp [flatBranch, flatFactors, Expr.flat]
    | cons g es => simp [flatBranch, flatFactors, Expr.flat, asFactors]

theorem flat_foldl_or (e : Expr α) (es : List (Expr α)) :
    (es.foldl Expr.or e).flat = e.flat ++ es.flatMap Expr.flat := by
  induction es generalizing e with
  | nil => simp
  | cons f es ih => simp [ih, Expr.flat]

/-- Parentheses around a whole form are redundant. -/
theorem flat_ofTerms {e : Expr α} (h : ofTerms ts = some e) : e.flat = flatTerms ts := by
  obtain ⟨es, hes, hdisj⟩ := Option.bind_eq_some_iff.mp h
  have hflat : ∀ {us : Terms α} {fs : List (Expr α)}, us.mapM conj = some fs →
      fs.flatMap Expr.flat = flatTerms us := by
    intro us
    induction us with
    | nil =>
      intro fs hfs
      obtain rfl : fs = [] := by simpa using hfs.symm
      rfl
    | cons u us ih =>
      intro fs hfs
      obtain ⟨f, hf, fs', hfs', rfl⟩ : ∃ f, conj u = some f ∧
          ∃ fs', us.mapM conj = some fs' ∧ f :: fs' = fs := by
        simpa [mapM_cons, Option.bind_eq_some_iff] using hfs
      cases u with
      | nil => cases hf
      | cons g gs =>
        obtain rfl := Option.some.inj hf
        rw [flatMap_cons, flat_foldl_and, ih hfs']
        rfl
  rw [← hflat hes]
  cases es with
  | nil => cases hdisj
  | cons f fs =>
    obtain rfl := Option.some.inj hdisj
    exact flat_foldl_or f fs

theorem asFactors_flatBranch (t : List (Expr α)) : asFactors (flatBranch t) = flatFactors t := by
  by_cases hlen : t.length = 1
  · obtain ⟨e, rfl⟩ := length_eq_one_iff.mp hlen
    simp [flatBranch, flatFactors]
  · rw [flatBranch_of_length hlen]
    rfl

/-- A form with several branches is one factor. -/
theorem length_asFactors_flatTerms (h : Complete ts) (hlen : 2 ≤ ts.length) :
    (asFactors (flatTerms ts)).length = 1 := by
  obtain ⟨e, he⟩ := exists_ofTerms (complete_flatTerms h)
  have hlen' := Nat.le_trans hlen (length_le_flatTerms h.2)
  match hts : flatTerms ts, hlen' with
  | t :: u :: us, _ =>
    rw [hts] at he
    simp [asFactors, he]

/-- `AND` between a form and a branch of several factors. -/
theorem flatTerms_andTerms_cons (ts : Terms α) (h : 2 ≤ t.length) (us : Terms α) :
    flatTerms (andTerms ts (t :: us)) =
      flatTerms ts.dropLast ++ (flatFactors (ts.getLastD []) ++ flatFactors t) ::
        flatTerms us := by
  have hone : ∀ s : List (Expr α), flatTerms ((s ++ t) :: us) =
      (flatFactors s ++ flatFactors t) :: flatTerms us := by
    intro s
    have hlen : (s ++ t).length ≠ 1 := by
      rw [length_append]
      omega
    have hcons : flatTerms ((s ++ t) :: us) = flatBranch (s ++ t) ++ flatTerms us := flatMap_cons
    rw [hcons, flatBranch_of_length hlen, flatFactors_append]
    rfl
  rcases ts.eq_nil_or_concat with rfl | ⟨ts, s, rfl⟩
  · simpa [flatFactors, flatTerms] using hone []
  · rw [concat_eq_append, andTerms_append_singleton, flatTerms_append, hone]
    simp

/-! ### A group among conditions -/

theorem flatFactors_ofTerms (h : ts = [] ∨ Complete ts) :
    flatFactors (ofTerms ts).toList = asFactors (flatTerms ts) := by
  rcases h with rfl | h
  · rfl
  · obtain ⟨e, he⟩ := exists_ofTerms h
    simp [flatFactors, he, flat_ofTerms he]

variable {u : List (Expr α)}

/-- The factors of two forms with `AND` between them. If the first has several branches, then
what is bound to its last one is lost in its parentheses. -/
theorem asFactors_flatTerms_andTerms (hts : ts = [] ∨ Complete ts) (hu : u ≠ []) :
    (asFactors (flatTerms (andTerms ts [u])) = asFactors (flatTerms ts) ++ flatFactors u ∧
      ts.length ≤ 1) ∨
    ((asFactors (flatTerms (andTerms ts [u]))).length = 1 ∧
      (asFactors (flatTerms ts)).length = 1 ∧ ¬ ts.length ≤ 1) := by
  rcases hts with rfl | hts
  · refine .inl ⟨?_, by simp⟩
    rw [andTerms_nil, flatTerms_singleton, asFactors_flatBranch]
    rfl
  by_cases hlen : ts.length ≤ 1
  · obtain ⟨t, rfl⟩ := hts.eq_singleton hlen
    refine .inl ⟨?_, hlen⟩
    rw [andTerms_singleton, flatTerms_singleton, flatTerms_singleton, asFactors_flatBranch,
      asFactors_flatBranch, flatFactors_append]
  · have hand : Complete (andTerms ts [u]) := hts.andTerms ⟨by simp, by simpa using hu⟩
    refine .inr ⟨length_asFactors_flatTerms hand ?_, length_asFactors_flatTerms hts ?_, hlen⟩
    · have hcount := length_andTerms hts.1 (cons_ne_nil u [])
      rw [length_singleton] at hcount
      omega
    · omega

section Group

variable {s a gs : Terms α} (ha : a = [] ∨ Complete a) (hg : Complete gs)
include ha hg

/-- Conditions `u :: us` that are added with `AND` after a group `(gs)`, and the same conditions in
front of it: the two agree up to redundant parentheses only if there is no `OR` among them or in
front of them, and if they can be exchanged with the group. -/
theorem flatTerms_group_iff {us : Terms α} (hu : Complete (u :: us)) :
    flatTerms (andTerms s
        (andTerms [(ofTerms a).toList ++ (ofTerms gs).toList] (u :: us))) = flatTerms (andTerms s
        [(ofTerms (andTerms a (u :: us))).toList ++ (ofTerms gs).toList]) ↔ us = [] ∧ a.length ≤ 1 ∧
      asFactors (flatTerms gs) ++ flatFactors u = flatFactors u ++ asFactors (flatTerms gs) := by
  obtain ⟨eg, heg⟩ := exists_ofTerms hg
  have hune : u ≠ [] := hu.2 u mem_cons_self
  have hupos : 0 < u.length := length_pos_iff.mpr hune
  have hab : Complete (andTerms a (u :: us)) := by
    rcases ha with rfl | ha
    · simpa using hu
    · exact ha.andTerms hu
  obtain ⟨eab, heab⟩ := exists_ofTerms hab
  have hfg := flatFactors_ofTerms (.inr hg)
  have hfab := flatFactors_ofTerms (.inr hab)
  rw [andTerms_singleton, flatTerms_andTerms_cons s (by simp [heg]; omega),
    flatTerms_andTerms_cons s (by simp [heg, heab]), flatFactors_append, flatFactors_append,
    flatFactors_append, flatFactors_ofTerms ha, hfg, hfab]
  simp only [append_cancel_left_eq, List.cons.injEq]
  have hus : flatTerms us = flatTerms [] ↔ us = [] := by
    constructor
    · intro hnil
      have hlen := length_le_flatTerms fun t ht => hu.2 t (mem_cons_of_mem _ ht)
      rw [hnil] at hlen
      exact length_eq_zero_iff.mp (Nat.le_zero.mp hlen)
    · rintro rfl
      rfl
  rw [hus, and_comm]
  refine and_congr_right fun hnil => ?_
  subst hnil
  rcases asFactors_flatTerms_andTerms ha hune with ⟨hand, hlen⟩ | ⟨hand, hfa, hlen⟩
  · simp [hand, hlen]
  · -- more factors on the left
    refine iff_of_false (fun heq => ?_) fun h => hlen h.1
    have hpos := length_pos_iff.mpr (flatFactors_ne_nil hune)
    have hcount := congrArg List.length heq
    simp only [length_append, hand, hfa] at hcount
    omega

end Group

section Branches

variable {s ab gs x : Terms α} (hab : Complete ab) (hg : Complete gs) (hx : Complete x)
  (hlen : 2 ≤ x.length)
include hab hg hx hlen

/-- With `OR` among the conditions after a group, they do not agree with the conditions in front
of it. -/
theorem flatTerms_ne_group :
    flatTerms x ≠ flatTerms [(ofTerms ab).toList ++ (ofTerms gs).toList] := by
  obtain ⟨eg, heg⟩ := exists_ofTerms hg
  obtain ⟨eab, heab⟩ := exists_ofTerms hab
  intro heq
  have hcount := congrArg List.length heq
  have hle := length_le_flatTerms hx.2
  rw [flatTerms_singleton, flatBranch_of_length (by simp [heg, heab]), length_singleton] at hcount
  omega

/-- The same after other conditions, with parentheses around the ones that have an `OR`. -/
theorem flatTerms_andTerms_ne_group (hs : Complete s) :
    flatTerms (andTerms s [(ofTerms x).toList]) ≠
      flatTerms (andTerms s [(ofTerms ab).toList ++ (ofTerms gs).toList]) := by
  obtain ⟨eg, heg⟩ := exists_ofTerms hg
  obtain ⟨eab, heab⟩ := exists_ofTerms hab
  obtain ⟨ex, hex⟩ := exists_ofTerms hx
  rcases s.eq_nil_or_concat with rfl | ⟨s, t, rfl⟩
  · exact absurd rfl hs.1
  rw [concat_eq_append] at hs ⊢
  have htpos : 0 < t.length := length_pos_iff.mpr (hs.2 t (by simp))
  rw [andTerms_append_singleton, andTerms_append_singleton, flatTerms_append, flatTerms_append,
    flatTerms_singleton, flatTerms_singleton,
    flatBranch_of_length (by simp only [List.length_append, hex, Option.toList_some,
      List.length_singleton]; omega),
    flatBranch_of_length (by simp only [List.length_append, heg, heab, Option.toList_some,
      List.length_singleton]; omega)]
  intro heq
  simp only [flatFactors_append, flatFactors_ofTerms (.inr hx), flatFactors_ofTerms (.inr hg),
    flatFactors_ofTerms (.inr hab), append_cancel_left_eq, List.cons.injEq, and_true] at heq
  have hcount := congrArg List.length heq
  have hgpos := length_pos_iff.mpr (asFactors_ne_nil (complete_flatTerms hg))
  have habpos := length_pos_iff.mpr (asFactors_ne_nil (complete_flatTerms hab))
  rw [length_asFactors_flatTerms hx hlen, length_append] at hcount
  omega

end Branches

end Sql
