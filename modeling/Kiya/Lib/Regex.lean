import Mathlib

/-!
# Regular expressions with anchors

Expressions over the letters of a type `α`: classes of letters, concatenation, alternation, counted
repetition, and the anchors for the start and the end of the text. An expression without anchors has
a `language`; what one with anchors matches depends on what stands before and behind it
(`Matches`). `search` looks for a match anywhere in a text, by following all ways through the
expression, and `search_iff` says that it finds one if there is one.
-/

/-- Regular expressions. -/
inductive Regex (α : Type)
  | eps
  | char (p : α → Bool)
  | start
  | stop
  | cat (r s : Regex α)
  | alt (r s : Regex α)
  | rep (r : Regex α) (min : ℕ) (max : Option ℕ)

namespace Regex

open List Option

variable {α : Type}

/-- There is no anchor in the expression. -/
def AnchorFree : Regex α → Prop
  | eps => True
  | char _ => True
  | start => False
  | stop => False
  | cat r s => r.AnchorFree ∧ s.AnchorFree
  | alt r s => r.AnchorFree ∧ s.AnchorFree
  | rep r _ _ => r.AnchorFree

/-- A number of repetitions is allowed. -/
def Counts (min : ℕ) (max : Option ℕ) (n : ℕ) : Prop := min ≤ n ∧ ∀ m ∈ max, n ≤ m

/-- The language of an expression without anchors. -/
def language : Regex α → Language α
  | eps => 1
  | char p => {w | ∃ a, p a = true ∧ w = [a]}
  | start => 1
  | stop => 1
  | cat r s => r.language * s.language
  | alt r s => r.language + s.language
  | rep r min max => {w | ∃ n, Counts min max n ∧ w ∈ r.language ^ n}

/-! ### Matches in a context -/

/-- A number of matches, one behind the other. -/
def Times (M : List α → List α → List α → Prop) : ℕ → List α → List α → List α → Prop
  | 0, _, mid, _ => mid = []
  | n + 1, pre, mid, post =>
    ∃ u v, mid = u ++ v ∧ M pre u (v ++ post) ∧ Times M n (pre ++ u) v post

/-- `r.Matches pre mid post`: in the text `pre ++ mid ++ post` the expression matches `mid`. -/
def Matches : Regex α → List α → List α → List α → Prop
  | eps, _, mid, _ => mid = []
  | char p, _, mid, _ => ∃ a, p a = true ∧ mid = [a]
  | start, pre, mid, _ => pre = [] ∧ mid = []
  | stop, _, mid, post => mid = [] ∧ post = []
  | cat r s, pre, mid, post =>
    ∃ u v, mid = u ++ v ∧ r.Matches pre u (v ++ post) ∧ s.Matches (pre ++ u) v post
  | alt r s, pre, mid, post => r.Matches pre mid post ∨ s.Matches pre mid post
  | rep r min max, pre, mid, post => ∃ n, Counts min max n ∧ Times r.Matches n pre mid post

variable {M : List α → List α → List α → Prop} {pre mid post text : List α} {c : List (Regex α)}

theorem times_iff_mem_pow {l : Language α}
    (h : ∀ pre mid post, M pre mid post ↔ mid ∈ l) (n : ℕ) (pre mid post : List α) :
    Times M n pre mid post ↔ mid ∈ l ^ n := by
  induction n generalizing pre mid with
  | zero =>
    rw [pow_zero, Language.mem_one]
    rfl
  | succ n ih =>
    rw [pow_succ', Language.mem_mul]
    constructor
    · rintro ⟨u, v, rfl, hu, hv⟩
      exact ⟨u, (h _ _ _).mp hu, v, (ih _ _).mp hv, rfl⟩
    · rintro ⟨u, hu, v, hv, rfl⟩
      exact ⟨u, v, rfl, (h _ _ _).mpr hu, (ih _ _).mpr hv⟩

variable {r : Regex α}

/-- **Without anchors the context does not matter.** -/
theorem matches_iff_mem_language (hr : r.AnchorFree) (pre mid post : List α) :
    r.Matches pre mid post ↔ mid ∈ r.language := by
  induction r generalizing pre mid post with
  | eps => exact Language.mem_one mid |>.symm
  | char p => rfl
  | start | stop => exact hr.elim
  | cat r s ihr ihs =>
    rw [language, Language.mem_mul]
    constructor
    · rintro ⟨u, v, rfl, hu, hv⟩
      exact ⟨u, (ihr hr.1 _ _ _).mp hu, v, (ihs hr.2 _ _ _).mp hv, rfl⟩
    · rintro ⟨u, hu, v, hv, rfl⟩
      exact ⟨u, v, rfl, (ihr hr.1 _ _ _).mpr hu, (ihs hr.2 _ _ _).mpr hv⟩
  | alt r s ihr ihs =>
    rw [language, Language.mem_add, ← ihr hr.1 pre mid post, ← ihs hr.2 pre mid post]
    rfl
  | rep r min max ih =>
    exact exists_congr fun n => and_congr_right fun _ => times_iff_mem_pow (ih hr) n pre mid post

/-! ### Searching -/

/-- All ways to go on a number of times. -/
def timesFrom {σ : Type} (next : σ → List σ) : ℕ → σ → List σ
  | 0, s => [s]
  | n + 1, s => (next s).flatMap (timesFrom next n)

/-- Where a match can end that starts at a place in a text; a place is what stands before it and
what stands behind it. More repetitions than letters that are left need not be tried. -/
def ends : Regex α → List α × List α → List (List α × List α)
  | eps, s => [s]
  | char _, (_, []) => []
  | char p, (pre, a :: post) => if p a then [(pre ++ [a], post)] else []
  | start, s => if s.1.isEmpty then [s] else []
  | stop, s => if s.2.isEmpty then [s] else []
  | cat r t, s => (r.ends s).flatMap t.ends
  | alt r t, s => r.ends s ++ t.ends s
  | rep r min max, s =>
    (List.range' min (max.getD (min + s.2.length) + 1 - min)).flatMap fun n => timesFrom r.ends n s

/-- Whether the expression matches somewhere in the text. -/
def search (r : Regex α) (text : List α) : Bool :=
  (List.range (text.length + 1)).any fun i => !(r.ends (text.take i, text.drop i)).isEmpty

/-- Repetitions of nothing can be left out, as long as there are enough. -/
theorem exists_times_le {n : ℕ} (h : Times M n pre mid post) {min : ℕ} (hmin : min ≤ n) :
    ∃ k, min ≤ k ∧ k ≤ n ∧ k ≤ min + mid.length ∧ Times M k pre mid post := by
  induction n generalizing min pre mid with
  | zero =>
    obtain rfl := Nat.le_zero.mp hmin
    exact ⟨0, le_rfl, le_rfl, Nat.zero_le _, h⟩
  | succ n ih =>
    obtain ⟨u, v, rfl, hu, hv⟩ := h
    by_cases hskip : u = [] ∧ min = 0
    · obtain ⟨rfl, rfl⟩ := hskip
      rw [append_nil] at hv
      obtain ⟨k, hk, hkn, hle, htimes⟩ := ih hv (Nat.zero_le n)
      exact ⟨k, hk, hkn.trans (Nat.le_succ n), hle, htimes⟩
    · -- the first repetition stays: it is needed, or it matches something
      obtain ⟨k, hk, hkn, hle, htimes⟩ := @ih _ _ hv (min - 1) (by omega)
      refine ⟨k + 1, by omega, by omega, ?_, u, v, rfl, hu, htimes⟩
      rw [length_append]
      have hpos : min = 0 → 0 < u.length := fun h0 =>
        length_pos_iff.mpr fun hnil => hskip ⟨hnil, h0⟩
      omega

section Correct

/-- The places that an expression leads to are those where its matches end. -/
def EndsCorrect (next : List α × List α → List (List α × List α))
    (M : List α → List α → List α → Prop) : Prop :=
  ∀ pre text pre' post, (pre', post) ∈ next (pre, text) ↔
    ∃ mid, text = mid ++ post ∧ pre' = pre ++ mid ∧ M pre mid post

theorem endsCorrect_stay :
    EndsCorrect (fun s : List α × List α => [s]) fun _ mid _ => mid = [] := by
  intro pre text pre' post
  rw [mem_singleton, Prod.mk.injEq]
  constructor
  · rintro ⟨rfl, rfl⟩
    exact ⟨[], rfl, (append_nil _).symm, rfl⟩
  · rintro ⟨mid, rfl, rfl, rfl⟩
    exact ⟨append_nil _, rfl⟩

theorem endsCorrect_flatMap {next next₁ : List α × List α → List (List α × List α)}
    {M M₁ : List α → List α → List α → Prop} (h : EndsCorrect next M)
    (h₁ : EndsCorrect next₁ M₁) : EndsCorrect (fun s => (next s).flatMap next₁)
      fun pre mid post => ∃ u v, mid = u ++ v ∧ M pre u (v ++ post) ∧ M₁ (pre ++ u) v post := by
  intro pre text pre' post
  rw [mem_flatMap]
  constructor
  · rintro ⟨⟨pre₁, rest⟩, hfirst, hrest⟩
    obtain ⟨u, rfl, rfl, hu⟩ := (h _ _ _ _).mp hfirst
    obtain ⟨v, rfl, rfl, hv⟩ := (h₁ _ _ _ _).mp hrest
    exact ⟨u ++ v, (append_assoc ..).symm, append_assoc .., u, v, rfl, hu, hv⟩
  · rintro ⟨mid, rfl, rfl, u, v, rfl, hu, hv⟩
    refine ⟨(pre ++ u, v ++ post), (h _ _ _ _).mpr ⟨u, append_assoc .., rfl, hu⟩, ?_⟩
    exact (h₁ _ _ _ _).mpr ⟨v, rfl, (append_assoc ..).symm, hv⟩

theorem endsCorrect_timesFrom {next : List α × List α → List (List α × List α)}
    (h : EndsCorrect next M) (n : ℕ) : EndsCorrect (timesFrom next n) (Times M n) := by
  induction n with
  | zero => exact endsCorrect_stay
  | succ n ih => exact endsCorrect_flatMap h ih

theorem endsCorrect_ends (r : Regex α) : EndsCorrect r.ends r.Matches := by
  induction r with
  | eps => exact endsCorrect_stay
  | char p =>
    intro pre text pre' post
    obtain _ | ⟨a, text⟩ := text
    · refine ⟨nofun, ?_⟩
      rintro ⟨mid, htext, -, a, -, rfl⟩
      cases htext
    · rw [ends]
      constructor
      · intro h
        split_ifs at h with ha
        · obtain ⟨rfl, rfl⟩ := Prod.mk.inj (mem_singleton.mp h)
          exact ⟨[a], rfl, rfl, a, ha, rfl⟩
        · cases h
      · rintro ⟨mid, htext, rfl, b, hb, rfl⟩
        obtain ⟨rfl, rfl⟩ := List.cons.inj htext
        rw [if_pos hb]
        exact mem_singleton_self _
  | start =>
    intro pre text pre' post
    rw [ends]
    constructor
    · intro h
      split_ifs at h with hpre
      · obtain ⟨rfl, rfl⟩ := Prod.mk.inj (mem_singleton.mp h)
        exact ⟨[], rfl, (append_nil _).symm, List.isEmpty_iff.mp hpre, rfl⟩
      · cases h
    · rintro ⟨mid, rfl, rfl, rfl, rfl⟩
      exact mem_singleton_self _
  | stop =>
    intro pre text pre' post
    rw [ends]
    constructor
    · intro h
      split_ifs at h with htext
      · obtain ⟨rfl, rfl⟩ := Prod.mk.inj (mem_singleton.mp h)
        exact ⟨[], rfl, (append_nil _).symm, rfl, List.isEmpty_iff.mp htext⟩
      · cases h
    · rintro ⟨mid, rfl, rfl, rfl, rfl⟩
      rw [append_nil, append_nil]
      exact mem_singleton_self _
  | cat r t ihr iht => exact endsCorrect_flatMap ihr iht
  | alt r t ihr iht =>
    intro pre text pre' post
    rw [ends, mem_append, ihr, iht, ← exists_or]
    refine exists_congr fun mid => ?_
    rw [← and_or_left, ← and_or_left]
    rfl
  | rep r min max ih =>
    intro pre text pre' post
    have htimes (n : ℕ) := endsCorrect_timesFrom ih n pre text pre' post
    rw [ends, mem_flatMap]
    constructor
    · rintro ⟨n, hn, hmem⟩
      obtain ⟨mid, htext, hpre, hmatch⟩ := (htimes n).mp hmem
      refine ⟨mid, htext, hpre, n, ⟨(mem_range'_1.mp hn).1, ?_⟩, hmatch⟩
      rintro m rfl
      obtain ⟨hle, hlt⟩ := mem_range'_1.mp hn
      rw [getD_some] at hlt
      omega
    · rintro ⟨mid, htext, hpre, n, hcounts, hmatch⟩
      obtain ⟨k, hk, hkn, hle, hmatch⟩ := exists_times_le hmatch hcounts.1
      refine ⟨k, mem_range'_1.mpr ⟨hk, ?_⟩, (htimes k).mpr ⟨mid, htext, hpre, hmatch⟩⟩
      cases max with
      | none =>
        rw [getD_none, htext, length_append]
        omega
      | some m =>
        have hm := hcounts.2 m rfl
        rw [getD_some]
        omega

/-- **A search finds a match if there is one.** -/
theorem search_iff :
    r.search text = true ↔ ∃ pre mid post, text = pre ++ mid ++ post ∧ r.Matches pre mid post := by
  rw [search, List.any_eq_true]
  constructor
  · rintro ⟨i, -, hi⟩
    have hne : r.ends (text.take i, text.drop i) ≠ [] := by simpa using hi
    obtain ⟨⟨pre', post⟩, hmem⟩ := exists_mem_of_ne_nil _ hne
    obtain ⟨mid, htext, -, hmatch⟩ := (endsCorrect_ends r _ _ _ _).mp hmem
    refine ⟨text.take i, mid, post, ?_, hmatch⟩
    rw [append_assoc, ← htext, take_append_drop]
  · rintro ⟨pre, mid, post, rfl, hmatch⟩
    refine ⟨pre.length, mem_range.mpr ?_, ?_⟩
    · rw [length_append, length_append]
      omega
    · rw [append_assoc, take_left, drop_left]
      have hmem := (endsCorrect_ends r _ _ _ _).mpr ⟨mid, rfl, rfl, hmatch⟩
      simpa using ne_nil_of_mem hmem

end Correct

/-! ### Alternatives between anchors -/

/-- The expressions of a list, one behind the other. -/
def ofItems : List (Regex α) → Regex α
  | [] => eps
  | r :: rs => cat r (ofItems rs)

/-- The alternatives of a list. -/
def ofAlts : List (List (Regex α)) → Regex α
  | [] => eps
  | [c] => ofItems c
  | c :: cs => alt (ofItems c) (ofAlts cs)

/-- The anchor for the start in front of the first alternative only, and the anchor for the end
behind the last one only. -/
def anchored (alts : List (List (Regex α))) : List (List (Regex α)) :=
  alts.mapIdx fun i c =>
    (if i = 0 then [start] else []) ++ c ++ if i + 1 = alts.length then [stop] else []

variable {alts : List (List (Regex α))}

theorem matches_ofAlts (h : alts ≠ []) (pre mid post : List α) :
    (ofAlts alts).Matches pre mid post ↔ ∃ c ∈ alts, (ofItems c).Matches pre mid post := by
  induction alts with
  | nil => exact absurd rfl h
  | cons c cs ih =>
    obtain _ | ⟨c', cs⟩ := cs
    · simp [ofAlts]
    · rw [exists_mem_cons_iff, ← ih (cons_ne_nil _ _)]
      rfl

theorem matches_start :
    (ofItems (start :: c)).Matches pre mid post ↔ pre = [] ∧ (ofItems c).Matches pre mid post := by
  constructor
  · rintro ⟨u, v, rfl, ⟨rfl, rfl⟩, hv⟩
    exact ⟨rfl, hv⟩
  · rintro ⟨rfl, hc⟩
    exact ⟨[], mid, rfl, ⟨rfl, rfl⟩, hc⟩

theorem matches_stop :
    (ofItems (c ++ [stop])).Matches pre mid post ↔
      post = [] ∧ (ofItems c).Matches pre mid post := by
  induction c generalizing pre mid with
  | nil =>
    constructor
    · rintro ⟨u, v, rfl, ⟨rfl, hpost⟩, rfl⟩
      exact ⟨hpost, rfl⟩
    · rintro ⟨rfl, rfl⟩
      exact ⟨[], [], rfl, ⟨rfl, rfl⟩, rfl⟩
  | cons r c ih =>
    constructor
    · rintro ⟨u, v, rfl, hr, hc⟩
      obtain ⟨hpost, hc⟩ := ih.mp hc
      exact ⟨hpost, u, v, rfl, hr, hc⟩
    · rintro ⟨hpost, u, v, rfl, hr, hc⟩
      exact ⟨u, v, rfl, hr, ih.mpr ⟨hpost, hc⟩⟩

/-- An alternative matches a part of the text, the first one at its start and the last one at its
end. -/
def Loose (alts : List (List (Regex α))) (text : List α) : Prop :=
  ∃ (i : ℕ) (c : List (Regex α)) (pre mid post : List α), alts[i]? = some c ∧
    text = pre ++ mid ++ post ∧ (i = 0 → pre = []) ∧ (i + 1 = alts.length → post = []) ∧
    mid ∈ (ofItems c).language

theorem matches_anchored_item (hc : (ofItems c).AnchorFree) (first last : Prop)
    [Decidable first] [Decidable last] (pre mid post : List α) :
    (ofItems ((if first then [start] else []) ++ c ++ if last then [stop] else [])).Matches
        pre mid post ↔ (first → pre = []) ∧ (last → post = []) ∧ mid ∈ (ofItems c).language := by
  have hend : (ofItems (c ++ if last then [stop] else [])).Matches pre mid post ↔
      (last → post = []) ∧ mid ∈ (ofItems c).language := by
    by_cases hlast : last
    · rw [if_pos hlast, matches_stop, matches_iff_mem_language hc]
      simp [hlast]
    · rw [if_neg hlast, append_nil, matches_iff_mem_language hc]
      simp [hlast]
  by_cases hfirst : first
  · rw [if_pos hfirst, append_assoc, singleton_append, matches_start, hend]
    simp [hfirst]
  · rw [if_neg hfirst, nil_append, hend]
    simp [hfirst]

/-- **Anchors around alternatives.** With an anchor put in front of the first alternative and one
behind the last, a search finds loose matches. -/
theorem search_anchored_iff (hne : alts ≠ []) (hfree : ∀ c ∈ alts, (ofItems c).AnchorFree) :
    (ofAlts (anchored alts)).search text = true ↔ Loose alts text := by
  have hne' : anchored alts ≠ [] := by simpa [anchored, mapIdx_eq_nil_iff] using hne
  rw [search_iff]
  constructor
  · rintro ⟨pre, mid, post, htext, hmatch⟩
    obtain ⟨c', hc', hmatch⟩ := (matches_ofAlts hne' pre mid post).mp hmatch
    obtain ⟨i, hi⟩ := mem_iff_getElem?.mp hc'
    rw [anchored, getElem?_mapIdx] at hi
    obtain ⟨c, hc, rfl⟩ := map_eq_some_iff.mp hi
    obtain ⟨hpre, hpost, hmid⟩ := (matches_anchored_item
      (hfree c (mem_of_getElem? hc)) _ _ _ _ _).mp hmatch
    exact ⟨i, c, pre, mid, post, hc, htext, hpre, hpost, hmid⟩
  · rintro ⟨i, c, pre, mid, post, hc, htext, hpre, hpost, hmid⟩
    have hitem := (matches_anchored_item (hfree c (mem_of_getElem? hc)) (i = 0)
      (i + 1 = alts.length) pre mid post).mpr ⟨hpre, hpost, hmid⟩
    have hmem : (anchored alts)[i]? = some ((if i = 0 then [start] else []) ++ c ++
        if i + 1 = alts.length then [stop] else []) := by
      rw [anchored, getElem?_mapIdx, hc, map_some]
    exact ⟨pre, mid, post, htext, (matches_ofAlts hne' pre mid post).mpr
      ⟨_, mem_of_getElem? hmem, hitem⟩⟩

theorem mem_language_ofAlts (h : alts ≠ []) (w : List α) :
    w ∈ (ofAlts alts).language ↔ ∃ c ∈ alts, w ∈ (ofItems c).language := by
  induction alts with
  | nil => exact absurd rfl h
  | cons c cs ih =>
    obtain _ | ⟨c', cs⟩ := cs
    · simp [ofAlts]
    · rw [exists_mem_cons_iff, ← ih (cons_ne_nil _ _)]
      rfl

/-- A text of the language is a loose match. -/
theorem loose_of_mem_language (h : alts ≠ []) (htext : text ∈ (ofAlts alts).language) :
    Loose alts text := by
  obtain ⟨c, hc, hmem⟩ := (mem_language_ofAlts h text).mp htext
  obtain ⟨i, hi⟩ := mem_iff_getElem?.mp hc
  exact ⟨i, c, [], text, [], hi, (append_nil _).symm, fun _ => rfl, fun _ => rfl, hmem⟩

/-- The language takes in any text behind a match of the first alternative, in front of a match of
the last one, and on both sides of a match of another one. -/
def Absorbs (alts : List (List (Regex α))) : Prop :=
  ∀ (i : ℕ) (c : List (Regex α)), alts[i]? = some c →
    (if i = 0 then 1 else ⊤) * (ofItems c).language * (if i + 1 = alts.length then 1 else ⊤) ≤
      (ofAlts alts).language

theorem mem_one_or_top {p : Prop} [Decidable p] {w : List α} :
    w ∈ (if p then 1 else ⊤ : Language α) ↔ (p → w = []) := by
  by_cases hp : p
  · rw [if_pos hp, Language.mem_one]
    exact ⟨fun h _ => h, fun h => h hp⟩
  · rw [if_neg hp]
    exact iff_of_true trivial fun h => absurd h hp

theorem absorbs_iff : Absorbs alts ↔ ∀ text, Loose alts text → text ∈ (ofAlts alts).language := by
  constructor
  · rintro h _ ⟨i, c, pre, mid, post, hi, rfl, hpre, hpost, hmid⟩
    exact h i c hi (Language.append_mem_mul
      (Language.append_mem_mul (mem_one_or_top.mpr hpre) hmid) (mem_one_or_top.mpr hpost))
  · rintro h i c hi text htext
    obtain ⟨_, ⟨pre, hpre, mid, hmid, rfl⟩, post, hpost, rfl⟩ := htext
    exact h _ ⟨i, c, pre, mid, post, hi, rfl, mem_one_or_top.mp hpre, mem_one_or_top.mp hpost, hmid⟩

/-- A single alternative has an anchor on either side. -/
theorem absorbs_singleton (c : List (Regex α)) : Absorbs [c] := by
  intro i c' hi
  obtain ⟨hlt, rfl⟩ := List.getElem?_eq_some_iff.mp hi
  obtain rfl : i = 0 := Nat.lt_one_iff.mp hlt
  rw [if_pos rfl, if_pos (by rfl), one_mul, mul_one]
  exact le_rfl

end Regex
