import Mathlib

/-!
# Replacing text

`replaceAll` replaces all occurrences of a text that is not empty, from left to right, where what
has been put in is not looked at again. It changes nothing where the text does not occur, treats
parts between marks each by itself if the mark is no part of the text, and makes a text longer if it
replaces something by something longer.
-/

namespace Replace

open List

variable {α : Type} [DecidableEq α]

/-- Go on behind an occurrence of the text, of which so many letters are still to be skipped. -/
def replaceFrom (old new : List α) : ℕ → List α → List α
  | _, [] => []
  | skip + 1, _ :: s => replaceFrom old new skip s
  | 0, c :: s =>
    if old.isPrefixOf (c :: s) then new ++ replaceFrom old new (old.length - 1) s
    else c :: replaceFrom old new 0 s

/-- All occurrences of `old` replaced by `new`. -/
def replaceAll (old new s : List α) : List α := replaceFrom old new 0 s

variable {old new s x y : List α} {mark : α}

theorem replaceAll_cons (c : α) (s : List α) : replaceAll old new (c :: s) =
    if old.isPrefixOf (c :: s) then new ++ replaceFrom old new (old.length - 1) s
    else c :: replaceAll old new s := rfl

theorem replaceAll_cons_of_miss {c : α} (h : ¬ old <+: c :: s) :
    replaceAll old new (c :: s) = c :: replaceAll old new s := by
  rw [replaceAll_cons, if_neg fun hp => h (List.isPrefixOf_iff_prefix.mp hp)]

/-- Where the text does not occur nothing is replaced. -/
theorem replaceAll_eq_self (h : ¬ old <:+: s) : replaceAll old new s = s := by
  induction s with
  | nil => rfl
  | cons c s ih =>
    rw [replaceAll_cons_of_miss fun hp => h hp.isInfix,
      ih fun hs => h (hs.trans (suffix_cons c s).isInfix)]

/-- What is behind the skipped letters. -/
theorem replaceFrom_eq_drop (skip : ℕ) (s : List α) :
    replaceFrom old new skip s = replaceAll old new (s.drop skip) := by
  induction skip generalizing s with
  | zero => rfl
  | succ skip ih =>
    cases s with
    | nil => rfl
    | cons c s => exact ih s

/-- An occurrence is replaced by what it has to be replaced by. -/
theorem replaceAll_append (hold : old ≠ []) (s : List α) :
    replaceAll old new (old ++ s) = new ++ replaceAll old new s := by
  obtain ⟨c, rest, rfl⟩ := exists_cons_of_ne_nil hold
  rw [cons_append, replaceAll_cons, if_pos, replaceFrom_eq_drop]
  · rw [length_cons, Nat.add_sub_cancel, drop_left]
  · rw [← cons_append]
    exact isPrefixOf_iff_prefix.mpr (prefix_append _ _)

/-- Induction along the occurrences that are replaced. -/
theorem occurrence_induction {motive : List α → Prop} (hold : old ≠ []) (nil : motive [])
    (hit : ∀ rest, motive rest → motive (old ++ rest))
    (miss : ∀ c s, ¬ old <+: c :: s → motive s → motive (c :: s)) (s : List α) : motive s := by
  induction hn : s.length using Nat.strong_induction_on generalizing s with
  | _ n ih =>
    cases s with
    | nil => exact nil
    | cons c s =>
      by_cases hp : old <+: c :: s
      · obtain ⟨rest, hrest⟩ := hp
        have hlength := congrArg List.length hrest
        rw [length_append] at hlength
        have hpos := length_pos_iff.mpr hold
        exact hrest ▸ hit rest (ih _ (by omega) rest rfl)
      · exact miss c s hp (ih _ (hn ▸ Nat.lt_succ_self _) s rfl)

/-- **Parts between marks are treated each by itself.** -/
theorem replaceAll_append_mark (hold : old ≠ []) (hmark : mark ∉ old) (x y : List α) :
    replaceAll old new (x ++ mark :: y) = replaceAll old new x ++ mark :: replaceAll old new y := by
  induction x using occurrence_induction hold with
  | nil =>
    refine replaceAll_cons_of_miss fun hp => ?_
    obtain ⟨c, old', rfl⟩ := exists_cons_of_ne_nil hold
    obtain ⟨rfl, -⟩ := cons_prefix_cons.mp hp
    exact hmark mem_cons_self
  | hit rest ih =>
    rw [append_assoc, replaceAll_append hold, ih, replaceAll_append hold, append_assoc]
  | miss c x hp ih =>
    -- an occurrence at the start cannot reach the mark
    have hp' : ¬ old <+: c :: (x ++ mark :: y) := by
      rintro ⟨rest, hrest⟩
      rw [← cons_append] at hrest
      rcases append_eq_append_iff.mp hrest with ⟨r, hr, -⟩ | ⟨r, hr, hrest'⟩
      · exact hp ⟨r, hr.symm⟩
      · obtain _ | ⟨m, r⟩ := r
        · exact hp ⟨[], by rw [hr, append_nil, append_nil]⟩
        · obtain ⟨rfl, -⟩ := List.cons.inj hrest'
          exact hmark (hr ▸ mem_append_right _ mem_cons_self)
    rw [cons_append, replaceAll_cons_of_miss hp', ih, replaceAll_cons_of_miss hp,
      cons_append]

/-- An occurrence makes the new text a part of the result. -/
theorem infix_replaceAll (hold : old ≠ []) (h : old <:+: s) : new <:+: replaceAll old new s := by
  induction s using occurrence_induction hold with
  | nil => exact absurd (infix_nil.mp h) hold
  | hit rest =>
    rw [replaceAll_append hold]
    exact (prefix_append _ _).isInfix
  | miss c s hp ih =>
    rw [replaceAll_cons_of_miss hp]
    exact (ih ((infix_cons_iff.mp h).resolve_left hp)).trans (suffix_cons _ _).isInfix

theorem mem_replaceAll (hold : old ≠ []) {c : α} (h : c ∈ replaceAll old new s) :
    c ∈ s ∨ c ∈ new := by
  induction s using occurrence_induction hold with
  | nil => cases h
  | hit rest ih =>
    rw [replaceAll_append hold, mem_append] at h
    rcases h with h | h
    · exact .inr h
    · exact (ih h).imp (mem_append_right _) id
  | miss d s hp ih =>
    rw [replaceAll_cons_of_miss hp, mem_cons] at h
    rcases h with rfl | h
    · exact .inl mem_cons_self
    · exact (ih h).imp (mem_cons_of_mem _) id

/-- Something longer makes a text longer where there is something to replace. -/
theorem length_replaceAll (hlt : old.length < new.length) (hold : old ≠ []) (s : List α) :
    s.length ≤ (replaceAll old new s).length ∧
      (old <:+: s → s.length < (replaceAll old new s).length) := by
  induction s using occurrence_induction hold with
  | nil => exact ⟨le_rfl, fun h => absurd (infix_nil.mp h) hold⟩
  | hit rest ih =>
    have hle := ih.1
    rw [replaceAll_append hold, length_append, length_append]
    exact ⟨by omega, fun _ => by omega⟩
  | miss c s hp ih =>
    rw [replaceAll_cons_of_miss hp, length_cons, length_cons]
    refine ⟨Nat.succ_le_succ ih.1, fun h => Nat.succ_lt_succ (ih.2 ?_)⟩
    exact (infix_cons_iff.mp h).resolve_left hp

end Replace
