import Mathlib

/-!
# Token buckets

A bucket that holds at most `burst` tokens and gains `rate` tokens a second. A call is granted if
there is a token for it, and takes one. The calls of a run are given by the time that each is
credited with, which is all that the bucket sees of a clock.

What is granted and what is left never exceed what was there and what was credited
(`granted_add_left_le`); as long as nothing is granted nothing is lost either
(`left_of_granted_eq_zero`), so that a whole token that has been credited is given out.
-/

namespace TokenBucket

open List

variable {K : Type*} [Field K] [LinearOrder K]

/-- What a bucket with `tokens` holds `elapsed` seconds later. -/
def refill (rate burst tokens elapsed : K) : K := min burst (tokens + elapsed * rate)

/-- Take a token, if there is one. -/
def take (level : K) : Bool × K := if level < 1 then (false, level) else (true, level - 1)

/-- The answers to calls that are credited with the given times, and what is left after them. -/
def run (rate burst : K) : K → List K → List Bool × K
  | tokens, [] => ([], tokens)
  | tokens, elapsed :: rest =>
    let call := take (refill rate burst tokens elapsed)
    let others := run rate burst call.2 rest
    (call.1 :: others.1, others.2)

variable {rate burst tokens elapsed level : K}

@[simp]
theorem run_nil : run rate burst tokens [] = ([], tokens) := rfl

theorem run_cons (rest : List K) :
    run rate burst tokens (elapsed :: rest) =
      ((take (refill rate burst tokens elapsed)).1 ::
          (run rate burst (take (refill rate burst tokens elapsed)).2 rest).1,
        (run rate burst (take (refill rate burst tokens elapsed)).2 rest).2) := rfl

theorem take_of_lt (h : level < 1) : take level = (false, level) := if_pos h

theorem take_of_le (h : 1 ≤ level) : take level = (true, level - 1) := if_neg (not_lt.mpr h)

/-! ### The level of a bucket -/

theorem refill_le (rate burst tokens elapsed : K) :
    refill rate burst tokens elapsed ≤ burst := min_le_left _ _

/-- A bucket that has been left alone long enough is full. -/
theorem refill_of_le (h : burst ≤ tokens + elapsed * rate) :
    refill rate burst tokens elapsed = burst := min_eq_left h

theorem refill_zero (h : tokens ≤ burst) : refill rate burst tokens 0 = tokens := by
  rw [refill, zero_mul, add_zero, min_eq_right h]

variable [IsStrictOrderedRing K]

theorem refill_nonneg (hrate : 0 ≤ rate) (hburst : 0 ≤ burst) (htokens : 0 ≤ tokens)
    (helapsed : 0 ≤ elapsed) : 0 ≤ refill rate burst tokens elapsed :=
  le_min hburst (add_nonneg htokens (mul_nonneg helapsed hrate))

theorem take_nonneg (h : 0 ≤ level) : 0 ≤ (take level).2 := by
  rcases lt_or_ge level 1 with hlt | hge
  · rwa [take_of_lt hlt]
  · rw [take_of_le hge]
    exact sub_nonneg.mpr hge

theorem take_le : (take level).2 ≤ level := by
  rcases lt_or_ge level 1 with hlt | hge
  · rw [take_of_lt hlt]
  · rw [take_of_le hge]
    exact sub_le_self level zero_le_one

/-! ### Runs -/

/-- The number of calls that were granted. -/
def granted (answers : List Bool) : ℕ := answers.count true

@[simp]
theorem granted_nil : granted [] = 0 := rfl

theorem granted_cons (answer : Bool) (answers : List Bool) :
    granted (answer :: answers) = granted answers + if answer then 1 else 0 := by
  cases answer <;> simp [granted]

/-- A call takes what it is granted from the level. -/
theorem take_account (level : K) :
    ((if (take level).1 then 1 else 0 : ℕ) : K) + (take level).2 = level := by
  rcases lt_or_ge level 1 with hlt | hge
  · simp [take_of_lt hlt]
  · simp [take_of_le hge]

/-- **Conservation.** What is granted and what is left come from what was there and what was
credited. -/
theorem granted_add_left_le (rate burst tokens : K) (credits : List K) :
    (granted (run rate burst tokens credits).1 : K) + (run rate burst tokens credits).2 ≤
      tokens + credits.sum * rate := by
  induction credits generalizing tokens with
  | nil => simp
  | cons elapsed rest ih =>
    have hcredit : refill rate burst tokens elapsed ≤ tokens + elapsed * rate := min_le_right _ _
    have haccount := take_account (refill rate burst tokens elapsed)
    have hrest := ih (take (refill rate burst tokens elapsed)).2
    rw [run_cons, granted_cons, sum_cons]
    push_cast at haccount ⊢
    linarith

variable {credits : List K}

theorem left_nonneg (hrate : 0 ≤ rate) (hburst : 0 ≤ burst) (htokens : 0 ≤ tokens)
    (hcredits : ∀ e ∈ credits, 0 ≤ e) : 0 ≤ (run rate burst tokens credits).2 := by
  induction credits generalizing tokens with
  | nil => exact htokens
  | cons elapsed rest ih =>
    rw [forall_mem_cons] at hcredits
    exact ih (take_nonneg (refill_nonneg hrate hburst htokens hcredits.1)) hcredits.2

/-- **The bound on a run.** -/
theorem granted_le (hrate : 0 ≤ rate) (hburst : 0 ≤ burst) (htokens : 0 ≤ tokens)
    (hcredits : ∀ e ∈ credits, 0 ≤ e) :
    (granted (run rate burst tokens credits).1 : K) ≤ tokens + credits.sum * rate := by
  have hleft := left_nonneg hrate hburst htokens hcredits
  have haccount := granted_add_left_le rate burst tokens credits
  linarith

/-- However full the bucket is at first, the first call finds at most the burst. -/
theorem granted_cons_le (hrate : 0 ≤ rate) (hburst : 0 ≤ burst) (htokens : 0 ≤ tokens)
    (hcredits : ∀ e ∈ elapsed :: credits, 0 ≤ e) :
    (granted (run rate burst tokens (elapsed :: credits)).1 : K) ≤
      burst + credits.sum * rate := by
  rw [forall_mem_cons] at hcredits
  have hleft := take_nonneg (refill_nonneg hrate hburst htokens hcredits.1)
  have hrest := granted_le hrate hburst hleft hcredits.2
  have haccount := take_account (refill rate burst tokens elapsed)
  have hfull := refill_le rate burst tokens elapsed
  rw [run_cons, granted_cons]
  push_cast at haccount ⊢
  linarith

omit [IsStrictOrderedRing K] in
/-- As long as nothing is granted, the bucket keeps all that it is credited with: it is never so
full that something is lost. -/
theorem left_of_granted_eq_zero (hburst : 1 ≤ burst)
    (hnone : granted (run rate burst tokens credits).1 = 0) :
    (run rate burst tokens credits).2 = tokens + credits.sum * rate ∧
      (credits ≠ [] → (run rate burst tokens credits).2 < 1) := by
  induction credits generalizing tokens with
  | nil => simp
  | cons elapsed rest ih =>
    rw [run_cons, granted_cons] at hnone
    rcases lt_or_ge (refill rate burst tokens elapsed) 1 with hlt | hge
    · have hlevel : refill rate burst tokens elapsed = tokens + elapsed * rate := by
        rw [refill, min_eq_right_iff]
        exact (min_lt_iff.mp hlt).elim (fun h => absurd h (not_lt.mpr hburst))
          fun h => (h.trans_le hburst).le
      rw [take_of_lt hlt] at hnone
      obtain ⟨hsum, hlast⟩ := ih (by simpa using hnone)
      rw [run_cons, take_of_lt hlt, sum_cons]
      refine ⟨by rw [hsum, hlevel]; ring, fun _ => ?_⟩
      rcases eq_or_ne rest [] with rfl | hrest
      · exact hlt
      · exact hlast hrest
    · rw [take_of_le hge] at hnone
      simp at hnone

omit [IsStrictOrderedRing K] in
/-- **A whole token that has been credited is given out.** -/
theorem granted_pos (hburst : 1 ≤ burst) (hne : credits ≠ [])
    (hcredit : 1 ≤ tokens + credits.sum * rate) :
    0 < granted (run rate burst tokens credits).1 := by
  by_contra hzero
  obtain ⟨hsum, hlast⟩ := left_of_granted_eq_zero hburst (Nat.eq_zero_of_not_pos hzero)
  exact absurd (hlast hne) (by rw [hsum]; exact not_lt.mpr hcredit)

/-- A bucket gives out what it holds without any credit. -/
theorem run_of_full (n : ℕ) (hn : (n : K) ≤ burst) (htokens : tokens = n) :
    run rate burst tokens (List.replicate n 0) = (List.replicate n true, 0) := by
  induction n generalizing tokens with
  | zero => simp [htokens]
  | succ n ih =>
    push_cast at hn htokens
    have hlevel : refill rate burst tokens 0 = n + 1 := by
      rw [refill_zero (htokens.trans_le hn), htokens]
    have hone : (1 : K) ≤ n + 1 := by linarith [Nat.cast_nonneg (α := K) n]
    rw [replicate_succ, run_cons, hlevel, take_of_le hone, add_sub_cancel_right,
      ih (by linarith) rfl, replicate_succ]

end TokenBucket
