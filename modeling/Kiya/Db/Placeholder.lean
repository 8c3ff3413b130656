import Kiya.Db.Statement
import Kiya.Lib.Sql.Placeholder

/-!
# Placeholders and arguments

A builder writes the text of a statement and collects its arguments separately, and PostgreSQL gets
numbers for the placeholders from a regular expression that skips quoted literals.
-/

namespace Kiya

open Sql List

/-! ### ConvertPlaceholders -/

/-- The length of the rest of a quoted literal, after its opening quote: the characters that
`(?:[^']|'')*'` matches. -/
def closingQuote : List Char → Option Nat
  | [] => none
  | [c] => if isQuote c then some 1 else none
  | c :: d :: cs =>
    if isQuote c then
      if isQuote d then some ((closingQuote cs).elim 1 (· + 2)) else some 1
    else (closingQuote (d :: cs)).map (· + 1)

/-- The length of the rest of a text in double dollar signs, after the opening ones. -/
def closingDollars : List Char → Option Nat
  | [] => none
  | [_] => none
  | c :: d :: cs =>
    if c = '$' && d = '$' then some 2
    else if c = '\n' then none
    else (closingDollars (d :: cs)).map (· + 1)

/-- What the expression `('(?:[^']|'')*')|(\$\$.*?\$\$)|(\?)` matches at a position: a literal with
that many characters after the first one, or a placeholder. -/
inductive PlaceholderMatch where
  | literal (n : Nat)
  | placeholder
  | none

/-- The match that begins with a character. -/
def matchAt (c : Char) (cs : List Char) : PlaceholderMatch :=
  if isQuote c then (closingQuote cs).elim .none .literal
  else if c = '$' then
    match cs with
    | d :: ds => if d = '$' then (closingDollars ds).elim .none fun n => .literal (n + 1) else .none
    | [] => .none
  else if c = '?' then .placeholder
  else .none

/-- Replace the placeholders after the `k`-th; the first `skip` characters belong to a literal. -/
def replaceMatches : Nat → Nat → List Char → List Char
  | _, _, [] => []
  | skip + 1, k, c :: cs => c :: replaceMatches skip k cs
  | 0, k, c :: cs =>
    match matchAt c cs with
    | .literal n => c :: replaceMatches n k cs
    | .placeholder => dollar (k + 1) ++ replaceMatches 0 (k + 1) cs
    | .none => c :: replaceMatches 0 k cs

/-- `ConvertPlaceholders`. -/
def Dialect.convertPlaceholders : Dialect → String → String
  | .mysql, query => query
  | .postgres, query => String.ofList (replaceMatches 0 0 query.toList)

theorem replaceMatches_skip (k : Nat) (cs : List Char) :
    ∀ n, replaceMatches n k cs = cs.take n ++ replaceMatches 0 k (cs.drop n) := by
  induction cs with
  | nil =>
    intro n
    cases n <;> rfl
  | cons c cs ih =>
    intro n
    cases n with
    | zero => rfl
    | succ n => rw [replaceMatches, ih, take_succ_cons, drop_succ_cons, cons_append]

variable {cs : List Char}

/-- Without a closing quote the text ends inside of the literal. -/
theorem quotedAfter_of_closingQuote_none (h : closingQuote cs = none) :
    quotedAfter true cs = true := by
  fun_induction closingQuote cs with
  | case1 => rfl
  | case2 c hc => cases h
  | case3 c hc => simp [quotedAfter, hc]
  | case4 | case5 => cases h
  | case6 c d cs hc ih =>
    rw [quotedAfter, if_neg hc]
    exact ih (Option.map_eq_none_iff.mp h)

/-- A literal as the expression matches it ends where its quotes are closed. -/
theorem closingQuote_spec (f : Nat → List Char) (k : Nat) {n : Nat} (h : closingQuote cs = some n) :
    number f true k cs = cs.take n ++ number f false k (cs.drop n) ∧
      quotedAfter true cs = quotedAfter false (cs.drop n) ∧
      (clean true cs = true → clean false (cs.drop n) = true) := by
  fun_induction closingQuote cs generalizing n with
  | case1 => cases h
  | case2 c hc =>
    cases h
    simp [number, quotedAfter, clean, hc]
  | case3 c hc => cases h
  | case4 c d cs hc hd ih =>
    cases hcs : closingQuote cs with
    | none =>
      rw [hcs] at h
      cases h
      simp [number, quotedAfter, clean, hc, hd]
    | some m =>
      rw [hcs] at h
      cases h
      obtain ⟨hnumber, hquoted, hclean⟩ := ih hcs
      refine ⟨?_, ?_, fun h => hclean ?_⟩
      · simp only [number, hc, hd, if_true, Bool.not_true, Bool.not_false, hnumber]
        rfl
      · simp only [quotedAfter, hc, hd, if_true, Bool.not_true, Bool.not_false, hquoted]
        rfl
      · simp only [clean, hc, hd, if_true, Bool.not_true, Bool.not_false, Bool.and_eq_true] at h
        exact h.2.2
  | case5 c d cs hc hd =>
    cases h
    simp [number, quotedAfter, clean, hc, hd]
  | case6 c d cs hc ih =>
    obtain ⟨m, hm, rfl⟩ := Option.map_eq_some_iff.mp h
    obtain ⟨hnumber, hquoted, hclean⟩ := ih hm
    refine ⟨?_, ?_, fun h => hclean ?_⟩
    · rw [number, if_neg hc, Bool.not_true, Bool.and_false, if_neg Bool.false_ne_true, hnumber]
      rfl
    · rwa [quotedAfter, if_neg hc]
    · rw [clean, if_neg hc] at h
      exact (Bool.and_eq_true_iff.mp h).2

/-- **Conversion numbers the placeholders**, if the text closes its quotes and is clean. -/
theorem replaceMatches_eq_number (m : Nat) :
    ∀ (cs : List Char) (k : Nat), cs.length ≤ m → quotedAfter false cs = false →
      clean false cs = true → replaceMatches 0 k cs = number dollar false k cs := by
  induction m with
  | zero =>
    intro cs k hlength _ _
    obtain rfl := length_eq_zero_iff.mp (Nat.le_zero.mp hlength)
    rfl
  | succ m ih =>
    intro cs k hlength hquoted hclean
    cases cs with
    | nil => rfl
    | cons c cs =>
      simp only [length_cons, Nat.add_le_add_iff_right] at hlength
      by_cases hquote : isQuote c = true
      · -- a literal is copied
        simp only [quotedAfter, clean, hquote, if_true, Bool.not_false,
          Bool.and_eq_true] at hquoted hclean
        cases hclose : closingQuote cs with
        | none =>
          rw [quotedAfter_of_closingQuote_none hclose] at hquoted
          cases hquoted
        | some n =>
          obtain ⟨hnumber, hafter, hrest⟩ := closingQuote_spec dollar k hclose
          have hdrop : (cs.drop n).length ≤ m := by
            rw [length_drop]
            omega
          have hmatch : matchAt c cs = .literal n := by simp [matchAt, hquote, hclose]
          rw [replaceMatches, hmatch, number, if_pos hquote, Bool.not_false, hnumber]
          simp only [replaceMatches_skip k cs n]
          rw [ih _ k hdrop (hafter ▸ hquoted) (hrest hclean.2)]
      · simp only [quotedAfter, clean, hquote, Bool.false_eq_true, if_false, Bool.false_or,
          Bool.and_eq_true, Bool.not_eq_true'] at hquoted hclean
        by_cases hmark : c = '?'
        · subst hmark
          have hmatch : matchAt '?' cs = .placeholder := by simp [matchAt, hquote]
          rw [replaceMatches, hmatch, number, if_neg hquote]
          simp only [ih cs (k + 1) hlength hquoted hclean.2]
          rfl
        · -- two dollar signs would be a clash
          have hmatch : matchAt c cs = .none := by
            by_cases hdollar : c = '$'
            · subst hdollar
              cases cs with
              | nil => rfl
              | cons d ds =>
                have hd : d ≠ '$' := by
                  rintro rfl
                  simp [clashes] at hclean
                simp [matchAt, hquote, hd]
            · simp [matchAt, hquote, hmark, hdollar]
          rw [replaceMatches, hmatch, number, if_neg hquote]
          simp only [ih cs k hlength hquoted hclean.2]
          simp [isMark, hmark]

end Kiya
