import Mathlib

/-!
# Byte strings and decimal numerals

A text is the list of its bytes. Integers are written in decimal, and read back with a limit on the
number of bits: a reader tells a text that is no numeral from a number that is out of range, and
gives the nearest number for the latter.
-/

/-- A text, byte by byte. -/
abbrev Bytes := List UInt8

instance : LawfulBEq Bytes := inferInstance

/-- The bytes of a text. -/
def utf8 (s : String) : Bytes := s.toByteArray.data.toList

namespace Numeral

open List Option

/-- The byte of a digit. -/
def digit (d : ℕ) : UInt8 := UInt8.ofNat (48 + d)

/-- The value of a digit. -/
def digitValue (b : UInt8) : Option ℕ := if 48 ≤ b ∧ b ≤ 57 then some (b.toNat - 48) else none

/-- A number in decimal. -/
def formatNat (n : ℕ) : Bytes := if n = 0 then [digit 0] else ((Nat.digits 10 n).map digit).reverse

/-- An integer in decimal, with a minus sign if it is negative. -/
def formatInt (i : ℤ) : Bytes := if i < 0 then 45 :: formatNat i.natAbs else formatNat i.natAbs

/-- Read digits behind a number that has been read. -/
def readNat : ℕ → Bytes → Option ℕ
  | acc, [] => some acc
  | acc, b :: rest =>
    match digitValue b with
    | none => none
    | some d => readNat (10 * acc + d) rest

/-- Read a number; there has to be a digit. -/
def parseNat (s : Bytes) : Option ℕ := if s = [] then none else readNat 0 s

/-- What a reader finds. -/
inductive Parsed (α : Type)
  | value (a : α)
  | syntaxError
  /-- The text is a numeral, of a number that is too large or too small; the nearest one is
  given. -/
  | rangeError (nearest : α)
deriving DecidableEq

/-- Read a number of the given number of bits. -/
def parseUint (bits : ℕ) (s : Bytes) : Parsed ℕ :=
  match parseNat s with
  | none => .syntaxError
  | some n => if n < 2 ^ bits then .value n else .rangeError (2 ^ bits - 1)

/-- Whether a text starts with a minus sign, and what comes after the sign. -/
def splitSign : Bytes → Bool × Bytes
  | [] => (false, [])
  | b :: rest =>
    if b = 43 then (false, rest) else if b = 45 then (true, rest) else (false, b :: rest)

/-- Read an integer of the given number of bits, with a sign or without. -/
def parseInt (bits : ℕ) (s : Bytes) : Parsed ℤ :=
  match parseNat (splitSign s).2 with
  | none => .syntaxError
  | some n =>
    if (splitSign s).1 then
      if n ≤ 2 ^ (bits - 1) then .value (-n) else .rangeError (-2 ^ (bits - 1))
    else if n < 2 ^ (bits - 1) then .value n
    else .rangeError (2 ^ (bits - 1) - 1)

/-! ### Digits -/

theorem digitValue_digit : ∀ {d : ℕ}, d < 10 → digitValue (digit d) = some d := by decide

theorem readNat_append (acc : ℕ) (s t : Bytes) :
    readNat acc (s ++ t) = (readNat acc s).bind fun n => readNat n t := by
  induction s generalizing acc with
  | nil => rfl
  | cons b s ih =>
    rw [cons_append, readNat, readNat]
    cases digitValue b with
    | none => rfl
    | some d => exact ih _

/-- Digits that are read have the value of the numeral, least digit first. -/
theorem readNat_digits {ds : List ℕ} (hds : ∀ d ∈ ds, d < 10) :
    readNat 0 (ds.map digit).reverse = some (Nat.ofDigits 10 ds) := by
  induction ds with
  | nil => rfl
  | cons d ds ih =>
    rw [forall_mem_cons] at hds
    rw [map_cons, reverse_cons, readNat_append, ih hds.2, bind_some, readNat,
      digitValue_digit hds.1, Nat.ofDigits_cons, add_comm]
    rfl

theorem formatNat_ne_nil (n : ℕ) : formatNat n ≠ [] := by
  rw [formatNat]
  split
  · exact cons_ne_nil _ _
  · rename_i hn
    rw [Ne, reverse_eq_nil_iff, map_eq_nil_iff]
    exact Nat.digits_ne_nil_iff_ne_zero.mpr hn

/-- **A number is read back.** -/
theorem parseNat_formatNat (n : ℕ) : parseNat (formatNat n) = some n := by
  rw [parseNat, if_neg (formatNat_ne_nil n), formatNat]
  split
  · rename_i hn
    rw [hn]
    rfl
  · rw [readNat_digits fun d hd => Nat.digits_lt_base (by norm_num) hd, Nat.ofDigits_digits]

theorem formatNat_injective : Function.Injective formatNat := by
  intro m n h
  have hparse := congrArg parseNat h
  rw [parseNat_formatNat, parseNat_formatNat] at hparse
  exact some_inj.mp hparse

/-- A byte that is a digit. -/
def IsDigit (b : UInt8) : Prop := (digitValue b).isSome

instance : DecidablePred IsDigit := fun b => inferInstanceAs (Decidable (digitValue b).isSome)

variable {s : Bytes} {n bits : ℕ} {i : ℤ}

theorem isDigit_of_readNat {acc n : ℕ} (h : readNat acc s = some n) : ∀ b ∈ s, IsDigit b := by
  induction s generalizing acc with
  | nil => exact nofun
  | cons b s ih =>
    rw [readNat] at h
    cases hd : digitValue b with
    | none => rw [hd] at h; cases h
    | some d =>
      rw [hd] at h
      exact forall_mem_cons.mpr ⟨by rw [IsDigit, hd]; rfl, ih h⟩

/-- What is read as a number consists of digits. -/
theorem isDigit_of_parseNat (h : parseNat s = some n) : ∀ b ∈ s, IsDigit b := by
  rw [parseNat] at h
  split at h
  · cases h
  · exact isDigit_of_readNat h

theorem exists_readNat (h : ∀ b ∈ s, IsDigit b) (acc : ℕ) : ∃ n, readNat acc s = some n := by
  induction s generalizing acc with
  | nil => exact ⟨acc, rfl⟩
  | cons b s ih =>
    rw [forall_mem_cons] at h
    obtain ⟨d, hd⟩ := isSome_iff_exists.mp h.1
    obtain ⟨n, hn⟩ := ih h.2 (10 * acc + d)
    exact ⟨n, by rw [readNat, hd]; exact hn⟩

/-- Digits are read as a number. -/
theorem exists_parseNat (hne : s ≠ []) (h : ∀ b ∈ s, IsDigit b) : ∃ n, parseNat s = some n := by
  obtain ⟨n, hn⟩ := exists_readNat h 0
  exact ⟨n, by rw [parseNat, if_neg hne, hn]⟩

theorem isDigit_of_mem_formatNat : ∀ b ∈ formatNat n, IsDigit b :=
  isDigit_of_parseNat (parseNat_formatNat n)

/-! ### Integers -/

theorem not_isDigit_minus : ¬ IsDigit 45 := by decide

theorem not_isDigit_plus : ¬ IsDigit 43 := by decide

theorem splitSign_minus (s : Bytes) : splitSign (45 :: s) = (true, s) := by
  rw [splitSign, if_neg (by decide), if_pos rfl]

theorem splitSign_of_isDigit (h : ∀ b ∈ s, IsDigit b) : splitSign s = (false, s) := by
  cases s with
  | nil => rfl
  | cons b rest =>
    have hb := h b mem_cons_self
    rw [splitSign, if_neg, if_neg]
    · rintro rfl
      exact not_isDigit_minus hb
    · rintro rfl
      exact not_isDigit_plus hb

/-- **An integer in range is read back.** -/
theorem parseInt_formatInt (hlow : -2 ^ (bits - 1) ≤ i)
    (hhigh : i < 2 ^ (bits - 1)) : parseInt bits (formatInt i) = .value i := by
  rw [formatInt]
  rcases lt_or_ge i 0 with hneg | hnonneg
  · have habs : ((i.natAbs : ℕ) : ℤ) = -i := by omega
    have hle : i.natAbs ≤ 2 ^ (bits - 1) := by
      rw [← Int.ofNat_le, habs]
      push_cast
      exact neg_le.mp hlow
    rw [if_pos hneg, parseInt, splitSign_minus, parseNat_formatNat]
    simp only [if_true, if_pos hle, habs, neg_neg]
  · have habs : ((i.natAbs : ℕ) : ℤ) = i := by omega
    have hlt : i.natAbs < 2 ^ (bits - 1) := by
      rw [← Int.ofNat_lt, habs]
      push_cast
      exact hhigh
    rw [if_neg (not_lt.mpr hnonneg), parseInt, splitSign_of_isDigit isDigit_of_mem_formatNat,
      parseNat_formatNat]
    simp only [Bool.false_eq_true, if_false, if_pos hlt, habs]

theorem parseUint_formatNat (h : n < 2 ^ bits) : parseUint bits (formatNat n) = .value n := by
  rw [parseUint, parseNat_formatNat]
  exact if_pos h

/-- The bytes of a numeral. -/
def IsNumeralByte (b : UInt8) : Prop := b = 43 ∨ b = 45 ∨ IsDigit b

theorem isNumeralByte_of_mem_formatInt : ∀ b ∈ formatInt i, IsNumeralByte b := by
  rw [formatInt]
  split
  · exact forall_mem_cons.mpr ⟨.inr (.inl rfl), fun b hb => .inr (.inr
      (isDigit_of_mem_formatNat b hb))⟩
  · exact fun b hb => .inr (.inr (isDigit_of_mem_formatNat b hb))

/-- What is read as an integer consists of digits and signs. -/
theorem isNumeralByte_of_parseInt (h : parseInt bits s = .value i) : ∀ b ∈ s, IsNumeralByte b := by
  rw [parseInt] at h
  cases hn : parseNat (splitSign s).2 with
  | none => rw [hn] at h; cases h
  | some n =>
    have hdigits := isDigit_of_parseNat hn
    cases s with
    | nil => exact nofun
    | cons first rest =>
      rw [splitSign] at hdigits
      split at hdigits
      · rename_i hplus
        exact forall_mem_cons.mpr ⟨.inl hplus, fun b hb => .inr (.inr (hdigits b hb))⟩
      · split at hdigits
        · rename_i hminus
          exact forall_mem_cons.mpr ⟨.inr (.inl hminus),
            fun b hb => .inr (.inr (hdigits b hb))⟩
        · exact fun b hb => .inr (.inr (hdigits b hb))

end Numeral
