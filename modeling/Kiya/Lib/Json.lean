import Mathlib

/-!
# JSON trees, and what a decoder that reads numbers as floats does to them

`Json` is the tree of a JSON text. Three constructors are finer than the format: a number is
an integer or any other literal, a string may itself be a JSON text (`quoted`, with the number
of its spelling), and a string may be a time in RFC 3339 form. A literal that is no integer is
given by the float it was written for: `frac half exp` is the one of
`(2 * half + 1) / 2 ^ (exp + 1)`.

A program that decodes a text into untyped values and encodes them again reads every number as
a 64-bit float and writes the shortest decimal that reads back as the same float.
`throughFloat` is the effect on integers, `Json.recoded` the effect on trees. Literals that are
no integers were written by such an encoder, which reads them back as they are; the order of the
fields of an object has no meaning, and is left alone. A number is changed once at most, and a tree
is not changed if and only if none of its integers is.
-/

/-- The tree of a JSON text. -/
inductive Json where
  | null
  | bool (b : Bool)
  | int (n : Int)
  | frac (half : Int) (exp : Nat)
  | str (s : String)
  | quoted (j : Json) (spelling : Nat)
  | time (instant : Int) (offset : Int)
  | arr (js : List Json)
  | obj (fields : List (String × Json))
  deriving Repr

namespace Json

/-! ### Decidable equality -/

mutual

/-- Equality of trees. -/
def beq : Json → Json → Bool
  | .null, .null => true
  | .bool a, .bool b => a == b
  | .int a, .int b => a == b
  | .frac a m, .frac b n => a == b && m == n
  | .str a, .str b => a == b
  | .quoted a m, .quoted b n => a.beq b && m == n
  | .time a m, .time b n => a == b && m == n
  | .arr as, .arr bs => beqList as bs
  | .obj as, .obj bs => beqFields as bs
  | _, _ => false

/-- Equality of lists of trees. -/
def beqList : List Json → List Json → Bool
  | [], [] => true
  | a :: as, b :: bs => a.beq b && beqList as bs
  | _, _ => false

/-- Equality of lists of fields. -/
def beqFields : List (String × Json) → List (String × Json) → Bool
  | [], [] => true
  | (k, a) :: as, (l, b) :: bs => k == l && a.beq b && beqFields as bs
  | _, _ => false

end

mutual

theorem beq_iff : ∀ a b : Json, a.beq b = true ↔ a = b
  | .null, b => by cases b <;> simp [beq]
  | .bool a, b => by cases b <;> simp [beq]
  | .int a, b => by cases b <;> simp [beq]
  | .frac a m, b => by cases b <;> simp [beq]
  | .str a, b => by cases b <;> simp [beq]
  | .quoted a m, b => by cases b <;> simp [beq, beq_iff a]
  | .time a m, b => by cases b <;> simp [beq]
  | .arr as, b => by cases b <;> simp [beq, beqList_iff as]
  | .obj as, b => by cases b <;> simp [beq, beqFields_iff as]

theorem beqList_iff : ∀ as bs : List Json, beqList as bs = true ↔ as = bs
  | [], bs => by cases bs <;> simp [beqList]
  | a :: as, bs => by cases bs <;> simp [beqList, beq_iff a, beqList_iff as]

theorem beqFields_iff : ∀ as bs : List (String × Json), beqFields as bs = true ↔ as = bs
  | [], bs => by cases bs <;> simp [beqFields]
  | (k, a) :: as, bs => by
    cases bs <;> simp [beqFields, beq_iff a, beqFields_iff as, Prod.ext_iff]

end

instance : DecidableEq Json := fun a b => decidable_of_iff _ (beq_iff a b)

end Json

open Json

/-! ### Numbers through floats -/

/-- The 64-bit float nearest to a natural number, ties to even. -/
def nearestFloat (n : Nat) : Nat :=
  if n < 2 ^ 53 then n
  else
    let s := n.log2 - 52
    let q := n / 2 ^ s
    let r := n % 2 ^ s
    (if 2 ^ (s - 1) < r ∨ (r = 2 ^ (s - 1) ∧ q % 2 = 1) then q + 1 else q) * 2 ^ s

/-- All but the first bits of a number are zero. -/
theorem two_pow_dvd_iff {a p : ℕ} :
    2 ^ (a.log2 + 1 - p) ∣ a ↔ ∃ m k, a = m * 2 ^ k ∧ m < 2 ^ p := by
  constructor
  · intro h
    refine ⟨a / 2 ^ (a.log2 + 1 - p), a.log2 + 1 - p, (Nat.div_mul_cancel h).symm, ?_⟩
    rw [Nat.div_lt_iff_lt_mul (Nat.two_pow_pos _), ← pow_add]
    exact Nat.lt_log2_self.trans_le (Nat.pow_le_pow_right two_pos (by omega))
  · rintro ⟨m, k, rfl, hm⟩
    by_cases hzero : m * 2 ^ k = 0
    · rw [hzero]
      exact dvd_zero _
    · have hlt : m * 2 ^ k < 2 ^ (p + k) := by
        rw [pow_add]
        exact Nat.mul_lt_mul_of_pos_right hm (Nat.two_pow_pos k)
      have hlog := (Nat.log2_lt hzero).mpr hlt
      exact Dvd.dvd.mul_left (pow_dvd_pow 2 (by omega)) m

/-- **The floats are the numbers of at most 53 bits**, apart from zeros at the end. -/
theorem nearestFloat_eq_self_iff {n : ℕ} :
    nearestFloat n = n ↔ ∃ m k, n = m * 2 ^ k ∧ m < 2 ^ 53 := by
  rw [nearestFloat]
  by_cases hsmall : n < 2 ^ 53
  · rw [if_pos hsmall]
    exact iff_of_true rfl ⟨n, 0, by rw [pow_zero, mul_one], hsmall⟩
  rw [if_neg hsmall, ← two_pow_dvd_iff, show n.log2 + 1 - 53 = n.log2 - 52 by omega]
  have hlog : 53 ≤ n.log2 := (Nat.le_log2 (by omega)).mpr (not_lt.mp hsmall)
  constructor
  · intro h
    -- the rounded number is a multiple of the power, so the other one is, too
    exact ⟨_, h.symm.trans (mul_comm _ _)⟩
  · intro hdvd
    have hpos := Nat.two_pow_pos (n.log2 - 52 - 1)
    dsimp only
    rw [Nat.mod_eq_zero_of_dvd hdvd, if_neg (by omega), Nat.div_mul_cancel hdvd]

/-- The 64-bit float nearest to an integer. -/
def nearestInt (i : Int) : Int := i.sign * nearestFloat i.natAbs

theorem nearestInt_eq_self_iff {i : ℤ} :
    nearestInt i = i ↔ ∃ m k, i.natAbs = m * 2 ^ k ∧ m < 2 ^ 53 := by
  rw [← nearestFloat_eq_self_iff, nearestInt]
  constructor
  · intro h
    by_cases hzero : i = 0
    · rw [hzero]
      rfl
    · have habs := congrArg Int.natAbs h
      rwa [Int.natAbs_mul, Int.natAbs_sign_of_ne_zero hzero, one_mul, Int.natAbs_natCast] at habs
  · intro h
    rw [h, Int.sign_mul_natAbs]

/-- The shortest decimal that reads back as the float `f`, among those with at least
`f.log2 - k` trailing zeros dropped: the multiples of `10 ^ k` around `f` are tried from the
largest power down, the nearer one first. -/
def shortestDecimal (f : Nat) : Nat → Nat
  | 0 => f
  | k + 1 =>
    let p := 10 ^ (k + 1)
    let lo := f / p * p
    let hi := lo + p
    let reads (c : Nat) : Bool := c ≠ 0 && nearestFloat c = f
    if reads lo && (!reads hi || f - lo ≤ hi - f) then lo
    else if reads hi then hi
    else shortestDecimal f k

/-- An integer decoded as a float and encoded again. -/
def throughFloat : Int → Int
  | .ofNat n => shortestDecimal (nearestFloat n) (nearestFloat n).log2
  | .negSucc n =>
    - (shortestDecimal (nearestFloat (n + 1)) (nearestFloat (n + 1)).log2 : Nat)

example : throughFloat 9007199254740993 = 9007199254740992 := by decide +kernel

theorem nearestFloat_nearestFloat (n : ℕ) : nearestFloat (nearestFloat n) = nearestFloat n := by
  rw [nearestFloat_eq_self_iff, nearestFloat]
  by_cases hsmall : n < 2 ^ 53
  · rw [if_pos hsmall]
    exact ⟨n, 0, by rw [pow_zero, mul_one], hsmall⟩
  rw [if_neg hsmall]
  have hlog : 53 ≤ n.log2 := (Nat.le_log2 (by omega)).mpr (not_lt.mp hsmall)
  have hquot : n / 2 ^ (n.log2 - 52) < 2 ^ 53 := by
    rw [Nat.div_lt_iff_lt_mul (Nat.two_pow_pos _), ← pow_add,
      show 53 + (n.log2 - 52) = n.log2 + 1 by omega]
    exact Nat.lt_log2_self
  dsimp only
  split_ifs
  · by_cases hcarry : n / 2 ^ (n.log2 - 52) + 1 < 2 ^ 53
    · exact ⟨_, _, rfl, hcarry⟩
    · -- the carry goes into one more bit
      refine ⟨2 ^ 52, n.log2 - 52 + 1, ?_, by norm_num⟩
      rw [show n / 2 ^ (n.log2 - 52) + 1 = 2 ^ 53 by omega, ← pow_add, ← pow_add,
        show 53 + (n.log2 - 52) = 52 + (n.log2 - 52 + 1) by omega]
  · exact ⟨_, _, rfl, hquot⟩

/-- The decimal reads back as the float. -/
theorem nearestFloat_shortestDecimal {f : ℕ} (hf : nearestFloat f = f) (k : ℕ) :
    nearestFloat (shortestDecimal f k) = f := by
  induction k with
  | zero => exact hf
  | succ k ih =>
    rw [shortestDecimal]
    dsimp only
    split_ifs with hlo hhi
    · simp only [Bool.and_eq_true, decide_eq_true_eq] at hlo
      exact hlo.1.2
    · simp only [Bool.and_eq_true, decide_eq_true_eq] at hhi
      exact hhi.2
    · exact ih

/-- Numbers that need not be exact stay above those that are. -/
theorem le_nearestFloat {n : ℕ} (h : 2 ^ 53 ≤ n) : 2 ^ 53 ≤ nearestFloat n := by
  have hne : n ≠ 0 := by omega
  have hlog : 53 ≤ n.log2 := (Nat.le_log2 hne).mpr h
  have hquot : 2 ^ 52 ≤ n / 2 ^ (n.log2 - 52) := by
    rw [Nat.le_div_iff_mul_le (Nat.two_pow_pos _), ← pow_add, Nat.add_sub_cancel' (by omega)]
    exact Nat.log2_self_le hne
  have hpow : 2 ^ 1 ≤ 2 ^ (n.log2 - 52) := Nat.pow_le_pow_right two_pos (by omega)
  have hprod := Nat.mul_le_mul hquot hpow
  rw [nearestFloat, if_neg (not_lt.mpr h)]
  dsimp only
  split_ifs
  · rw [Nat.add_mul]
    omega
  · omega

theorem eq_of_nearestFloat {n f : ℕ} (hf : f < 2 ^ 53) (h : nearestFloat n = f) : n = f := by
  by_cases hsmall : n < 2 ^ 53
  · rwa [nearestFloat, if_pos hsmall] at h
  · have hle := le_nearestFloat (not_lt.mp hsmall)
    omega

theorem nearestFloat_ne_zero {n : ℕ} (h : n ≠ 0) : nearestFloat n ≠ 0 :=
  fun hzero => h (eq_of_nearestFloat (by norm_num) hzero)

/-- No other decimal reads back as a small number. -/
theorem shortestDecimal_of_lt {f : ℕ} (hf : f < 2 ^ 53) (k : ℕ) : shortestDecimal f k = f := by
  have hread : nearestFloat f = f := if_pos hf
  exact eq_of_nearestFloat hf (nearestFloat_shortestDecimal hread k)

/-- A natural number decoded as a float and encoded again. -/
def decimalOf (n : ℕ) : ℕ := shortestDecimal (nearestFloat n) (nearestFloat n).log2

theorem decimalOf_decimalOf (n : ℕ) : decimalOf (decimalOf n) = decimalOf n := by
  have hread : nearestFloat (decimalOf n) = nearestFloat n :=
    nearestFloat_shortestDecimal (nearestFloat_nearestFloat n) _
  rw [decimalOf, hread, ← decimalOf]

theorem throughFloat_eq (i : ℤ) : throughFloat i = i.sign * decimalOf i.natAbs := by
  rcases i with (_ | n) | n
  · decide
  · exact (one_mul _).symm
  · exact (neg_one_mul _).symm

theorem throughFloat_throughFloat (i : ℤ) : throughFloat (throughFloat i) = throughFloat i := by
  have hsign : (throughFloat i).sign = i.sign := by
    by_cases hi : i = 0
    · rw [hi]
      decide
    · have hpos : 0 < decimalOf i.natAbs := by
        refine Nat.pos_of_ne_zero fun hzero => ?_
        have hread := nearestFloat_shortestDecimal (nearestFloat_nearestFloat i.natAbs)
          (nearestFloat i.natAbs).log2
        rw [← decimalOf, hzero] at hread
        exact nearestFloat_ne_zero (Int.natAbs_ne_zero.mpr hi) hread.symm
      rw [throughFloat_eq, Int.sign_mul, Int.sign_sign, Int.sign_natCast_of_ne_zero hpos.ne',
        mul_one]
  rw [throughFloat_eq (throughFloat i), hsign, throughFloat_eq i, Int.natAbs_mul,
    Int.natAbs_natCast]
  by_cases hi : i = 0
  · rw [hi]
    rfl
  · rw [Int.natAbs_sign_of_ne_zero hi, one_mul, decimalOf_decimalOf]

/-- Integers of at most 53 bits stay the same. -/
theorem throughFloat_of_lt {i : ℤ} (h : i.natAbs < 2 ^ 53) : throughFloat i = i := by
  have hnearest : nearestFloat i.natAbs = i.natAbs := if_pos h
  rw [throughFloat_eq, decimalOf, hnearest, shortestDecimal_of_lt h, Int.sign_mul_natAbs]

mutual

/-- A tree decoded into untyped values and encoded again. -/
def Json.recoded : Json → Json
  | .int n => .int (throughFloat n)
  | .arr js => .arr (recodedList js)
  | .obj fields => .obj (recodedFields fields)
  | j => j

/-- The elements of an array, decoded and encoded again. -/
def recodedList : List Json → List Json
  | [] => []
  | j :: js => j.recoded :: recodedList js

/-- The fields of an object, decoded and encoded again. -/
def recodedFields : List (String × Json) → List (String × Json)
  | [] => []
  | (k, j) :: fields => (k, j.recoded) :: recodedFields fields

end

/-! ### Trees that stay the same -/

mutual

/-- The integers in a tree. -/
def Json.integers : Json → List ℤ
  | .int n => [n]
  | .arr js => integersList js
  | .obj fields => integersFields fields
  | _ => []

/-- The integers in the elements of an array. -/
def integersList : List Json → List ℤ
  | [] => []
  | j :: js => j.integers ++ integersList js

/-- The integers in the fields of an object. -/
def integersFields : List (String × Json) → List ℤ
  | [] => []
  | (_, j) :: fields => j.integers ++ integersFields fields

end

mutual

/-- **Trees that stay the same.** -/
theorem Json.recoded_eq_self_iff : ∀ j : Json,
    j.recoded = j ↔ ∀ n ∈ j.integers, throughFloat n = n
  | .null => by simp [recoded, integers]
  | .bool b => by simp [recoded, integers]
  | .int n => by simp [recoded, integers]
  | .frac half exp => by simp [recoded, integers]
  | .str s => by simp [recoded, integers]
  | .quoted j spelling => by simp [recoded, integers]
  | .time instant offset => by simp [recoded, integers]
  | .arr js => by simp [recoded, integers, recodedList_eq_self_iff js]
  | .obj fields => by simp [recoded, integers, recodedFields_eq_self_iff fields]

theorem recodedList_eq_self_iff : ∀ js : List Json,
    recodedList js = js ↔ ∀ n ∈ integersList js, throughFloat n = n
  | [] => by simp [recodedList, integersList]
  | j :: js => by
    simp [recodedList, integersList, Json.recoded_eq_self_iff j, recodedList_eq_self_iff js,
      or_imp, forall_and]

theorem recodedFields_eq_self_iff : ∀ fields : List (String × Json),
    recodedFields fields = fields ↔ ∀ n ∈ integersFields fields, throughFloat n = n
  | [] => by simp [recodedFields, integersFields]
  | (k, j) :: fields => by
    simp [recodedFields, integersFields, Json.recoded_eq_self_iff j,
      recodedFields_eq_self_iff fields, or_imp, forall_and]

end

mutual

theorem Json.integers_recoded : ∀ j : Json, j.recoded.integers = j.integers.map throughFloat
  | .null => rfl
  | .bool _ => rfl
  | .int _ => rfl
  | .frac _ _ => rfl
  | .str _ => rfl
  | .quoted _ _ => rfl
  | .time _ _ => rfl
  | .arr js => by rw [recoded, integers, integers, integersList_recodedList js]
  | .obj fields => by rw [recoded, integers, integers, integersFields_recodedFields fields]

theorem integersList_recodedList : ∀ js : List Json,
    integersList (recodedList js) = (integersList js).map throughFloat
  | [] => rfl
  | j :: js => by
    rw [recodedList, integersList, integersList, List.map_append, j.integers_recoded,
      integersList_recodedList js]

theorem integersFields_recodedFields : ∀ fields : List (String × Json),
    integersFields (recodedFields fields) = (integersFields fields).map throughFloat
  | [] => rfl
  | (k, j) :: fields => by
    rw [recodedFields, integersFields, integersFields, List.map_append, j.integers_recoded,
      integersFields_recodedFields fields]

end

/-- Numbers are changed once only. -/
theorem Json.recoded_recoded (j : Json) : j.recoded.recoded = j.recoded := by
  rw [recoded_eq_self_iff, integers_recoded, List.forall_mem_map]
  exact fun n _ => throughFloat_throughFloat n

theorem recodedFields_recodedFields (fields : List (String × Json)) :
    recodedFields (recodedFields fields) = recodedFields fields := by
  rw [recodedFields_eq_self_iff, integersFields_recodedFields, List.forall_mem_map]
  exact fun n _ => throughFloat_throughFloat n
