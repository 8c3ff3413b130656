import Kiya.Lib.Bytes

/-!
# Bytes as text

The hexadecimal digits of bytes, and base 64 with the alphabet for URLs: three bytes are four
characters of six bits each, and one or two bytes at the end are two or three. The reader of base 64
takes texts without padding; it skips line ends and ignores the bits of the last character that do
not make a byte.
-/

/-! ### Hexadecimal -/

namespace Hex

open List

/-- The digit of a value below 16. -/
def digit (d : ℕ) : UInt8 := UInt8.ofNat (if d < 10 then 48 + d else 87 + d)

/-- Two digits for each byte. -/
def encode (bytes : Bytes) : Bytes :=
  bytes.flatMap fun b => [digit (b.toNat / 16), digit (b.toNat % 16)]

theorem length_encode (bytes : Bytes) : (encode bytes).length = 2 * bytes.length := by
  induction bytes with
  | nil => rfl
  | cons b bytes ih =>
    rw [encode, flatMap_cons, length_append, ← encode, ih, length_cons,
      length_cons, length_cons, length_nil]
    omega

/-- No digit is one of the other characters. -/
theorem notMem_encode {b : UInt8} (hb : ∀ d < 16, digit d ≠ b) (bytes : Bytes) :
    b ∉ encode bytes := by
  intro h
  obtain ⟨byte, -, hmem⟩ := mem_flatMap.mp h
  have hlt := byte.toNat_lt
  rcases mem_pair.mp hmem with heq | heq
  · exact hb _ (Nat.div_lt_of_lt_mul hlt) heq.symm
  · exact hb _ (Nat.mod_lt _ (by norm_num)) heq.symm

end Hex

/-! ### Base 64 -/

namespace Base64

open List

/-- The character of a value below 64. -/
def char (v : ℕ) : UInt8 :=
  if v < 26 then UInt8.ofNat (65 + v)
  else if v < 52 then UInt8.ofNat (71 + v)
  else if v < 62 then UInt8.ofNat (v - 4)
  else if v = 62 then 45
  else 95

/-- The value of a character. -/
def value (c : UInt8) : Option ℕ :=
  if 65 ≤ c ∧ c ≤ 90 then some (c.toNat - 65)
  else if 97 ≤ c ∧ c ≤ 122 then some (c.toNat - 71)
  else if 48 ≤ c ∧ c ≤ 57 then some (c.toNat + 4)
  else if c = 45 then some 62
  else if c = 95 then some 63
  else none

/-- Without padding. -/
def encodeRaw : Bytes → Bytes
  | [] => []
  | [a] => [char (a.toNat / 4), char (a.toNat % 4 * 16)]
  | [a, b] =>
    [char (a.toNat / 4), char (a.toNat % 4 * 16 + b.toNat / 16), char (b.toNat % 16 * 4)]
  | a :: b :: c :: rest =>
    char (a.toNat / 4) :: char (a.toNat % 4 * 16 + b.toNat / 16) ::
      char (b.toNat % 16 * 4 + c.toNat / 64) :: char (c.toNat % 64) :: encodeRaw rest

/-- With padding. -/
def encode (bytes : Bytes) : Bytes :=
  encodeRaw bytes ++ List.replicate ((3 - bytes.length % 3) % 3) 61

/-- The bytes of the values of the characters. -/
def bytesOf : List ℕ → Option Bytes
  | [] => some []
  | [_] => none
  | [w, x] => some [UInt8.ofNat (w * 4 + x / 16)]
  | [w, x, y] => some [UInt8.ofNat (w * 4 + x / 16), UInt8.ofNat (x % 16 * 16 + y / 4)]
  | w :: x :: y :: z :: rest =>
    (bytesOf rest).map fun bytes =>
      UInt8.ofNat (w * 4 + x / 16) :: UInt8.ofNat (x % 16 * 16 + y / 4) ::
        UInt8.ofNat (y % 4 * 64 + z) :: bytes

/-- Read a text without padding. -/
def decodeRaw (s : Bytes) : Option Bytes :=
  ((s.filter fun c => c ≠ 10 ∧ c ≠ 13).mapM value).bind bytesOf

/-! ### Round trip -/

theorem value_char : ∀ v < 64, value (char v) = some v := by decide

theorem char_ne_lineEnd : ∀ v < 64, char v ≠ 10 ∧ char v ≠ 13 := by decide

/-- The values of the characters of some bytes. -/
def valuesOf : Bytes → List ℕ
  | [] => []
  | [a] => [a.toNat / 4, a.toNat % 4 * 16]
  | [a, b] => [a.toNat / 4, a.toNat % 4 * 16 + b.toNat / 16, b.toNat % 16 * 4]
  | a :: b :: c :: rest =>
    a.toNat / 4 :: (a.toNat % 4 * 16 + b.toNat / 16) :: (b.toNat % 16 * 4 + c.toNat / 64) ::
      c.toNat % 64 :: valuesOf rest

theorem encodeRaw_eq (bytes : Bytes) : encodeRaw bytes = (valuesOf bytes).map char := by
  fun_induction valuesOf bytes with
  | case1 | case2 | case3 => rfl
  | case4 a b c rest ih => rw [encodeRaw, ih]; rfl

theorem valuesOf_lt (bytes : Bytes) : ∀ v ∈ valuesOf bytes, v < 64 := by
  fun_induction valuesOf bytes with
  | case1 => exact nofun
  | case2 a =>
    have ha := a.toNat_lt
    simp only [forall_mem_cons, not_mem_nil, false_implies, implies_true, and_true]
    omega
  | case3 a b =>
    have ha := a.toNat_lt
    have hb := b.toNat_lt
    simp only [forall_mem_cons, not_mem_nil, false_implies, implies_true, and_true]
    omega
  | case4 a b c rest ih =>
    have ha := a.toNat_lt
    have hb := b.toNat_lt
    have hc := c.toNat_lt
    simp only [forall_mem_cons]
    exact ⟨by omega, by omega, by omega, by omega, ih⟩

/-- A byte is made of what its two characters have of it. -/
theorem ofNat_eq {a : UInt8} {n : ℕ} (h : n = a.toNat) : UInt8.ofNat n = a := by
  rw [h, UInt8.ofNat_toNat]

theorem bytesOf_valuesOf (bytes : Bytes) : bytesOf (valuesOf bytes) = some bytes := by
  fun_induction valuesOf bytes with
  | case1 => rfl
  | case2 a => rw [bytesOf, ofNat_eq (a := a) (by omega)]
  | case3 a b =>
    have hb := b.toNat_lt
    rw [bytesOf, ofNat_eq (a := a) (by omega), ofNat_eq (a := b) (by omega)]
  | case4 a b c rest ih =>
    have hb := b.toNat_lt
    have hc := c.toNat_lt
    rw [bytesOf, ih, ofNat_eq (a := a) (by omega), ofNat_eq (a := b) (by omega),
      ofNat_eq (a := c) (by omega), Option.map_some]

/-- **Bytes are read back.** -/
theorem decodeRaw_encodeRaw (bytes : Bytes) : decodeRaw (encodeRaw bytes) = some bytes := by
  have hfilter : (encodeRaw bytes).filter (fun c => c ≠ 10 ∧ c ≠ 13) = encodeRaw bytes := by
    refine filter_eq_self.mpr fun c hc => ?_
    rw [encodeRaw_eq] at hc
    obtain ⟨v, hv, rfl⟩ := mem_map.mp hc
    exact decide_eq_true (char_ne_lineEnd v (valuesOf_lt bytes v hv))
  have hvalues {vs : List ℕ} (hvs : ∀ v ∈ vs, v < 64) : (vs.map char).mapM value = some vs := by
    induction vs with
    | nil => rfl
    | cons v vs ih =>
      rw [forall_mem_cons] at hvs
      rw [map_cons, mapM_cons, value_char v hvs.1, ih hvs.2]
      rfl
  rw [decodeRaw, hfilter, encodeRaw_eq, hvalues (valuesOf_lt bytes), Option.bind_some,
    bytesOf_valuesOf]

variable {bytes : Bytes}

/-- The text is longer than the bytes. -/
theorem length_lt_encodeRaw (h : bytes ≠ []) : bytes.length < (encodeRaw bytes).length := by
  fun_induction encodeRaw bytes with
  | case1 => exact absurd rfl h
  | case2 a => exact Nat.lt_succ_self 1
  | case3 a b => exact Nat.lt_succ_self 2
  | case4 a b c rest ih =>
    simp only [length_cons]
    by_cases hrest : rest = []
    · rw [hrest]
      decide
    · have hlt := ih hrest
      omega

theorem encodeRaw_ne_nil (h : bytes ≠ []) : encodeRaw bytes ≠ [] := by
  fun_cases encodeRaw bytes with
  | case1 => exact absurd rfl h
  | case2 | case3 | case4 => exact cons_ne_nil _ _

theorem encode_ne_nil (h : bytes ≠ []) : encode bytes ≠ [] :=
  append_ne_nil_of_left_ne_nil (encodeRaw_ne_nil h) _

/-- No character is one outside of the alphabet. -/
theorem notMem_encode {b : UInt8} (hb : ∀ v < 64, char v ≠ b) (hpad : b ≠ 61) (bytes : Bytes) :
    b ∉ encode bytes := by
  intro h
  rcases mem_append.mp h with hraw | hrest
  · rw [encodeRaw_eq] at hraw
    obtain ⟨v, hv, heq⟩ := mem_map.mp hraw
    exact hb v (valuesOf_lt bytes v hv) heq
  · exact hpad (eq_of_mem_replicate hrest)

end Base64
