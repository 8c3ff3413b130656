import Kiya.Lib.Bytes

/-!
# Valid UTF-8

A text is a sequence of bytes, and need not be an encoding of characters. `Valid` says that it is
one, by the encodings of single characters (`isRune`); the first byte tells how long one is.
`toValid` is what an encoder does that writes valid texts only: each byte that belongs to no
character becomes the encoding of U+FFFD. It leaves a text alone if and only if it is valid, since
otherwise it gets longer. `decode` reads the characters of a text, where each byte that belongs to
none counts as U+FFFD; every list of characters is what some text decodes to.
-/

namespace Utf8

open List

/-- A byte that is not the first one of a character. -/
def isCont (b : UInt8) : Bool := 0x80 ≤ b ∧ b ≤ 0xbf

/-- What the second of three or four bytes may be, after the first one: no encoding is longer than
needed, none is a surrogate, and none is past the last character. -/
def isSecond (a b : UInt8) : Bool :=
  isCont b ∧ (a = 0xe0 → 0xa0 ≤ b) ∧ (a = 0xed → b ≤ 0x9f) ∧ (a = 0xf0 → 0x90 ≤ b) ∧
    (a = 0xf4 → b ≤ 0x8f)

/-- The encodings of single characters. -/
def isRune : Bytes → Bool
  | [a] => a < 0x80
  | [a, b] => 0xc2 ≤ a ∧ a ≤ 0xdf ∧ isCont b
  | [a, b, c] => 0xe0 ≤ a ∧ a ≤ 0xef ∧ isSecond a b ∧ isCont c
  | [a, b, c, d] => 0xf0 ≤ a ∧ a ≤ 0xf4 ∧ isSecond a b ∧ isCont c ∧ isCont d
  | _ => false

/-- How many bytes there are if this is the first one. -/
def lengthOf (a : UInt8) : ℕ :=
  if a < 0x80 then 1 else if a < 0xe0 then 2 else if a < 0xf0 then 3 else 4

/-- The encodings of texts. -/
inductive Valid : Bytes → Prop
  | nil : Valid []
  | append {r s : Bytes} : isRune r = true → Valid s → Valid (r ++ s)

/-- The encoding of U+FFFD. -/
def replacement : Bytes := [0xef, 0xbf, 0xbd]

/-- Replace what is not valid, in so many steps. -/
def toValidIn : ℕ → Bytes → Bytes
  | 0, _ => []
  | _ + 1, [] => []
  | n + 1, a :: s =>
    if isRune ((a :: s).take (lengthOf a)) then
      (a :: s).take (lengthOf a) ++ toValidIn n ((a :: s).drop (lengthOf a))
    else replacement ++ toValidIn n s

/-- Replace what is not valid. -/
def toValid (s : Bytes) : Bytes := toValidIn s.length s

/-- The number of the character with this encoding. -/
def code : Bytes → ℕ
  | [a] => a.toNat
  | [a, b] => 64 * (a.toNat % 32) + b.toNat % 64
  | [a, b, c] => 64 * (64 * (a.toNat % 16) + b.toNat % 64) + c.toNat % 64
  | [a, b, c, d] => 64 * (64 * (64 * (a.toNat % 8) + b.toNat % 64) + c.toNat % 64) + d.toNat % 64
  | _ => 0

/-- The characters of a text, in so many steps. -/
def decodeIn : ℕ → Bytes → List Char
  | 0, _ => []
  | _ + 1, [] => []
  | n + 1, a :: s =>
    if isRune ((a :: s).take (lengthOf a)) then
      Char.ofNat (code ((a :: s).take (lengthOf a))) :: decodeIn n ((a :: s).drop (lengthOf a))
    else Char.ofNat 0xfffd :: decodeIn n s

/-- The characters of a text; a byte that belongs to no character is U+FFFD. -/
def decode (s : Bytes) : List Char := decodeIn s.length s

/-- The encoding of the character with this number. -/
def encodeCode (n : ℕ) : Bytes :=
  if n < 0x80 then [UInt8.ofNat n]
  else if n < 0x800 then [UInt8.ofNat (0xc0 + n / 64), UInt8.ofNat (0x80 + n % 64)]
  else if n < 0x10000 then
    [UInt8.ofNat (0xe0 + n / 4096), UInt8.ofNat (0x80 + n / 64 % 64), UInt8.ofNat (0x80 + n % 64)]
  else
    [UInt8.ofNat (0xf0 + n / 262144), UInt8.ofNat (0x80 + n / 4096 % 64),
      UInt8.ofNat (0x80 + n / 64 % 64), UInt8.ofNat (0x80 + n % 64)]

/-- The encoding of a text. -/
def encode (text : List Char) : Bytes := text.flatMap fun c => encodeCode c.toNat

/-! ### Characters -/

theorem lengthOf_pos (a : UInt8) : 0 < lengthOf a := by
  unfold lengthOf
  split_ifs <;> decide

variable {a : UInt8} {r s : Bytes} {n : ℕ}

theorem length_of_isRune (h : isRune (a :: r) = true) : (a :: r).length = lengthOf a := by
  rcases r with _ | ⟨b, _ | ⟨c, _ | ⟨d, _ | ⟨e, r⟩⟩⟩⟩
  · grind [isRune, lengthOf]
  · grind [isRune, lengthOf]
  · grind [isRune, lengthOf]
  · grind [isRune, lengthOf]
  · cases h

/-- The first byte tells where the first character ends. -/
theorem take_append_of_isRune (h : isRune (a :: r) = true) :
    (a :: r ++ s).take (lengthOf a) = a :: r ∧ (a :: r ++ s).drop (lengthOf a) = s := by
  rw [← length_of_isRune h]
  exact ⟨take_left, drop_left⟩

theorem Valid.cons_iff : Valid (a :: s) ↔
    isRune ((a :: s).take (lengthOf a)) = true ∧ Valid ((a :: s).drop (lengthOf a)) := by
  constructor
  · intro h
    generalize htext : a :: s = text at h
    cases h with
    | nil => cases htext
    | @append r t hr ht =>
      obtain _ | ⟨b, r⟩ := r
      · cases hr
      · obtain ⟨rfl, rfl⟩ := List.cons.inj htext
        obtain ⟨htake, hdrop⟩ := take_append_of_isRune (s := t) hr
        rw [htake, hdrop]
        exact ⟨hr, ht⟩
  · rintro ⟨hr, hs⟩
    rw [← take_append_drop (lengthOf a) (a :: s)]
    exact .append hr hs

/-! ### Replacing -/

/-- What is left alone is valid, and anything else gets longer. -/
theorem toValidIn_cases (hn : s.length ≤ n) :
    (Valid s ∧ toValidIn n s = s) ∨ (¬ Valid s ∧ s.length < (toValidIn n s).length) := by
  induction n generalizing s with
  | zero =>
    obtain rfl := length_eq_zero_iff.mp (Nat.le_zero.mp hn)
    exact .inl ⟨.nil, rfl⟩
  | succ n ih =>
    obtain _ | ⟨a, s⟩ := s
    · exact .inl ⟨.nil, rfl⟩
    have hpos := lengthOf_pos a
    rw [length_cons] at hn
    rw [Valid.cons_iff, toValidIn]
    by_cases hr : isRune ((a :: s).take (lengthOf a)) = true
    · rw [if_pos hr]
      have hdrop : ((a :: s).drop (lengthOf a)).length ≤ n := by
        rw [length_drop, length_cons]
        omega
      rcases ih hdrop with ⟨hvalid, heq⟩ | ⟨hvalid, hlt⟩
      · rw [heq, take_append_drop]
        exact .inl ⟨⟨hr, hvalid⟩, rfl⟩
      · refine .inr ⟨fun h => hvalid h.2, ?_⟩
        calc (a :: s).length
          _ = ((a :: s).take (lengthOf a)).length + ((a :: s).drop (lengthOf a)).length := by
            rw [← length_append, take_append_drop]
          _ < _ := by rw [length_append]; exact Nat.add_lt_add_left hlt _
    · rw [if_neg hr]
      refine .inr ⟨fun h => hr h.1, ?_⟩
      have hle : s.length ≤ (toValidIn n s).length := by
        rcases ih (Nat.le_of_succ_le_succ hn) with ⟨-, heq⟩ | ⟨-, hlt⟩
        · rw [heq]
        · exact hlt.le
      have hlength : replacement.length = 3 := rfl
      rw [length_append, length_cons, hlength]
      omega

/-- **Valid texts are left alone, and only they.** -/
theorem toValid_eq_self_iff : toValid s = s ↔ Valid s := by
  rcases toValidIn_cases (le_refl s.length) with ⟨hvalid, heq⟩ | ⟨hvalid, hlt⟩
  · exact iff_of_true heq hvalid
  · refine iff_of_false (fun heq => ?_) hvalid
    exact hlt.ne (congrArg List.length heq).symm

instance : DecidablePred Valid := fun _ => decidable_of_iff _ toValid_eq_self_iff

/-- The result is valid. -/
theorem valid_toValid (s : Bytes) : Valid (toValid s) := by
  have hall (n : ℕ) (s : Bytes) : Valid (toValidIn n s) := by
    induction n generalizing s with
    | zero => exact .nil
    | succ n ih =>
      obtain _ | ⟨a, s⟩ := s
      · exact .nil
      rw [toValidIn]
      by_cases hr : isRune ((a :: s).take (lengthOf a)) = true
      · rw [if_pos hr]
        exact .append hr (ih _)
      · rw [if_neg hr]
        exact .append (by decide) (ih _)
  exact hall _ s

/-! ### Decoding -/

/-- More steps than bytes change nothing. -/
theorem decodeIn_eq_decode (h : s.length ≤ n) : decodeIn n s = decode s := by
  have hsteps (m n : ℕ) (s : Bytes) (hm : s.length ≤ m) (hn : s.length ≤ n) :
      decodeIn m s = decodeIn n s := by
    induction m generalizing n s with
    | zero =>
      obtain rfl := length_eq_zero_iff.mp (Nat.le_zero.mp hm)
      cases n <;> rfl
    | succ m ih =>
      obtain _ | ⟨a, s⟩ := s
      · cases n <;> rfl
      obtain _ | n := n
      · cases hn
      have hdrop (k : ℕ) (hk : (a :: s).length ≤ k + 1) :
          ((a :: s).drop (lengthOf a)).length ≤ k := by
        have hpos := lengthOf_pos a
        rw [length_drop]
        omega
      rw [decodeIn, decodeIn, ih n _ (hdrop m hm) (hdrop n hn),
        ih n s (Nat.le_of_succ_le_succ hm) (Nat.le_of_succ_le_succ hn)]
  exact hsteps n s.length s h le_rfl

theorem decode_rune_append (h : isRune r = true) :
    decode (r ++ s) = Char.ofNat (code r) :: decode s := by
  obtain _ | ⟨a, r⟩ := r
  · cases h
  obtain ⟨htake, hdrop⟩ := take_append_of_isRune (s := s) h
  rw [← decodeIn_eq_decode (Nat.le_succ (a :: r ++ s).length), cons_append, decodeIn,
    ← cons_append, htake, hdrop, if_pos h]
  refine congrArg _ (decodeIn_eq_decode ?_)
  rw [length_append]
  exact Nat.le_add_left _ _

theorem decode_append (h : Valid r) : decode (r ++ s) = decode r ++ decode s := by
  induction h with
  | nil => rfl
  | append hr _ ih =>
    rw [append_assoc, decode_rune_append hr, decode_rune_append hr, ih, cons_append]

theorem Valid.append_valid (hr : Valid r) (hs : Valid s) : Valid (r ++ s) := by
  induction hr with
  | nil => exact hs
  | append hrune _ ih =>
    rw [append_assoc]
    exact .append hrune ih

/-! ### Encoding -/

theorem exists_byte {m : ℕ} (h : m < 256) : ∃ a : UInt8, UInt8.ofNat m = a ∧ a.toNat = m :=
  ⟨_, rfl, UInt8.toNat_ofNat_of_lt' h⟩

/-- Every character has an encoding, from which its number can be told. -/
theorem rune_encodeCode (h : n.isValidChar) :
    isRune (encodeCode n) = true ∧ code (encodeCode n) = n := by
  unfold encodeCode
  by_cases h₁ : n < 0x80
  · obtain ⟨a, ea, ha⟩ := exists_byte (show n < 256 by omega)
    rw [if_pos h₁, ea]
    simp [isRune, code, UInt8.lt_iff_toNat_lt, ha, h₁]
  rw [if_neg h₁]
  by_cases h₂ : n < 0x800
  · obtain ⟨a, ea, ha⟩ := exists_byte (show 0xc0 + n / 64 < 256 by omega)
    obtain ⟨b, eb, hb⟩ := exists_byte (show 0x80 + n % 64 < 256 by omega)
    rw [if_pos h₂, ea, eb]
    simp [isRune, isCont, code, UInt8.le_iff_toNat_le]
    omega
  rw [if_neg h₂]
  by_cases h₃ : n < 0x10000
  · obtain ⟨a, ea, ha⟩ := exists_byte (show 0xe0 + n / 4096 < 256 by omega)
    obtain ⟨b, eb, hb⟩ := exists_byte (show 0x80 + n / 64 % 64 < 256 by omega)
    obtain ⟨c, ec, hc⟩ := exists_byte (show 0x80 + n % 64 < 256 by omega)
    rw [if_pos h₃, ea, eb, ec]
    simp [isRune, isSecond, isCont, code, UInt8.le_iff_toNat_le, ← UInt8.toNat_inj]
    omega
  · obtain ⟨a, ea, ha⟩ := exists_byte (show 0xf0 + n / 262144 < 256 by omega)
    obtain ⟨b, eb, hb⟩ := exists_byte (show 0x80 + n / 4096 % 64 < 256 by omega)
    obtain ⟨c, ec, hc⟩ := exists_byte (show 0x80 + n / 64 % 64 < 256 by omega)
    obtain ⟨d, ed, hd⟩ := exists_byte (show 0x80 + n % 64 < 256 by omega)
    rw [if_neg h₃, ea, eb, ec, ed]
    simp [isRune, isSecond, isCont, code, UInt8.le_iff_toNat_le, ← UInt8.toNat_inj]
    omega

theorem decode_encode (text : List Char) : decode (encode text) = text := by
  induction text with
  | nil => rfl
  | cons c text ih =>
    obtain ⟨hrune, hcode⟩ := rune_encodeCode (n := c.toNat) c.valid
    rw [encode, flatMap_cons, decode_rune_append hrune, hcode, Char.ofNat_toNat]
    exact congrArg _ ih

end Utf8
