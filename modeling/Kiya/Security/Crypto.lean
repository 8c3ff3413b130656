import Kiya.Security.Session

/-!
# Encryption and CSRF tokens

`internal/security/crypto.go`, and `EncryptID` and `DecryptID` of `context.go`. AES-GCM is a
parameter, `Gcm`, of which the results assume that it opens what it has sealed with the same key and
nonce; base 64 is the one of the library. A key of another length than 16, 24 or 32 bytes is refused
by `aes.NewCipher`. Times are those of `time.Now().Unix()`, and the difference of two of them wraps
around.

A token is the encrypted text `id|time`, where the identity of a session is its ID or, while it has
none, what is stored under `_t`. The text is split at the first separator, so that a token whose
identity contains one is not accepted at all: what is left behind it is no number.
-/

namespace Kiya.Security

open Numeral List Option

/-! ### Encryption -/

/-- AES-GCM, for each key. -/
structure Gcm where
  sealWith : (key nonce plaintext : Bytes) → Bytes
  openWith : (key nonce ciphertext : Bytes) → Option Bytes

/-- What was sealed is opened. -/
def Gcm.Correct (G : Gcm) : Prop :=
  ∀ key nonce plaintext, G.openWith key nonce (G.sealWith key nonce plaintext) = some plaintext

/-- The lengths of keys that `aes.NewCipher` takes. -/
def IsAesKey (key : Bytes) : Prop := key.length = 16 ∨ key.length = 24 ∨ key.length = 32

instance : DecidablePred IsAesKey := fun _ => inferInstanceAs (Decidable (_ ∨ _))

/-- `gcm.NonceSize()`. -/
def nonceSize : ℕ := 12

/-- `Encrypt`, with the nonce that it draws; none is an error. -/
def encrypt (G : Gcm) (nonce : List.Vector UInt8 nonceSize) (plaintext key : Bytes) :
    Option Bytes :=
  if key.length = 0 then none
  else if ¬ IsAesKey key then none
  else some (Base64.encodeRaw (nonce.toList ++ G.sealWith key nonce.toList plaintext))

/-- `Decrypt`; none is an error. -/
def decrypt (G : Gcm) (encoded key : Bytes) : Option Bytes :=
  if key.length = 0 then none
  else
    match Base64.decodeRaw encoded with
    | none => none
    | some data =>
      if ¬ IsAesKey key then none
      else if data.length < nonceSize then none
      else G.openWith key (data.take nonceSize) (data.drop nonceSize)

variable {key token : Bytes}

theorem IsAesKey.length_ne_zero (h : IsAesKey key) : key.length ≠ 0 := by
  rcases h with h | h | h <;> rw [h] <;> decide

variable {G : Gcm} {nonce : List.Vector UInt8 nonceSize}

theorem isSome_encrypt_iff {plaintext key : Bytes} :
    (encrypt G nonce plaintext key).isSome ↔ IsAesKey key := by
  rw [encrypt]
  by_cases h : IsAesKey key
  · rw [if_neg h.length_ne_zero, if_neg (not_not.mpr h)]
    exact iff_of_true rfl h
  · rw [if_pos h, ite_self]
    exact iff_of_false Bool.false_ne_true h

/-- **What was encrypted is decrypted**, and is not empty. -/
theorem decrypt_of_encrypt (hG : G.Correct) {plaintext key encoded : Bytes}
    (h : encrypt G nonce plaintext key = some encoded) :
    decrypt G encoded key = some plaintext ∧ encoded ≠ [] ∧ key.length ≠ 0 := by
  have hkey : IsAesKey key := isSome_encrypt_iff.mp (by rw [h]; rfl)
  rw [encrypt, if_neg hkey.length_ne_zero, if_neg (not_not.mpr hkey), some_inj] at h
  have hlength : nonce.toList.length = nonceSize := nonce.toList_length
  refine ⟨?_, ?_, hkey.length_ne_zero⟩
  · rw [decrypt, if_neg hkey.length_ne_zero, ← h, Base64.decodeRaw_encodeRaw]
    simp only [if_neg (not_not.mpr hkey)]
    rw [if_neg, take_left' hlength, drop_left' hlength, hG]
    rw [length_append, hlength]
    exact not_lt.mpr (Nat.le_add_right _ _)
  · rw [← h]
    refine Base64.encodeRaw_ne_nil fun hnil => ?_
    rw [append_eq_nil_iff] at hnil
    rw [hnil.1] at hlength
    exact absurd hlength (by decide)

/-! ### Tokens -/

/-- An `int64`. -/
abbrev I64 := {t : ℤ // -2 ^ 63 ≤ t ∧ t < 2 ^ 63}

/-- The difference of two `int64`. -/
def sub64 (a b : ℤ) : ℤ := (a - b).bmod (2 ^ 64)

/-- `|`. -/
def bar : UInt8 := 124

variable {V : Type} [GoAny V]

/-- `%v`, of an `any`. -/
def sprintAny (val : Option V) : Bytes :=
  match val with
  | none => utf8 "<nil>"
  | some v => GoAny.sprint v

/-- What a token is bound to: the ID of the session, or what is stored under `_t`. -/
def Session.identity (s : Session V) : Bytes :=
  if s.raw.id = [] then sprintAny (s.get tKey) else s.raw.id

/-- `GenerateCSRFToken`, with the nonce that is drawn. -/
def generateCSRFToken (G : Gcm) (nonce : List.Vector UInt8 nonceSize) (session : Option (Session V))
    (key : Bytes) (now : I64) : Option Bytes :=
  if key.length = 0 then none
  else
    match session with
    | none => none
    | some s => encrypt G nonce (s.identity ++ bar :: formatInt now) key

/-- `strings.SplitN(s, "|", 2)`, if there are two parts. -/
def splitBar (s : Bytes) : Option (Bytes × Bytes) :=
  match s.span (· ≠ bar) with
  | (_, []) => none
  | (before, _ :: after) => some (before, after)

/-- `VerifyCSRFToken`. -/
def verifyCSRFToken (G : Gcm) (token : Bytes) (session : Option (Session V)) (key : Bytes)
    (now : I64) : Bool :=
  if key.length = 0 ∨ token = [] then false
  else
    match session with
    | none => false
    | some s =>
      match decrypt G token key with
      | none => false
      | some plaintext =>
        match splitBar plaintext with
        | none => false
        | some (tokenSessionID, timestampStr) =>
          if tokenSessionID ≠ s.identity then false
          else
            match parseInt 64 timestampStr with
            | .value timestamp =>
              let elapsed := sub64 now timestamp
              ¬ (elapsed < 0 ∨ 7200 < elapsed)
            | _ => false

/-! ### Encrypted IDs -/

/-- `EncryptID`. -/
def encryptID (G : Gcm) (nonce : List.Vector UInt8 nonceSize) (id : I64) (key : Bytes) :
    Option Bytes :=
  encrypt G nonce (formatInt id) key

/-- What `DecryptID` is to decrypt: its first argument, or else the `id` of the request. -/
def idText (encoded : List Bytes) (param : Bytes) : Bytes :=
  if encoded.headD [] = [] then param else encoded.headD []

/-- `DecryptID`; none is an error. -/
def decryptID (G : Gcm) (encoded : List Bytes) (param key : Bytes) : Option ℤ :=
  if idText encoded param = [] then none
  else
    match decrypt G (idText encoded param) key with
    | none => none
    | some str =>
      match parseInt 64 str with
      | .value id => some id
      | _ => none

/-! ### Separators -/

theorem not_isNumeralByte_bar : ¬ IsNumeralByte bar := by
  rintro (h | h | h)
  · exact absurd h (by decide)
  · exact absurd h (by decide)
  · exact absurd h (by decide)

theorem bar_notMem_formatInt (i : ℤ) : bar ∉ formatInt i := fun h =>
  not_isNumeralByte_bar (isNumeralByte_of_mem_formatInt _ h)

variable {s : Bytes} {now : I64}

theorem splitBar_of_notMem (h : bar ∉ s) : splitBar s = none := by
  have hall : ∀ b ∈ s, decide (b ≠ bar) = true := fun b hb =>
    decide_eq_true fun heq => h (heq ▸ hb)
  rw [splitBar, span_eq_takeWhile_dropWhile, dropWhile_eq_nil_iff.mpr hall]

/-- The text is split at its first separator. -/
theorem splitBar_append {before : Bytes} (after : Bytes) (h : bar ∉ before) :
    splitBar (before ++ bar :: after) = some (before, after) := by
  have hall : ∀ b ∈ before, decide (b ≠ bar) = true := fun b hb =>
    decide_eq_true fun heq => h (heq ▸ hb)
  rw [splitBar, span_eq_takeWhile_dropWhile, takeWhile_append_of_pos hall,
    dropWhile_append_of_pos hall, takeWhile_cons_of_neg (by simp),
    dropWhile_cons_of_neg (by simp), append_nil]

/-- A text with a separator is no number. -/
theorem parseInt_of_mem (h : bar ∈ s) (i : ℤ) : parseInt 64 s ≠ .value i :=
  fun hvalue => not_isNumeralByte_bar (isNumeralByte_of_parseInt hvalue bar h)

/-- The text is split within an identity that has a separator, which leaves no number behind. -/
theorem splitBar_of_mem {id : Bytes} (rest : Bytes) (h : bar ∈ id) :
    ∃ before after, splitBar (id ++ bar :: rest) = some (before, after) ∧
      ∀ i, parseInt 64 after ≠ .value i := by
  obtain ⟨first, second, rfl, hfirst⟩ := eq_append_cons_of_mem h
  refine ⟨first, second ++ bar :: rest, ?_, fun i => parseInt_of_mem ?_ i⟩
  · rw [append_assoc, cons_append, splitBar_append _ hfirst]
  · exact mem_append_right _ mem_cons_self

/-! ### Which tokens are accepted -/

theorem sub64_eq {a b : ℤ} (hlow : -2 ^ 63 ≤ a - b) (hhigh : a - b < 2 ^ 63) : sub64 a b = a - b :=
  Int.bmod_eq_of_le (by norm_num; omega) (by norm_num; omega)

/-- What a token is made of. -/
theorem generateCSRFToken_some {s : Session V}
    (h : generateCSRFToken G nonce (some s) key now = some token) :
    encrypt G nonce (s.identity ++ bar :: formatInt now) key = some token := by
  rw [generateCSRFToken] at h
  split at h
  · cases h
  · exact h

theorem isSome_generateCSRFToken (G : Gcm) (nonce : List.Vector UInt8 nonceSize) (s : Session V)
    (now : I64) (hkey : IsAesKey key) : (generateCSRFToken G nonce (some s) key now).isSome := by
  rw [generateCSRFToken, if_neg hkey.length_ne_zero]
  exact isSome_encrypt_iff.mpr hkey

/-- Verification, once the text of the token is known. -/
theorem verifyCSRFToken_eq (hG : G.Correct) {plaintext key token : Bytes}
    (h : encrypt G nonce plaintext key = some token) (s : Session V) (now : I64) :
    verifyCSRFToken G token (some s) key now = true ↔
      ∃ timestampStr timestamp, splitBar plaintext = some (s.identity, timestampStr) ∧
        parseInt 64 timestampStr = .value timestamp ∧
        0 ≤ sub64 now timestamp ∧ sub64 now timestamp ≤ 7200 := by
  obtain ⟨hdecrypt, htoken, hkey⟩ := decrypt_of_encrypt hG h
  rw [verifyCSRFToken, if_neg (not_or.mpr ⟨hkey, htoken⟩), hdecrypt]
  cases hsplit : splitBar plaintext with
  | none => simp [hsplit]
  | some parts =>
    obtain ⟨before, after⟩ := parts
    by_cases hid : before = s.identity
    · subst hid
      cases hparse : parseInt 64 after with
      | value | syntaxError | rangeError => simp [hsplit, hparse]
    · simp [hsplit, hid]

/-- **A token is accepted** for a session of the same identity, unless that has a separator, and for
two hours. -/
theorem verifyCSRFToken_generate (hG : G.Correct) {A : Session V} {t₀ t₁ : I64}
    (hlow : -2 ^ 63 ≤ t₁.1 - t₀.1) (hhigh : t₁.1 - t₀.1 < 2 ^ 63)
    (h : generateCSRFToken G nonce (some A) key t₀ = some token) (B : Session V) :
    verifyCSRFToken G token (some B) key t₁ = true ↔
      A.identity = B.identity ∧ bar ∉ A.identity ∧ 0 ≤ t₁.1 - t₀.1 ∧ t₁.1 - t₀.1 ≤ 7200 := by
  rw [verifyCSRFToken_eq hG (generateCSRFToken_some h)]
  by_cases hbar : bar ∈ A.identity
  · obtain ⟨before, after, hsplit, hparse⟩ := splitBar_of_mem (formatInt t₀) hbar
    refine iff_of_false ?_ fun hacc => hacc.2.1 hbar
    rintro ⟨timestampStr, timestamp, hsplit', hvalue, -⟩
    rw [hsplit, some_inj, Prod.mk.injEq] at hsplit'
    exact hparse timestamp (hsplit'.2 ▸ hvalue)
  · have hparse : parseInt 64 (formatInt t₀) = .value t₀.1 := parseInt_formatInt t₀.2.1 t₀.2.2
    rw [splitBar_append _ hbar]
    constructor
    · rintro ⟨timestampStr, timestamp, hsplit, hvalue, helapsed⟩
      rw [some_inj, Prod.mk.injEq] at hsplit
      rw [← hsplit.2, hparse, Parsed.value.injEq] at hvalue
      rw [← hvalue, sub64_eq hlow hhigh] at helapsed
      exact ⟨hsplit.1, hbar, helapsed⟩
    · rintro ⟨hid, -, helapsed⟩
      refine ⟨formatInt t₀, t₀, by rw [hid], hparse, ?_⟩
      rwa [sub64_eq hlow hhigh]

/-- An encrypted ID has no separator and is no token. -/
theorem verifyCSRFToken_encryptID (hG : G.Correct)
    {id : I64} (h : encryptID G nonce id key = some token) (s : Option (Session V)) (now : I64) :
    verifyCSRFToken G token s key now = false := by
  cases s with
  | none => rw [verifyCSRFToken, ite_self]
  | some s =>
    rw [← Bool.not_eq_true, verifyCSRFToken_eq hG h, splitBar_of_notMem (bar_notMem_formatInt _)]
    rintro ⟨_, _, hsplit, _⟩
    cases hsplit

/-- A token has a separator and is no encrypted ID. -/
theorem decryptID_generate (hG : G.Correct) {s : Session V} {key token param : Bytes}
    {encoded : List Bytes} (h : generateCSRFToken G nonce (some s) key now = some token)
    (htext : idText encoded param = token) : decryptID G encoded param key = none := by
  obtain ⟨hdecrypt, htoken, -⟩ := decrypt_of_encrypt hG (generateCSRFToken_some h)
  rw [decryptID, htext, if_neg htoken, hdecrypt]
  have hbar : bar ∈ s.identity ++ bar :: formatInt now := mem_append_right _ mem_cons_self
  cases hparse : parseInt 64 (s.identity ++ bar :: formatInt now) with
  | value i => exact absurd hparse (parseInt_of_mem hbar i)
  | syntaxError | rangeError => simp [hparse]

/-- **Tokens are accepted exactly when they should be**, and are never mistaken for encrypted IDs,
nor those for tokens. With a key that AES takes there is a token. -/
theorem tokens_exact (G : Gcm) (hG : G.Correct) (key : Bytes) :
    (∀ (nonce : List.Vector UInt8 nonceSize) (A B : Session V) (t₀ t₁ : I64) (token : Bytes),
      0 ≤ t₀.1 → 0 ≤ t₁.1 → generateCSRFToken G nonce (some A) key t₀ = some token →
      (verifyCSRFToken G token (some B) key t₁ = true ↔
        A.identity = B.identity ∧ bar ∉ A.identity ∧ 0 ≤ t₁.1 - t₀.1 ∧ t₁.1 - t₀.1 ≤ 7200)) ∧
    (∀ (nonce : List.Vector UInt8 nonceSize) (id : I64) (encoded : Bytes),
      encryptID G nonce id key = some encoded →
      ∀ (s : Option (Session V)) (now : I64), verifyCSRFToken G encoded s key now = false) ∧
    (∀ (nonce : List.Vector UInt8 nonceSize) (s : Session V) (now : I64) (token : Bytes),
      generateCSRFToken G nonce (some s) key now = some token →
      ∀ (encoded : List Bytes) (param : Bytes), idText encoded param = token →
        decryptID G encoded param key = none) ∧
    (IsAesKey key → ∀ (nonce : List.Vector UInt8 nonceSize) (s : Session V) (now : I64),
      (generateCSRFToken G nonce (some s) key now).isSome) :=
  ⟨fun _ _ B t₀ t₁ _ h₀ h₁ h => verifyCSRFToken_generate hG
      (by have := t₀.2.2; omega) (by have := t₁.2.2; omega) h B,
    fun _ _ _ h s now => verifyCSRFToken_encryptID hG h s now,
    fun _ _ _ _ h _ _ htext => decryptID_generate hG h htext,
    fun hkey _ _ _ => isSome_generateCSRFToken _ _ _ _ hkey⟩

/-- A cipher that writes key and nonce before the text, and opens nothing else. -/
def framing : Gcm where
  sealWith key nonce plaintext := key ++ nonce ++ plaintext
  openWith key nonce ciphertext :=
    if key ++ nonce <+: ciphertext then some (ciphertext.drop (key ++ nonce).length) else none

theorem framing_correct : framing.Correct := by
  intro key nonce plaintext
  simp only [framing, prefix_append, if_true, drop_left]

/-- A session with an ID. -/
def visitor : Session Bytes := newSession ⟨utf8 "c0ffee", ∅, 3600, false⟩

/-- Twelve bytes for a nonce. -/
def nonceZero : List.Vector UInt8 nonceSize := List.Vector.replicate nonceSize 0

/-- A token of the second 100 is good until the second 7300. -/
theorem visitor_tokens_exact :
    ∃ token, generateCSRFToken framing nonceZero (some visitor) (utf8 "0123456789abcdef")
        ⟨100, by decide⟩ = some token ∧
      verifyCSRFToken framing token (some visitor) (utf8 "0123456789abcdef") ⟨7300, by decide⟩ =
        true ∧
      ¬ verifyCSRFToken framing token (some visitor) (utf8 "0123456789abcdef")
        ⟨7301, by decide⟩ = true ∧
      decryptID framing [token] [] (utf8 "0123456789abcdef") = none := by
  obtain ⟨accepted, -, notID, token⟩ :=
    tokens_exact (V := Bytes) framing framing_correct (utf8 "0123456789abcdef")
  obtain ⟨token, htoken⟩ := isSome_iff_exists.mp
    (token (by decide) nonceZero visitor ⟨100, by decide⟩)
  refine ⟨token, htoken, ?_, ?_, notID _ _ _ _ htoken _ _ ?_⟩
  · exact (accepted _ _ _ _ _ _ (by decide) (by decide) htoken).mpr (by decide)
  · rw [accepted _ _ _ _ _ _ (by decide) (by decide) htoken]
    decide
  · rw [idText, if_neg]
    · rfl
    · exact (decrypt_of_encrypt framing_correct (generateCSRFToken_some htoken)).2.1

end Kiya.Security
