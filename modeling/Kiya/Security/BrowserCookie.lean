import Kiya.Lib.Base64
import Kiya.Lib.Strings

/-!
# The browser cookie

The part of `serveInternal` in `router.go` that marks a browser: a cookie has a random salt and a
tag, which is a MAC of the salt and the User-Agent with a colon between them. A cookie is accepted
if its tag is the one of its salt and the User-Agent it comes with.

HMAC is a parameter, and that it is ideal is a condition on a request and the ones before it: a tag
is right only for a text that was tagged for a new cookie. Even so the tag is not bound to a
User-Agent, for two reasons. An empty User-Agent counts as `unknown-ua`; and the salt is what the
cookie says, so that the colon may be another one: the tag for `bot:curl` is also the one for `curl`
with a longer salt. `Separate` says of the User-Agents in use that none of this can happen to them,
and it is just what is needed.

`net/http` hands over the value of a cookie only if it has no other characters than `IsCookieByte`.
-/

namespace Kiya.Security

open Hex List

/-! ### Requests -/

/-- `validCookieValueByte`. -/
def IsCookieByte (b : UInt8) : Prop := 32 ≤ b ∧ b < 127 ∧ b ≠ 34 ∧ b ≠ 59 ∧ b ≠ 92

instance : DecidablePred IsCookieByte := fun _ => inferInstanceAs (Decidable (_ ∧ _))

/-- The value of a cookie in a request. -/
abbrev CookieValue := {v : Bytes // ∀ b ∈ v, IsCookieByte b}

/-- HMAC with SHA-256. -/
abbrev Mac := (secret message : Bytes) → List.Vector UInt8 32

/-- What a request has to do with the cookie: its User-Agent, the cookie and the random bytes that
are drawn if a new one is made. -/
structure BrowserRequest where
  userAgent : Bytes
  cookie : Option CookieValue
  draw : List.Vector UInt8 16

/-- `browserID`, which is also the value of the cookie in the response, and `browserValid`. -/
structure BrowserMark where
  browserID : Bytes
  browserValid : Bool

/-- `.`. -/
def period : UInt8 := 46

/-- `:`. -/
def colon : UInt8 := 58

/-- The User-Agent as it is tagged. -/
def agentOf (userAgent : Bytes) : Bytes :=
  if userAgent = [] then utf8 "unknown-ua" else userAgent

section Serve

variable (mac : Mac) (secret : Bytes)

/-- `computeHMAC`. -/
def computeHMAC (userAgent salt : Bytes) : Bytes :=
  encode (mac secret (salt ++ colon :: agentOf userAgent)).toList

/-- Whether the value of a cookie is the one of a User-Agent. -/
def isValid (userAgent value : Bytes) : Bool :=
  match value.splitOn period with
  | [salt, sig] => salt ≠ [] ∧ sig ≠ [] ∧ sig = computeHMAC mac secret userAgent salt
  | _ => false

/-- The salt of a new cookie. -/
def BrowserRequest.newSalt (r : BrowserRequest) : Bytes := encode r.draw.toList

/-- The value of a new cookie. -/
def BrowserRequest.newValue (r : BrowserRequest) : Bytes :=
  r.newSalt ++ period :: computeHMAC mac secret r.userAgent r.newSalt

/-- What is done with a request. -/
def serveBrowser (r : BrowserRequest) : BrowserMark :=
  match r.cookie with
  | some v =>
    if v.1 ≠ [] ∧ isValid mac secret r.userAgent v.1 then ⟨v.1, true⟩
    else ⟨r.newValue mac secret, false⟩
  | none => ⟨r.newValue mac secret, false⟩

/-! ### The property -/

/-- The MAC is ideal for a request: if the tag of its cookie is right, the text was tagged for a new
cookie before. -/
def Ideal (past : List BrowserRequest) (r : BrowserRequest) : Prop :=
  ∀ v ∈ r.cookie, ∀ salt sig, v.1.splitOn period = [salt, sig] →
    sig = computeHMAC mac secret r.userAgent salt →
    ∃ r' ∈ past, (serveBrowser mac secret r').browserValid = false ∧
      salt ++ colon :: agentOf r.userAgent = r'.newSalt ++ colon :: agentOf r'.userAgent

/-- If a cookie is accepted, its tag has been in a response to the same User-Agent. -/
def BoundTo (past : List BrowserRequest) (r : BrowserRequest) : Prop :=
  (serveBrowser mac secret r).browserValid = true →
    ∃ v ∈ r.cookie, ∃ salt sig, v.1.splitOn period = [salt, sig] ∧
      ∃ r' ∈ past, r'.userAgent = r.userAgent ∧
        ∃ salt', (serveBrowser mac secret r').browserID = salt' ++ period :: sig

end Serve

/-- No User-Agent can be taken for another one: not both the empty one and its name are in use, and
none is another one after a colon, with something in front that fits into the salt of a cookie. -/
structure Separate (agents : Set Bytes) : Prop where
  unknown : ¬ ([] ∈ agents ∧ utf8 "unknown-ua" ∈ agents)
  no_tail : ∀ a ∈ agents, ∀ b ∈ agents, ∀ front : Bytes,
    (∀ c ∈ front, IsCookieByte c ∧ c ≠ period) → agentOf a ≠ front ++ colon :: agentOf b

/-! ### Accepted cookies -/

section Accept

variable {mac : Mac} {secret : Bytes}

theorem isValid_iff {userAgent value : Bytes} : isValid mac secret userAgent value = true ↔
    ∃ salt sig, value.splitOn period = [salt, sig] ∧ salt ≠ [] ∧ sig ≠ [] ∧
      sig = computeHMAC mac secret userAgent salt := by
  rw [isValid.eq_def]
  split
  · rename_i salt sig hsplit
    rw [decide_eq_true_iff, hsplit]
    constructor
    · exact fun h => ⟨salt, sig, rfl, h⟩
    · rintro ⟨salt', sig', heq, h⟩
      cases heq
      exact h
  · rename_i hsplit
    refine iff_of_false Bool.false_ne_true ?_
    rintro ⟨salt, sig, heq, -⟩
    exact hsplit salt sig heq

theorem isValid_nil (userAgent : Bytes) : isValid mac secret userAgent [] = false := rfl

variable {r : BrowserRequest} {userAgent salt a b : Bytes}

theorem serveBrowser_of_isValid {v : CookieValue} (hv : r.cookie = some v)
    (h : isValid mac secret r.userAgent v.1 = true) : serveBrowser mac secret r = ⟨v.1, true⟩ := by
  have hne : v.1 ≠ [] := by
    intro hnil
    rw [hnil, isValid_nil] at h
    cases h
  simp only [serveBrowser, hv]
  exact if_pos ⟨hne, h⟩

/-- Either the cookie is accepted or a new one is made. -/
theorem serveBrowser_cases (mac : Mac) (secret : Bytes) (r : BrowserRequest) :
    (∃ v, r.cookie = some v ∧ isValid mac secret r.userAgent v.1 = true ∧
      serveBrowser mac secret r = ⟨v.1, true⟩) ∨
    serveBrowser mac secret r = ⟨r.newValue mac secret, false⟩ := by
  cases hcookie : r.cookie with
  | none => exact .inr (by simp only [serveBrowser, hcookie])
  | some v =>
    by_cases h : isValid mac secret r.userAgent v.1 = true
    · exact .inl ⟨v, rfl, h, serveBrowser_of_isValid hcookie h⟩
    · right
      simp only [serveBrowser, hcookie]
      exact if_neg fun hand => h hand.2

theorem isCookieByte_of_mem_hex {b : UInt8} {bytes : Bytes} (h : b ∈ encode bytes) :
    IsCookieByte b ∧ b ≠ period ∧ b ≠ colon := by
  by_contra hnot
  have hdigit : ∀ d < 16, IsCookieByte (digit d) ∧ digit d ≠ period ∧ digit d ≠ colon := by
    decide
  refine notMem_encode (fun d hd heq => hnot ?_) bytes h
  rw [← heq]
  exact hdigit d hd

theorem hex_toList_ne_nil {n : ℕ} (hn : 0 < n) (draw : List.Vector UInt8 n) :
    encode draw.toList ≠ [] := by
  refine ne_nil_of_length_pos ?_
  rw [length_encode, draw.toList_length]
  exact Nat.mul_pos two_pos hn

/-- What can stand for a salt in a cookie. -/
structure IsSalt (salt : Bytes) : Prop where
  ne_nil : salt ≠ []
  isCookieByte : ∀ b ∈ salt, IsCookieByte b ∧ b ≠ period

theorem isSalt_newSalt (r : BrowserRequest) : IsSalt r.newSalt where
  ne_nil := hex_toList_ne_nil (by decide) r.draw
  isCookieByte _ hb := ⟨(isCookieByte_of_mem_hex hb).1, (isCookieByte_of_mem_hex hb).2.1⟩

/-- The cookie of a salt and a User-Agent. -/
def cookieOf (mac : Mac) (secret userAgent : Bytes) {salt : Bytes} (h : IsSalt salt) :
    CookieValue :=
  ⟨salt ++ period :: computeHMAC mac secret userAgent salt, by
    intro b hb
    rcases mem_append.mp hb with hb | hb
    · exact (h.isCookieByte b hb).1
    · rcases mem_cons.mp hb with rfl | hb
      · decide
      · exact (isCookieByte_of_mem_hex hb).1⟩

theorem splitOn_cookieOf (h : IsSalt salt) : (cookieOf mac secret userAgent h).1.splitOn period =
      [salt, computeHMAC mac secret userAgent salt] :=
  Strings.splitOn_eq_pair_iff.mpr ⟨rfl, fun hmem => (h.isCookieByte _ hmem).2 rfl,
    fun hmem => (isCookieByte_of_mem_hex hmem).2.1 rfl⟩

/-- It is accepted with the User-Agent. -/
theorem isValid_cookieOf (h : IsSalt salt) :
    isValid mac secret userAgent (cookieOf mac secret userAgent h).1 = true :=
  isValid_iff.mpr ⟨salt, _, splitOn_cookieOf h, h.ne_nil, hex_toList_ne_nil (by decide) _, rfl⟩

/-- **An issued cookie is accepted** with its User-Agent. -/
theorem serveBrowser_issued (r : BrowserRequest) :
    ∃ v : CookieValue, v.1 = (serveBrowser mac secret r).browserID ∧
      ∀ draw, serveBrowser mac secret ⟨r.userAgent, some v, draw⟩ = ⟨v.1, true⟩ := by
  rcases serveBrowser_cases mac secret r with ⟨v, -, hvalid, hserve⟩ | hserve
  · exact ⟨v, by rw [hserve], fun draw => serveBrowser_of_isValid rfl hvalid⟩
  · refine ⟨cookieOf mac secret r.userAgent (isSalt_newSalt r), by rw [hserve]; rfl, fun draw => ?_⟩
    exact serveBrowser_of_isValid rfl (isValid_cookieOf (isSalt_newSalt r))

/-! ### Binding -/

variable {agents : Set Bytes}

theorem agentOf_inj (h : Separate agents) (ha : a ∈ agents)
    (hb : b ∈ agents) (heq : agentOf a = agentOf b) : a = b := by
  unfold agentOf at heq
  split at heq
  · rename_i hnil
    subst hnil
    split at heq
    · rename_i hnil
      exact hnil.symm
    · exact absurd ⟨ha, heq ▸ hb⟩ h.unknown
  · split at heq
    · rename_i hnil
      subst hnil
      exact absurd ⟨hb, heq ▸ ha⟩ h.unknown
    · exact heq

/-- **The parts of a tagged text can be told apart** if the User-Agents are separate. -/
theorem agent_eq_of_append_eq (h : Separate agents) {a b salt salt' : Bytes}
    (ha : a ∈ agents) (hb : b ∈ agents) (hsalt : ∀ c ∈ salt, IsCookieByte c ∧ c ≠ period)
    (hsalt' : colon ∉ salt')
    (heq : salt ++ colon :: agentOf a = salt' ++ colon :: agentOf b) : salt = salt' ∧ a = b := by
  by_cases hcolon : colon ∈ salt
  · -- The colon is one of the User-Agent.
    obtain ⟨before, front, rfl, hbefore⟩ := eq_append_cons_of_mem hcolon
    rw [append_assoc, cons_append] at heq
    obtain ⟨-, hagent⟩ := Strings.append_mark_inj hbefore hsalt' heq
    refine absurd hagent.symm (h.no_tail b hb a ha front fun c hc => hsalt c ?_)
    exact mem_append_right _ (mem_cons_of_mem _ hc)
  · obtain ⟨hsalt, hagent⟩ := Strings.append_mark_inj hcolon hsalt' heq
    exact ⟨hsalt, agentOf_inj h ha hb hagent⟩

/-- Accepted cookies are bound if the User-Agents are separate. -/
theorem boundTo_of_separate (h : Separate agents) {past : List BrowserRequest}
    (hpast : ∀ r' ∈ past, r'.userAgent ∈ agents) (hr : r.userAgent ∈ agents)
    (hideal : Ideal mac secret past r) : BoundTo mac secret past r := by
  intro hvalid
  rcases serveBrowser_cases mac secret r with ⟨v, hv, hv', -⟩ | hserve
  · obtain ⟨salt, sig, hsplit, -, -, hsig⟩ := isValid_iff.mp hv'
    obtain ⟨r', hr', hnew, htext⟩ := hideal v hv salt sig hsplit hsig
    have hsalt : ∀ c ∈ salt, IsCookieByte c ∧ c ≠ period := by
      obtain ⟨hvalue, hperiod, -⟩ := Strings.splitOn_eq_pair_iff.mp hsplit
      refine fun c hc => ⟨v.2 c ?_, fun heq => hperiod (heq ▸ hc)⟩
      rw [hvalue]
      exact mem_append_left _ hc
    have hsalt' : colon ∉ r'.newSalt := fun hmem => (isCookieByte_of_mem_hex hmem).2.2 rfl
    obtain ⟨rfl, hagent⟩ := agent_eq_of_append_eq h hr (hpast r' hr') hsalt hsalt' htext
    refine ⟨v, hv, r'.newSalt, sig, hsplit, r', hr', hagent.symm, r'.newSalt, ?_⟩
    rcases serveBrowser_cases mac secret r' with ⟨_, _, _, hold⟩ | hserve
    · rw [hold] at hnew
      cases hnew
    · rw [hserve, hsig, hagent]
      rfl
  · rw [hserve] at hvalid
    cases hvalid

/-- A request without a cookie. -/
def withoutCookie (userAgent : Bytes) : BrowserRequest :=
  ⟨userAgent, none, List.Vector.replicate 16 0⟩

/-- **A tag can be moved to another User-Agent** if this leaves the tagged text as it is. -/
theorem exists_not_boundTo (mac : Mac) (secret : Bytes) (hab : a ≠ b) (hsalt : IsSalt salt)
    (htext : salt ++ colon :: agentOf b = (withoutCookie a).newSalt ++ colon :: agentOf a) :
    ∃ r : BrowserRequest, r.userAgent = b ∧ Ideal mac secret [withoutCookie a] r ∧
      (serveBrowser mac secret r).browserValid = true ∧
        ¬ BoundTo mac secret [withoutCookie a] r := by
  have hserve := serveBrowser_of_isValid (r := ⟨b, some (cookieOf mac secret b hsalt),
    List.Vector.replicate 16 0⟩) rfl (isValid_cookieOf hsalt)
  refine ⟨_, rfl, ?_, by rw [hserve], fun hbound => ?_⟩
  · rintro v ⟨⟩ salt' sig hsplit -
    rw [splitOn_cookieOf] at hsplit
    cases hsplit
    exact ⟨withoutCookie a, mem_singleton_self _, rfl, htext⟩
  · obtain ⟨-, -, -, -, -, r', hr', hagent, -⟩ := hbound (by rw [hserve])
    rw [mem_singleton.mp hr'] at hagent
    exact hab hagent

/-- The condition is needed. -/
theorem separate_of_boundTo
    (h : ∀ past r, (∀ r' ∈ past, r'.userAgent ∈ agents) → r.userAgent ∈ agents →
      Ideal mac secret past r → BoundTo mac secret past r) : Separate agents := by
  have hnot {a b salt : Bytes} (ha : a ∈ agents) (hb : b ∈ agents) (hab : a ≠ b)
      (hsalt : IsSalt salt)
      (htext : salt ++ colon :: agentOf b = (withoutCookie a).newSalt ++ colon :: agentOf a) :
      False := by
    obtain ⟨r, rfl, hideal, -, hbound⟩ := exists_not_boundTo mac secret hab hsalt htext
    exact hbound (h _ r (forall_mem_singleton.mpr ha) hb hideal)
  constructor
  · rintro ⟨hempty, hunknown⟩
    exact hnot hempty hunknown (by decide) (isSalt_newSalt (withoutCookie [])) rfl
  · intro a ha b hb front hfront hagent
    have hsalt := isSalt_newSalt (withoutCookie a)
    have hlonger : IsSalt ((withoutCookie a).newSalt ++ colon :: front) := by
      refine ⟨append_ne_nil_of_left_ne_nil hsalt.ne_nil _, fun c hc => ?_⟩
      rcases mem_append.mp hc with hc | hc
      · exact hsalt.isCookieByte c hc
      · rcases mem_cons.mp hc with rfl | hc
        · decide
        · exact hfront c hc
    refine hnot ha hb ?_ hlonger ?_
    · rintro rfl
      have hlength := congrArg List.length hagent
      rw [length_append, length_cons] at hlength
      omega
    · rw [hagent, append_assoc, cons_append]

end Accept

/-- **The binding of cookies to User-Agents.** With an ideal MAC every accepted cookie has a tag
that was issued to its User-Agent, if and only if the User-Agents in use are separate; and an issued
cookie is accepted with its User-Agent. -/
theorem boundTo_iff_separate (mac : Mac) (secret : Bytes) (agents : Set Bytes) :
    ((∀ past r, (∀ r' ∈ past, r'.userAgent ∈ agents) → r.userAgent ∈ agents →
      Ideal mac secret past r → BoundTo mac secret past r) ↔ Separate agents) ∧
    ∀ r : BrowserRequest, ∃ v : CookieValue, v.1 = (serveBrowser mac secret r).browserID ∧
      ∀ draw, serveBrowser mac secret ⟨r.userAgent, some v, draw⟩ = ⟨v.1, true⟩ :=
  ⟨⟨separate_of_boundTo, fun h _ _ => boundTo_of_separate h⟩, serveBrowser_issued⟩

/-- The cookie of `bot:curl` is made into one that is accepted with `curl`, and the one of
`unknown-ua` is accepted without a User-Agent. -/
theorem curl_not_boundTo :
    (∀ mac secret, ∃ r, r.userAgent = utf8 "curl" ∧
      Ideal mac secret [withoutCookie (utf8 "bot:curl")] r ∧
      (serveBrowser mac secret r).browserValid = true ∧
      ¬ BoundTo mac secret [withoutCookie (utf8 "bot:curl")] r) ∧
    ∀ mac secret, ∃ r, r.userAgent = [] ∧ Ideal mac secret [withoutCookie (utf8 "unknown-ua")] r ∧
      (serveBrowser mac secret r).browserValid = true ∧
      ¬ BoundTo mac secret [withoutCookie (utf8 "unknown-ua")] r := by
  constructor
  · intro mac secret
    have hsalt : IsSalt ((withoutCookie (utf8 "bot:curl")).newSalt ++ colon :: utf8 "bot") :=
      ⟨by decide +kernel, by decide +kernel⟩
    exact exists_not_boundTo mac secret (by decide) hsalt rfl
  · intro mac secret
    exact exists_not_boundTo mac secret (by decide)
      (isSalt_newSalt (withoutCookie (utf8 "unknown-ua"))) rfl

end Kiya.Security
