import Kiya.Security.SessionStore

/-!
# From one request to the next

A token is issued in one request and verified in the next one of the same visitor. It is bound to
the identity of the session, the ID or else what is stored under `_t`, and the two requests agree on
the identity unless the ID comes or goes between them. With the cookie store it goes: the ID that
`RegenerateID` draws is not saved. With the Redis store it comes: a session that is saved for the
first time gets an ID after the handler has run, and a token that was issued before is bound to
`_t`. So a token is accepted if nothing was regenerated, in the one store, and if the session was
stored before or regenerated, in the other.

A visit is both requests with their times, in a state that earlier requests have left behind; the
random draws are apart, since a token has to be accepted for all of them.
-/

namespace Kiya.Security

open Kiya.Security.Session RedisStore Hex CookieStore List Option

/-! ### Instants -/

/-- A time whose second is an `int64`. -/
abbrev Instant := {t : ℤ // -2 ^ 63 ≤ t / second ∧ t / second < 2 ^ 63}

/-- `Unix`. -/
def Instant.unix (t : Instant) : I64 := ⟨t.1 / second, t.2⟩

/-- Two instants that are at most two hours apart are so in seconds. -/
theorem Instant.unix_sub {t₀ t₁ : Instant} (hle : t₀.1 ≤ t₁.1)
    (hhours : t₁.1 ≤ t₀.1 + 7200 * second) :
    0 ≤ t₁.unix.1 - t₀.unix.1 ∧ t₁.unix.1 - t₀.unix.1 ≤ 7200 := by
  simp only [Instant.unix, second] at *
  omega

/-! ### What the handler may do -/

variable {V : Type}

/-- The calls with which a token is to survive: all but those that remove the values, and `_t` is
not deleted. -/
def Op.Allowed : Op V → Prop
  | .delete key => key ≠ tKey
  | .setMaxAge age => 0 < age
  | .clear | .destroy => False
  | .set _ _ | .regenerateID | .flash _ _ | .getFlash _ => True

/-- What a call stores under `_t`. -/
def Op.setT : Op V → Option (Option V)
  | .set key val => if key = tKey then some val else none
  | _ => none

/-- What the last of the calls that do so stores under `_t`. -/
def lastT : List (Op V) → Option (Option V)
  | [] => none
  | op :: ops => (lastT ops).or op.setT

/-- Whether a call changes a session: only a message that is not there can be read without. -/
def Op.Changes (values : Values V) : Op V → Prop
  | .getFlash key => flashKey key ∈ values
  | _ => True

variable {s : Session V} {draw : List.Vector UInt8 32} {op : Op V} {ops : List (Op V)}
  {draws : ℕ → List.Vector UInt8 32}

theorem Session.get_apply (h : op.Allowed) :
    (s.apply draw op).get tKey = op.setT.getD (s.get tKey) := by
  cases op with
  | set key val =>
    rw [apply, Op.setT]
    split
    · rename_i hkey
      rw [hkey]
      exact s.get_set_self tKey val
    · rename_i hkey
      exact s.get_set_of_ne val (Ne.symm hkey)
  | delete key => exact s.get_delete_of_ne (Ne.symm h)
  | clear | destroy => exact h.elim
  | regenerateID | setMaxAge => rfl
  | flash key val => exact s.get_set_of_ne val (flashKey_ne key).symm
  | getFlash key =>
    rw [apply, getFlash]
    split
    · rfl
    · exact s.get_delete_of_ne (flashKey_ne key).symm

theorem Session.get_applyAll (h : ∀ op ∈ ops, op.Allowed) :
    (s.applyAll ops draws).get tKey = (lastT ops).getD (s.get tKey) := by
  induction ops generalizing s draws with
  | nil => rfl
  | cons op ops ih =>
    rw [forall_mem_cons] at h
    rw [applyAll, ih h.2, get_apply h.1, lastT]
    cases lastT ops <;> rfl

theorem Session.maxAge_apply (h : op.Allowed) (hs : 0 < s.raw.maxAge) :
    0 < (s.apply draw op).raw.maxAge := by
  cases op with
  | clear | destroy => exact h.elim
  | setMaxAge age => exact h
  | getFlash key =>
    rw [apply, getFlash]
    split
    · exact hs
    · exact hs
  | _ => exact hs

theorem Session.maxAge_applyAll (h : ∀ op ∈ ops, op.Allowed) (hs : 0 < s.raw.maxAge) :
    0 < (s.applyAll ops draws).raw.maxAge := by
  induction ops generalizing s draws with
  | nil => exact hs
  | cons op ops ih =>
    rw [forall_mem_cons] at h
    exact ih h.2 (maxAge_apply h.1 hs)

/-- A call that changes nothing leaves the session as it is. -/
theorem Session.apply_of_not_changes (h : ¬ op.Changes s.raw.values) : s.apply draw op = s := by
  cases op with
  | getFlash key =>
    rw [apply, getFlash, AList.lookup_eq_none.mpr h]
  | _ => exact absurd trivial h

theorem Session.dirty_apply_of_changes (h : op.Changes s.raw.values) :
    (s.apply draw op).dirty = true := by
  cases op with
  | getFlash key =>
    obtain ⟨val, hval⟩ := isSome_iff_exists.mp (AList.lookup_isSome.mpr h)
    rw [apply, getFlash, hval]
    rfl
  | _ => rfl

theorem Session.dirty_applyAll (hs : s.dirty = true) : (s.applyAll ops draws).dirty = true := by
  induction ops generalizing s draws with
  | nil => exact hs
  | cons op ops ih =>
    by_cases hop : op.Changes s.raw.values
    · exact ih (dirty_apply_of_changes hop)
    · rw [applyAll, apply_of_not_changes hop]
      exact ih hs

/-- **A session is dirty** after calls of which one changes it. -/
theorem Session.dirty_applyAll_of_changes (h : ∃ op ∈ ops, op.Changes s.raw.values) :
    (s.applyAll ops draws).dirty = true := by
  induction ops generalizing draws with
  | nil =>
    obtain ⟨op, hop, -⟩ := h
    cases hop
  | cons op ops ih =>
    by_cases hop : op.Changes s.raw.values
    · rw [applyAll]
      exact dirty_applyAll (dirty_apply_of_changes hop)
    · rw [applyAll, apply_of_not_changes hop]
      refine ih ?_
      obtain ⟨other, hother, hchanges⟩ := h
      rcases mem_cons.mp hother with rfl | hmem
      · exact absurd hchanges hop
      · exact ⟨other, hmem, hchanges⟩

/-- And is as it was after calls of which none does. -/
theorem Session.applyAll_of_not_changes (h : ¬ ∃ op ∈ ops, op.Changes s.raw.values) :
    s.applyAll ops draws = s := by
  induction ops generalizing draws with
  | nil => rfl
  | cons op ops ih =>
    rw [applyAll, apply_of_not_changes fun hop => h ⟨op, mem_cons_self, hop⟩]
    refine ih ?_
    rintro ⟨other, hother, hchanges⟩
    exact h ⟨other, mem_cons_of_mem _ hother, hchanges⟩

/-! ### Visits -/

section Visits

variable [GoAny V]

/-- A request in which a token is issued, and the next one. -/
structure Visit (S : Store V) where
  state : S.State
  reachable : S.Reachable state
  cookie : Option S.Cookie
  ops : List (Op V)
  allowed : ∀ op ∈ ops, op.Allowed
  /-- When the session is set up, the token issued and the session saved. -/
  (arrives issues saves : Instant)
  /-- When the next request sets up its session and verifies the token. -/
  (returns verifies : Instant)
  arrives_le : arrives.1 ≤ issues.1
  issues_le : issues.1 ≤ saves.1
  saves_le : saves.1 ≤ returns.1
  returns_le : returns.1 ≤ verifies.1
  /-- A token is good for two hours. -/
  verifies_le : verifies.1 ≤ issues.1 + 7200 * second

/-- The random bytes of the two requests. -/
structure Draws where
  token : List.Vector UInt8 16
  ids : ℕ → List.Vector UInt8 32
  newId : List.Vector UInt8 32
  nonce : List.Vector UInt8 nonceSize
  nextToken : List.Vector UInt8 16

open Draws

/-- No random bytes at all. -/
def Draws.zero : Draws where
  token := List.Vector.replicate _ 0
  ids _ := List.Vector.replicate _ 0
  newId := List.Vector.replicate _ 0
  nonce := List.Vector.replicate _ 0
  nextToken := List.Vector.replicate _ 0

namespace Visit

variable {S : Store V} (v : Visit S) (d : Draws) (G : Gcm) (key : Bytes)

/-- The session as it is stored. -/
def loaded : Session V := newSession (S.new v.state v.arrives v.cookie)

/-- The session when the token is issued. -/
def session : Session V := (setUp S v.state v.arrives v.cookie d.token).applyAll v.ops d.ids

/-- The token. -/
def token : Option Bytes :=
  generateCSRFToken G d.nonce (some (v.session d)) key v.issues.unix

/-- What the request leaves behind, and the cookie that it sends. -/
def after : S.State × Option (SetCookie S.Cookie) :=
  finish S v.state v.saves d.newId (v.session d)

/-- The session of the next request. -/
def nextSession : Session V :=
  setUp S (v.after d).1 v.returns (carried v.cookie (v.after d).2) d.nextToken

/-- The token is accepted in the next request. -/
def Accepted : Prop :=
  ∀ token ∈ v.token d G key,
    verifyCSRFToken G token (some (v.nextSession d)) key v.verifies.unix = true

/-- The session is changed and will be saved. -/
def Changed : Prop :=
  v.loaded.get tKey = none ∨ ∃ op ∈ v.ops, op.Changes v.loaded.raw.values

/-! ### The session of the first request -/

/-- **A token is accepted** if the next request has the same identity, without a separator. -/
theorem accepted_iff {G : Gcm} (hG : G.Correct) {key : Bytes} (hkey : IsAesKey key) :
    v.Accepted d G key ↔
      (v.session d).identity = (v.nextSession d).identity ∧ bar ∉ (v.session d).identity := by
  obtain ⟨token, htoken⟩ := isSome_iff_exists.mp
    (isSome_generateCSRFToken G d.nonce (v.session d) v.issues.unix hkey)
  obtain ⟨hlow, hhigh⟩ := Instant.unix_sub (v.issues_le.trans (v.saves_le.trans v.returns_le))
    v.verifies_le
  have hlow' : -2 ^ 63 ≤ v.verifies.unix.1 - v.issues.unix.1 := by omega
  have hhigh' : v.verifies.unix.1 - v.issues.unix.1 < 2 ^ 63 := by omega
  have hverify := verifyCSRFToken_generate hG hlow' hhigh' htoken (v.nextSession d)
  rw [Accepted, Visit.token, htoken]
  constructor
  · intro h
    obtain ⟨hid, hbar, -⟩ := hverify.mp (h token rfl)
    exact ⟨hid, hbar⟩
  · rintro ⟨hid, hbar⟩ token ⟨⟩
    exact hverify.mpr ⟨hid, hbar, hlow, hhigh⟩

theorem session_get : (v.session d).get tKey = (lastT v.ops).getD
      (some ((v.loaded.get tKey).getD (GoAny.str (encode d.token.toList)))) := by
  rw [session, get_applyAll v.allowed, setUp, withToken_get]
  rfl

theorem session_id_of_notMem (h : .regenerateID ∉ v.ops) :
    (v.session d).raw.id = v.loaded.raw.id := by
  rw [session, id_applyAll_of_notMem h, setUp, withToken_id]
  rfl

theorem session_id_of_mem (h : .regenerateID ∈ v.ops) :
    ∃ n, (v.session d).raw.id = encode (d.ids n).toList :=
  id_applyAll_of_mem h

theorem dirty_of_changed (h : v.Changed) : (v.session d).dirty = true := by
  rw [session, setUp, withToken]
  cases hget : (newSession (S.new v.state v.arrives v.cookie)).get tKey with
  | none => exact dirty_applyAll rfl
  | some x =>
    rcases h with hnone | hops
    · exact absurd (hget.symm.trans hnone) (some_ne_none x)
    · exact dirty_applyAll_of_changes hops

theorem session_of_not_changed (h : ¬ v.Changed) : v.session d = v.loaded := by
  rw [session, setUp, withToken]
  cases hget : (newSession (S.new v.state v.arrives v.cookie)).get tKey with
  | none => exact absurd (.inl hget) h
  | some x => exact applyAll_of_not_changes fun hops => h (.inr hops)

theorem session_maxAge (h : 0 < v.loaded.raw.maxAge) : 0 < (v.session d).raw.maxAge := by
  refine maxAge_applyAll v.allowed ?_
  rwa [setUp, withToken_maxAge]

/-- The next request after one that has saved its session. -/
theorem nextSession_of_changed (h : v.Changed) {state : S.State} {sent : SetCookie S.Cookie}
    (hsave : S.save v.state v.saves d.newId (v.session d).raw = some (state, sent))
    (hage : 0 ≤ sent.maxAge) :
    v.nextSession d = setUp S state v.returns (some sent.value) d.nextToken := by
  have hafter : v.after d = (state, some sent) := by
    rw [after, finish, if_pos (v.dirty_of_changed d h), hsave]
  rw [nextSession, hafter, carried, if_neg (not_lt.mpr hage)]

/-- And after one that has not. -/
theorem nextSession_of_not_changed (h : ¬ v.Changed) :
    v.nextSession d = setUp S v.state v.returns v.cookie d.nextToken := by
  have hafter : v.after d = (v.state, none) := by
    rw [after, v.session_of_not_changed d h]
    rfl
  rw [nextSession, hafter]
  rfl

/-! ### Identities -/

theorem identity_of_id_eq (h : s.raw.id = []) : s.identity = sprintAny (s.get tKey) := if_pos h

theorem identity_of_id_ne (h : s.raw.id ≠ []) : s.identity = s.raw.id := if_neg h

/-- Of two values, one is not a given one. -/
theorem exists_ne_of_ne {α β : Type} {f : α → β} {a b : α} (h : f a ≠ f b) (y : β) :
    ∃ c, f c ≠ y := by
  by_cases ha : f a = y
  · exact ⟨b, fun hb => h (ha.trans hb.symm)⟩
  · exact ⟨a, ha⟩

/-- A draw whose text is not a given one. -/
theorem exists_hex_ne {n : ℕ} (hn : n ≠ 0) (text : Bytes) :
    ∃ draw : List.Vector UInt8 n, encode draw.toList ≠ text := by
  refine exists_ne_of_ne (f := fun draw : List.Vector UInt8 n => encode draw.toList)
    (a := List.Vector.replicate n 0) (b := List.Vector.replicate n 1) (fun h => ?_) text
  obtain ⟨m, rfl⟩ := Nat.exists_eq_succ_of_ne_zero hn
  have hsecond : some (digit 0) = some (digit 1) := congrArg (fun s : Bytes => s[1]?) h
  exact absurd hsecond (by decide)

theorem exists_base64_ne (text : Bytes) :
    ∃ draw : List.Vector UInt8 32, Base64.encode draw.toList ≠ text :=
  exists_ne_of_ne (f := fun draw : List.Vector UInt8 32 => Base64.encode draw.toList)
    (a := List.Vector.replicate 32 0) (b := List.Vector.replicate 32 255) (by decide +kernel) text

/-! ### The cookie store -/

section Cookie

variable {C : Codec V} {maxAge : ℤ}

/-- The next request finds the values that the first one has left. -/
theorem cookie_next (hC : C.Persists) (hage : 0 < maxAge) (v : Visit (cookieStore C maxAge))
    (d : Draws) : (v.nextSession d).raw.id = [] ∧ (v.nextSession d).get tKey =
      some (((v.session d).get tKey).getD (GoAny.str (encode d.nextToken.toList))) := by
  refine ⟨(withToken_id _ _).trans (new_id _), ?_⟩
  by_cases hchanged : v.Changed
  · obtain ⟨text, hencode, hdecode⟩ := hC (v.session d).raw.values
    have hpos : 0 < (v.session d).raw.maxAge :=
      v.session_maxAge d (lt_of_lt_of_eq hage (new_maxAge v.cookie).symm)
    rw [v.nextSession_of_changed d hchanged (cookieStore_save hencode _ _ _) hpos.le, setUp_cookie,
      withToken_get, new_of_decode hdecode]
    rfl
  · rw [v.nextSession_of_not_changed d hchanged, v.session_of_not_changed d hchanged, setUp,
      withToken_get]
    rfl

/-- What is stored under `_t` in the end is not nil and prints without a separator. -/
def TokenPlain (v : Visit (cookieStore C maxAge)) : Prop :=
  ∀ val ∈ (lastT v.ops).or (v.loaded.get tKey |>.map some), ∃ x ∈ val, bar ∉ GoAny.sprint x

theorem tokenPlain_iff (v : Visit (cookieStore C maxAge)) (d : Draws) :
    v.TokenPlain ↔ ∃ x ∈ (v.session d).get tKey, bar ∉ GoAny.sprint x := by
  rw [TokenPlain, v.session_get d]
  cases lastT v.ops with
  | some val => simp
  | none =>
    cases v.loaded.get tKey with
    | some x => simp
    | none => simp [GoAny.sprint_str, bar_notMem_hex]

theorem sprintAny_none_ne (draw : List.Vector UInt8 16) :
    sprintAny (none : Option V) ≠ encode draw.toList := by
  intro h
  have hlength := congrArg List.length h
  rw [length_encode, draw.toList_length] at hlength
  have hfive : 5 = 32 := hlength
  exact absurd hfive (by decide)

/-- The identity is what is under `_t`, as long as no ID is drawn. -/
theorem cookie_accepted_of_notMem {G : Gcm} (hG : G.Correct) {key : Bytes} (hkey : IsAesKey key)
    (hC : C.Persists) (hage : 0 < maxAge) (v : Visit (cookieStore C maxAge))
    (h : .regenerateID ∉ v.ops) (d : Draws) : v.Accepted d G key ↔ v.TokenPlain := by
  obtain ⟨hid, hget⟩ := cookie_next hC hage v d
  have hid₀ : (v.session d).raw.id = [] := (v.session_id_of_notMem d h).trans (new_id _)
  rw [v.accepted_iff d hG hkey, identity_of_id_eq hid, identity_of_id_eq hid₀, hget,
    v.tokenPlain_iff d]
  cases (v.session d).get tKey with
  | some x => simp [sprintAny]
  | none =>
    refine iff_of_false (fun hacc => sprintAny_none_ne (V := V) d.nextToken ?_) (by simp)
    exact hacc.1.trans (GoAny.sprint_str _)

/-- The ID that was drawn is not the one of the next request. -/
theorem cookie_not_accepted_of_mem {G : Gcm} (hG : G.Correct) {key : Bytes} (hkey : IsAesKey key)
    (hC : C.Persists) (hage : 0 < maxAge) (v : Visit (cookieStore C maxAge))
    (h : .regenerateID ∈ v.ops) : ∃ d, ¬ v.Accepted d G key := by
  -- what is under `_t` does not depend on the bytes that are drawn for IDs
  obtain ⟨draw, hdraw⟩ := exists_hex_ne (n := 32) (by decide) (v.nextSession zero).identity
  let d : Draws := { zero with ids := fun _ => draw }
  refine ⟨d, fun hacc => hdraw ?_⟩
  obtain ⟨hid, hget⟩ := cookie_next hC hage v d
  obtain ⟨hid₀, hget₀⟩ := cookie_next hC hage v zero
  obtain ⟨n, hn⟩ := v.session_id_of_mem d h
  have hne : (v.session d).raw.id ≠ [] := hn ▸ hex_ne_nil (by decide) draw
  have hidentity := ((v.accepted_iff d hG hkey).mp hacc).1
  rw [identity_of_id_ne hne, hn, identity_of_id_eq hid, hget, v.session_get d] at hidentity
  rwa [identity_of_id_eq hid₀, hget₀, v.session_get zero]

/-- **With the cookie store**, tokens are accepted if no ID is drawn and `_t` is plain. -/
theorem cookie_accepted_iff {G : Gcm} (hG : G.Correct) {key : Bytes} (hkey : IsAesKey key)
    (hC : C.Persists) (hage : 0 < maxAge) (v : Visit (cookieStore C maxAge)) :
    (∀ d, v.Accepted d G key) ↔ .regenerateID ∉ v.ops ∧ v.TokenPlain := by
  by_cases h : .regenerateID ∈ v.ops
  · obtain ⟨d, hd⟩ := cookie_not_accepted_of_mem hG hkey hC hage v h
    exact iff_of_false (fun hacc => hd (hacc d)) fun hacc => hacc.1 h
  · have hacc := cookie_accepted_of_notMem hG hkey hC hage v h
    constructor
    · intro hall
      exact ⟨h, (hacc zero).mp (hall zero)⟩
    · exact fun hplain d => (hacc d).mpr hplain.2

end Cookie

/-! ### The Redis store -/

section Redis

variable {S : Serializer V} {maxAge : ℤ}

/-- The session was stored before. -/
def Stored (v : Visit (redisStore S maxAge)) : Prop := v.loaded.raw.isNew = false

/-- The record is there when the next request looks for it: the one that is saved, or else the one
that is not saved again. -/
def Lasts (v : Visit (redisStore S maxAge)) : Prop :=
  (v.Changed → ∀ e ∈ expiry v.saves (expiration maxAge), v.returns.1 < e) ∧
    (¬ v.Changed → ∀ id ∈ v.cookie, ∀ r ∈ v.state (sessionKey id), r.Live v.returns)

theorem loaded_redis (v : Visit (redisStore S maxAge)) :
    v.loaded = newSession (new S maxAge v.state v.arrives v.cookie) := rfl

/-- A session that is found has the ID as its identity, a new one has what is drawn for `_t`. -/
theorem setUp_identity {db : Records S.Data} {id : Bytes} {r : Record S.Data}
    (hr : db (sessionKey id) = some r) (hid : id ≠ []) (hdata : (S.deserialize r.data).isSome)
    (now : ℤ) (draw : List.Vector UInt8 16) :
    (setUp (redisStore S maxAge) db now (some id) draw).identity =
      if r.Live now then id else encode draw.toList := by
  have hload := load_of_eq now hr
  rw [setUp_redis]
  split
  · rename_i hlive
    obtain ⟨values, hvalues⟩ := isSome_iff_exists.mp hdata
    rw [if_pos hlive, hvalues] at hload
    rw [new_of_load hload, identity_of_id_ne, withToken_id]
    · rfl
    · rwa [withToken_id]
  · rename_i hlive
    rw [if_neg hlive] at hload
    rw [new_of_load_none hload, identity_of_id_eq, withToken_get]
    · exact GoAny.sprint_str _
    · rw [withToken_id]
      rfl

/-- The next request after one that has saved the session. -/
theorem redis_next_of_changed (hS : S.Persists) (hage : 0 < maxAge)
    (v : Visit (redisStore S maxAge)) (d : Draws) (h : v.Changed) :
    (v.nextSession d).identity =
      if ∀ e ∈ expiry v.saves (expiration maxAge), v.returns.1 < e then
        savedId d.newId (v.session d).raw.id
      else encode d.nextToken.toList := by
  obtain ⟨data, hdata, hsome⟩ := hS (v.session d).raw.values
  have hpos : 0 < (v.session d).raw.maxAge :=
    v.session_maxAge d (lt_of_lt_of_eq hage (new_maxAge v.cookie).symm)
  have hid : (v.session d).raw.id = [] ∨ IsId (v.session d).raw.id := by
    refine id_applyAll ?_
    rw [setUp_redis, withToken_id]
    exact (named_of_reachable v.reachable).new_id _ _
  rw [v.nextSession_of_changed d h (save_of_serialize hpos hdata _) hpos.le]
  exact setUp_identity (Function.update_self _ _ _) (isId_savedId _ hid).1 hsome _ _

/-- And after one that has not: the session was stored before. -/
theorem redis_next_of_not_changed (v : Visit (redisStore S maxAge)) (d : Draws) (h : ¬ v.Changed) :
    ∃ id r, v.cookie = some id ∧ v.state (sessionKey id) = some r ∧ IsId id ∧
      v.loaded.raw.id = id ∧ v.Stored ∧
      (v.nextSession d).identity =
        if r.Live v.returns then id else encode d.nextToken.toList := by
  have hnew : (new S maxAge v.state v.arrives v.cookie).isNew = false := by
    by_contra hnew
    rw [Bool.not_eq_false] at hnew
    refine h (.inl ?_)
    rw [loaded_redis, eq_of_isNew hnew]
    rfl
  obtain ⟨id, values, hcookie, hload⟩ := exists_load hnew
  obtain ⟨r, hr, -, hvalues⟩ := exists_record hload
  have hid : IsId id := (named_of_reachable v.reachable).isId (by rw [hr]; rfl)
  refine ⟨id, r, hcookie, hr, hid, ?_, hnew, ?_⟩
  · rw [loaded_redis, hcookie, new_of_load hload]
    rfl
  · rw [v.nextSession_of_not_changed d h, hcookie]
    exact setUp_identity hr hid.1 (by rw [hvalues]; rfl) _ _

/-- A session that has an ID when the token is issued keeps it. -/
theorem redis_accepted {G : Gcm} (hG : G.Correct) {key : Bytes} (hkey : IsAesKey key)
    (hS : S.Persists) (hage : 0 < maxAge) (v : Visit (redisStore S maxAge))
    (hstored : .regenerateID ∈ v.ops ∨ v.Stored) (hlasts : v.Lasts) (d : Draws) :
    v.Accepted d G key := by
  have hid : IsId (v.session d).raw.id := by
    by_cases hmem : .regenerateID ∈ v.ops
    · obtain ⟨n, hn⟩ := v.session_id_of_mem d hmem
      exact hn ▸ isId_hex _
    · obtain ⟨id, values, hcookie, hload⟩ := exists_load (hstored.resolve_left hmem)
      obtain ⟨r, hr, -⟩ := exists_record hload
      rw [v.session_id_of_notMem d hmem, loaded_redis, hcookie, new_of_load hload]
      exact (named_of_reachable v.reachable).isId (isSome_iff_exists.mpr ⟨r, hr⟩)
  rw [v.accepted_iff d hG hkey, identity_of_id_ne hid.1]
  refine ⟨?_, hid.2⟩
  by_cases hchanged : v.Changed
  · rw [redis_next_of_changed hS hage v d hchanged, if_pos (hlasts.1 hchanged), savedId,
      if_neg hid.1]
  · obtain ⟨id, r, hcookie, hr, -, hloaded, -, hnext⟩ := redis_next_of_not_changed v d hchanged
    rw [hnext, if_pos (hlasts.2 hchanged id hcookie r hr), v.session_of_not_changed d hchanged,
      hloaded]

/-- Without an ID, or without a record, the next request has an identity that was drawn since. -/
theorem redis_not_accepted {G : Gcm} (hG : G.Correct) {key : Bytes} (hkey : IsAesKey key)
    (hS : S.Persists) (hage : 0 < maxAge) (v : Visit (redisStore S maxAge))
    (h : ¬ ((.regenerateID ∈ v.ops ∨ v.Stored) ∧ v.Lasts)) : ∃ d, ¬ v.Accepted d G key := by
  -- the token does not depend on what is drawn after it was issued
  let identity := (v.session zero).identity
  obtain ⟨newId, hnewId⟩ := exists_base64_ne identity
  obtain ⟨nextToken, hnextToken⟩ := exists_hex_ne (n := 16) (by decide) identity
  let d : Draws := { zero with newId, nextToken }
  refine ⟨d, fun hacc => ?_⟩
  have hidentity : identity = (v.nextSession d).identity := ((v.accepted_iff d hG hkey).mp hacc).1
  by_cases hchanged : v.Changed
  · rw [redis_next_of_changed hS hage v d hchanged] at hidentity
    split at hidentity
    · rename_i hlive
      have hlasts : v.Lasts := ⟨fun _ => hlive, fun hnot => absurd hchanged hnot⟩
      have hnot : ¬ (.regenerateID ∈ v.ops ∨ v.Stored) := fun hstored => h ⟨hstored, hlasts⟩
      rw [not_or] at hnot
      have hid : (v.session d).raw.id = [] := by
        rw [v.session_id_of_notMem d hnot.1, loaded_redis,
          eq_of_isNew (Bool.eq_true_of_not_eq_false hnot.2)]
        rfl
      rw [hid] at hidentity
      exact hnewId hidentity.symm
    · exact hnextToken hidentity.symm
  · obtain ⟨id, r, hcookie, hr, -, -, hstored, hnext⟩ := redis_next_of_not_changed v d hchanged
    rw [hnext] at hidentity
    split at hidentity
    · rename_i hlive
      refine h ⟨.inr hstored, fun hyes => absurd hyes hchanged, fun _ => ?_⟩
      rintro id' hid' r' hr'
      rw [hcookie] at hid'
      cases hid'
      rw [hr] at hr'
      cases hr'
      exact hlive
    · exact hnextToken hidentity.symm

/-- **With the Redis store**, tokens are accepted if the session has an ID when they are issued, and
is not lost. -/
theorem redis_accepted_iff {G : Gcm} (hG : G.Correct) {key : Bytes} (hkey : IsAesKey key)
    (hS : S.Persists) (hage : 0 < maxAge) (v : Visit (redisStore S maxAge)) :
    (∀ d, v.Accepted d G key) ↔ (.regenerateID ∈ v.ops ∨ v.Stored) ∧ v.Lasts := by
  constructor
  · intro hall
    by_contra hnot
    obtain ⟨d, hd⟩ := redis_not_accepted hG hkey hS hage v hnot
    exact hd (hall d)
  · exact fun hkept d => redis_accepted hG hkey hS hage v hkept.1 hkept.2 d

end Redis

end Visit

/-- **A token survives to the next request** exactly if its session keeps its identity, with either
store. -/
theorem token_handover_iff {G : Gcm} (hG : G.Correct) {key : Bytes} (hkey : IsAesKey key)
    {maxAge : ℤ} (hage : 0 < maxAge) :
    (∀ (C : Codec V), C.Persists → ∀ v : Visit (cookieStore C maxAge),
      (∀ d, v.Accepted d G key) ↔ .regenerateID ∉ v.ops ∧ v.TokenPlain) ∧
    (∀ (S : Serializer V), S.Persists → ∀ v : Visit (redisStore S maxAge),
      (∀ d, v.Accepted d G key) ↔ (.regenerateID ∈ v.ops ∨ v.Stored) ∧ v.Lasts) :=
  ⟨fun _ hC v => v.cookie_accepted_iff hG hkey hC hage,
    fun _ hS v => v.redis_accepted_iff hG hkey hS hage⟩

end Visits

/-! ### Two visits -/

/-- The first visit to a server without sessions, and a second one a minute later. -/
def firstVisit (S : Store Bytes) : Visit S where
  state := S.init
  reachable := .init
  cookie := none
  ops := []
  allowed op hop := absurd hop not_mem_nil
  arrives := ⟨0, by decide⟩
  issues := ⟨0, by decide⟩
  saves := ⟨0, by decide⟩
  returns := ⟨60 * second, by decide⟩
  verifies := ⟨60 * second, by decide⟩
  arrives_le := le_rfl
  issues_le := le_rfl
  saves_le := by decide
  returns_le := le_rfl
  verifies_le := by decide

/-- With the cookie store it ends well, with the Redis store it need not. -/
theorem firstVisit_handover :
    (∀ d, (firstVisit (cookieStore plainCodec week)).Accepted d framing
      (utf8 "0123456789abcdef")) ∧
    ¬ ∀ d, (firstVisit (redisStore plainSerializer week)).Accepted d framing
      (utf8 "0123456789abcdef") := by
  obtain ⟨cookie, redis⟩ := token_handover_iff (V := Bytes) framing_correct
    (by decide : IsAesKey (utf8 "0123456789abcdef")) (by decide : 0 < week)
  constructor
  · refine (cookie plainCodec (fun values => ⟨values, rfl, rfl⟩) _).mpr ⟨not_mem_nil, ?_⟩
    exact fun val hval => absurd hval (not_mem_none _)
  · rw [redis plainSerializer fun values => ⟨values, rfl, rfl⟩]
    rintro ⟨hmem | hstored, -⟩
    · cases hmem
    · cases hstored

/-- **The token of a first visit is refused**: the session had no ID when it was issued. -/
theorem firstVisit_token_refused :
    ∃ token ∈ (firstVisit (redisStore plainSerializer week)).token Draws.zero framing
        (utf8 "0123456789abcdef"),
      verifyCSRFToken framing token
        (some ((firstVisit (redisStore plainSerializer week)).nextSession Draws.zero))
        (utf8 "0123456789abcdef") ⟨60, by decide⟩ = false := by
  decide +kernel

end Kiya.Security
