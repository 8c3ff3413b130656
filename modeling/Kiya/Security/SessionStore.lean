import Kiya.Security.Crypto

/-!
# Session stores

The interface `sessions.Store` with its two implementations, and what `serveInternal` does with a
session before and after the handler.

The cookie store of the `sessions` package writes the values into the cookie, by a codec that is a
parameter; the ID of the session is not written, and stays empty. `internal/security/redisstore.go`
keeps the values in Redis under the ID, which is the cookie; the serializer is a parameter. A record
expires `maxAge` seconds after it was saved: the product with a second is an `int64`, and the client
asks for no expiry unless it is positive and counts in milliseconds.

Times are in nanoseconds.
-/

namespace Kiya.Security

open Option Function

variable {V : Type}

/-- A cookie that is sent, with its `Max-Age`. -/
structure SetCookie (C : Type) where
  value : C
  maxAge : ℤ

/-- The cookie of a browser after a response: a negative age removes it. -/
def carried {C : Type} (cookie : Option C) (sent : Option (SetCookie C)) : Option C :=
  match sent with
  | none => cookie
  | some c => if c.maxAge < 0 then none else some c.value

/-- `sessions.Store`. -/
structure Store (V : Type) where
  /-- What the server keeps. -/
  State : Type
  /-- Before the first request. -/
  init : State
  Cookie : Type
  /-- `New`, and `Get` the first time in a request. -/
  new : State → (now : ℤ) → Option Cookie → RawSession V
  /-- `Save`, with random bytes for an ID; none is an error. -/
  save : State → (now : ℤ) → List.Vector UInt8 32 → RawSession V → Option (State × SetCookie Cookie)

/-! ### The cookie store -/

/-- What the codecs of the cookie store write and read. -/
structure Codec (V : Type) where
  Text : Type
  encode : Values V → Option Text
  decode : Text → Option (Values V)

/-- The values are persisted. -/
def Codec.Persists (C : Codec V) : Prop :=
  ∀ values, ∃ text, C.encode values = some text ∧ C.decode text = some values

/-- `CookieStore.New`. -/
def CookieStore.new (C : Codec V) (maxAge : ℤ) (cookie : Option C.Text) : RawSession V :=
  match cookie.bind C.decode with
  | none => ⟨[], ∅, maxAge, true⟩
  | some values => ⟨[], values, maxAge, false⟩

/-- `CookieStore.Save`; none is an error. -/
def CookieStore.save (C : Codec V) (raw : RawSession V) : Option (SetCookie C.Text) :=
  (C.encode raw.values).map fun text => ⟨text, raw.maxAge⟩

/-- `sessions.CookieStore`. -/
abbrev cookieStore (C : Codec V) (maxAge : ℤ) : Store V where
  State := Unit
  init := ()
  Cookie := C.Text
  new _ _ cookie := CookieStore.new C maxAge cookie
  save st _ _ raw := (CookieStore.save C raw).map fun sent => (st, sent)

variable {values : Values V} {raw : RawSession V} {maxAge : ℤ}

section CookieStore

variable {C : Codec V}

theorem CookieStore.new_id (cookie : Option C.Text) :
    (CookieStore.new C maxAge cookie).id = [] := by
  rw [CookieStore.new]
  cases cookie.bind C.decode with
  | none | some => rfl

theorem CookieStore.new_maxAge (cookie : Option C.Text) :
    (CookieStore.new C maxAge cookie).maxAge = maxAge := by
  rw [CookieStore.new]
  cases cookie.bind C.decode with
  | none | some => rfl

variable {text : C.Text}

theorem CookieStore.new_of_decode (h : C.decode text = some values) :
    CookieStore.new C maxAge (some text) = ⟨[], values, maxAge, false⟩ := by
  rw [CookieStore.new, bind_some, h]

theorem cookieStore_save (h : C.encode raw.values = some text)
    (st : Unit) (now : ℤ) (draw : List.Vector UInt8 32) :
    (cookieStore C maxAge).save st now draw raw = some (st, ⟨text, raw.maxAge⟩) := by
  simp only [cookieStore, CookieStore.save, h, map_some]

end CookieStore

/-! ### The Redis store -/

/-- `SessionSerializer`. -/
structure Serializer (V : Type) where
  Data : Type
  serialize : Values V → Option Data
  deserialize : Data → Option (Values V)

variable {D : Type} (S : Serializer V) (draw : List.Vector UInt8 32)

/-- What is written can be read, to some values or other. -/
def Serializer.Persists : Prop :=
  ∀ values, ∃ data, S.serialize values = some data ∧ (S.deserialize data).isSome

/-- A record of Redis; without an expiry it stays. -/
structure Record (D : Type) where
  data : D
  expires : Option ℤ

/-- Redis. -/
abbrev Records (D : Type) := Bytes → Option (Record D)

/-- A record is there until it expires. -/
def Record.Live (r : Record D) (now : ℤ) : Prop := ∀ e ∈ r.expires, now < e

instance {D : Type} (r : Record D) (now : ℤ) : Decidable (r.Live now) :=
  inferInstanceAs (Decidable (∀ e ∈ r.expires, now < e))

/-- `GET`. -/
def Records.get (db : Records D) (now : ℤ) (key : Bytes) : Option D :=
  match db key with
  | none => none
  | some r => if r.Live now then some r.data else none

/-- `SET`. -/
def Records.set (db : Records D) (key : Bytes) (r : Record D) : Records D :=
  Function.update db key (some r)

/-- `DEL`. -/
def Records.del (db : Records D) (key : Bytes) : Records D := Function.update db key none

/-- `s.prefix + session.ID`. -/
def sessionKey (id : Bytes) : Bytes := utf8 "session_" ++ id

/-- A second and a millisecond, in nanoseconds. -/
def second : ℤ := 1000000000

@[inherit_doc second] def millisecond : ℤ := 1000000

/-- `time.Duration(s.options.MaxAge) * time.Second`. -/
def expiration (maxAge : ℤ) : ℤ := (maxAge * second).bmod (2 ^ 64)

/-- When a record expires that is set now, as the client asks for it. -/
def expiry (now d : ℤ) : Option ℤ :=
  if 0 < d then some (now + max millisecond (d / millisecond * millisecond)) else none

/-- `load`; none is an error. -/
def RedisStore.load (db : Records S.Data) (now : ℤ) (id : Bytes) : Option (Values V) :=
  (db.get now (sessionKey id)).bind S.deserialize

/-- `save`; none is an error. -/
def RedisStore.saveRecord (maxAge : ℤ) (db : Records S.Data) (now : ℤ) (id : Bytes)
    (values : Values V) : Option (Records S.Data) :=
  (S.serialize values).map fun data =>
    db.set (sessionKey id) ⟨data, expiry now (expiration maxAge)⟩

/-- `delete`. -/
def RedisStore.delete (db : Records S.Data) (id : Bytes) : Records S.Data :=
  if id = [] then db else db.del (sessionKey id)

/-- The ID under which a session is saved: a new one if it has none. -/
def savedId (id : Bytes) : Bytes :=
  if id = [] then Base64.encode draw.toList else id

/-- `New`. -/
def RedisStore.new (maxAge : ℤ) (db : Records S.Data) (now : ℤ) (cookie : Option Bytes) :
    RawSession V :=
  match cookie with
  | none => ⟨[], ∅, maxAge, true⟩
  | some id =>
    match RedisStore.load S db now id with
    | none => ⟨[], ∅, maxAge, true⟩
    | some values => ⟨id, values, maxAge, false⟩

/-- `Save`; none is an error. -/
def RedisStore.save (S : Serializer V) (maxAge : ℤ) (db : Records S.Data) (now : ℤ)
    (draw : List.Vector UInt8 32) (raw : RawSession V) :
    Option (Records S.Data × SetCookie Bytes) :=
  if raw.maxAge ≤ 0 then some (RedisStore.delete S db raw.id, ⟨[], raw.maxAge⟩)
  else
    (RedisStore.saveRecord S maxAge db now (savedId draw raw.id) raw.values).map fun db =>
      (db, ⟨savedId draw raw.id, raw.maxAge⟩)

/-- `RedisStore`. -/
abbrev redisStore (S : Serializer V) (maxAge : ℤ) : Store V where
  State := Records S.Data
  init _ := none
  Cookie := Bytes
  new := RedisStore.new S maxAge
  save := RedisStore.save S maxAge

variable {id : Bytes}

section RedisStore

variable {S : Serializer V} {db : Records S.Data} {now : ℤ}

theorem RedisStore.new_maxAge (cookie : Option Bytes) :
    (RedisStore.new S maxAge db now cookie).maxAge = maxAge := by
  cases cookie with
  | none => rfl
  | some id =>
    rw [RedisStore.new]
    cases RedisStore.load S db now id with
    | none | some => rfl

theorem RedisStore.new_of_load (h : RedisStore.load S db now id = some values) :
    RedisStore.new S maxAge db now (some id) = ⟨id, values, maxAge, false⟩ := by
  rw [RedisStore.new, h]

theorem RedisStore.new_of_load_none (h : RedisStore.load S db now id = none) :
    RedisStore.new S maxAge db now (some id) = ⟨[], ∅, maxAge, true⟩ := by
  rw [RedisStore.new, h]

variable {cookie : Option Bytes}

/-- A session that is not new was loaded under the cookie. -/
theorem RedisStore.exists_load (h : (RedisStore.new S maxAge db now cookie).isNew = false) :
    ∃ id values, cookie = some id ∧ RedisStore.load S db now id = some values := by
  cases cookie with
  | none => cases h
  | some id =>
    cases hload : RedisStore.load S db now id with
    | none => rw [RedisStore.new_of_load_none hload] at h; cases h
    | some values => exact ⟨id, values, rfl, hload⟩

/-- And a new one is empty. -/
theorem RedisStore.eq_of_isNew (h : (RedisStore.new S maxAge db now cookie).isNew = true) :
    RedisStore.new S maxAge db now cookie = ⟨[], ∅, maxAge, true⟩ := by
  cases cookie with
  | none => rfl
  | some id =>
    cases hload : RedisStore.load S db now id with
    | none => exact RedisStore.new_of_load_none hload
    | some values => rw [RedisStore.new_of_load hload] at h; cases h

theorem RedisStore.save_of_serialize {data : S.Data} (hage : 0 < raw.maxAge)
    (h : S.serialize raw.values = some data) (draw : List.Vector UInt8 32) :
    RedisStore.save S maxAge db now draw raw =
      some (db.set (sessionKey (savedId draw raw.id)) ⟨data, expiry now (expiration maxAge)⟩,
        ⟨savedId draw raw.id, raw.maxAge⟩) := by
  rw [RedisStore.save, if_neg (not_le.mpr hage), RedisStore.saveRecord, h]
  rfl

theorem sessionKey_injective : Function.Injective sessionKey :=
  List.append_right_injective _

theorem RedisStore.load_of_eq {r : Record S.Data} (now : ℤ) (h : db (sessionKey id) = some r) :
    RedisStore.load S db now id = if r.Live now then S.deserialize r.data else none := by
  rw [RedisStore.load, Records.get, h]
  by_cases hlive : r.Live now
  · simp only [if_pos hlive, bind_some]
  · simp only [if_neg hlive, bind_none]

theorem RedisStore.exists_record (h : RedisStore.load S db now id = some values) :
    ∃ r, db (sessionKey id) = some r ∧ r.Live now ∧ S.deserialize r.data = some values := by
  cases hr : db (sessionKey id) with
  | none => rw [RedisStore.load, Records.get, hr] at h; cases h
  | some r =>
    rw [RedisStore.load_of_eq now hr] at h
    split at h
    · rename_i hlive
      exact ⟨r, rfl, hlive, h⟩
    · cases h

end RedisStore

open RedisStore

/-! ### IDs -/

theorem bar_notMem_hex (bytes : Bytes) : bar ∉ Hex.encode bytes :=
  Hex.notMem_encode (by decide) bytes

theorem hex_ne_nil {n : ℕ} (hn : n ≠ 0) (draw : List.Vector UInt8 n) :
    Hex.encode draw.toList ≠ [] := by
  intro h
  have hlength := Hex.length_encode draw.toList
  rw [h, draw.toList_length] at hlength
  exact hn (by simpa using hlength.symm)

/-- The IDs of sessions: none is empty, none has a separator. -/
def IsId (id : Bytes) : Prop := id ≠ [] ∧ bar ∉ id

theorem isId_hex : IsId (Hex.encode draw.toList) :=
  ⟨hex_ne_nil (by decide) draw, bar_notMem_hex _⟩

theorem isId_base64 : IsId (Base64.encode draw.toList) := by
  refine ⟨Base64.encode_ne_nil fun h => ?_, Base64.notMem_encode (by decide) (by decide) _⟩
  have hlength := draw.toList_length
  rw [h] at hlength
  exact absurd hlength (by decide)

theorem isId_savedId (h : id = [] ∨ IsId id) : IsId (savedId draw id) := by
  rw [savedId]
  split
  · exact isId_base64 draw
  · rename_i hne
    exact h.resolve_left hne

section Named

variable {S : Serializer V}

/-- Every record is one of a session. -/
def Named (db : Records S.Data) : Prop :=
  ∀ key, (db key).isSome → ∃ id, key = sessionKey id ∧ IsId id

variable {db : Records S.Data}

theorem Named.isId (h : Named db) (hid : (db (sessionKey id)).isSome) : IsId id := by
  obtain ⟨id', heq, hid'⟩ := h _ hid
  exact sessionKey_injective heq ▸ hid'

theorem Named.new_id (h : Named db) (now : ℤ) (cookie : Option Bytes) :
    (new S maxAge db now cookie).id = [] ∨
      IsId (new S maxAge db now cookie).id := by
  cases hnew : (new S maxAge db now cookie).isNew with
  | true => exact .inl (by rw [eq_of_isNew hnew])
  | false =>
    obtain ⟨id, values, rfl, hload⟩ := exists_load hnew
    obtain ⟨r, hr, -⟩ := exists_record hload
    rw [new_of_load hload]
    exact .inr (h.isId (by rw [hr]; rfl))

theorem Named.set (h : Named db) (hid : IsId id)
    (r : Record S.Data) : Named (db.set (sessionKey id) r) := by
  intro key hkey
  by_cases heq : key = sessionKey id
  · exact ⟨id, heq, hid⟩
  · rw [Records.set, update_of_ne heq] at hkey
    exact h key hkey

theorem Named.del (h : Named db) (key : Bytes) : Named (db.del key) := by
  intro other hother
  by_cases heq : other = key
  · rw [Records.del, heq, update_self] at hother
    cases hother
  · rw [Records.del, update_of_ne heq] at hother
    exact h other hother

theorem Named.save (h : Named db) {now : ℤ} {draw : List.Vector UInt8 32}
    (hid : raw.id = [] ∨ IsId raw.id) {db' : Records S.Data}
    {sent : SetCookie Bytes} (hsave : RedisStore.save S maxAge db now draw raw = some (db', sent)) :
    Named db' := by
  rw [RedisStore.save] at hsave
  split at hsave
  · cases hsave
    rw [delete]
    split
    · exact h
    · exact h.del _
  · rw [saveRecord, map_map] at hsave
    obtain ⟨data, -, heq⟩ := map_eq_some_iff.mp hsave
    cases heq
    exact h.set (isId_savedId draw hid) _

end Named

/-- **The ID of a session** is empty or one that was drawn, whatever the handler does. -/
theorem id_applyAll {s : Session V} {ops : List (Op V)} {draws : ℕ → List.Vector UInt8 32}
    (h : s.raw.id = [] ∨ IsId s.raw.id) :
    (s.applyAll ops draws).raw.id = [] ∨ IsId (s.applyAll ops draws).raw.id := by
  by_cases hmem : .regenerateID ∈ ops
  · obtain ⟨n, hn⟩ := @Session.id_applyAll_of_mem _ s ops draws hmem
    exact .inr (hn ▸ isId_hex _)
  · rwa [Session.id_applyAll_of_notMem hmem]

/-! ### The session of a request -/

section Request

variable [GoAny V] (S : Store V)

/-- Every session that a handler finds has a token under `_t`. -/
def Session.withToken (s : Session V) (draw : List.Vector UInt8 16) : Session V :=
  match s.get tKey with
  | none => s.set tKey (some (GoAny.str (Hex.encode draw.toList)))
  | some _ => s

/-- The session that a handler finds. -/
def setUp (st : S.State) (now : ℤ) (cookie : Option S.Cookie) (draw : List.Vector UInt8 16) :
    Session V :=
  (newSession (S.new st now cookie)).withToken draw

/-- The deferred `Save`: a session that was not changed is not saved, and an error is logged. -/
def finish (st : S.State) (now : ℤ) (draw : List.Vector UInt8 32) (s : Session V) :
    S.State × Option (SetCookie S.Cookie) :=
  if s.dirty then
    match S.save st now draw s.raw with
    | none => (st, none)
    | some (st, cookie) => (st, some cookie)
  else (st, none)

theorem setUp_cookie {C : Codec V} (st : Unit) (now : ℤ) (cookie : Option C.Text)
    (draw : List.Vector UInt8 16) : setUp (cookieStore C maxAge) st now cookie draw =
      (newSession (CookieStore.new C maxAge cookie)).withToken draw := rfl

theorem setUp_redis {S : Serializer V} (db : Records S.Data) (now : ℤ)
    (cookie : Option Bytes) (draw : List.Vector UInt8 16) :
    setUp (redisStore S maxAge) db now cookie draw =
      (newSession (new S maxAge db now cookie)).withToken draw := rfl

variable {S} (s : Session V) (draw : List.Vector UInt8 16)

theorem Session.withToken_id : (s.withToken draw).raw.id = s.raw.id := by
  rw [Session.withToken]
  cases s.get tKey with
  | none | some => rfl

theorem Session.withToken_maxAge : (s.withToken draw).raw.maxAge = s.raw.maxAge := by
  rw [Session.withToken]
  cases s.get tKey with
  | none | some => rfl

theorem Session.withToken_isNew : (s.withToken draw).raw.isNew = s.raw.isNew := by
  rw [Session.withToken]
  cases s.get tKey with
  | none | some => rfl

theorem Session.withToken_get : (s.withToken draw).get tKey =
      some ((s.get tKey).getD (GoAny.str (Hex.encode draw.toList))) := by
  rw [Session.withToken]
  cases h : s.get tKey with
  | none => exact Session.get_set_self _ _ _
  | some x => exact h

/-- The states that requests leave behind. A request has loaded its session from one of them and
saves it to another, when it is done. -/
inductive Store.Reachable (S : Store V) : S.State → Prop
  | init : S.Reachable S.init
  | request {st₀ st₁ : S.State} (h₀ : S.Reachable st₀) (h₁ : S.Reachable st₁) (now₀ now₁ : ℤ)
      (cookie : Option S.Cookie) (draw : List.Vector UInt8 16) (ops : List (Op V))
      (draws : ℕ → List.Vector UInt8 32) (newId : List.Vector UInt8 32) :
      S.Reachable (finish S st₁ now₁ newId ((setUp S st₀ now₀ cookie draw).applyAll ops draws)).1

end Request

/-- **Every record is one of a session**, in every state that requests leave behind. -/
theorem named_of_reachable [GoAny V] {S : Serializer V} {db : (redisStore S maxAge).State}
    (h : (redisStore S maxAge).Reachable db) : Named (S := S) db := by
  induction h with
  | init => exact fun key hkey => absurd hkey Bool.false_ne_true
  | request h₀ h₁ now₀ now₁ cookie draw ops draws newId ih₀ ih₁ =>
    rw [finish]
    split
    · split
      · exact ih₁
      · rename_i hsave
        refine ih₁.save (id_applyAll ?_) hsave
        rw [setUp, Session.withToken_id]
        exact ih₀.new_id _ _
    · exact ih₁

/-! ### Stores that write nothing down -/

/-- A codec that keeps the values as they are. -/
def plainCodec : Codec Bytes := ⟨Values Bytes, some, some⟩

/-- A serializer that does. -/
def plainSerializer : Serializer Bytes := ⟨Values Bytes, some, some⟩

/-- A week. -/
def week : ℤ := 604800

end Kiya.Security
