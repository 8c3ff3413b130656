import Kiya.Security.SessionStore

/-!
# Sessions with a new ID

Requests that share a Redis store, in any interleaving: a request arrives with a cookie and has its
session loaded, its handler makes calls, and the session is saved, at the end or whenever the
handler asks for it. Every step tells which records it sets and deletes.

`RegenerateID` replaces the ID in memory, and `Save` then writes under the new one; nothing deletes
the record of the old one. So the old cookie finds a session as long as the record would have been
found anyway: until it expires, or until another request deletes it.
-/

namespace Kiya.Security

open RedisStore List Option Function

variable {V : Type}

/-- A request in progress. -/
structure Request (V : Type) where
  session : Session V
  /-- The ID under which a session was found, if one was. -/
  found : Option Bytes
  /-- `RegenerateID` was called. -/
  regenerated : Bool

/-- Redis, and the requests in progress. -/
structure World (S : Serializer V) where
  db : Records S.Data
  requests : ℕ → Option (Request V)

/-- What happens. -/
inductive Event (V : Type)
  | arrive (rid : ℕ) (now : ℤ) (cookie : Option Bytes) (draw : List.Vector UInt8 16)
  | call (rid : ℕ) (op : Op V) (draw : List.Vector UInt8 32)
  | save (rid : ℕ) (now : ℤ) (draw : List.Vector UInt8 32)

/-- A write to the record of an ID. -/
inductive Command
  | set (id : Bytes)
  | del (id : Bytes)
deriving DecidableEq

section Steps

variable [GoAny V] (S : Serializer V) (maxAge : ℤ)

/-- The request that has just arrived. -/
def arrived (db : Records S.Data) (now : ℤ) (cookie : Option Bytes)
    (draw : List.Vector UInt8 16) : Request V where
  session := setUp (redisStore S maxAge) db now cookie draw
  found := if (new S maxAge db now cookie).isNew then none else cookie
  regenerated := false

/-- The request after a call of its handler. -/
def Request.call (q : Request V) (draw : List.Vector UInt8 32) (op : Op V) : Request V where
  session := q.session.apply draw op
  found := q.found
  regenerated :=
    match op with
    | .regenerateID => true
    | _ => q.regenerated

/-- The commands of a `Save` that succeeds. -/
def commands (draw : List.Vector UInt8 32) (raw : RawSession V) : List Command :=
  if raw.maxAge ≤ 0 then if raw.id = [] then [] else [.del raw.id]
  else [.set (savedId draw raw.id)]

/-- The session after a `Save`: it has the ID under which it was saved, and unless that has failed
there is nothing to save any more. -/
def saved (s : Session V) (draw : List.Vector UInt8 32) (dirty : Bool) : Session V :=
  ⟨{ s.raw with id := if s.raw.maxAge ≤ 0 then s.raw.id else savedId draw s.raw.id }, dirty⟩

/-- One step. Nothing happens to a request that is not there. -/
def step (w : World S) : Event V → World S × List Command
  | .arrive rid now cookie draw =>
    (⟨w.db, Function.update w.requests rid (some (arrived S maxAge w.db now cookie draw))⟩, [])
  | .call rid op draw =>
    match w.requests rid with
    | none => (w, [])
    | some q => (⟨w.db, Function.update w.requests rid (some (q.call draw op))⟩, [])
  | .save rid now draw =>
    match w.requests rid with
    | none => (w, [])
    | some q =>
      if q.session.dirty then
        match save S maxAge w.db now draw q.session.raw with
        | none =>
          (⟨w.db, Function.update w.requests rid
            (some { q with session := saved q.session draw true })⟩, [])
        | some (db, _) =>
          (⟨db, Function.update w.requests rid
            (some { q with session := saved q.session draw false })⟩,
            commands draw q.session.raw)
      else (w, [])

/-- Many steps, with all the commands. -/
def run (w : World S) : List (Event V) → World S × List Command
  | [] => (w, [])
  | e :: es =>
    ((run (step S maxAge w e).1 es).1, (step S maxAge w e).2 ++ (run (step S maxAge w e).1 es).2)

/-- An empty store, and no requests. -/
def World.init : World S := ⟨fun _ => none, fun _ => none⟩

end Steps

/-! ### The record of an ID -/

variable {S : Serializer V} {maxAge : ℤ}

/-- What a command does to the record of an ID, if it is none that sets it. -/
def recordAfter (id : Bytes) (r : Option (Record S.Data)) (cs : List Command) :
    Option (Record S.Data) :=
  if .del id ∈ cs then none else r

theorem recordAfter_append (id : Bytes) (r : Option (Record S.Data)) (cs ds : List Command) :
    recordAfter id r (cs ++ ds) = recordAfter id (recordAfter id r cs) ds := by
  simp only [recordAfter, mem_append]
  by_cases hfirst : .del id ∈ cs
  · simp only [hfirst, true_or, if_true, ite_self]
  · simp only [hfirst, false_or, if_false]

variable {id : Bytes}

/-- **A `Save` changes no record but that of the ID of the session.** -/
theorem record_save {db db' : Records S.Data} {now : ℤ} {draw : List.Vector UInt8 32}
    {raw : RawSession V} {sent : SetCookie Bytes}
    (hsave : save S maxAge db now draw raw = some (db', sent))
    (hset : .set id ∉ commands draw raw) :
    db' (sessionKey id) = recordAfter id (db (sessionKey id)) (commands draw raw) := by
  rw [save] at hsave
  rw [commands] at hset ⊢
  rw [recordAfter]
  split at hsave
  · rename_i hage
    cases hsave
    rw [delete, if_pos hage]
    by_cases hid : raw.id = []
    · rw [if_pos hid, if_pos hid, if_neg not_mem_nil]
    · rw [if_neg hid, if_neg hid, Records.del]
      by_cases heq : id = raw.id
      · rw [heq, update_self, if_pos mem_cons_self]
      · rw [update_of_ne fun h => heq (sessionKey_injective h), if_neg]
        rwa [mem_singleton, Command.del.injEq]
  · rename_i hage
    rw [if_neg hage] at hset ⊢
    rw [saveRecord, Option.map_map] at hsave
    obtain ⟨data, -, heq⟩ := map_eq_some_iff.mp hsave
    cases heq
    have hne : id ≠ savedId draw raw.id := by
      rintro rfl
      exact hset mem_cons_self
    refine (update_of_ne (fun h => hne (sessionKey_injective h)) _ _).trans ?_
    rw [if_neg]
    rw [mem_singleton]
    exact Command.noConfusion

section Runs

variable [GoAny V]

theorem record_step (w : World S) (e : Event V) (hset : .set id ∉ (step S maxAge w e).2) :
    (step S maxAge w e).1.db (sessionKey id) =
      recordAfter id (w.db (sessionKey id)) (step S maxAge w e).2 := by
  have hnothing : w.db (sessionKey id) = recordAfter id (w.db (sessionKey id)) [] :=
    (if_neg not_mem_nil).symm
  cases e with
  | arrive rid now cookie draw => exact hnothing
  | call rid op draw =>
    rw [step]
    cases w.requests rid with
    | none | some => exact hnothing
  | save rid now draw =>
    rw [step] at hset ⊢
    cases hq : w.requests rid with
    | none => exact hnothing
    | some q =>
      rw [hq] at hset
      cases hsave : save S maxAge w.db now draw q.session.raw with
      | none =>
        simp only [hsave]
        split
        · exact hnothing
        · exact hnothing
      | some result =>
        simp only [hsave] at hset ⊢
        split at hset
        · rename_i hdirty
          rw [if_pos hdirty]
          exact record_save hsave hset
        · rename_i hdirty
          rwa [if_neg hdirty]

/-- **A run changes no record** that it does not set or delete. -/
theorem record_run (w : World S) (es : List (Event V)) (hset : .set id ∉ (run S maxAge w es).2) :
    (run S maxAge w es).1.db (sessionKey id) =
      recordAfter id (w.db (sessionKey id)) (run S maxAge w es).2 := by
  induction es generalizing w with
  | nil => exact (if_neg not_mem_nil).symm
  | cons e es ih =>
    rw [run, mem_append, not_or] at hset
    rw [run, ih _ hset.2, record_step w e hset.1, recordAfter_append]

/-! ### The old cookie -/

/-- A session is new if there is nothing to load. -/
theorem isNew_setUp_iff (db : Records S.Data) (now : ℤ) (id : Bytes) (draw : List.Vector UInt8 16) :
    (setUp (redisStore S maxAge) db now (some id) draw).raw.isNew = true ↔
      load S db now id = none := by
  rw [setUp_redis, Session.withToken_isNew]
  cases hload : load S db now id with
  | none => rw [new_of_load_none hload]; exact iff_of_true rfl rfl
  | some values =>
    rw [new_of_load hload]
    exact iff_of_false Bool.false_ne_true (some_ne_none values)

/-- A request that has found a session, has called `RegenerateID` and completes a `Save`, after a
run that led to it. -/
structure Regeneration (S : Serializer V) (maxAge : ℤ) where
  before : List (Event V)
  rid : ℕ
  now : ℤ
  draw : List.Vector UInt8 32
  /-- The request, and the ID of the session that it has found. -/
  request : Request V
  id : Bytes
  inProgress : (run S maxAge (World.init S) before).1.requests rid = some request
  found : request.found = some id
  regenerated : request.regenerated = true
  completes : (save S maxAge (run S maxAge (World.init S) before).1.db now draw
    request.session.raw).isSome

namespace Regeneration

variable (x : Regeneration S maxAge)

/-- The world before the `Save`. -/
def world : World S := (run S maxAge (World.init S) x.before).1

/-- The world, and the commands, after the `Save` and some more steps. -/
def after (es : List (Event V)) : World S × List Command :=
  run S maxAge x.world (.save x.rid x.now x.draw :: es)

end Regeneration

/-- **The old cookie gets a new session** exactly if the old record is deleted by someone or would
not be found anyway, unless a session is saved under the old ID again. -/
theorem old_cookie_isNew_iff (x : Regeneration S maxAge) (es : List (Event V))
    (hset : .set x.id ∉ (x.after es).2) (later : ℤ) (draw : List.Vector UInt8 16) :
    (setUp (redisStore S maxAge) (x.after es).1.db later (some x.id) draw).raw.isNew = true ↔
      .del x.id ∈ (x.after es).2 ∨ load S x.world.db later x.id = none := by
  rw [isNew_setUp_iff, load, Records.get, Regeneration.after, record_run _ _ hset,
    recordAfter, load, Records.get]
  by_cases hdel : .del x.id ∈ (run S maxAge x.world (.save x.rid x.now x.draw :: es)).2
  · rw [if_pos hdel]
    exact iff_of_true rfl (.inl hdel)
  · rw [if_neg hdel, or_iff_right hdel]

end Runs

/-! ### A login -/

/-- The cookie that a visitor gets first. -/
def firstCookie : Bytes := Base64.encode (List.Vector.replicate 32 0 : List.Vector UInt8 32).toList

/-- A visitor comes, comes again and is given a new ID. -/
def visits : List (Event Bytes) :=
  [.arrive 0 0 none (List.Vector.replicate _ 0), .save 0 0 (List.Vector.replicate _ 0),
    .arrive 1 0 (some firstCookie) (List.Vector.replicate _ 0),
    .call 1 .regenerateID (List.Vector.replicate _ 1)]

/-- The session with the new ID is saved. -/
def login : Regeneration plainSerializer week where
  before := visits
  rid := 1
  now := 0
  draw := List.Vector.replicate _ 0
  request := ((run plainSerializer week (World.init _) visits).1.requests 1).get
    (by decide +kernel)
  id := firstCookie
  inProgress := (some_get _).symm
  found := by decide +kernel
  regenerated := by decide +kernel
  completes := by decide +kernel

/-- A week later the record has expired. -/
theorem login_isNew_after_week :
    (setUp (redisStore plainSerializer week) (login.after []).1.db (week * second) (some login.id)
      (List.Vector.replicate _ 0)).raw.isNew = true :=
  (old_cookie_isNew_iff login [] (by decide +kernel) (week * second) _).mpr (by decide +kernel)

/-- **The first cookie still finds a session**, a second after the visitor got another. -/
theorem firstCookie_still_found :
    .set login.id ∉ (login.after []).2 ∧
      (setUp (redisStore plainSerializer week) (login.after []).1.db second (some login.id)
        (List.Vector.replicate _ 0)).raw.isNew = false := by
  decide +kernel

end Kiya.Security
