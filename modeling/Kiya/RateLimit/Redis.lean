import Kiya.RateLimit.Store

/-!
# The rate limiter in Redis

`internal/security/redis_ratelimit.go`: the token bucket as a script that Redis runs, with the
tokens and the time of the last call under two keys that expire. The script is given the time of the
caller; the keys expire by the clock of Redis, which may differ from the caller's by any constant,
the `skew`. The numbers are exact.

The script finds a full bucket where there are no keys, and the keys expire only after the time that
a bucket needs to fill up, so that a bucket which Redis has forgotten is one that is full
(`Mirrors.allow`). For one key the two stores therefore give the same answers.
-/

namespace Kiya.RateLimit

open TokenBucket RateLimiter List Option

/-! ### The script -/

/-- What Redis holds: for each key a number and the time at which the key expires. -/
abbrev Redis := Key → Option (ℚ × ℚ)

/-- `GET`, at a time. -/
def Redis.get (db : Redis) (time : ℚ) (key : Key) : Option ℚ :=
  match db key with
  | none => none
  | some (value, expires) => if time < expires then some value else none

/-- `SETEX`, at a time. -/
def Redis.setex (db : Redis) (time : ℚ) (key : Key) (ttl value : ℚ) : Redis :=
  Function.update db key (some (value, time + ttl))

/-- `tokens_key`. -/
def tokensKey (key : Key) : Key := key ++ utf8 ":tokens"

/-- `ts_key`. -/
def tsKey (key : Key) : Key := key ++ utf8 ":ts"

/-- The time after which the script lets its keys expire. -/
def scriptTtl (rate burst : ℚ) : ℤ :=
  let ttl := ⌊burst / rate⌋ + 2
  if ttl < 1 then 1 else ttl

/-- `tokenBucketScript`, run at the time `time` of Redis. -/
def tokenBucketScript (key : Key) (rate burst now time : ℚ) (db : Redis) : ℤ × Redis :=
  let lastTokens := (db.get time (tokensKey key)).getD burst
  let lastRefreshed := (db.get time (tsKey key)).getD 0
  let delta := now - lastRefreshed
  let delta := if delta < 0 then 0 else delta
  let filled := min burst (lastTokens + delta * rate)
  let (allowed, filled) := if 1 ≤ filled then (1, filled - 1) else (0, filled)
  let ttl : ℚ := scriptTtl rate burst
  (allowed, (db.setex time (tokensKey key) ttl filled).setex time (tsKey key) ttl now)

/-! ### The store -/

/-- The numbers of `RedisRateLimitStore`. -/
structure RedisRateLimitStore where
  rate : ℚ
  burst : ℚ

/-- `NewRedisRateLimitStore`, without the connection. -/
def newRedisRateLimitStore (rate : ℚ) (burst : ℤ) : RedisRateLimitStore where
  rate := if rate ≤ 0 then 10 else rate
  burst := ((if burst ≤ 0 then 20 else burst : ℤ) : ℚ)

/-- The prefix of the keys. -/
def redisPrefix : Key := utf8 "ratelimit_"

/-- What `Allow` makes of the reply; none stands for an error of Redis. -/
def answerOf (reply : Option ℤ) : Bool :=
  match reply with
  | none => true
  | some res => res = 1

/-- `Allow`, at the time `now` and with the clock of Redis ahead by `skew`. -/
def RedisRateLimitStore.allow (st : RedisRateLimitStore) (skew : ℚ) (db : Redis) (key : Key)
    (now : ℤ) : Bool × Redis :=
  let (allowed, db') := tokenBucketScript (redisPrefix ++ key) st.rate st.burst (seconds now)
    (seconds now + skew) db
  (answerOf (some allowed), db')

/-- The answers of the store in Redis to calls for a key at the given times. -/
def redisAnswers (st : RedisRateLimitStore) (skew : ℚ) (key : Key) : Redis → List ℤ → List Bool
  | _, [] => []
  | db, now :: rest =>
    (st.allow skew db key now).1 :: redisAnswers st skew key (st.allow skew db key now).2 rest

/-! ### The bucket in Redis -/

variable {time value expires : ℚ}

theorem Redis.get_of_lt {db : Redis} {key : Key}
    (h : db key = some (value, expires)) (hlt : time < expires) : db.get time key = some value := by
  rw [Redis.get, h]
  exact if_pos hlt

theorem Redis.get_of_le {db : Redis} {key : Key}
    (h : db key = some (value, expires)) (hle : expires ≤ time) : db.get time key = none := by
  rw [Redis.get, h]
  exact if_neg (not_lt.mpr hle)

theorem tsKey_ne_tokensKey (key : Key) : tsKey key ≠ tokensKey key := by
  intro h
  exact absurd (append_cancel_left h) (by decide)

theorem newRedisRateLimitStore_eq (L : Limits) :
    newRedisRateLimitStore L.rate L.burst = ⟨L.rate, L.burst⟩ := by
  rw [newRedisRateLimitStore, if_neg (not_le.mpr L.rate_pos), if_neg (not_le.mpr L.burst_pos)]

/-- The keys do not expire before an empty bucket is full. -/
theorem burst_le_scriptTtl_mul (L : Limits) :
    (L.burst : ℚ) ≤ scriptTtl L.rate L.burst * L.rate := by
  have hdiv : (L.burst : ℚ) / L.rate ≤ scriptTtl L.rate L.burst := by
    have hfloor := (Int.lt_floor_add_one ((L.burst : ℚ) / L.rate)).le
    have hle : ⌊(L.burst : ℚ) / L.rate⌋ + 1 ≤ scriptTtl L.rate L.burst := by
      rw [scriptTtl]
      split <;> omega
    have hcast : ((⌊(L.burst : ℚ) / L.rate⌋ + 1 : ℤ) : ℚ) ≤ scriptTtl L.rate L.burst :=
      Int.cast_le.mpr hle
    push_cast at hcast
    exact hfloor.trans hcast
  exact (div_le_iff₀ L.rate_pos).mp hdiv

/-- What the script does to the bucket that it finds. -/
theorem tokenBucketScript_eq (key : Key) (rate burst now time : ℚ) (db : Redis) {tokens elapsed : ℚ}
    (hlevel : refill rate burst ((db.get time (tokensKey key)).getD burst)
        (max 0 (now - (db.get time (tsKey key)).getD 0)) =
      refill rate burst tokens elapsed) :
    let left := take (refill rate burst tokens elapsed)
    let db' := (tokenBucketScript key rate burst now time db).2
    answerOf (some (tokenBucketScript key rate burst now time db).1) = left.1 ∧
      db' (tokensKey key) = some (left.2, time + scriptTtl rate burst) ∧
      db' (tsKey key) = some (now, time + scriptTtl rate burst) := by
  have hdelta (delta : ℚ) : (if delta < 0 then 0 else delta) = max 0 delta := by
    rcases lt_or_ge delta 0 with h | h
    · rw [if_pos h, max_eq_left h.le]
    · rw [if_neg (not_lt.mpr h), max_eq_right h]
  rw [refill] at hlevel
  simp only [tokenBucketScript, hdelta, hlevel, Redis.setex, Function.update_self,
    Function.update_of_ne (tsKey_ne_tokensKey key).symm]
  rcases lt_or_ge (refill rate burst tokens elapsed) 1 with h | h
  · rw [take_of_lt h, if_neg (not_le.mpr h)]
    exact ⟨rfl, rfl, trivial⟩
  · rw [take_of_le h, if_pos h]
    exact ⟨rfl, rfl, trivial⟩

/-- Redis holds the bucket `lim` of a key, as it was left by the last call. -/
structure Mirrors (L : Limits) (skew : ℚ) (key : Key) (db : Redis) (lim : RateLimiter) : Prop where
  tokens : db (tokensKey (redisPrefix ++ key)) =
    some (lim.tokens, seconds lim.last + skew + scriptTtl L.rate L.burst)
  ts : db (tsKey (redisPrefix ++ key)) =
    some (seconds lim.last, seconds lim.last + skew + scriptTtl L.rate L.burst)
  within : lim.WithinBurst L

variable {L : Limits} {skew : ℚ} {key : Key} {db : Redis} {lim : RateLimiter}

/-- A call in Redis is the call on a bucket of the same level. -/
theorem mirrors_of_level (now : ℤ) (hlim : lim.WithinBurst L)
    (hlevel : refill L.rate L.burst
        ((db.get (seconds now + skew) (tokensKey (redisPrefix ++ key))).getD L.burst)
        (max 0 (seconds now - (db.get (seconds now + skew) (tsKey (redisPrefix ++ key))).getD 0)) =
      refill L.rate L.burst lim.tokens (seconds (credit lim.last now))) :
    ((newRedisRateLimitStore L.rate L.burst).allow skew db key now).1 = (lim.call L now).1 ∧
      Mirrors L skew key ((newRedisRateLimitStore L.rate L.burst).allow skew db key now).2
        (lim.call L now).2 := by
  obtain ⟨hanswer, htokens, hts⟩ := tokenBucketScript_eq _ _ _ _ _ _ hlevel
  have hwithin := hlim.call now
  rw [call_eq] at hwithin ⊢
  rw [newRedisRateLimitStore_eq]
  exact ⟨hanswer, htokens, hts, hwithin⟩

/-- **The first call**: no keys are a full bucket. -/
theorem mirrors_first (L : Limits) (skew : ℚ) (key : Key) (db : Redis) (now : ℤ)
    (hdb : db (tokensKey (redisPrefix ++ key)) = none) :
    ((newRedisRateLimitStore L.rate L.burst).allow skew db key now).1 =
        (call L ⟨L.burst, now⟩ now).1 ∧
      Mirrors L skew key ((newRedisRateLimitStore L.rate L.burst).allow skew db key now).2
        (call L ⟨L.burst, now⟩ now).2 := by
  have hget : db.get (seconds now + skew) (tokensKey (redisPrefix ++ key)) = none := by
    rw [Redis.get, hdb]
  have hfull : (⟨L.burst, now⟩ : RateLimiter).WithinBurst L :=
    ⟨zero_le_one.trans L.one_le_burst, le_rfl⟩
  have hcredit : credit now now = 0 := by rw [credit, sub_self, max_self]
  refine mirrors_of_level now hfull ?_
  rw [hget, getD_none, hcredit, seconds_zero, refill_zero le_rfl]
  exact refill_of_le (le_add_of_nonneg_right (mul_nonneg (le_max_left _ _) L.rate_pos.le))

/-- **A later call.** If the keys have not expired, the bucket is the one that was left; if they
have, it would be full by now. -/
theorem Mirrors.allow (h : Mirrors L skew key db lim) {now : ℤ} (hnow : lim.last ≤ now) :
    ((newRedisRateLimitStore L.rate L.burst).allow skew db key now).1 = (lim.call L now).1 ∧
      Mirrors L skew key ((newRedisRateLimitStore L.rate L.burst).allow skew db key now).2
        (lim.call L now).2 := by
  refine mirrors_of_level now h.within ?_
  have hcredit : seconds (credit lim.last now) = max 0 (seconds now - seconds lim.last) := by
    have hnonneg : 0 ≤ now - lim.last := sub_nonneg.mpr hnow
    rw [credit, max_eq_right hnonneg, ← seconds_sub, max_eq_right (seconds_nonneg_iff.mpr hnonneg)]
  rcases lt_or_ge (seconds now + skew)
      (seconds lim.last + skew + scriptTtl L.rate L.burst) with hlt | hge
  · rw [Redis.get_of_lt h.tokens hlt, Redis.get_of_lt h.ts hlt, getD_some, getD_some, hcredit]
  · have helapsed : (scriptTtl L.rate L.burst : ℚ) ≤ max 0 (seconds now - seconds lim.last) :=
      le_max_of_le_right (by linarith)
    have hfilled := mul_le_mul_of_nonneg_right helapsed L.rate_pos.le
    have hburst := burst_le_scriptTtl_mul L
    have htokens := h.within.1
    rw [Redis.get_of_le h.tokens hge, Redis.get_of_le h.ts hge, getD_none, getD_none,
      refill_of_le (le_add_of_nonneg_right (mul_nonneg (le_max_left _ _) L.rate_pos.le)),
      hcredit, refill_of_le (by linarith)]

/-! ### Agreement -/

theorem answers_eq_of_mirrors {s : Shards} (hs : lookup s key = some lim)
    (hdb : Mirrors L skew key db lim) {calls : List (MapOrder × ℤ)}
    (hcalls : (lim.last :: calls.map Prod.snd).Pairwise (· ≤ ·)) :
    (callAll L key s calls).1 = redisAnswers (newRedisRateLimitStore L.rate L.burst) skew key db
      (calls.map Prod.snd) := by
  induction calls generalizing s lim db with
  | nil => rfl
  | cons call calls ih =>
    rw [map_cons, pairwise_cons, forall_mem_cons] at hcalls
    obtain ⟨hanswer, hnext⟩ := allow_eq L call.1 s key call.2
    obtain ⟨hanswer', hnext'⟩ := hdb.allow hcalls.1.1
    have hbucket : bucket L s key call.2 = lim := by rw [bucket, hs, getD_some]
    have hlast : (lim.call L call.2).2.last = call.2 := by rw [call_eq]
    rw [hbucket] at hanswer hnext
    rw [callAll, map_cons, redisAnswers, hanswer, hanswer',
      ih hnext hnext' (by rw [hlast]; exact hcalls.2)]

/-- **The two back ends agree.** For calls for one key at times that do not go back, the store in
memory and the one in Redis give the same answers, although Redis forgets its keys. -/
theorem backends_agree (L : Limits) (skew : ℚ) (key : Key) (calls : List (MapOrder × ℤ))
    (hcalls : (calls.map Prod.snd).Pairwise (· ≤ ·)) :
    (callAll L key newStore calls).1 =
      redisAnswers (newRedisRateLimitStore L.rate L.burst) skew key (fun _ => none)
        (calls.map Prod.snd) := by
  cases calls with
  | nil => rfl
  | cons call calls =>
    obtain ⟨hanswer, hnext⟩ := allow_eq L call.1 newStore key call.2
    have hbucket : bucket L newStore key call.2 = ⟨L.burst, call.2⟩ := rfl
    have hlast : (RateLimiter.call L ⟨L.burst, call.2⟩ call.2).2.last = call.2 := by
      rw [call_eq]
    rw [hbucket] at hanswer hnext
    obtain ⟨hanswer', hnext'⟩ := mirrors_first L skew key (fun _ => none) call.2 rfl
    rw [callAll, map_cons, redisAnswers, hanswer, hanswer',
      answers_eq_of_mirrors hnext hnext' (by rw [hlast]; exact hcalls)]

/-- Calls at the start, five seconds later and twice thirteen seconds after that: by then the keys
of a bucket that fills up in ten seconds have expired. -/
def expiringCalls : List (MapOrder × ℤ) :=
  [0, 5000000000, 18000000000, 18000000000].map fun now => (.asKept, now)

theorem everyTenSeconds_backends_agree :
    (callAll everyTenSeconds (utf8 "k") newStore expiringCalls).1 = [true, false, true, false] ∧
      redisAnswers (newRedisRateLimitStore (1 / 10) 1) 0 (utf8 "k") (fun _ => none)
        [0, 5000000000, 18000000000, 18000000000] = [true, false, true, false] := by
  have hanswers : (callAll everyTenSeconds (utf8 "k") newStore expiringCalls).1 =
      [true, false, true, false] := by decide +kernel
  refine ⟨hanswers, ?_⟩
  rw [← hanswers]
  exact (backends_agree everyTenSeconds 0 (utf8 "k") expiringCalls (by decide)).symm

end Kiya.RateLimit
