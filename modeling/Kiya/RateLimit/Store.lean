import Kiya.Lib.Bytes
import Kiya.Lib.TokenBucket

/-!
# The in-memory rate limiter

`internal/security/ratelimit.go`, and the defaults that `New` puts in for it. The store has one
token bucket for every key, in shards that are locked one at a time; `Allow` makes a bucket for a
new key and evicts the oldest ones of a full shard, and `cleanup` drops those that have not been
used for longer than the `ttl`.

Times and durations are nanoseconds, and the numbers of tokens are exact. The order in which `range`
visits a Go map is arbitrary: what depends on it takes a `MapOrder`. `Allow` reads the clock before
it locks the shard; `allow` is what it does then, for the time that it has read.

A bucket that is made for a new key behaves as a full one (`allow_eq`), so that for each key the
store is the bucket of `TokenBucket`, credited with the time since the last call.
-/

namespace Kiya.RateLimit

open TokenBucket List Option Function AList

/-- A key. -/
abbrev Key := Bytes

/-- `Duration.Seconds`, of nanoseconds. -/
def seconds (d : ℤ) : ℚ := d / 1000000000

/-- `shardCount`. -/
def shardCount : ℕ := 32

/-- `maxEntriesPerShard`. -/
def maxEntriesPerShard : ℕ := 10000

/-! ### Configuration -/

/-- The numbers that a store is made with. -/
structure Limits where
  rate : ℚ
  burst : ℤ
  /-- In nanoseconds. -/
  ttl : ℤ
  rate_pos : 0 < rate
  burst_pos : 0 < burst
  ttl_pos : 0 < ttl

/-- The numbers of `RateLimiterConfig`. -/
structure RateLimiterConfig where
  rate : ℚ
  burst : ℤ
  ttl : ℤ

/-- The defaults of `New`: a rate of 10, a burst of 20 and five minutes. -/
def RateLimiterConfig.limits (cfg : RateLimiterConfig) : Limits where
  rate := if cfg.rate ≤ 0 then 10 else cfg.rate
  burst := if cfg.burst ≤ 0 then 20 else cfg.burst
  ttl := if cfg.ttl ≤ 0 then 300 * 1000000000 else cfg.ttl
  rate_pos := by split <;> [norm_num; exact not_le.mp ‹_›]
  burst_pos := by split <;> omega
  ttl_pos := by split <;> omega

/-- One call in ten seconds. -/
def everyTenSeconds : Limits := ⟨1 / 10, 1, 300 * 1000000000, by norm_num, by decide, by decide⟩

/-! ### Shards -/

/-- `rateLimiter`. -/
structure RateLimiter where
  tokens : ℚ
  last : ℤ
deriving DecidableEq

open RateLimiter

/-- `rateLimitShard.limiters`. -/
abbrev Shard := AList fun _ : Key => RateLimiter

/-- `Store.shards`. -/
abbrev Shards := Fin shardCount → Shard

/-- The order in which `range` visits the entries of a map. -/
structure MapOrder where
  visit : List (Key × ℤ) → List (Key × ℤ)
  perm : ∀ entries, (visit entries).Perm entries

/-- The entries as they are kept here. -/
def MapOrder.asKept : MapOrder := ⟨id, fun _ => .refl _⟩

/-- The shards of `NewStore`. -/
def newStore : Shards := fun _ => ∅

variable (L : Limits) (last : ℤ) (order : MapOrder) (s : Shards) (key : Key) (now : ℤ)

/-- `fnv.New32a`, over the bytes of a key. -/
def sum32a : UInt32 :=
  key.foldl (fun hash byte => (hash ^^^ byte.toUInt32) * 16777619) 2166136261

/-- `getShard`. -/
def getShard : Fin shardCount :=
  ⟨(sum32a key).toNat % shardCount, Nat.mod_lt _ (by decide)⟩

/-- The entry of a key. -/
def lookup : Option RateLimiter := (s (getShard key)).lookup key

/-! ### Eviction -/

/-- One round of the sort: every entry that is older changes places with the first one. -/
def oldestFirst : Key × ℤ → List (Key × ℤ) → (Key × ℤ) × List (Key × ℤ)
  | first, [] => (first, [])
  | first, entry :: rest =>
    if entry.2 < first.2 then
      let (oldest, others) := oldestFirst entry rest
      (oldest, first :: others)
    else
      let (oldest, others) := oldestFirst first rest
      (oldest, entry :: others)

/-- The sort, with the number of rounds. -/
def sortEntries : ℕ → List (Key × ℤ) → List (Key × ℤ)
  | rounds + 1, first :: rest =>
    let (oldest, others) := oldestFirst first rest
    oldest :: sortEntries rounds others
  | _, entries => entries

/-- `deleteCount`. -/
def deleteCount : ℕ := if maxEntriesPerShard / 10 < 1 then 1 else maxEntriesPerShard / 10

/-- `evictOldest`. -/
def evictOldest (shard : Shard) : Shard :=
  let entries := order.visit (shard.entries.map fun e => (e.1, e.2.last))
  ((sortEntries entries.length entries).take deleteCount).foldl
    (fun limiters entry => limiters.erase entry.1) shard

/-! ### `Allow` and `cleanup` -/

/-- What `Allow` does to the bucket of a key that it knows. -/
def RateLimiter.call (lim : RateLimiter) (now : ℤ) : Bool × RateLimiter :=
  let elapsed := seconds (now - lim.last)
  let elapsed := if elapsed < 0 then 0 else elapsed
  let tokens := lim.tokens + elapsed * L.rate
  let tokens := if (L.burst : ℚ) < tokens then (L.burst : ℚ) else tokens
  if tokens < 1 then (false, ⟨tokens, now⟩) else (true, ⟨tokens - 1, now⟩)

/-- `Allow`, from the moment that the shard is locked. -/
def allow : Bool × Shards :=
  let i := getShard key
  match (s i).lookup key with
  | none =>
    let shard := if maxEntriesPerShard ≤ (s i).entries.length then evictOldest order (s i) else s i
    (true, Function.update s i (shard.insert key ⟨L.burst - 1, now⟩))
  | some lim =>
    let (answer, lim') := lim.call L now
    (answer, Function.update s i ((s i).insert key lim'))

/-- `cleanup`, for one tick. -/
def cleanup : Shards := fun i =>
  ⟨(s i).entries.filter fun e => ¬ L.ttl < now - e.2.last,
    (s i).nodupKeys.sublist filter_sublist⟩

/-! ### Seconds -/

@[simp]
theorem seconds_zero : seconds 0 = 0 := by simp [seconds]

theorem seconds_sub (d d' : ℤ) : seconds (d - d') = seconds d - seconds d' := by
  simp only [seconds, Int.cast_sub, sub_div]

theorem seconds_sum (ds : List ℤ) : (ds.map seconds).sum = seconds ds.sum := by
  induction ds with
  | nil => simp
  | cons d ds ih =>
    rw [map_cons, sum_cons, sum_cons, ih]
    simp only [seconds, Int.cast_add, add_div]

theorem seconds_le_iff {d d' : ℤ} : seconds d ≤ seconds d' ↔ d ≤ d' := by
  rw [seconds, seconds, div_le_div_iff_of_pos_right (by norm_num)]
  exact Int.cast_le

variable {d : ℤ}

theorem seconds_nonneg_iff : 0 ≤ seconds d ↔ 0 ≤ d := by
  rw [← seconds_zero, seconds_le_iff]

theorem seconds_pos_iff : 0 < seconds d ↔ 0 < d := by
  rw [lt_iff_not_ge, lt_iff_not_ge, ← seconds_zero, seconds_le_iff]

/-! ### The bucket of a key -/

theorem Limits.one_le_burst : (1 : ℚ) ≤ L.burst := by exact_mod_cast L.burst_pos

/-- The time that a call is credited with. -/
def credit : ℤ := max 0 (now - last)

theorem credit_nonneg : 0 ≤ credit last now := le_max_left _ _

theorem seconds_credit : seconds (credit last now) =
      if seconds (now - last) < 0 then 0 else seconds (now - last) := by
  rcases lt_or_ge (now - last) 0 with h | h
  · rw [credit, max_eq_left h.le, if_pos, seconds_zero]
    exact lt_of_not_ge fun hge => absurd (seconds_nonneg_iff.mp hge) (not_le.mpr h)
  · rw [credit, max_eq_right h, if_neg]
    exact not_lt.mpr (seconds_nonneg_iff.mpr h)

/-- A call on a bucket refills it and takes a token. -/
theorem RateLimiter.call_eq (lim : RateLimiter) (now : ℤ) : lim.call L now =
      let left := take
        (refill L.rate L.burst lim.tokens (seconds (credit lim.last now)))
      (left.1, ⟨left.2, now⟩) := by
  have hlevel (tokens : ℚ) :
      (if (L.burst : ℚ) < tokens then (L.burst : ℚ) else tokens) = min (L.burst : ℚ) tokens := by
    rcases lt_or_ge (L.burst : ℚ) tokens with h | h
    · rw [if_pos h, min_eq_left h.le]
    · rw [if_neg (not_lt.mpr h), min_eq_right h]
  rw [call, ← seconds_credit, hlevel]
  rcases lt_or_ge (refill L.rate L.burst lim.tokens (seconds (credit lim.last now))) 1 with h | h
  · rw [take_of_lt h]
    exact if_pos h
  · rw [take_of_le h]
    exact if_neg (not_lt.mpr h)

/-- The bucket that a call finds: a full one for a new key. -/
def bucket : RateLimiter :=
  (lookup s key).getD ⟨L.burst, now⟩

theorem RateLimiter.call_full : call L ⟨L.burst, now⟩ now = (true, ⟨L.burst - 1, now⟩) := by
  have hcredit : credit now now = 0 := by rw [credit, sub_self, max_self]
  rw [call_eq, hcredit, seconds_zero, refill_zero le_rfl, take_of_le L.one_le_burst]

/-- **What `Allow` does for its own key** is a call on the bucket. -/
theorem allow_eq :
    (allow L order s key now).1 = ((bucket L s key now).call L now).1 ∧
      lookup (allow L order s key now).2 key = some ((bucket L s key now).call L now).2 := by
  rw [bucket, lookup, lookup, allow]
  cases (s (getShard key)).lookup key with
  | none =>
    rw [getD_none, call_full]
    simp
  | some lim => simp

variable {order : MapOrder} {s : Shards} {lim : RateLimiter} {now : ℤ}

/-- What `Allow` does if nothing is evicted. -/
theorem allow_of_room {L : Limits} {key : Key}
    (hroom : lookup s key = none → (s (getShard key)).entries.length < maxEntriesPerShard) :
    (allow L order s key now).2 = Function.update s (getShard key)
      ((s (getShard key)).insert key ((bucket L s key now).call L now).2) := by
  rw [lookup] at hroom
  rw [bucket, lookup, allow]
  cases hlook : (s (getShard key)).lookup key with
  | none =>
    rw [getD_none, call_full]
    simp only [if_neg (not_le.mpr (hroom hlook))]
  | some lim => rfl

/-- The other keys keep their buckets if nothing is evicted. -/
theorem lookup_allow_of_ne {L : Limits} {key other : Key} (hne : other ≠ key)
    (hroom : lookup s key = none → (s (getShard key)).entries.length < maxEntriesPerShard) :
    lookup (allow L order s key now).2 other = lookup s other := by
  rw [allow_of_room hroom, lookup, lookup]
  rcases eq_or_ne (getShard other) (getShard key) with hi | hi
  · rw [hi, update_self, lookup_insert_ne hne]
  · rw [update_of_ne hi]

/-- Eviction only takes buckets away. -/
theorem lookup_of_evictOldest {shard : Shard} {key : Key}
    (h : (evictOldest order shard).lookup key = some lim) : shard.lookup key = some lim := by
  rw [evictOldest] at h
  generalize (sortEntries _ _).take deleteCount = evicted at h
  induction evicted generalizing shard with
  | nil => exact h
  | cons entry evicted ih =>
    have herased := ih h
    rcases eq_or_ne key entry.1 with rfl | hne
    · rw [lookup_erase] at herased
      cases herased
    · rwa [lookup_erase_ne hne] at herased

/-- A bucket after a call of `Allow` is the one of the call, or was there before. -/
theorem lookup_allow_cases {L : Limits} {key other : Key}
    (h : lookup (allow L order s key now).2 other = some lim) :
    other = key ∧ lim = ((bucket L s key now).call L now).2 ∨ lookup s other = some lim := by
  rcases eq_or_ne other key with rfl | hne
  · rw [(allow_eq L order s other now).2, some_inj] at h
    exact .inl ⟨rfl, h.symm⟩
  · right
    have hput {shard : Shard} {new : RateLimiter}
        (hshard : shard.lookup other = some lim → (s (getShard key)).lookup other = some lim)
        (h : lookup (Function.update s (getShard key) (shard.insert key new)) other = some lim) :
        lookup s other = some lim := by
      rw [lookup] at h ⊢
      rcases eq_or_ne (getShard other) (getShard key) with hi | hi
      · rw [hi, update_self, lookup_insert_ne hne] at h
        rw [hi]
        exact hshard h
      · rwa [update_of_ne hi] at h
    rw [allow] at h
    cases hlook : (s (getShard key)).lookup key with
    | none =>
      rw [hlook] at h
      refine hput ?_ h
      split
      · exact lookup_of_evictOldest
      · exact id
    | some old =>
      rw [hlook] at h
      exact hput id h

theorem lookup_cleanup (s : Shards) (now : ℤ) (key : Key) :
    lookup (cleanup L s now) key = (lookup s key).filter fun lim => ¬ L.ttl < now - lim.last := by
  ext lim
  rw [lookup, lookup, ← mem_def, mem_lookup_iff, ← mem_def, mem_filter_iff, mem_lookup_iff]
  exact mem_filter

/-! ### Reachable stores -/

/-- The states of a store. -/
inductive Reachable (L : Limits) : Shards → Prop
  | new : Reachable L newStore
  | allow {s : Shards} (order : MapOrder) (key : Key) (now : ℤ) :
      Reachable L s → Reachable L (allow L order s key now).2
  | cleanup {s : Shards} (now : ℤ) : Reachable L s → Reachable L (cleanup L s now)

/-- A bucket that is neither overdrawn nor overfull. -/
def RateLimiter.WithinBurst (lim : RateLimiter) : Prop :=
  0 ≤ lim.tokens ∧ lim.tokens ≤ L.burst

theorem RateLimiter.WithinBurst.call {L : Limits} (h : lim.WithinBurst L)
    (now : ℤ) : (lim.call L now).2.WithinBurst L := by
  have hlevel : 0 ≤ refill L.rate L.burst lim.tokens
      (seconds (credit lim.last now)) :=
    refill_nonneg L.rate_pos.le (zero_le_one.trans L.one_le_burst) h.1
      (seconds_nonneg_iff.mpr (credit_nonneg _ _))
  rw [call_eq]
  exact ⟨take_nonneg hlevel, take_le.trans (refill_le ..)⟩

theorem withinBurst_bucket {L : Limits} (now : ℤ)
    (h : ∀ lim, lookup s key = some lim → lim.WithinBurst L) :
    (bucket L s key now).WithinBurst L := by
  rw [bucket]
  cases hlook : lookup s key with
  | none => exact ⟨zero_le_one.trans L.one_le_burst, le_rfl⟩
  | some lim => exact h lim hlook

/-- **No bucket of a reachable store is overdrawn or overfull.** -/
theorem Reachable.withinBurst {L : Limits} (hs : Reachable L s) :
    ∀ {key lim}, lookup s key = some lim → lim.WithinBurst L := by
  induction hs with
  | new =>
    intro key lim h
    cases h
  | allow order key now _ ih =>
    intro other lim h
    rcases lookup_allow_cases h with ⟨rfl, rfl⟩ | hbefore
    · exact (withinBurst_bucket other now fun _ => ih).call now
    · exact ih hbefore
  | cleanup now _ ih =>
    intro key lim h
    rw [lookup_cleanup, filter_eq_some_iff] at h
    exact ih h.1

/-! ### Calls for one key

Whatever else is in the store, calls for one key are calls on its bucket, credited with the steps
forward from each time to the next. -/

/-- Calls for a key, each with its time, and their answers. -/
def callAll (L : Limits) (key : Key) : Shards → List (MapOrder × ℤ) → List Bool × Shards
  | s, [] => ([], s)
  | s, (order, now) :: rest =>
    ((allow L order s key now).1 :: (callAll L key (allow L order s key now).2 rest).1,
      (callAll L key (allow L order s key now).2 rest).2)

/-- The times that the calls are credited with. -/
def credits : ℤ → List ℤ → List ℤ
  | _, [] => []
  | last, now :: rest => credit last now :: credits now rest

/-- The steps forward from one time to the next, in all. -/
def forward : List ℤ → ℤ
  | [] => 0
  | now :: rest => (credits now rest).sum

theorem credits_nonneg {last : ℤ} {ts : List ℤ} : ∀ e ∈ credits last ts, 0 ≤ e := by
  induction ts generalizing last with
  | nil => exact nofun
  | cons now rest ih =>
    rw [credits, forall_mem_cons]
    exact ⟨credit_nonneg _ _, ih⟩

variable {L : Limits} {key : Key}

/-- Once there is a bucket, the answers are those of the bucket. -/
theorem callAll_of_lookup (hs : lookup s key = some lim) (calls : List (MapOrder × ℤ)) :
    (callAll L key s calls).1 = (run L.rate L.burst lim.tokens
      ((credits lim.last (calls.map Prod.snd)).map seconds)).1 := by
  induction calls generalizing s lim with
  | nil => rfl
  | cons call calls ih =>
    obtain ⟨hanswer, hnext⟩ := allow_eq L call.1 s key call.2
    have hbucket : bucket L s key call.2 = lim := by rw [bucket, hs, getD_some]
    rw [hbucket, call_eq] at hanswer hnext
    rw [callAll, map_cons, credits, map_cons, run_cons, ih hnext, hanswer]

/-- **The answers to calls for one key** are those of the bucket that the first call finds. -/
theorem callAll_cons (s : Shards) (call : MapOrder × ℤ) (calls : List (MapOrder × ℤ)) :
    (callAll L key s (call :: calls)).1 =
      (run L.rate L.burst (bucket L s key call.2).tokens
        ((credits (bucket L s key call.2).last
          (call.2 :: calls.map Prod.snd)).map seconds)).1 := by
  obtain ⟨hanswer, hnext⟩ := allow_eq L call.1 s key call.2
  rw [call_eq] at hanswer hnext
  rw [callAll, credits, map_cons, run_cons, callAll_of_lookup hnext, hanswer]

/-- **The bound with the steps forward.** -/
theorem granted_callAll_le (key : Key) (hs : Reachable L s) (calls : List (MapOrder × ℤ)) :
    (granted (callAll L key s calls).1 : ℚ) ≤
      L.burst + L.rate * seconds (forward (calls.map Prod.snd)) := by
  have hburst : (0 : ℚ) ≤ L.burst := zero_le_one.trans L.one_le_burst
  cases calls with
  | nil => simpa [callAll, forward] using hburst
  | cons call calls =>
    have hwithin := withinBurst_bucket key call.2 fun old => hs.withinBurst
    have hnonneg : ∀ e ∈ (credits (bucket L s key call.2).last
        (call.2 :: calls.map Prod.snd)).map seconds, 0 ≤ e := by
      rw [List.forall_mem_map]
      exact fun e he => seconds_nonneg_iff.mpr (credits_nonneg e he)
    rw [callAll_cons, map_cons, forward, mul_comm, ← seconds_sum]
    exact granted_cons_le L.rate_pos.le hburst hwithin.1 hnonneg

/-- A key without a bucket has a full one. -/
theorem callAll_of_lookup_none (hs : lookup s key = none) (call : MapOrder × ℤ)
    (calls : List (MapOrder × ℤ)) :
    (callAll L key s (call :: calls)).1 = true ::
      (run L.rate L.burst (L.burst - 1)
        ((credits call.2 (calls.map Prod.snd)).map seconds)).1 := by
  obtain ⟨hanswer, hnext⟩ := allow_eq L call.1 s key call.2
  have hbucket : bucket L s key call.2 = ⟨L.burst, call.2⟩ := by rw [bucket, hs, getD_none]
  rw [hbucket, call_full] at hanswer hnext
  rw [callAll, callAll_of_lookup hnext, hanswer]

end Kiya.RateLimit
