import Kiya.RateLimit.Store

/-!
# Sweeping idle buckets

A run of calls of `Allow` for any keys, with ticks of `cleanup` in between. A key that was swept
starts again with a full bucket. Nobody notices if a bucket that has not been used for longer than
the `ttl` is full in any case, which depends on three numbers that `New` takes one by one: the
shortest such time is `ttl + 1` nanoseconds, and the bucket may have been empty at its start.

The sweeps also make room in a shard, and what is evicted from a full shard differs with and without
them. `Uncrowded` runs have no more keys in a shard than it can hold, so that nothing is evicted.
-/

namespace Kiya.RateLimit

open TokenBucket RateLimiter List Option AList

/-! ### Runs -/

/-- What happens to a store. -/
inductive Event
  | allow (order : MapOrder) (key : Key) (now : ℤ)
  | sweep (now : ℤ)

namespace Event

/-- The time of a call, or of a tick. -/
def now : Event → ℤ
  | allow _ _ now => now
  | sweep now => now

def isAllow : Event → Bool
  | allow _ _ _ => true
  | sweep _ => false

def key? : Event → Option Key
  | allow _ key _ => some key
  | sweep _ => none

end Event

/-- The answers of `Allow` in a run. -/
def answers (L : Limits) : Shards → List Event → List Bool
  | _, [] => []
  | s, .allow order key now :: rest =>
    (allow L order s key now).1 :: answers L (allow L order s key now).2 rest
  | s, .sweep now :: rest => answers L (cleanup L s now) rest

/-- No call comes before an earlier call or an earlier tick. A tick may be late: its time is that of
the clock or an earlier one. -/
def Timely (es : List Event) : Prop := es.Pairwise fun e e' => e'.isAllow → e.now ≤ e'.now

/-- The keys of a run. -/
def keysOf (es : List Event) : Finset Key := (es.filterMap Event.key?).toFinset

/-- No shard gets more keys than it holds. -/
def Roomy (keys : Finset Key) : Prop :=
  ∀ i, (keys.filter fun key => getShard key = i).card ≤ maxEntriesPerShard

/-- A run in which nothing has to be evicted. -/
def Uncrowded (es : List Event) : Prop := Roomy (keysOf es)

/-! ### Room -/

/-- The shards hold some of the keys, each in its place. -/
def HeldBy (keys : Finset Key) (s : Shards) : Prop :=
  ∀ i, ∀ key ∈ s i, key ∈ keys ∧ getShard key = i

variable {L : Limits} {keys : Finset Key} {s u : Shards}

theorem heldBy_newStore : HeldBy keys newStore := fun _ _ hkey => absurd hkey (notMem_empty _)

variable {key : Key} {es : List Event} {now : ℤ}

/-- There is room for a new one of the keys. -/
theorem HeldBy.room (h : HeldBy keys s) (hkeys : Roomy keys) (hkey : key ∈ keys)
    (hnew : lookup s key = none) : (s (getShard key)).entries.length < maxEntriesPerShard := by
  rw [lookup, lookup_eq_none] at hnew
  have hsub : (s (getShard key)).keys.toFinset ⊂
      keys.filter fun other => getShard other = getShard key := by
    refine Finset.ssubset_iff_of_subset (fun other hother => ?_) |>.mpr ⟨key, ?_, ?_⟩
    · rw [List.mem_toFinset, ← AList.mem_keys] at hother
      exact Finset.mem_filter.mpr (h _ other hother)
    · exact Finset.mem_filter.mpr ⟨hkey, rfl⟩
    · rwa [List.mem_toFinset, ← AList.mem_keys]
  calc (s (getShard key)).entries.length
      = (s (getShard key)).keys.toFinset.card := by
        rw [toFinset_card_of_nodup (keys_nodup _), AList.keys, List.keys, length_map]
    _ < (keys.filter fun other => getShard other = getShard key).card := Finset.card_lt_card hsub
    _ ≤ maxEntriesPerShard := hkeys _

theorem HeldBy.allow (h : HeldBy keys s) (hkeys : Roomy keys) (order : MapOrder) (hkey : key ∈ keys)
    (now : ℤ) : HeldBy keys (allow L order s key now).2 := by
  intro i other hother
  rw [allow_of_room (h.room hkeys hkey)] at hother
  rcases eq_or_ne i (getShard key) with rfl | hi
  · rw [Function.update_self, mem_insert] at hother
    rcases hother with rfl | hother
    · exact ⟨hkey, rfl⟩
    · exact h _ other hother
  · rw [Function.update_of_ne hi] at hother
    exact h i other hother

theorem HeldBy.cleanup (h : HeldBy keys s) (now : ℤ) : HeldBy keys (cleanup L s now) := by
  intro i key hkey
  exact h i key ((filter_sublist.map Sigma.fst).subset hkey)

/-! ### Forgotten buckets -/

/-- A bucket that is full whenever one of the calls comes. -/
def Idle (L : Limits) (es : List Event) (lim : RateLimiter) : Prop :=
  lim.WithinBurst L ∧ ∀ e ∈ es, e.isAllow → L.ttl < e.now - lim.last

/-- The store `s` is the store `u` without some buckets that are idle before the run `es`. -/
def Forgets (L : Limits) (es : List Event) (s u : Shards) : Prop :=
  ∀ key, lookup s key = lookup u key ∨
    lookup s key = none ∧ ∃ lim, lookup u key = some lim ∧ Idle L es lim

variable {e : Event} {lim : RateLimiter} {order : MapOrder}

theorem Idle.tail (h : Idle L (e :: es) lim) : Idle L es lim :=
  ⟨h.1, fun e' he' => h.2 e' (mem_cons_of_mem _ he')⟩

theorem Forgets.tail (h : Forgets L (e :: es) s u) : Forgets L es s u := by
  intro key
  rcases h key with heq | ⟨hnone, lim, hlim, hidle⟩
  · exact .inl heq
  · exact .inr ⟨hnone, lim, hlim, hidle.tail⟩

/-- A bucket that has been idle for longer than the `ttl` is full. -/
theorem call_of_idle (hfull : L.burst ≤ seconds (L.ttl + 1) * L.rate) (hlim : lim.WithinBurst L)
    (hnow : L.ttl < now - lim.last) : lim.call L now = call L ⟨L.burst, now⟩ now := by
  have hcredit : seconds (L.ttl + 1) ≤ seconds (credit lim.last now) :=
    seconds_le_iff.mpr (le_max_of_le_right hnow)
  have hlevel : (L.burst : ℚ) ≤ lim.tokens + seconds (credit lim.last now) * L.rate := by
    have hgain := mul_le_mul_of_nonneg_right hcredit L.rate_pos.le
    linarith [hlim.1]
  rw [call_full, call_eq, refill_of_le hlevel, take_of_le L.one_le_burst]

/-- The call of a key finds the same bucket with and without the sweeps, or one that is as full. -/
theorem Forgets.call_eq (hfull : L.burst ≤ seconds (L.ttl + 1) * L.rate)
    (h : Forgets L (.allow order key now :: es) s u) :
    (bucket L s key now).call L now = (bucket L u key now).call L now := by
  rcases h key with heq | ⟨hnone, lim, hlim, hidle⟩
  · rw [bucket, bucket, heq]
  · rw [bucket, bucket, hnone, hlim, getD_none, getD_some]
    exact (call_of_idle hfull hidle.1 (hidle.2 _ mem_cons_self rfl)).symm

theorem Forgets.allow (hfull : L.burst ≤ seconds (L.ttl + 1) * L.rate)
    (h : Forgets L (.allow order key now :: es) s u)
    (hs : lookup s key = none → (s (getShard key)).entries.length < maxEntriesPerShard)
    (hu : lookup u key = none → (u (getShard key)).entries.length < maxEntriesPerShard) :
    Forgets L es (allow L order s key now).2 (allow L order u key now).2 := by
  intro other
  rcases eq_or_ne other key with rfl | hne
  · left
    rw [(allow_eq L order s other now).2, (allow_eq L order u other now).2, h.call_eq hfull]
  · rw [lookup_allow_of_ne hne hs, lookup_allow_of_ne hne hu]
    exact h.tail other

/-- A sweep forgets buckets that are idle before every later call. -/
theorem Forgets.cleanup (h : Forgets L (.sweep now :: es) s u)
    (hu : Reachable L u) (htime : ∀ e ∈ es, e.isAllow → now ≤ e.now) :
    Forgets L es (cleanup L s now) u := by
  intro key
  rw [lookup_cleanup]
  rcases h.tail key with heq | ⟨hnone, hidle⟩
  · rw [heq]
    cases hlook : lookup u key with
    | none => exact .inl rfl
    | some lim =>
      by_cases hswept : L.ttl < now - lim.last
      · refine .inr ⟨filter_eq_none_iff.mpr ?_, lim, rfl, hu.withinBurst hlook, ?_⟩
        · rintro _ ⟨⟩ hkept
          exact of_decide_eq_true hkept hswept
        · intro e he hallow
          exact hswept.trans_le (sub_le_sub_right (htime e he hallow) _)
      · left
        rw [filter_some, if_pos (decide_eq_true hswept)]
  · exact .inr ⟨by rw [hnone]; rfl, hidle⟩

/-- Runs from related stores give the same answers, whether the sweeps are in them or not. -/
theorem answers_eq_of_forgets (hfull : L.burst ≤ seconds (L.ttl + 1) * L.rate)
    (hkeys : Roomy keys) (htimely : Timely es) (hes : keysOf es ⊆ keys)
    (h : Forgets L es s u) (hu : Reachable L u) (hsheld : HeldBy keys s) (huheld : HeldBy keys u) :
    answers L s es = answers L u (es.filter Event.isAllow) := by
  induction es generalizing s u with
  | nil => rfl
  | cons e es ih =>
    rw [Timely, pairwise_cons] at htimely
    cases e with
    | allow order key now =>
      have hkey : key ∈ keys := hes (by simp [keysOf, Event.key?])
      have hrest : keysOf es ⊆ keys := by
        refine Finset.Subset.trans ?_ hes
        intro other
        simp only [keysOf, List.mem_toFinset, mem_filterMap]
        rintro ⟨e, he, hother⟩
        exact ⟨e, mem_cons_of_mem _ he, hother⟩
      rw [filter_cons_of_pos rfl, answers, answers, (allow_eq L order s key now).1,
        (allow_eq L order u key now).1, h.call_eq hfull]
      rw [ih htimely.2 hrest
        (h.allow hfull (hsheld.room hkeys hkey) (huheld.room hkeys hkey)) (hu.allow order key now)
        (hsheld.allow hkeys order hkey now) (huheld.allow hkeys order hkey now)]
    | sweep now =>
      rw [filter_cons_of_neg (by simp [Event.isAllow]), answers]
      exact ih htimely.2 hes (h.cleanup hu htimely.1) hu (hsheld.cleanup now) huheld

/-! ### A run that tells -/

/-- The calls for one key, as a run. -/
def callsFor (key : Key) (calls : List (MapOrder × ℤ)) : List Event :=
  calls.map fun call => .allow call.1 key call.2

/-- As many calls at one time as the burst allows. -/
def burstAt (L : Limits) (now : ℤ) : List (MapOrder × ℤ) :=
  List.replicate L.burst.toNat (.asKept, now)

/-- A run for one key that uses up the bucket, waits until it is swept, and tries to use it up
again. -/
def emptyTwice (L : Limits) (key : Key) : List Event :=
  callsFor key (burstAt L 0) ++ .sweep (L.ttl + 1) :: callsFor key (burstAt L (L.ttl + 1))

theorem answers_callsFor (L : Limits) (s : Shards) (key : Key) (calls : List (MapOrder × ℤ))
    (es : List Event) : answers L s (callsFor key calls ++ es) =
      (callAll L key s calls).1 ++ answers L (callAll L key s calls).2 es := by
  induction calls generalizing s with
  | nil => rfl
  | cons call calls ih => exact congrArg _ (ih _)

theorem filter_emptyTwice (L : Limits) (key : Key) : (emptyTwice L key).filter Event.isAllow =
      callsFor key (burstAt L 0 ++ burstAt L (L.ttl + 1)) := by
  have hall (calls : List (MapOrder × ℤ)) :
      (callsFor key calls).filter Event.isAllow = callsFor key calls := by
    refine filter_eq_self.mpr fun e he => ?_
    obtain ⟨call, -, rfl⟩ := List.mem_map.mp he
    rfl
  rw [emptyTwice, filter_append, filter_cons_of_neg (by simp [Event.isAllow]), hall, hall,
    callsFor, callsFor, callsFor, map_append]

theorem timely_emptyTwice (L : Limits) (key : Key) : Timely (emptyTwice L key) := by
  have hnow {calls : List (MapOrder × ℤ)} {now : ℤ} (hcalls : ∀ c ∈ calls, c.2 = now) :
      ∀ e ∈ callsFor key calls, e.now = now := by
    rintro e he
    obtain ⟨call, hcall, rfl⟩ := List.mem_map.mp he
    exact hcalls call hcall
  have hburst (now : ℤ) : ∀ e ∈ callsFor key (burstAt L now), e.now = now :=
    hnow fun c hc => by rw [eq_of_mem_replicate hc]
  have hsame (now : ℤ) : Timely (callsFor key (burstAt L now)) :=
    pairwise_of_forall_mem_list fun e he e' he' _ => by rw [hburst now e he, hburst now e' he']
  refine pairwise_append.mpr ⟨hsame 0, pairwise_cons.mpr ⟨?_, hsame _⟩, ?_⟩
  · intro e he _
    rw [hburst _ e he]
    rfl
  · intro e he e' he' _
    have hlater : e'.now = L.ttl + 1 := by
      rcases mem_cons.mp he' with rfl | he'
      · rfl
      · exact hburst _ e' he'
    rw [hburst 0 e he, hlater]
    exact (L.ttl_pos.trans (lt_add_one _)).le

theorem uncrowded_emptyTwice (L : Limits) (key : Key) : Uncrowded (emptyTwice L key) := by
  have hkeys : keysOf (emptyTwice L key) ⊆ {key} := by
    intro other hother
    rw [keysOf, List.mem_toFinset, mem_filterMap] at hother
    obtain ⟨e, he, hkey⟩ := hother
    have hcalls {calls : List (MapOrder × ℤ)} (h : e ∈ callsFor key calls) : other = key := by
      obtain ⟨call, -, rfl⟩ := List.mem_map.mp h
      exact (some_inj.mp hkey).symm
    rw [Finset.mem_singleton]
    rcases mem_append.mp he with h | h
    · exact hcalls h
    · rcases mem_cons.mp h with rfl | h
      · cases hkey
      · exact hcalls h
  intro i
  calc ((keysOf (emptyTwice L key)).filter fun other => getShard other = i).card
      ≤ (keysOf (emptyTwice L key)).card := Finset.card_filter_le _ _
    _ ≤ ({key} : Finset Key).card := Finset.card_le_card hkeys
    _ ≤ maxEntriesPerShard := by rw [Finset.card_singleton]; decide

theorem credits_replicate (n : ℕ) (now : ℤ) :
    credits now (List.replicate n now) = List.replicate n 0 := by
  induction n with
  | zero => rfl
  | succ n ih =>
    rw [replicate_succ, credits, ih, credit, sub_self, max_self, replicate_succ]

theorem Limits.toNat_burst (L : Limits) :
    ∃ n : ℕ, L.burst.toNat = n + 1 ∧ (L.burst : ℚ) = n + 1 := by
  obtain ⟨n, hn⟩ := Int.eq_succ_of_zero_lt L.burst_pos
  refine ⟨n, by rw [hn]; rfl, ?_⟩
  rw [hn]
  push_cast
  rfl

/-- A new bucket allows the burst. -/
theorem callAll_burstAt (hs : lookup s key = none) (now : ℤ) :
    (callAll L key s (burstAt L now)).1 = List.replicate L.burst.toNat true := by
  obtain ⟨n, hn, hburst⟩ := L.toNat_burst
  have hleft : (L.burst : ℚ) - 1 = n := by rw [hburst, add_sub_cancel_right]
  have hle : (n : ℚ) ≤ L.burst := by rw [← hleft]; exact sub_le_self _ zero_le_one
  rw [burstAt, hn, replicate_succ, callAll_of_lookup_none hs, map_replicate,
    credits_replicate, map_replicate, seconds_zero, run_of_full n hle hleft,
    replicate_succ]

/-- The sweep after the calls takes the bucket away. -/
theorem lookup_swept (key : Key) :
    lookup (cleanup L (callAll L key newStore (burstAt L 0)).2 (L.ttl + 1)) key = none := by
  have hlast (s : Shards) (hs : ∀ lim, lookup s key = some lim → lim.last = 0) (n : ℕ) :
      ∀ lim, lookup (callAll L key s (List.replicate n (.asKept, 0))).2 key = some lim →
        lim.last = 0 := by
    induction n generalizing s with
    | zero => exact hs
    | succ n ih =>
      refine ih _ fun lim hlim => ?_
      rw [(allow_eq L .asKept s key 0).2, call_eq, some_inj] at hlim
      rw [← hlim]
  rw [lookup_cleanup, filter_eq_none_iff]
  intro lim hlim hkept
  refine of_decide_eq_true hkept ?_
  rw [hlast newStore (fun lim h => by cases h) _ lim hlim, sub_zero]
  exact lt_add_one _

theorem forward_emptyTwice (n : ℕ) (hnow : 0 ≤ now) :
    forward (List.replicate (n + 1) 0 ++ List.replicate (n + 1) now) = now := by
  have hskip (m : ℕ) (ts : List ℤ) :
      (credits 0 (List.replicate m 0 ++ ts)).sum = (credits 0 ts).sum := by
    induction m with
    | zero => rfl
    | succ m ih =>
      rw [replicate_succ, cons_append, credits, sum_cons, ih, credit, sub_self, max_self, zero_add]
  rw [replicate_succ, cons_append, forward, hskip, replicate_succ, credits,
    credits_replicate, sum_cons, sum_replicate, smul_zero, add_zero, credit, sub_zero,
    max_eq_right hnow]

/-- With the sweep all calls are allowed. -/
theorem answers_emptyTwice (L : Limits) (key : Key) :
    answers L newStore (emptyTwice L key) =
      List.replicate (L.burst.toNat + L.burst.toNat) true := by
  have hlast := answers_callsFor L
    (cleanup L (callAll L key newStore (burstAt L 0)).2 (L.ttl + 1)) key
    (burstAt L (L.ttl + 1)) []
  rw [append_nil, answers, append_nil] at hlast
  rw [emptyTwice, answers_callsFor, answers, hlast, callAll_burstAt rfl,
    callAll_burstAt (lookup_swept key), replicate_append_replicate]

/-- **Sweeping is unobservable** in the runs in which nothing is evicted exactly if a bucket fills
up in the shortest time after which it is swept. -/
theorem sweep_unobservable_iff (L : Limits) :
    (∀ es : List Event, Timely es → Uncrowded es →
        answers L newStore es = answers L newStore (es.filter Event.isAllow)) ↔
      L.burst ≤ seconds (L.ttl + 1) * L.rate := by
  constructor
  · intro hall
    obtain ⟨n, hn, hburst⟩ := L.toNat_burst
    have heq := hall (emptyTwice L []) (timely_emptyTwice L []) (uncrowded_emptyTwice L [])
    have hcalls := answers_callsFor L newStore [] (burstAt L 0 ++ burstAt L (L.ttl + 1)) []
    rw [append_nil, answers, append_nil] at hcalls
    rw [answers_emptyTwice, filter_emptyTwice, hcalls] at heq
    have hbound := granted_callAll_le [] (.new : Reachable L newStore)
      (burstAt L 0 ++ burstAt L (L.ttl + 1))
    have hforward := forward_emptyTwice n (L.ttl_pos.trans (lt_add_one _)).le
    rw [← heq, granted, count_replicate_self, map_append, burstAt, burstAt,
      map_replicate, map_replicate, hn, hforward] at hbound
    push_cast at hbound
    linarith
  · intro hfull es htimely huncrowded
    exact answers_eq_of_forgets hfull huncrowded htimely Finset.Subset.rfl
      (fun _ => .inl rfl) .new heldBy_newStore heldBy_newStore

/-- One call in about a quarter of an hour and a burst of two, with the default of five minutes for
the `ttl`. -/
def slowRefill : Limits := RateLimiterConfig.limits ⟨1 / 1000, 2, 0⟩

/-- After five minutes without a call the bucket is swept, and two calls are allowed that would not
be otherwise. -/
theorem slowRefill_sweep_observed :
    Timely (emptyTwice slowRefill (utf8 "k")) ∧
      answers slowRefill newStore (emptyTwice slowRefill (utf8 "k")) = [true, true, true, true] ∧
      answers slowRefill newStore ((emptyTwice slowRefill (utf8 "k")).filter Event.isAllow) =
        [true, true, false, false] :=
  ⟨timely_emptyTwice _ _, by decide +kernel, by decide +kernel⟩

end Kiya.RateLimit
