import Kiya.RateLimit.Store

/-!
# Concurrent calls for one key

Calls of `Allow` for one key run at the same time. Each reads the clock, and later has the shard for
itself; which of the waiting calls comes next is open, so that the times can come to the bucket in
any order. `Run` is a run of the calls with what they return, in the order in which they have had
the shard.

`Allow` sets `last` to the time of the call even if that is before `last`, and then the time in
between is credited once more. What is credited in a run is therefore the sum of all steps forward
from one call to the next, `forward`, and the bound with the time between the first and the last
timestamp holds for all rates and bursts exactly if that sum is no larger.
-/

namespace Kiya.RateLimit

open TokenBucket List Function

/-! ### Runs -/

/-- How far a call has come. -/
inductive Phase
  | start
  | waiting (now : ℤ)
  | returned

/-- The store, the clock and the calls. -/
structure World where
  shards : Shards
  clock : ℤ
  phase : ℕ → Phase

/-- A call reads the clock. -/
def World.read (w : World) (call : ℕ) (now : ℤ) : World :=
  { w with clock := now, phase := Function.update w.phase call (.waiting now) }

/-- A call has the shard for itself. -/
def World.enter (L : Limits) (order : MapOrder) (key : Key) (w : World) (call : ℕ) (now : ℤ) :
    World :=
  { w with
    shards := (allow L order w.shards key now).2
    phase := Function.update w.phase call .returned }

/-- What a call has returned, and the time that it had read. -/
structure Return where
  now : ℤ
  answer : Bool

open Return

/-- A run of concurrent calls, with what they return in the order in which they enter. -/
inductive Run (L : Limits) (key : Key) : World → List Return → World → Prop
  | nil (w : World) : Run L key w [] w
  | read {w w' : World} {rs : List Return} (call : ℕ) (now : ℤ) :
      w.phase call = .start → w.clock ≤ now → Run L key (w.read call now) rs w' → Run L key w rs w'
  | enter {w w' : World} {rs : List Return} (order : MapOrder) (call : ℕ) (now : ℤ) :
      w.phase call = .waiting now → Run L key (w.enter L order key call now) rs w' →
      Run L key w (⟨now, (allow L order w.shards key now).1⟩ :: rs) w'

/-- Before the calls: the store has come about somehow, and no call has begun. -/
structure World.Initial (L : Limits) (w : World) : Prop where
  reachable : Reachable L w.shards
  start : ∀ call, w.phase call = .start

/-- The number of calls that return true. -/
def admitted (rs : List Return) : ℕ := granted (rs.map Return.answer)

/-! ### Timestamps -/

/-- The time from the earliest timestamp to the latest one. -/
def span : List ℤ → ℤ
  | [] => 0
  | now :: rest => rest.foldr max now - rest.foldr min now

theorem le_foldr_max (now : ℤ) (rest : List ℤ) : now ≤ rest.foldr max now := by
  induction rest with
  | nil => exact le_rfl
  | cons t rest ih => exact ih.trans (le_max_right _ _)

theorem foldr_min_le (now : ℤ) (rest : List ℤ) : rest.foldr min now ≤ now := by
  induction rest with
  | nil => exact le_rfl
  | cons t rest ih => exact (min_le_right _ _).trans ih

theorem span_nonneg (ts : List ℤ) : 0 ≤ span ts := by
  cases ts with
  | nil => exact le_rfl
  | cons now rest => exact sub_nonneg.mpr ((foldr_min_le now rest).trans (le_foldr_max now rest))

/-! ### The bound -/

variable {L : Limits} {key : Key}

/-- The calls of a run are calls one after the other. -/
theorem Run.exists_calls {w w' : World} {rs : List Return} (h : Run L key w rs w') :
    ∃ calls : List (MapOrder × ℤ), calls.map Prod.snd = rs.map Return.now ∧
      (callAll L key w.shards calls).1 = rs.map Return.answer := by
  induction h with
  | nil w => exact ⟨[], rfl, rfl⟩
  | read _ _ _ _ _ ih => exact ih
  | enter order call now _ _ ih =>
    obtain ⟨calls, hnow, hanswers⟩ := ih
    exact ⟨(order, now) :: calls, by rw [map_cons, map_cons, hnow],
      by rw [callAll, map_cons]; exact congrArg _ hanswers⟩

/-! ### Every order of timestamps

Any list of timestamps is the order in which some calls enter: they read the clock one after the
other, as it goes on, and enter only when all of them have read it. -/

/-- Waiting calls can enter in any order. -/
theorem exists_run_of_waiting (L : Limits) (key : Key) (calls : List (ℤ × ℕ))
    (hcalls : (calls.map Prod.snd).Nodup) (w : World)
    (hw : ∀ c ∈ calls, w.phase c.2 = .waiting c.1) :
    ∃ rs w', Run L key w rs w' ∧ rs.map Return.now = calls.map Prod.fst := by
  induction calls generalizing w with
  | nil => exact ⟨[], w, .nil w, rfl⟩
  | cons c calls ih =>
    rw [map_cons, nodup_cons] at hcalls
    rw [forall_mem_cons] at hw
    have hrest : ∀ c' ∈ calls, (w.enter L .asKept key c.2 c.1).phase c'.2 = .waiting c'.1 := by
      intro c' hc'
      have hne : c'.2 ≠ c.2 := fun heq => hcalls.1 (heq ▸ mem_map_of_mem hc')
      exact (update_of_ne hne _ _).trans (hw.2 c' hc')
    obtain ⟨rs, w', hrun, hnow⟩ := ih hcalls.2 (w.enter L .asKept key c.2 c.1) hrest
    exact ⟨_, w', .enter .asKept c.2 c.1 hw.1 hrun, by rw [map_cons, map_cons, hnow]⟩

/-- Calls can read the clock one after the other. -/
theorem run_of_reads (L : Limits) (key : Key) (calls : List (ℤ × ℕ))
    (hcalls : (calls.map Prod.snd).Nodup) (hsorted : calls.Pairwise fun c c' => c.1 ≤ c'.1)
    (w : World) (hstart : ∀ c ∈ calls, w.phase c.2 = .start) (hclock : ∀ c ∈ calls, w.clock ≤ c.1) :
    ∃ v : World, v.shards = w.shards ∧ (∀ c ∈ calls, v.phase c.2 = .waiting c.1) ∧
      (∀ call, call ∉ calls.map Prod.snd → v.phase call = w.phase call) ∧
      ∀ rs w', Run L key v rs w' → Run L key w rs w' := by
  induction calls generalizing w with
  | nil => exact ⟨w, rfl, nofun, fun _ _ => rfl, fun _ _ => id⟩
  | cons c calls ih =>
    rw [map_cons, nodup_cons] at hcalls
    rw [pairwise_cons] at hsorted
    rw [forall_mem_cons] at hstart hclock
    have hother {call : ℕ} (hne : call ≠ c.2) : (w.read c.2 c.1).phase call = w.phase call :=
      update_of_ne hne _ _
    obtain ⟨v, hshards, hwaiting, hsame, hrun⟩ := ih hcalls.2 hsorted.2 (w.read c.2 c.1)
      (fun c' hc' => (hother fun heq => hcalls.1 (heq ▸ mem_map_of_mem hc')).trans
        (hstart.2 c' hc')) hsorted.1
    refine ⟨v, hshards, forall_mem_cons.mpr ⟨?_, hwaiting⟩, fun call hcall => ?_,
      fun rs w' h => .read c.2 c.1 hstart.1 hclock.1 (hrun rs w' h)⟩
    · exact (hsame c.2 hcalls.1).trans (update_self ..)
    · rw [map_cons, mem_cons, not_or] at hcall
      exact (hsame call hcall.2).trans (hother hcall.1)

/-- **Every list of timestamps is the order of some run** on a new store. -/
theorem exists_run (L : Limits) (key : Key) (ts : List ℤ) :
    ∃ w w' rs, w.Initial L ∧ w.shards = newStore ∧ Run L key w rs w' ∧
      rs.map Return.now = ts := by
  -- The calls in the order of their timestamps, and a clock that is behind all of these.
  let sorted := ts.zipIdx.insertionSort fun c c' => c.1 ≤ c'.1
  have hperm : sorted.Perm ts.zipIdx := perm_insertionSort _ _
  have hsorted : sorted.Pairwise fun c c' => c.1 ≤ c'.1 := pairwise_insertionSort _ _
  have hnodup : (ts.zipIdx.map Prod.snd).Nodup := by
    rw [zipIdx_map_snd]
    exact nodup_range'
  obtain ⟨clock, hclock⟩ : ∃ clock, ∀ c ∈ sorted, clock ≤ c.1 := by
    cases hcases : sorted with
    | nil => exact ⟨0, nofun⟩
    | cons c rest =>
      rw [hcases, pairwise_cons] at hsorted
      exact ⟨c.1, forall_mem_cons.mpr ⟨le_rfl, hsorted.1⟩⟩
  let w : World := ⟨newStore, clock, fun _ => .start⟩
  obtain ⟨v, hshards, hwaiting, -, hrun⟩ := run_of_reads L key sorted
    ((hperm.map Prod.snd).nodup_iff.mpr hnodup) hsorted w (fun _ _ => rfl) hclock
  obtain ⟨rs, w', hv, hnow⟩ := exists_run_of_waiting L key ts.zipIdx hnodup v
    fun c hc => hwaiting c (hperm.mem_iff.mpr hc)
  refine ⟨w, w', rs, ⟨.new, fun _ => rfl⟩, rfl, hrun rs w' hv, ?_⟩
  rw [hnow, zipIdx_map_fst]

/-- With the burst 1 and a rate at which the steps forward bring one token, two calls on a new store
return true. -/
theorem two_le_granted {calls : List (MapOrder × ℤ)} (hburst : L.burst = 1)
    (hpos : 0 < forward (calls.map Prod.snd))
    (hrate : seconds (forward (calls.map Prod.snd)) * L.rate = 1) :
    2 ≤ granted (callAll L key newStore calls).1 := by
  cases calls with
  | nil => exact absurd hpos (lt_irrefl 0)
  | cons call calls =>
    have hzero : (L.burst : ℚ) - 1 = 0 := by rw [hburst, Int.cast_one, sub_self]
    have hne : (credits call.2 (calls.map Prod.snd)).map seconds ≠ [] := by
      intro hnil
      rw [map_cons, forward, map_eq_nil_iff.mp hnil] at hpos
      exact absurd hpos (lt_irrefl 0)
    have hmore : 0 < granted (run L.rate L.burst ((L.burst : ℚ) - 1)
        ((credits call.2 (calls.map Prod.snd)).map seconds)).1 := by
      refine granted_pos L.one_le_burst hne ?_
      rw [hzero, zero_add, seconds_sum]
      exact hrate.ge
    rw [callAll_of_lookup_none rfl, granted_cons, if_pos rfl]
    omega

/-- **The rate limit under concurrency.** Calls that enter with the timestamps `ts`, in this order,
keep the bound for every rate and burst exactly if the steps forward are no more than the time
between the earliest and the latest timestamp. -/
theorem rate_bound_iff (key : Key) (ts : List ℤ) :
    (∀ (L : Limits) (w w' : World) (rs : List Return), w.Initial L → Run L key w rs w' →
        rs.map Return.now = ts →
        (admitted rs : ℚ) ≤ L.burst + L.rate * seconds (span ts)) ↔
      forward ts ≤ span ts := by
  constructor
  · intro hall
    by_contra hlt
    rw [not_le] at hlt
    have hpos : 0 < forward ts := (span_nonneg ts).trans_lt hlt
    have hsec : 0 < seconds (forward ts) := seconds_pos_iff.mpr hpos
    let L : Limits := ⟨1 / seconds (forward ts), 1, 1, one_div_pos.mpr hsec, one_pos, one_pos⟩
    obtain ⟨w, w', rs, hw, hnew, hrun, hnow⟩ := exists_run L key ts
    obtain ⟨calls, hcalls, hanswers⟩ := hrun.exists_calls
    rw [hnow] at hcalls
    have htwo : (2 : ℚ) ≤ admitted rs := by
      rw [admitted, ← hanswers, hnew]
      exact_mod_cast two_le_granted (L := L) rfl (hcalls ▸ hpos)
        (by rw [hcalls]; exact mul_one_div_cancel hsec.ne')
    have hbound := hall L w w' rs hw hrun hnow
    have hless : L.rate * seconds (span ts) < 1 := by
      rw [show L.rate = 1 / seconds (forward ts) from rfl, one_div_mul_eq_div, div_lt_one hsec]
      exact lt_of_not_ge fun hge => absurd (seconds_le_iff.mp hge) (not_le.mpr hlt)
    rw [show (L.burst : ℚ) = 1 by exact Int.cast_one] at hbound
    linarith
  · intro hle L w w' rs hw hrun hnow
    obtain ⟨calls, hcalls, hanswers⟩ := hrun.exists_calls
    have hbound := granted_callAll_le key hw.reachable calls
    rw [hanswers, hcalls, hnow] at hbound
    have hmono := mul_le_mul_of_nonneg_left (seconds_le_iff.mpr hle) L.rate_pos.le
    exact hbound.trans (add_le_add_right hmono _)

/-- Two of four calls read the clock at the start and two ten seconds later, and they enter in
turns: the ten seconds are credited twice, and three calls return true where the bound is two. -/
theorem ten_seconds_credited_twice :
    ∃ (w w' : World) (rs : List Return), w.Initial everyTenSeconds ∧
      Run everyTenSeconds (utf8 "k") w rs w' ∧
      rs.map Return.now = [0, 10000000000, 0, 10000000000] ∧
      everyTenSeconds.burst + everyTenSeconds.rate * seconds (span (rs.map Return.now)) <
        (admitted rs : ℚ) := by
  refine ⟨⟨newStore, 0, fun _ => .start⟩, _, _, ⟨.new, fun _ => rfl⟩,
    .read 0 0 rfl le_rfl <|
    .read 2 0 rfl le_rfl <|
    .read 1 10000000000 rfl (by decide) <|
    .read 3 10000000000 rfl le_rfl <|
    .enter .asKept 0 0 rfl <|
    .enter .asKept 1 10000000000 rfl <|
    .enter .asKept 2 0 rfl <|
    .enter .asKept 3 10000000000 rfl <| .nil _, rfl, ?_⟩
  decide +kernel

end Kiya.RateLimit
