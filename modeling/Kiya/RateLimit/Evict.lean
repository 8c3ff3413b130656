import Kiya.RateLimit.Store

/-!
# The memory of the limiter

A shard holds at most `maxEntriesPerShard` buckets. When a new key comes to a full one,
`evictOldest` takes a tenth of them away: it sorts a snapshot of the map by the time of the last use
and deletes the keys at its beginning. The sort exchanges the entry in front with every older one
behind it, so that after a round the oldest entry is in front (`oldestFirst_le`), and what comes out
is sorted (`pairwise_sortEntries`), whatever the order of the snapshot; entries of the same time may
come in any order.

`cleanup` locks one shard after the other, with calls of `Allow` in between. A run here sweeps each
shard on its own.
-/

namespace Kiya.RateLimit

open List Option Function AList

/-! ### The sizes of maps -/

section

variable {α : Type} {β : α → Type} [DecidableEq α] {s : AList β} {a : α}

theorem length_keys_erase (h : a ∈ s) : (s.erase a).keys.length + 1 = s.keys.length := by
  have hpos := length_pos_of_mem (AList.mem_keys.mp h)
  rw [keys_erase, length_erase_of_mem (AList.mem_keys.mp h)]
  omega

theorem length_keys_insert_of_mem (h : a ∈ s) (b : β a) :
    (s.insert a b).keys.length = s.keys.length := by
  rw [keys_insert, length_cons, ← keys_erase, length_keys_erase h]

theorem length_keys_insert_of_notMem (h : a ∉ s) (b : β a) :
    (s.insert a b).keys.length = s.keys.length + 1 := by
  rw [keys_insert, length_cons, erase_of_not_mem (AList.mem_keys.not.mp h)]

theorem length_keys_insert_le (b : β a) : (s.insert a b).keys.length ≤ s.keys.length + 1 := by
  rw [keys_insert, length_cons]
  exact Nat.succ_le_succ erase_sublist.length_le

end

/-! ### The sort -/

/-- After a round the same entries are there. -/
theorem oldestFirst_perm (first : Key × ℤ) (rest : List (Key × ℤ)) :
    ((oldestFirst first rest).1 :: (oldestFirst first rest).2).Perm (first :: rest) := by
  induction rest generalizing first with
  | nil => exact .rfl
  | cons entry rest ih =>
    rw [oldestFirst]
    split
    · exact (List.Perm.swap _ _ _).trans ((ih entry).cons first)
    · exact ((List.Perm.swap _ _ _).trans ((ih first).cons entry)).trans (List.Perm.swap _ _ _)

/-- After a round the oldest entry is in front. -/
theorem oldestFirst_le (first : Key × ℤ) (rest : List (Key × ℤ)) :
    (oldestFirst first rest).1.2 ≤ first.2 ∧
      ∀ e ∈ (oldestFirst first rest).2, (oldestFirst first rest).1.2 ≤ e.2 := by
  induction rest generalizing first with
  | nil => exact ⟨le_rfl, nofun⟩
  | cons entry rest ih =>
    rw [oldestFirst]
    split
    · rename_i hlt
      have hle := (ih entry).1.trans hlt.le
      exact ⟨hle, forall_mem_cons.mpr ⟨hle, (ih entry).2⟩⟩
    · rename_i hge
      exact ⟨(ih first).1, forall_mem_cons.mpr ⟨(ih first).1.trans (not_lt.mp hge), (ih first).2⟩⟩

theorem sortEntries_perm (rounds : ℕ) (entries : List (Key × ℤ)) :
    (sortEntries rounds entries).Perm entries := by
  induction rounds generalizing entries with
  | zero => rw [sortEntries.eq_def]
  | succ rounds ih =>
    cases entries with
    | nil => rw [sortEntries.eq_def]
    | cons first rest =>
      rw [sortEntries]
      exact ((ih _).cons _).trans (oldestFirst_perm first rest)

/-- **The entries come out in the order of their times.** -/
theorem pairwise_sortEntries {rounds : ℕ} {entries : List (Key × ℤ)} (h : entries.length ≤ rounds) :
    (sortEntries rounds entries).Pairwise fun e e' => e.2 ≤ e'.2 := by
  induction rounds generalizing entries with
  | zero =>
    rw [length_eq_zero_iff.mp (Nat.le_zero.mp h)]
    exact .nil
  | succ rounds ih =>
    cases entries with
    | nil => exact .nil
    | cons first rest =>
      have hlength := (oldestFirst_perm first rest).length_eq
      rw [length_cons, length_cons] at hlength
      rw [length_cons] at h
      rw [sortEntries]
      refine .cons (fun e he => ?_) (ih (by omega))
      exact (oldestFirst_le first rest).2 e ((sortEntries_perm _ _).mem_iff.mp he)

/-! ### Eviction -/

/-- The entries that `evictOldest` deletes. -/
def evicted (order : MapOrder) (shard : Shard) : List (Key × ℤ) :=
  let entries := order.visit (shard.entries.map fun e => (e.1, e.2.last))
  (sortEntries entries.length entries).take deleteCount

theorem lookup_foldl_erase (es : List (Key × ℤ)) (shard : Shard) (key : Key) :
    (es.foldl (fun limiters entry => limiters.erase entry.1) shard).lookup key =
      if key ∈ es.map Prod.fst then none else shard.lookup key := by
  induction es generalizing shard with
  | nil => rfl
  | cons e es ih =>
    rw [foldl_cons, ih, map_cons]
    rcases eq_or_ne key e.1 with rfl | hne
    · rw [lookup_erase, if_pos mem_cons_self, ite_self]
    · rw [lookup_erase_ne hne]
      simp only [mem_cons, hne, false_or]

variable {shard : Shard} {key : Key} {L : Limits} {order : MapOrder} {s : Shards} {now : ℤ}

theorem length_foldl_erase {es : List (Key × ℤ)} (hnodup : (es.map Prod.fst).Nodup)
    (hmem : ∀ e ∈ es, e.1 ∈ shard) :
    (es.foldl (fun limiters entry => limiters.erase entry.1) shard).keys.length + es.length =
      shard.keys.length := by
  induction es generalizing shard with
  | nil => rfl
  | cons e es ih =>
    rw [map_cons, nodup_cons] at hnodup
    rw [forall_mem_cons] at hmem
    have hrest : ∀ e' ∈ es, e'.1 ∈ shard.erase e.1 := by
      intro e' he'
      refine mem_erase.mpr ⟨?_, hmem.2 e' he'⟩
      exact fun heq => hnodup.1 (heq ▸ List.mem_map_of_mem he')
    rw [foldl_cons, length_cons, ← add_assoc, ih hnodup.2 hrest, length_keys_erase hmem.1]

/-- The snapshot is sorted: what is deleted comes before what is left. -/
theorem exists_sorted (order : MapOrder) (shard : Shard) :
    ∃ left, (evicted order shard ++ left).Perm (shard.entries.map fun e => (e.1, e.2.last)) ∧
      (evicted order shard ++ left).Pairwise fun e e' => e.2 ≤ e'.2 := by
  let entries := order.visit (shard.entries.map fun e => (e.1, e.2.last))
  refine ⟨(sortEntries entries.length entries).drop deleteCount, ?_, ?_⟩
  · rw [evicted, take_append_drop]
    exact (sortEntries_perm _ _).trans (order.perm _)
  · rw [evicted, take_append_drop]
    exact pairwise_sortEntries le_rfl

theorem mem_snapshot_iff {last : ℤ} : (key, last) ∈ shard.entries.map (fun e => (e.1, e.2.last)) ↔
      ∃ lim, shard.lookup key = some lim ∧ lim.last = last := by
  rw [List.mem_map]
  constructor
  · rintro ⟨e, he, heq⟩
    cases heq
    exact ⟨e.2, mem_lookup_iff.mpr he, rfl⟩
  · rintro ⟨lim, hlim, rfl⟩
    exact ⟨⟨key, lim⟩, mem_lookup_iff.mp hlim, rfl⟩

/-- What is left of a shard from which the oldest entries were taken. -/
structure Evicts (shard left : Shard) : Prop where
  count : left.keys.length + maxEntriesPerShard / 10 = shard.keys.length
  kept : ∀ key lim, left.lookup key = some lim → shard.lookup key = some lim
  oldest : ∀ key lim, shard.lookup key = some lim → left.lookup key = none →
    ∀ key' lim', left.lookup key' = some lim' → lim.last ≤ lim'.last

/-- **Eviction takes a tenth of the entries, the oldest ones first.** -/
theorem evicts_evictOldest (order : MapOrder) (h : maxEntriesPerShard / 10 ≤ shard.keys.length) :
    Evicts shard (evictOldest order shard) := by
  obtain ⟨left, hperm, hsorted⟩ := exists_sorted order shard
  have hlookup (key : Key) : (evictOldest order shard).lookup key =
      if key ∈ (evicted order shard).map Prod.fst then none else shard.lookup key :=
    lookup_foldl_erase _ _ _
  have hkeys : ((evicted order shard ++ left).map Prod.fst).Perm shard.keys := by
    have hmap := hperm.map Prod.fst
    rwa [List.map_map] at hmap
  have hlength : (evicted order shard).length = maxEntriesPerShard / 10 := by
    have hentries : (order.visit (shard.entries.map fun e => (e.1, e.2.last))).length =
        shard.keys.length := by
      rw [(order.perm _).length_eq, length_map, AList.keys, List.keys, length_map]
    rw [evicted, length_take, (sortEntries_perm _ _).length_eq, hentries]
    exact min_eq_left h
  have hnodup : ((evicted order shard).map Prod.fst).Nodup := by
    have hall := hkeys.nodup_iff.mpr (keys_nodup shard)
    rw [map_append] at hall
    exact hall.of_append_left
  constructor
  · rw [← hlength]
    refine length_foldl_erase hnodup fun e he => AList.mem_keys.mpr (hkeys.mem_iff.mp ?_)
    exact List.mem_map_of_mem (mem_append_left _ he)
  · exact fun key lim => lookup_of_evictOldest
  · intro key lim hlim hnone key' lim' hlim'
    rw [hlookup] at hnone hlim'
    have hdeleted : (key, lim.last) ∈ evicted order shard := by
      by_cases hkey : key ∈ (evicted order shard).map Prod.fst
      · obtain ⟨e, he, rfl⟩ := List.mem_map.mp hkey
        obtain ⟨lim₁, hlim₁, hlast⟩ := mem_snapshot_iff.mp (hperm.mem_iff.mp (mem_append_left _ he))
        rw [hlim, some_inj] at hlim₁
        rwa [hlim₁, hlast]
      · rw [if_neg hkey, hlim] at hnone
        cases hnone
    have hleft : (key', lim'.last) ∈ left := by
      by_cases hkey : key' ∈ (evicted order shard).map Prod.fst
      · rw [if_pos hkey] at hlim'
        cases hlim'
      · rw [if_neg hkey] at hlim'
        have hmem := hperm.mem_iff.mpr (mem_snapshot_iff.mpr ⟨lim', hlim', rfl⟩)
        exact (mem_append.mp hmem).resolve_left fun he => hkey (List.mem_map_of_mem he)
    exact (pairwise_append.mp hsorted).2.2 _ hdeleted _ hleft

/-! ### Runs -/

/-- `cleanup`, for one shard. -/
def sweepShard (L : Limits) (s : Shards) (i : Fin shardCount) (now : ℤ) : Shards :=
  Function.update s i (cleanup L s now i)

/-- The states of a store, in which shards are swept one at a time. -/
inductive Running (L : Limits) : Shards → Prop
  | new : Running L newStore
  | allow {s : Shards} (order : MapOrder) (key : Key) (now : ℤ) :
      Running L s → Running L (allow L order s key now).2
  | sweep {s : Shards} (i : Fin shardCount) (now : ℤ) :
    Running L s → Running L (sweepShard L s i now)

/-- A call does nothing to the other shards. -/
theorem allow_of_ne {i : Fin shardCount} (hi : i ≠ getShard key) :
    (allow L order s key now).2 i = s i := by
  rw [allow]
  cases (s (getShard key)).lookup key with
  | none | some => exact update_of_ne hi _ _

theorem length_keys_eq (shard : Shard) :
    shard.keys.length = shard.entries.length := length_map _

/-- What a call does to its shard when this is full and the key is new. -/
theorem allow_of_full (hnew : lookup s key = none)
    (hfull : maxEntriesPerShard ≤ (s (getShard key)).keys.length) :
    (allow L order s key now).2 (getShard key) =
      (evictOldest order (s (getShard key))).insert key ⟨L.burst - 1, now⟩ := by
  rw [lookup] at hnew
  rw [length_keys_eq] at hfull
  rw [allow, hnew]
  dsimp only
  rw [update_self, if_pos hfull]

/-- A call keeps a shard from becoming too full. -/
theorem length_allow_le (h : (s (getShard key)).keys.length ≤ maxEntriesPerShard) :
    ((allow L order s key now).2 (getShard key)).keys.length ≤ maxEntriesPerShard := by
  cases hlook : lookup s key with
  | none =>
    by_cases hfull : maxEntriesPerShard ≤ (s (getShard key)).keys.length
    · have hcount := (evicts_evictOldest order (hfull.trans' (by decide))).count
      have htenth : 1 ≤ maxEntriesPerShard / 10 := by decide
      rw [allow_of_full hlook hfull]
      exact (length_keys_insert_le _).trans (by omega)
    · have hroom : (s (getShard key)).entries.length < maxEntriesPerShard := by
        rw [← length_keys_eq]
        exact not_le.mp hfull
      rw [allow_of_room fun _ => hroom, update_self]
      exact (length_keys_insert_le _).trans (not_le.mp hfull)
  | some lim =>
    have hmem : key ∈ s (getShard key) := lookup_isSome.mp (isSome_of_mem hlook)
    rw [allow_of_room fun hnone => absurd (hlook.symm.trans hnone) (some_ne_none lim),
      update_self, length_keys_insert_of_mem hmem]
    exact h

/-- **A shard is never too full.** -/
theorem Running.length_le (hs : Running L s) (i : Fin shardCount) :
    (s i).keys.length ≤ maxEntriesPerShard := by
  induction hs generalizing i with
  | new => exact Nat.zero_le _
  | allow order key now _ ih =>
    rcases eq_or_ne i (getShard key) with rfl | hi
    · exact length_allow_le (ih _)
    · rw [allow_of_ne hi]
      exact ih i
  | sweep j now _ ih =>
    rcases eq_or_ne i j with rfl | hi
    · rw [sweepShard, update_self]
      exact (filter_sublist.map Sigma.fst).length_le.trans (ih i)
    · rw [sweepShard, update_of_ne hi]
      exact ih i

/-- **The memory of the limiter is bounded**, and what is evicted is what was not used for longest:
in every run each shard has at most `maxEntriesPerShard` entries; a call leaves the other shards
alone, and evicts only from a full shard, for a new key; and from a shard that is full exactly a
tenth of that number is taken away, none of it used later than anything that is kept. -/
theorem memory_bounded {L : Limits} {s : Shards} (hs : Running L s) :
    (∀ i, (s i).keys.length ≤ maxEntriesPerShard) ∧
    (∀ order key now, (∀ i ≠ getShard key, (allow L order s key now).2 i = s i) ∧
      (lookup s key = none → maxEntriesPerShard ≤ (s (getShard key)).keys.length →
        (allow L order s key now).2 (getShard key) =
          (evictOldest order (s (getShard key))).insert key ⟨L.burst - 1, now⟩)) ∧
    ∀ order (shard : Shard), maxEntriesPerShard ≤ shard.keys.length →
      Evicts shard (evictOldest order shard) :=
  ⟨hs.length_le, fun _ _ _ => ⟨fun _ => allow_of_ne, allow_of_full⟩,
    fun order _ hfull => evicts_evictOldest order (hfull.trans' (by decide))⟩

/-- The keys of visitors, which are all in one shard. -/
def visitor (i : ℕ) : Key := List.replicate (8 * i) 0

theorem visitor_injective : Function.Injective visitor := by
  intro i j h
  have hlength := congrArg List.length h
  rw [visitor, visitor, length_replicate, length_replicate] at hlength
  omega

theorem getShard_visitor (i : ℕ) : getShard (visitor i) = ⟨5, by decide⟩ := by
  -- A zero byte multiplies the last five bits of the sum by 19; eight of them leave these alone.
  have hstep (hash : UInt32) : ((hash ^^^ (0 : UInt8).toUInt32) * 16777619).toNat % 32 =
      hash.toNat % 32 * 19 % 32 := by
    have hzero : (0 : UInt8).toUInt32 = 0 := rfl
    rw [hzero, UInt32.xor_zero, UInt32.toNat_mul]
    have hprime : (16777619 : UInt32).toNat = 16777619 := rfl
    rw [hprime]
    omega
  have hsum : (sum32a (visitor i)).toNat % 32 = 5 := by
    induction i with
    | zero => rfl
    | succ i ih =>
      have hvisitor : visitor (i + 1) = visitor i ++ List.replicate 8 0 := by
        rw [visitor, visitor, replicate_append_replicate, Nat.mul_succ]
      rw [hvisitor, sum32a, foldl_append, ← sum32a]
      simp only [List.replicate, foldl_cons, foldl_nil, hstep, ih]
  exact Fin.ext hsum

/-- The store after calls of so many visitors, one in each nanosecond. -/
def visited (L : Limits) : ℕ → Shards
  | 0 => newStore
  | n + 1 => (allow L .asKept (visited L n) (visitor n) n).2

theorem running_visited (L : Limits) (n : ℕ) : Running L (visited L n) := by
  induction n with
  | zero => exact .new
  | succ n ih => exact .allow _ _ _ ih

/-- What the visitors leave behind as long as there is room. -/
theorem visited_spec (L : Limits) {n : ℕ} (hn : n ≤ maxEntriesPerShard) :
    (visited L n ⟨5, by decide⟩).keys.length = n ∧
      ∀ i, lookup (visited L n) (visitor i) = if i < n then some ⟨L.burst - 1, i⟩ else none := by
  induction n with
  | zero => exact ⟨rfl, fun i => rfl⟩
  | succ n ih =>
    obtain ⟨hlength, hlookup⟩ := ih (Nat.le_of_succ_le hn)
    have hnew : lookup (visited L n) (visitor n) = none := by
      rw [hlookup, if_neg (lt_irrefl n)]
    have hroom : (visited L n (getShard (visitor n))).entries.length < maxEntriesPerShard := by
      rwa [getShard_visitor, ← length_keys_eq, hlength]
    have hstep : visited L (n + 1) = Function.update (visited L n) (getShard (visitor n))
        ((visited L n (getShard (visitor n))).insert (visitor n) ⟨L.burst - 1, n⟩) := by
      rw [visited, allow_of_room fun _ => hroom, bucket, hnew, getD_none, RateLimiter.call_full]
    rw [hstep]
    constructor
    · rw [getShard_visitor, update_self, length_keys_insert_of_notMem, hlength]
      rwa [← lookup_eq_none, ← getShard_visitor n]
    · intro i
      rw [lookup, getShard_visitor i, ← getShard_visitor n, update_self]
      rcases eq_or_ne i n with rfl | hi
      · rw [lookup_insert, if_pos (Nat.lt_succ_self i)]
      · have hold := hlookup i
        rw [lookup, getShard_visitor i, ← getShard_visitor n] at hold
        rw [lookup_insert_ne (visitor_injective.ne hi), hold]
        simp only [Nat.lt_succ_iff_lt_or_eq, hi, or_false]

/-- Ten thousand visitors fill the shard, and for one more a tenth of them is evicted, those who
came first. -/
theorem visitors_memory_bounded :
    (visited everyTenSeconds maxEntriesPerShard ⟨5, by decide⟩).keys.length = 10000 ∧
      (visited everyTenSeconds (maxEntriesPerShard + 1) ⟨5, by decide⟩).keys.length = 9001 ∧
      ∀ i j, i < maxEntriesPerShard → j < maxEntriesPerShard →
        lookup (visited everyTenSeconds (maxEntriesPerShard + 1)) (visitor i) = none →
        lookup (visited everyTenSeconds (maxEntriesPerShard + 1)) (visitor j) ≠ none → i < j := by
  obtain ⟨hlength, hlookup⟩ := visited_spec everyTenSeconds (le_refl maxEntriesPerShard)
  obtain ⟨-, hcall, hevicts⟩ := memory_bounded (running_visited everyTenSeconds maxEntriesPerShard)
  simp only [lookup, getShard_visitor] at hlookup ⊢
  obtain ⟨hcount, hkept, holdest⟩ := hevicts .asKept _ hlength.ge
  have hnew : lookup (visited everyTenSeconds maxEntriesPerShard) (visitor maxEntriesPerShard) =
      none := by
    rw [lookup, getShard_visitor, hlookup, if_neg (lt_irrefl _)]
  have hshard := (hcall .asKept (visitor maxEntriesPerShard) maxEntriesPerShard).2 hnew
  rw [getShard_visitor] at hshard
  rw [visited, hshard hlength.ge]
  set left := evictOldest .asKept (visited everyTenSeconds maxEntriesPerShard ⟨5, by decide⟩)
  have hleft : left.lookup (visitor maxEntriesPerShard) = none := by
    cases hlim : left.lookup (visitor maxEntriesPerShard) with
    | none => rfl
    | some lim =>
      have hmem := hkept _ _ hlim
      rw [hlookup, if_neg (lt_irrefl _)] at hmem
      cases hmem
  refine ⟨hlength, ?_, fun i j hi hj hnone hsome => ?_⟩
  · rw [length_keys_insert_of_notMem (lookup_eq_none.mp hleft)]
    have htenth : maxEntriesPerShard = 10000 := rfl
    omega
  · rw [lookup_insert_ne (visitor_injective.ne hi.ne)] at hnone
    rw [lookup_insert_ne (visitor_injective.ne hj.ne)] at hsome
    obtain ⟨lim, hlim⟩ := ne_none_iff_exists'.mp hsome
    have hlast := holdest _ _ ((hlookup i).trans (if_pos hi)) hnone _ lim hlim
    have hkeptj := hkept _ _ hlim
    rw [hlookup, if_pos hj, some_inj] at hkeptj
    rw [← hkeptj] at hlast
    have hne : i ≠ j := by
      rintro rfl
      exact hsome hnone
    dsimp only at hlast
    omega

end Kiya.RateLimit
