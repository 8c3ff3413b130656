import Mathlib

/-!
# Slices over shared arrays

A slice is the beginning of an array, with a length and a capacity. Appending to it writes into the
array as long as the capacity allows it, and takes a new array otherwise. So two slices of one array
can overwrite the elements of each other, and slices of different arrays cannot: `Separate` says
that all slices of a list have arrays of their own, and then appending to one of them, or copying
one of them, does to the elements what the same operation does on lists.
-/

namespace Slice

open List Option

/-- The arrays, each as the cells of it that have been written. -/
abbrev Heap (α : Type) := List (List α)

/-- A slice that starts at the first cell of its array. -/
structure Ref where
  arr : ℕ
  len : ℕ
  cap : ℕ
deriving DecidableEq, Repr

/-- How a new capacity is chosen, from the old one and the length that is needed. -/
structure Growth where
  newCap : ℕ → ℕ → ℕ
  le_newCap : ∀ old needed, needed ≤ newCap old needed

/-- The slice without elements and without an array. -/
def empty : Ref := ⟨0, 0, 0⟩

variable {α : Type}

/-- The elements of a slice. -/
def read (heap : Heap α) (s : Ref) : List α := ((heap[s.arr]?).getD []).take s.len

/-- Append elements to a slice: in its array if there is room, and in a new one otherwise. -/
def append (g : Growth) (heap : Heap α) (s : Ref) (xs : List α) : Heap α × Ref :=
  if s.len + xs.length ≤ s.cap then
    (heap.modify s.arr fun cells => cells.take s.len ++ xs ++ cells.drop (s.len + xs.length),
      { s with len := s.len + xs.length })
  else
    (heap ++ [read heap s ++ xs],
      ⟨heap.length, s.len + xs.length, g.newCap s.cap (s.len + xs.length)⟩)

/-- All elements of a slice are there. -/
structure Valid (heap : Heap α) (s : Ref) : Prop where
  len_le : s.len ≤ s.cap
  cells : s.cap ≠ 0 → ∃ cells, heap[s.arr]? = some cells ∧ s.len ≤ cells.length

/-- Two slices have no cell in common. -/
def Apart (s t : Ref) : Prop := s.cap = 0 ∨ t.cap = 0 ∨ s.arr ≠ t.arr

section Append

variable {g : Growth} {heap : Heap α} {s t : Ref} {xs : List α}

theorem valid_empty : Valid heap empty := ⟨le_rfl, fun h => absurd rfl h⟩

theorem read_of_cap_eq_zero (hs : Valid heap s) (hcap : s.cap = 0) : read heap s = [] := by
  have hlen : s.len = 0 := Nat.le_zero.mp (hcap ▸ hs.len_le)
  rw [read, hlen, take_zero]

theorem length_read (hs : Valid heap s) : (read heap s).length = s.len := by
  by_cases hcap : s.cap = 0
  · rw [read_of_cap_eq_zero hs hcap]
    exact (Nat.le_zero.mp (hcap ▸ hs.len_le)).symm
  · obtain ⟨cells, hcells, hlen⟩ := hs.cells hcap
    rw [read, hcells, getD_some, length_take, Nat.min_eq_left hlen]

theorem valid_append (hs : Valid heap s) : Valid (append g heap s xs).1 (append g heap s xs).2 := by
  rw [append]
  split_ifs with hroom
  · refine ⟨hroom, fun hcap => ?_⟩
    obtain ⟨cells, hcells, hlen⟩ := hs.cells hcap
    refine ⟨_, by rw [getElem?_modify_eq, hcells]; rfl, ?_⟩
    simp only [length_append, length_take, Nat.min_eq_left hlen]
    exact Nat.le_add_right _ _
  · refine ⟨g.le_newCap _ _, fun _ => ⟨_, getElem?_concat_length, ?_⟩⟩
    rw [length_append, length_read hs]

/-- The slice that is returned has the new elements behind the old ones. -/
theorem read_append (hs : Valid heap s) :
    read (append g heap s xs).1 (append g heap s xs).2 = read heap s ++ xs := by
  rw [append]
  split_ifs with hroom
  · by_cases hcap : s.cap = 0
    · -- without capacity there is room for nothing only
      have hnone : s.len + xs.length = 0 := Nat.le_zero.mp (hcap ▸ hroom)
      obtain ⟨-, hxs⟩ := Nat.add_eq_zero_iff.mp hnone
      rw [read_of_cap_eq_zero hs hcap, length_eq_zero_iff.mp hxs]
      have hlen : s.len = 0 := Nat.le_zero.mp (hcap ▸ hs.len_le)
      simp only [read, hlen, length_nil, take_zero, append_nil, Nat.add_zero]
    · obtain ⟨cells, hcells, hlen⟩ := hs.cells hcap
      have htake : (cells.take s.len ++ xs).length = s.len + xs.length := by
        rw [length_append, length_take, Nat.min_eq_left hlen]
      simp only [read, getElem?_modify_eq, hcells, getD_some]
      exact take_left' htake
  · simp only [read, getElem?_concat_length, getD_some]
    rw [take_of_length_le]
    rw [length_append, ← read, length_read hs]

/-- Appending does not touch the elements of a slice that is apart. -/
theorem read_append_of_apart (ht : Valid heap t) (hst : Apart s t) :
    read (append g heap s xs).1 t = read heap t ∧ Valid (append g heap s xs).1 t := by
  by_cases hcap : t.cap = 0
  · have hvalid : Valid (append g heap s xs).1 t := ⟨ht.len_le, fun h => absurd hcap h⟩
    exact ⟨by rw [read_of_cap_eq_zero ht hcap, read_of_cap_eq_zero hvalid hcap], hvalid⟩
  · obtain ⟨cells, hcells, hlen⟩ := ht.cells hcap
    have hsame : (append g heap s xs).1[t.arr]? = some cells := by
      rw [append]
      split_ifs with hroom
      · rcases hst with hs | ht₀ | hne
        · -- a slice without capacity has no room for anything, and is not written
          have hnone : s.len + xs.length = 0 := Nat.le_zero.mp (hs ▸ hroom)
          obtain ⟨hs₀, hxs⟩ := Nat.add_eq_zero_iff.mp hnone
          rw [hs₀, length_eq_zero_iff.mp hxs]
          simp [getElem?_modify, hcells]
        · exact absurd ht₀ hcap
        · rw [getElem?_modify_ne _ _ hne, hcells]
      · rw [getElem?_append_left (List.getElem?_eq_some_iff.mp hcells).1, hcells]
    exact ⟨by rw [read, read, hsame, hcells], ht.len_le, fun _ => ⟨cells, hsame, hlen⟩⟩

theorem apart_append (ht : Valid heap t) (hst : Apart s t) : Apart (append g heap s xs).2 t := by
  by_cases hcap : t.cap = 0
  · exact .inr (.inl hcap)
  · rw [append]
    split_ifs
    · exact hst
    · obtain ⟨cells, hcells, -⟩ := ht.cells hcap
      exact .inr (.inr (Nat.ne_of_gt (List.getElem?_eq_some_iff.mp hcells).1))

end Append

/-! ### Slices with arrays of their own -/

theorem Apart.symm {s t : Ref} (h : Apart s t) : Apart t s := by
  rcases h with hs | ht | hne
  · exact .inr (.inl hs)
  · exact .inl ht
  · exact .inr (.inr (Ne.symm hne))

/-- All slices are valid, and any two of them are apart. -/
structure Separate (heap : Heap α) (ss : List Ref) : Prop where
  valid : ∀ s ∈ ss, Valid heap s
  apart : ∀ (i j : ℕ) (s t : Ref), ss[i]? = some s → ss[j]? = some t → i ≠ j → Apart s t

section Separate

variable {g : Growth} {heap : Heap α} {ss : List Ref} {s : Ref} {xs : List α} {i : ℕ}

theorem separate_singleton_empty : Separate heap [empty] := by
  refine ⟨forall_mem_singleton.mpr valid_empty, fun i j s t hs _ _ => .inl ?_⟩
  rw [mem_singleton.mp (mem_of_getElem? hs)]
  rfl

/-- Appending to one of the slices appends to its elements only. -/
theorem Separate.append (h : Separate heap ss) (hi : ss[i]? = some s) :
    Separate (append g heap s xs).1 (ss.set i (append g heap s xs).2) ∧
      (ss.set i (append g heap s xs).2).map (read (append g heap s xs).1) =
        (ss.map (read heap)).set i (read heap s ++ xs) := by
  have hs : Valid heap s := h.valid s (mem_of_getElem? hi)
  have hlt : i < ss.length := (List.getElem?_eq_some_iff.mp hi).1
  have hother (j : ℕ) (t : Ref) (hj : ss[j]? = some t) (hne : i ≠ j) :=
    @read_append_of_apart α g heap s t xs (h.valid t (mem_of_getElem? hj))
      (h.apart i j s t hi hj hne)
  have hget (j : ℕ) (t : Ref) (hj : (ss.set i (Slice.append g heap s xs).2)[j]? = some t) :
      (i = j ∧ t = (Slice.append g heap s xs).2) ∨ (i ≠ j ∧ ss[j]? = some t) := by
    rw [getElem?_set] at hj
    split_ifs at hj with hij
    · exact .inl ⟨hij, (some_inj.mp hj).symm⟩
    · exact .inr ⟨hij, hj⟩
  refine ⟨⟨fun t ht => ?_, fun j k t u hj hk hne => ?_⟩, ?_⟩
  · obtain ⟨j, hj⟩ := mem_iff_getElem?.mp ht
    rcases hget j t hj with ⟨-, rfl⟩ | ⟨hne, hj⟩
    · exact valid_append hs
    · exact (hother j t hj hne).2
  · rcases hget j t hj with ⟨rfl, rfl⟩ | ⟨hij, hj⟩
    · rcases hget k u hk with ⟨hik, -⟩ | ⟨hik, hk⟩
      · exact absurd hik hne
      · exact apart_append (h.valid u (mem_of_getElem? hk)) (h.apart _ _ s u hi hk hik)
    · rcases hget k u hk with ⟨rfl, rfl⟩ | ⟨-, hk⟩
      · exact (apart_append (h.valid t (mem_of_getElem? hj)) (h.apart _ _ s t hi hj hij)).symm
      · exact h.apart j k t u hj hk hne
  · refine ext_getElem? fun j => ?_
    rw [getElem?_map, getElem?_set, getElem?_set, length_map]
    split_ifs with hij
    · rw [map_some, read_append hs]
    · rw [getElem?_map]
      cases hj : ss[j]? with
      | none => rfl
      | some t => rw [map_some, map_some, (hother j t hj hij).1]

/-- A copy has an array of its own. -/
theorem Separate.copy (h : Separate heap ss) :
    Separate (Slice.append g heap empty xs).1 (ss ++ [(Slice.append g heap empty xs).2]) ∧
      (ss ++ [(Slice.append g heap empty xs).2]).map (read (Slice.append g heap empty xs).1) =
        ss.map (read heap) ++ [xs] := by
  -- the empty slice is one more, and the copy is what appending makes of it
  have hmore : Separate heap (ss ++ [empty]) := by
    refine ⟨forall_mem_append.mpr ⟨h.valid, forall_mem_singleton.mpr valid_empty⟩, ?_⟩
    intro i j s t hs ht hne
    rcases Nat.lt_or_ge i ss.length with hi | hi
    · rcases Nat.lt_or_ge j ss.length with hj | hj
      · rw [getElem?_append_left hi] at hs
        rw [getElem?_append_left hj] at ht
        exact h.apart i j s t hs ht hne
      · rw [getElem?_append_right hj] at ht
        rw [mem_singleton.mp (mem_of_getElem? ht)]
        exact .inr (.inl rfl)
    · rw [getElem?_append_right hi] at hs
      rw [mem_singleton.mp (mem_of_getElem? hs)]
      exact .inl rfl
  have hlast : (ss ++ [empty])[ss.length]? = some empty := getElem?_concat_length
  have hread : read heap empty = [] := rfl
  have happend := @Separate.append α g heap _ _ xs _ hmore hlast
  simpa [hread] using happend

end Separate

end Slice
