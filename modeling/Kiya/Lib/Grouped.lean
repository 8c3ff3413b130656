import Mathlib

/-!
# Lists by key

A map from keys to lists, to which elements are added one after the other, each at the end of the
list of its key. What is found under a key is the elements that were added for it, in order; the
order in which the keys were taken does not matter.
-/

namespace Grouped

open List

variable {K M : Type} [DecidableEq K]

/-- Lists by key. -/
abbrev Groups (K M : Type) := AList fun _ : K => List M

/-- Add an element for a key. -/
def add (g : Groups K M) (k : K) (m : M) : Groups K M :=
  g.insert k ((g.lookup k).getD [] ++ [m])

/-- Add elements, each for its key. -/
def addAll (g : Groups K M) (es : List (K × M)) : Groups K M :=
  es.foldl (fun g e => add g e.1 e.2) g

/-- The elements for a key. -/
def elementsOf (k : K) (es : List (K × M)) : List M :=
  es.filterMap fun e => if e.1 = k then some e.2 else none

variable (g : Groups K M) (es : List (K × M)) (k : K)

theorem elementsOf_append (es es' : List (K × M)) :
    elementsOf k (es ++ es') = elementsOf k es ++ elementsOf k es' :=
  filterMap_append

theorem elementsOf_map_self (ms : List M) : elementsOf k (ms.map (k, ·)) = ms := by
  simp [elementsOf, filterMap_map]

theorem elementsOf_of_ne {k : K} {es : List (K × M)} (h : ∀ e ∈ es, e.1 ≠ k) :
    elementsOf k es = [] := by
  rw [elementsOf, filterMap_eq_nil_iff]
  exact fun e he => if_neg (h e he)

theorem addAll_append (es es' : List (K × M)) : addAll g (es ++ es') = addAll (addAll g es) es' :=
  foldl_append

/-- **What is found under a key.** -/
theorem lookup_addAll : (addAll g es).lookup k = if elementsOf k es = [] then g.lookup k
      else some ((g.lookup k).getD [] ++ elementsOf k es) := by
  induction es generalizing g with
  | nil => rfl
  | cons e es ih =>
    rw [addAll, foldl_cons, ← addAll, ih]
    by_cases hk : e.1 = k
    · have hcons : elementsOf k (e :: es) = e.2 :: elementsOf k es := by
        rw [elementsOf, filterMap_cons, if_pos hk]
        rfl
      rw [hcons, if_neg (cons_ne_nil _ _), add, hk, AList.lookup_insert]
      split_ifs with hnil
      · rw [hnil]
      · rw [Option.getD_some, append_assoc]
        rfl
    · have hcons : elementsOf k (e :: es) = elementsOf k es := by
        rw [elementsOf, filterMap_cons, if_neg hk]
        rfl
      rw [hcons, add, AList.lookup_insert_ne (Ne.symm hk)]

theorem lookup_addAll_empty : (addAll ∅ es).lookup k =
    if elementsOf k es = [] then none else some (elementsOf k es) := by
  rw [lookup_addAll, AList.lookup_empty]
  rfl

/-- Elements that are added list by list, where each list has a key of its own. -/
theorem elementsOf_flatMap {α : Type} {key : α → K} (elems : α → List M) {l : List α}
    (hnodup : (l.map key).Nodup) {a : α} (ha : a ∈ l) :
    elementsOf (key a) (l.flatMap fun a => (elems a).map (key a, ·)) = elems a := by
  obtain ⟨before, after, rfl⟩ := append_of_mem ha
  rw [map_append, map_cons, nodup_append] at hnodup
  obtain ⟨-, hafter, hdisjoint⟩ := hnodup
  have hbefore : elementsOf (key a) (before.flatMap fun a => (elems a).map (key a, ·)) = [] := by
    refine elementsOf_of_ne fun e he => ?_
    obtain ⟨b, hb, hmem⟩ := mem_flatMap.mp he
    obtain ⟨m, -, rfl⟩ := mem_map.mp hmem
    exact hdisjoint _ (mem_map_of_mem hb) _ mem_cons_self
  have hrest : elementsOf (key a) (after.flatMap fun a => (elems a).map (key a, ·)) = [] := by
    refine elementsOf_of_ne fun e he => ?_
    obtain ⟨b, hb, hmem⟩ := mem_flatMap.mp he
    obtain ⟨m, -, rfl⟩ := mem_map.mp hmem
    exact fun heq => (nodup_cons.mp hafter).1 (heq ▸ mem_map_of_mem hb)
  rw [flatMap_append, flatMap_cons, elementsOf_append, elementsOf_append, hbefore, hrest,
    elementsOf_map_self, append_nil]
  rfl

end Grouped
