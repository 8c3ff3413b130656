import Mathlib

/-!
# Results of a list of attempts

Each element of a list is tried in turn, and the first fault ends it. If all succeed there is a
result for each, in order; whether they do does not depend on the order.
-/

namespace Collect

open List

variable {ε α β : Type*} {b : β} {a : α}

theorem map_eq_ok_iff {f : α → β} {x : Except ε α} :
    x.map f = .ok b ↔ ∃ a, x = .ok a ∧ f a = b := by
  cases x with
  | error | ok => simp [Except.map]

/-- The results of all elements, or the first fault. -/
def collect (f : α → Except ε β) : List α → Except ε (List β)
  | [] => .ok []
  | a :: as =>
    match f a with
    | .error e => .error e
    | .ok b =>
      match collect f as with
      | .error e => .error e
      | .ok bs => .ok (b :: bs)

variable {f : α → Except ε β} {as : List α} {bs : List β}

/-- **All succeed** if there is a list of results. -/
theorem collect_eq_ok_iff :
    collect f as = .ok bs ↔ List.Forall₂ (fun a b => f a = .ok b) as bs := by
  induction as generalizing bs with
  | nil =>
    rw [collect, List.forall₂_nil_left_iff, Except.ok.injEq]
    exact eq_comm
  | cons a as ih =>
    rw [collect, List.forall₂_cons_left_iff]
    cases hfirst : f a with
    | error e => simp
    | ok b =>
      cases hrest : collect f as with
      | error e =>
        simp only [reduceCtorEq, false_iff]
        rintro ⟨b', bs', -, hbs', -⟩
        rw [← ih, hrest] at hbs'
        cases hbs'
      | ok bs' =>
        have hbs' := ih.mp hrest
        constructor
        · rintro ⟨⟩
          exact ⟨b, bs', rfl, hbs', rfl⟩
        · rintro ⟨b₁, bs₁, hb₁, hbs₁, rfl⟩
          rw [← ih, hrest] at hbs₁
          cases hb₁
          cases hbs₁
          rfl

/-- What succeeds in one way succeeds in another that gives the same results. -/
theorem collect_mono {f g : α → Except ε β} (hfg : ∀ a ∈ as, ∀ b, f a = .ok b → g a = .ok b)
    (h : collect f as = .ok bs) : collect g as = .ok bs := by
  rw [collect_eq_ok_iff] at h ⊢
  induction h with
  | nil => exact .nil
  | cons hb hbs ih =>
    exact .cons (hfg _ mem_cons_self _ hb) (ih fun a ha => hfg a (mem_cons_of_mem _ ha))

/-- If each element can succeed, all do. -/
theorem exists_collect (h : ∀ a ∈ as, ∃ b, f a = .ok b) : ∃ bs, collect f as = .ok bs := by
  induction as with
  | nil => exact ⟨[], rfl⟩
  | cons a as ih =>
    obtain ⟨b, hb⟩ := h a mem_cons_self
    obtain ⟨bs, hbs⟩ := ih fun a' ha' => h a' (mem_cons_of_mem _ ha')
    exact ⟨b :: bs, by rw [collect, hb, hbs]⟩

/-- If it is known how each element succeeds, so are the results. -/
theorem collect_eq_map {g : α → β} (h : ∀ a ∈ as, f a = .ok (g a)) :
    collect f as = .ok (as.map g) :=
  collect_eq_ok_iff.mpr (List.forall₂_map_right_iff.mpr (List.forall₂_same.mpr h))

theorem exists_mem_zip_of_collect (h : collect f as = .ok bs) (ha : a ∈ as) :
    ∃ b, (a, b) ∈ as.zip bs ∧ f a = .ok b := by
  rw [collect_eq_ok_iff] at h
  induction h with
  | nil => cases ha
  | cons hb hbs ih =>
    rcases mem_cons.mp ha with rfl | hmem
    · exact ⟨_, mem_cons_self, hb⟩
    · obtain ⟨b, hmem', hfb⟩ := ih hmem
      exact ⟨b, mem_cons_of_mem _ hmem', hfb⟩

theorem exists_of_collect (h : collect f as = .ok bs) (ha : a ∈ as) : ∃ b ∈ bs, f a = .ok b := by
  obtain ⟨b, hmem, hfb⟩ := exists_mem_zip_of_collect h ha
  exact ⟨b, (of_mem_zip hmem).2, hfb⟩

theorem forall_of_collect (h : collect f as = .ok bs) (hb : b ∈ bs) : ∃ a ∈ as, f a = .ok b := by
  rw [collect_eq_ok_iff] at h
  induction h with
  | nil => cases hb
  | cons hfirst hrest ih =>
    rcases mem_cons.mp hb with rfl | hmem
    · exact ⟨_, mem_cons_self, hfirst⟩
    · obtain ⟨a, hmem', hfa⟩ := ih hmem
      exact ⟨a, mem_cons_of_mem _ hmem', hfa⟩

/-- The results are those of a function. -/
theorem exists_map_of_collect [Nonempty β] (h : collect f as = .ok bs) :
    ∃ g, (∀ a ∈ as, f a = .ok (g a)) ∧ bs = as.map g := by
  have hall (a : α) : ∃ b, a ∈ as → f a = .ok b := by
    by_cases ha : a ∈ as
    · obtain ⟨b, -, hb⟩ := exists_of_collect h ha
      exact ⟨b, fun _ => hb⟩
    · exact ⟨Classical.arbitrary β, fun hmem => absurd hmem ha⟩
  choose g hg using hall
  exact ⟨g, hg, Except.ok.inj (h.symm.trans (collect_eq_map hg))⟩

/-- If each element succeeds with a result that has a property, all do. -/
theorem exists_collect_forall {P : β → Prop} (h : ∀ a ∈ as, ∃ b, f a = .ok b ∧ P b) :
    ∃ bs, collect f as = .ok bs ∧ ∀ b ∈ bs, P b := by
  obtain ⟨bs, hbs⟩ := exists_collect fun a ha => (h a ha).imp fun _ => And.left
  refine ⟨bs, hbs, fun b hb => ?_⟩
  obtain ⟨a, ha, hab⟩ := forall_of_collect hbs hb
  obtain ⟨b', hab', hb'⟩ := h a ha
  exact Except.ok.inj (hab'.symm.trans hab) ▸ hb'

/-- A bound for each element is one for all. -/
theorem exists_bound {P : ℕ → α → Prop} (hmono : ∀ {m n a}, m ≤ n → P m a → P n a)
    (h : ∀ a ∈ as, ∃ n, P n a) : ∃ n, ∀ a ∈ as, P n a := by
  induction as with
  | nil => exact ⟨0, nofun⟩
  | cons a as ih =>
    obtain ⟨m, hm⟩ := h a mem_cons_self
    obtain ⟨n, hn⟩ := ih fun a' ha' => h a' (mem_cons_of_mem _ ha')
    refine ⟨max m n, forall_mem_cons.mpr ⟨hmono (le_max_left m n) hm, ?_⟩⟩
    exact fun a' ha' => hmono (le_max_right m n) (hn a' ha')

variable {es : List β} {idx : β → ℕ} {val : β → α}

/-- Entries that are stored where they belong make the list that they belong to, if there is one for
every place. -/
theorem foldl_set_eq {target list : List α} (hlength : list.length = target.length)
    (hes : ∀ e ∈ es, target[idx e]? = some (val e))
    (hall : ∀ i < target.length, ∃ e ∈ es, idx e = i) :
    es.foldl (fun list e => list.set (idx e) (val e)) list = target := by
  have hstep (i : ℕ) : list[i]? = target[i]? ∨ (∃ e ∈ es, idx e = i) →
      (es.foldl (fun list e => list.set (idx e) (val e)) list)[i]? = target[i]? := by
    clear hall
    induction es generalizing list with
    | nil => exact fun h => h.resolve_right fun ⟨e, he, _⟩ => absurd he not_mem_nil
    | cons e es ih =>
      rw [forall_mem_cons] at hes
      intro h
      refine ih (by rw [length_set, hlength]) hes.2 ?_
      by_cases he : idx e = i
      · left
        subst he
        rw [hes.1, getElem?_set_self]
        rw [hlength]
        exact (List.getElem?_eq_some_iff.mp hes.1).1
      · rw [getElem?_set_ne he]
        rcases h with hlist | ⟨e', he', hidx⟩
        · exact .inl hlist
        · rcases mem_cons.mp he' with rfl | hmem
          · exact absurd hidx he
          · exact .inr ⟨e', hmem, hidx⟩
  refine ext_getElem? fun i => hstep i ?_
  by_cases hi : i < target.length
  · exact .inr (hall i hi)
  · left
    rw [getElem?_eq_none (not_lt.mp hi), getElem?_eq_none (hlength ▸ not_lt.mp hi)]

theorem getElem?_foldl_set_of_notMem {i : ℕ} (h : i ∉ es.map idx) (list : List α) :
    (es.foldl (fun list e => list.set (idx e) (val e)) list)[i]? = list[i]? := by
  induction es generalizing list with
  | nil => rfl
  | cons e es ih =>
    rw [map_cons, mem_cons, not_or] at h
    rw [foldl_cons, ih h.2, getElem?_set_ne (Ne.symm h.1)]

/-- An entry that is stored in a place of its own is there. -/
theorem getElem?_foldl_set (hnodup : (es.map idx).Nodup)
    {e : β} (he : e ∈ es) {list : List α} (hidx : idx e < list.length) :
    (es.foldl (fun list e => list.set (idx e) (val e)) list)[idx e]? = some (val e) := by
  induction es generalizing list with
  | nil => cases he
  | cons first es ih =>
    rw [map_cons, nodup_cons] at hnodup
    rw [foldl_cons]
    rcases mem_cons.mp he with rfl | hmem
    · rw [getElem?_foldl_set_of_notMem hnodup.1, getElem?_set_self hidx]
    · exact ih hnodup.2 hmem (by rwa [length_set])

end Collect
