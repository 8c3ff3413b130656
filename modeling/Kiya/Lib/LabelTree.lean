import Mathlib

/-!
# Trees with labelled nodes

A `LabelTree` is a tree whose nodes have a label and may have a value. Its `Route`s are the paths of
labels that lead from the root to a value; if the labels of siblings are distinct, the tree is a
finite map from paths to values.

`graft` puts a value at the end of a path. On its way it follows the children whose label counts
as the same as the one on the path, and these keep their own label: the value ends up at the end of
the path `landing`, and `route_graft` says that nothing else has changed.

`IsFirst` is the first path among those with some property, where the order is that of the labels at
the first place where two paths differ.
-/

/-- A tree whose nodes have a label and may have a value. -/
structure LabelTree (L V : Type) where
  label : L
  children : List (LabelTree L V)
  value : Option V

namespace LabelTree

open List

variable {L V : Type}

theorem eta (t : LabelTree L V) : ⟨t.label, t.children, t.value⟩ = t := by
  cases t
  rfl

/-- A node without children and without a value. -/
def leaf (l : L) : LabelTree L V := ⟨l, [], none⟩

@[simp] theorem label_leaf (l : L) : (leaf l : LabelTree L V).label = l := rfl

/-! ### Predicates on all nodes -/

/-- `P` holds of a node and of all nodes below it. -/
inductive Everywhere (P : LabelTree L V → Prop) : LabelTree L V → Prop
  | intro {t : LabelTree L V} (here : P t) (below : ∀ c ∈ t.children, Everywhere P c) :
    Everywhere P t

section Everywhere

variable {P Q : LabelTree L V → Prop} {t : LabelTree L V}

theorem Everywhere.here (h : Everywhere P t) : P t := by
  obtain ⟨hp, -⟩ := h
  exact hp

theorem Everywhere.of_mem (h : Everywhere P t) : ∀ c ∈ t.children, Everywhere P c := by
  obtain ⟨-, hbelow⟩ := h
  exact hbelow

theorem Everywhere.mono (hPQ : ∀ t, P t → Q t) (h : Everywhere P t) : Everywhere Q t := by
  induction h with
  | intro hp _ ih => exact ⟨hPQ _ hp, ih⟩

theorem Everywhere.and (hP : Everywhere P t) (hQ : Everywhere Q t) :
    Everywhere (fun t => P t ∧ Q t) t := by
  induction hP with
  | intro hp _ ih => exact ⟨⟨hp, hQ.here⟩, fun c hc => ih c hc (hQ.of_mem c hc)⟩

end Everywhere

/-! ### Routes -/

/-- `Route t ls v`: the labels `ls` lead from `t` to the value `v`. -/
inductive Route : LabelTree L V → List L → V → Prop
  | here {t : LabelTree L V} {v : V} (h : t.value = some v) : Route t [] v
  | child {t c : LabelTree L V} {ls : List L} {v : V} (hc : c ∈ t.children) (h : Route c ls v) :
    Route t (c.label :: ls) v

/-- Siblings have distinct labels. -/
def DistinctLabels (t : LabelTree L V) : Prop := (t.children.map label).Nodup

section Route

variable {t c : LabelTree L V} {l : L} {ls : List L} {v w : V}

theorem route_nil : Route t [] v ↔ t.value = some v :=
  ⟨fun h => by cases h; assumption, .here⟩

theorem route_cons : Route t (l :: ls) v ↔ ∃ c ∈ t.children, c.label = l ∧ Route c ls v := by
  constructor
  · intro h
    cases h with
    | child hc h => exact ⟨_, hc, rfl, h⟩
  · rintro ⟨c, hc, rfl, h⟩
    exact .child hc h

/-- A child with a label is the only one. -/
theorem route_cons_of_mem (ht : t.DistinctLabels) (hc : c ∈ t.children) :
    Route t (c.label :: ls) v ↔ Route c ls v := by
  rw [route_cons]
  constructor
  · rintro ⟨d, hd, hlabel, h⟩
    obtain rfl : d = c := inj_on_of_nodup_map ht hd hc hlabel
    exact h
  · exact fun h => ⟨c, hc, rfl, h⟩

end Route

/-! ### Grafting a value -/

section Graft

variable (same : L → L → Bool) (v : V)

/-- Put a value at the end of a path. The child that is followed is the first one whose label counts
as the same; if there is none, a new one is added behind the others. -/
def graft : List L → LabelTree L V → LabelTree L V
  | [], t => { t with value := some v }
  | l :: ls, t =>
    match t.children.span fun c => !same c.label l with
    | (pre, c :: post) => { t with children := pre ++ graft ls c :: post }
    | (pre, []) => { t with children := pre ++ [graft ls (leaf l)] }

/-- The labels of the nodes that `graft` goes through. -/
def landing : List L → LabelTree L V → List L
  | [], _ => []
  | l :: ls, t =>
    match t.children.span fun c => !same c.label l with
    | (_, c :: _) => c.label :: landing ls c
    | (_, []) => l :: ls

variable {same v} {t c : LabelTree L V} {l : L} {ls ms : List L} {w : V}
  {pre post : List (LabelTree L V)}

theorem span_found (hspan : (t.children.span fun c => !same c.label l) = (pre, c :: post)) :
    t.children = pre ++ c :: post ∧ same c.label l = true := by
  rw [span_eq_takeWhile_dropWhile, Prod.mk.injEq] at hspan
  obtain ⟨hpre, hpost⟩ := hspan
  constructor
  · rw [← hpre, ← hpost, takeWhile_append_dropWhile]
  · have hne : t.children.dropWhile (fun c => !same c.label l) ≠ [] := by simp [hpost]
    have hhead := head_dropWhile_not _ hne
    simpa [hpost] using hhead

variable {g : LabelTree L V}

/-- What holds of all children holds after one of them is replaced. -/
theorem forall_mem_replaced {P : LabelTree L V → Prop} (hsplit : t.children = pre ++ c :: post)
    (h : ∀ d ∈ t.children, P d) (hg : P g) : ∀ d ∈ pre ++ g :: post, P d := by
  rw [hsplit, forall_mem_append, forall_mem_cons] at h
  rw [forall_mem_append, forall_mem_cons]
  exact ⟨h.1, hg, h.2.2⟩

theorem span_missing (hspan : (t.children.span fun c => !same c.label l) = (pre, [])) :
    t.children = pre ∧ ∀ c ∈ t.children, same c.label l = false := by
  rw [span_eq_takeWhile_dropWhile, Prod.mk.injEq] at hspan
  obtain ⟨hpre, hpost⟩ := hspan
  constructor
  · have hsplit := @takeWhile_append_dropWhile _ (fun c => !same c.label l) t.children
    rw [hpre, hpost, append_nil] at hsplit
    exact hsplit.symm
  · simpa using dropWhile_eq_nil_iff.mp hpost

@[simp] theorem label_graft (ls : List L) (t : LabelTree L V) :
    (graft same v ls t).label = t.label := by
  cases ls with
  | nil => rfl
  | cons l ls =>
    rw [graft]
    split <;> rfl

/-- In a node without children the path is as given. -/
theorem landing_of_no_children (ht : t.children = []) (ls : List L) : landing same ls t = ls := by
  cases ls with
  | nil => rfl
  | cons l ls =>
    rw [landing, ht]
    rfl

theorem not_route_leaf : ¬Route (leaf l : LabelTree L V) ms w := by
  intro h
  cases h with
  | here h => cases h
  | child hc _ => cases hc

/-- Routes after a child is replaced by one of the same label. -/
theorem route_replaced (ht : t.DistinctLabels)
    (hsplit : t.children = pre ++ c :: post) (hlabel : g.label = c.label) (m : L) :
    Route { t with children := pre ++ g :: post } (m :: ms) w ↔
      (m = c.label ∧ Route g ms w) ∨ (m ≠ c.label ∧ Route t (m :: ms) w) := by
  have hothers : ∀ d : LabelTree L V, d.label ≠ c.label →
      (d ∈ pre ++ g :: post ↔ d ∈ t.children) := by
    intro d hd
    have hg : d ≠ g := fun h => hd (by rw [h, hlabel])
    have hc : d ≠ c := fun h => hd (by rw [h])
    simp [hsplit, hg, hc]
  by_cases hm : m = c.label
  · subst hm
    have hnodup : ((pre ++ g :: post).map label).Nodup := by
      have hmap : (pre ++ g :: post).map label = t.children.map label := by simp [hsplit, hlabel]
      rwa [hmap]
    have hg := @route_cons_of_mem _ _ { t with children := pre ++ g :: post } g ms w hnodup
      (by simp)
    rw [hlabel] at hg
    simp [hg]
  · simp only [hm, false_and, false_or, ne_eq, not_false_eq_true, true_and]
    rw [route_cons, route_cons]
    refine exists_congr fun d => ?_
    constructor
    · rintro ⟨hd, rfl, h⟩
      exact ⟨(hothers d hm).mp hd, rfl, h⟩
    · rintro ⟨hd, rfl, h⟩
      exact ⟨(hothers d hm).mpr hd, rfl, h⟩

/-- Routes after a child is added. -/
theorem route_added (g : LabelTree L V) (m : L) :
    Route { t with children := t.children ++ [g] } (m :: ms) w ↔
      (m = g.label ∧ Route g ms w) ∨ Route t (m :: ms) w := by
  rw [route_cons, route_cons]
  constructor
  · rintro ⟨d, hd, rfl, h⟩
    rcases mem_append.mp hd with hd | hd
    · exact .inr ⟨d, hd, rfl, h⟩
    · obtain rfl := mem_singleton.mp hd
      exact .inl ⟨rfl, h⟩
  · rintro (⟨rfl, h⟩ | ⟨d, hd, rfl, h⟩)
    · exact ⟨g, by simp, rfl, h⟩
    · exact ⟨d, mem_append_left _ hd, rfl, h⟩

/-- **Grafting changes one path.** The new value is at the end of the path `landing`, and every
other path leads to what it led to before. -/
theorem route_graft (hsame : ∀ l, same l l = true) (ht : Everywhere DistinctLabels t) :
    Route (graft same v ls t) ms w ↔
      (ms = landing same ls t ∧ w = v) ∨ (ms ≠ landing same ls t ∧ Route t ms w) := by
  induction ls generalizing t ms with
  | nil =>
    cases ms with
    | nil => simp [graft, landing, route_nil, eq_comm]
    | cons m ms => simp [graft, landing, route_cons]
  | cons l ls ih =>
    rcases hspan : t.children.span fun c => !same c.label l with ⟨pre, _ | ⟨c, post⟩⟩
    · obtain ⟨rfl, hmissing⟩ := span_missing hspan
      -- a new child is added, and since `same` is reflexive none has had its label
      have hno : ∀ ms, ¬Route t (l :: ms) w := by
        intro ms h
        obtain ⟨c, hc, rfl, -⟩ := route_cons.mp h
        exact absurd (hmissing c hc) (by simp [hsame])
      have hleaf : Everywhere DistinctLabels (leaf l : LabelTree L V) := ⟨nodup_nil, nofun⟩
      simp only [graft, landing, hspan]
      cases ms with
      | nil => simp [route_nil]
      | cons m ms =>
        rw [route_added, ih hleaf, landing_of_no_children rfl, label_graft, label_leaf]
        by_cases hm : m = l
        · subst hm
          simp [hno, not_route_leaf]
        · simp [hm]
    · obtain ⟨hsplit, -⟩ := span_found hspan
      have hc : c ∈ t.children := by simp [hsplit]
      simp only [graft, landing, hspan]
      cases ms with
      | nil => simp [route_nil]
      | cons m ms =>
        -- the induction hypothesis is for the child that was followed; it keeps its own label
        rw [route_replaced ht.here hsplit (label_graft ls c), ih (ht.of_mem c hc)]
        by_cases hm : m = c.label
        · subst hm
          simp [route_cons_of_mem ht.here hc]
        · simp [hm]

/-- The labels of the children satisfy a predicate. -/
def LabelsIn (S : L → Prop) (t : LabelTree L V) : Prop := ∀ c ∈ t.children, S c.label

variable {S : L → Prop}

/-- Grafting adds no labels but those of the path. -/
theorem labelsIn_graft (ht : Everywhere (LabelsIn S) t) (hls : ∀ l ∈ ls, S l) :
    Everywhere (LabelsIn S) (graft same v ls t) := by
  induction ls generalizing t with
  | nil => exact ⟨ht.here, ht.of_mem⟩
  | cons l ls ih =>
    obtain ⟨hl, hls⟩ := forall_mem_cons.mp hls
    rcases hspan : t.children.span fun c => !same c.label l with ⟨pre, _ | ⟨c, post⟩⟩
    · obtain ⟨rfl, -⟩ := span_missing hspan
      have hleaf : Everywhere (LabelsIn S) (leaf l : LabelTree L V) := ⟨nofun, nofun⟩
      simp only [graft, hspan]
      refine ⟨forall_mem_append.mpr ⟨ht.here, ?_⟩,
        forall_mem_append.mpr ⟨ht.of_mem, forall_mem_singleton.mpr (ih hleaf hls)⟩⟩
      rwa [forall_mem_singleton, label_graft]
    · obtain ⟨hsplit, -⟩ := span_found hspan
      have hc : c ∈ t.children := by simp [hsplit]
      simp only [graft, hspan]
      refine ⟨forall_mem_replaced hsplit ht.here ?_,
        forall_mem_replaced hsplit ht.of_mem (ih (ht.of_mem c hc) hls)⟩
      rw [label_graft]
      exact ht.here c hc

/-- A path lands where it says if labels that count as the same are equal. -/
theorem landing_eq_self (hsame : ∀ a b, S a → S b → same a b = true → a = b)
    (ht : Everywhere (LabelsIn S) t) (hls : ∀ l ∈ ls, S l) : landing same ls t = ls := by
  induction ls generalizing t with
  | nil => rfl
  | cons l ls ih =>
    obtain ⟨hl, hls⟩ := forall_mem_cons.mp hls
    rcases hspan : t.children.span fun c => !same c.label l with ⟨pre, _ | ⟨c, post⟩⟩
    · simp only [landing, hspan]
    · obtain ⟨hsplit, hcl⟩ := span_found hspan
      have hc : c ∈ t.children := by simp [hsplit]
      simp only [landing, hspan]
      rw [hsame c.label l (ht.here c hc) hl hcl, ih (ht.of_mem c hc) hls]

end Graft

/-! ### The first path -/

section First

variable (before : L → L → Prop) {R S : List L → V → Prop} {ls ms : List L} {v w : V}

/-- `ls` is the first path with the property: where another one parts from it, the label of `ls`
comes before that of the other. -/
structure IsFirst (R : List L → V → Prop) (ls : List L) (v : V) : Prop where
  mem : R ls v
  least : ∀ ms w, R ms w → (ms = ls ∧ w = v) ∨ List.Lex before ls ms

variable {before}

theorem IsFirst.unique [Std.Asymm before] (hls : IsFirst before R ls v)
    (hms : IsFirst before R ms w) : ls = ms ∧ v = w := by
  rcases hls.least ms w hms.mem with ⟨rfl, rfl⟩ | hlt
  · exact ⟨rfl, rfl⟩
  · rcases hms.least ls v hls.mem with ⟨rfl, rfl⟩ | hgt
    · exact ⟨rfl, rfl⟩
    · exact absurd hgt (Std.Asymm.asymm _ _ hlt)

theorem IsFirst.congr (h : ∀ ls v, R ls v ↔ S ls v) (hls : IsFirst before R ls v) :
    IsFirst before S ls v :=
  ⟨(h ls v).mp hls.mem, fun ms w hms => hls.least ms w ((h ms w).mpr hms)⟩

end First

end LabelTree
