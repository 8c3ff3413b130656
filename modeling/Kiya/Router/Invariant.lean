import Kiya.Router.Tree

/-!
# The invariant of the routing tree

`Walks` is the loop of `AddRoute` as a relation, with a case for each thing that a step can do; all
facts about the loop are proved by induction on it. The slots of a node are what its children can
occupy: there is one for each static text, one for parameters with or without an expression, and one
for a wildcard. A new node gets a slot that is free, because a node with the same slot is either the
same node or a conflict. A conflict is reported only while all nodes so far were there before, for
a fresh node has no children to be in conflict with, so it leaves the tree as it was.
-/

namespace Kiya.Router

open LabelTree Label List

variable {H : Type}

/-! ### The loop as a relation -/

/-- The segments that are left behind a node: none behind a wildcard. -/
def restAfter (n : Label) (rest : List Str) : List Str :=
  if n.nType = .wildcardNode then [] else rest

/-- `Walks E fullPath h segs current current₁ o`: the loop turns `current` into `current₁` and ends
with `o`. -/
inductive Walks (E : Engine) (fullPath : Str) (h : Option H) :
    List Str → Node H → Node H → Outcome → Prop
  | done {current : Node H} :
    Walks E fullPath h [] current { current with value := h } .registered
  | panic {current : Node H} {seg : Str} {rest : List Str} (hseg : parseSegment E seg = none) :
    Walks E fullPath h (seg :: rest) current current .panic
  | conflict {current c : Node H} {seg : Str} {rest : List Str} {n : Label}
    (hseg : parseSegment E seg = some n) (hc : c ∈ current.children)
    (hconflict : isConflict c.label n = true) :
    Walks E fullPath h (seg :: rest) current current (.conflict fullPath seg c.label.part)
  | found {current c c₁ : Node H} {pre post : List (Node H)} {seg : Str} {rest : List Str}
    {n : Label} {o : Outcome} (hseg : parseSegment E seg = some n)
    (hspan : (current.children.span fun c => !sameNode c.label n) = (pre, c :: post))
    (hwalk : Walks E fullPath h (restAfter n rest) c c₁ o) :
    Walks E fullPath h (seg :: rest) current { current with children := pre ++ c₁ :: post } o
  | fresh {current c₁ : Node H} {pre : List (Node H)} {seg : Str} {rest : List Str} {n : Label}
    {o : Outcome} (hseg : parseSegment E seg = some n)
    (hspan : (current.children.span fun c => !sameNode c.label n) = (pre, []))
    (hfree : ∀ c ∈ current.children, isConflict c.label n = false)
    (hwalk : Walks E fullPath h (restAfter n rest) (.leaf n) c₁ o) :
    Walks E fullPath h (seg :: rest) current
      { current with children := current.children ++ [c₁] } o

/-- The loop does what the relation says. -/
theorem walks_walk (E : Engine) (fullPath : Str) (h : Option H) (segs : List Str)
    (current : Node H) : Walks E fullPath h segs current (walk E fullPath h segs current).1
      (walk E fullPath h segs current).2 := by
  induction segs generalizing current with
  | nil => exact .done
  | cons seg rest ih =>
    cases hseg : parseSegment E seg with
    | none =>
      simp only [walk, hseg]
      exact .panic hseg
    | some n =>
      have hnext : ∀ child : Node H, Walks E fullPath h (restAfter n rest) child
          (if n.nType = .wildcardNode then ({ child with value := h }, Outcome.registered)
            else walk E fullPath h rest child).1
          (if n.nType = .wildcardNode then ({ child with value := h }, Outcome.registered)
            else walk E fullPath h rest child).2 := by
        intro child
        unfold restAfter
        split_ifs with hwild
        -- at a wildcard the loop sets the handler and returns
        · exact .done
        · exact ih child
      rcases hspan : current.children.span fun c => !sameNode c.label n with ⟨pre, _ | ⟨c, post⟩⟩
      · cases hfind : current.children.find? fun c => isConflict c.label n with
        | some c =>
          simp only [walk, hseg, hspan, hfind]
          have hconflict : isConflict c.label n = true := by simpa using find?_some hfind
          exact .conflict hseg (mem_of_find?_eq_some hfind) hconflict
        | none =>
          simp only [walk, hseg, hspan, hfind]
          have hfree : ∀ c ∈ current.children, isConflict c.label n = false := by
            simpa using find?_eq_none.mp hfind
          exact .fresh hseg hspan hfree (hnext _)
      · simp only [walk, hseg, hspan]
        exact .found hseg hspan (hnext c)

section Walks

variable {E : Engine} {fullPath : Str} {h : Option H} {segs : List Str} {n n₁ : Node H}
  {o : Outcome}

theorem Walks.label_eq (w : Walks E fullPath h segs n n₁ o) : n₁.label = n.label := by
  cases w <;> rfl

/-! ### Conflicts -/

/-- `AddRoute` logs a conflict. -/
def Outcome.reportsConflict : Outcome → Bool
  | .conflict .. => true
  | _ => false

theorem Walks.no_conflict (w : Walks E fullPath h segs n n₁ o) (hn : n.children = []) :
    o.reportsConflict = false := by
  induction w with
  | done | panic => rfl
  | conflict _ hc _ =>
    rw [hn] at hc
    cases hc
  | found _ hspan _ _ =>
    rw [(span_found hspan).1] at hn
    simp at hn
  | fresh _ _ _ _ ih => exact ih rfl

/-- A walk that ends in a conflict has changed nothing. -/
theorem Walks.eq_of_conflict (w : Walks E fullPath h segs n n₁ o)
    (ho : o.reportsConflict = true) : n₁ = n := by
  induction w with
  | done => cases ho
  | panic | conflict => rfl
  | found _ hspan _ ih =>
    rw [ih ho, ← (span_found hspan).1, eta]
  | fresh _ _ _ hwalk _ =>
    -- below a fresh node there is nothing to be in conflict with
    rw [hwalk.no_conflict rfl] at ho
    cases ho

/-! ### Panics -/

theorem Walks.not_panic (w : Walks E fullPath h segs n n₁ o)
    (hsegs : ∀ seg ∈ segs, parseSegment E seg ≠ none) : o ≠ .panic := by
  have hrest : ∀ {seg : Str} {rest : List Str} (n : Label),
      (∀ s ∈ seg :: rest, parseSegment E s ≠ none) →
        ∀ s ∈ restAfter n rest, parseSegment E s ≠ none := by
    intro seg rest n hsegs s hs
    refine hsegs s (mem_cons_of_mem _ ?_)
    rw [restAfter] at hs
    split_ifs at hs
    · cases hs
    · exact hs
  induction w with
  | done => simp
  | panic hseg => exact absurd hseg (hsegs _ mem_cons_self)
  | conflict => simp
  | found _ _ _ ih => exact ih (hrest _ hsegs)
  | fresh _ _ _ _ ih => exact ih (hrest _ hsegs)

/-- The brace segments of a pattern have at least two characters. -/
def BracesClose (path : Str) : Prop :=
  ∀ seg ∈ segments path, seg.head? = some '{' → 2 ≤ seg.length

instance (path : Str) : Decidable (BracesClose path) :=
  inferInstanceAs (Decidable (∀ seg ∈ segments path, _))

theorem parseSegment_ne_none {seg : Str} (hseg : seg.head? = some '{' → 2 ≤ seg.length) :
    parseSegment E seg ≠ none := by
  unfold parseSegment
  split_ifs with hhead hlen
  · simp
  · have := hseg (by simpa using hhead)
    omega
  · simp only
    split_ifs
    · simp
    · split
      · simp
      · split_ifs <;> simp

/-! ### Slots -/

end Walks

/-- What a child of a node can occupy. -/
inductive Slot
  | static (part : Str)
  | dynamic
  | wildcard

/-- The slot of a node. -/
def Label.slot : Label → Slot
  | static part => .static part
  | param _ => .dynamic
  | regex _ _ => .dynamic
  | wildcard _ => .wildcard

/-- A node that is neither the same nor in conflict has another slot. -/
theorem slot_ne {c n : Label} (hsame : sameNode c n = false) (hconflict : isConflict c n = false) :
    c.slot ≠ n.slot := by
  cases c <;> cases n <;> simp [sameNode, isConflict, slot, nType, part,
    paramName] at hsame hconflict ⊢
  exact of_decide_eq_false hsame

theorem nType_eq_of_sameNode {a b : Label} (h : sameNode a b = true) : a.nType = b.nType := by
  simp only [sameNode, Bool.and_eq_true, decide_eq_true_eq] at h
  exact h.1.1

theorem sameNode_self (l : Label) : sameNode l l = true := by simp [sameNode]

/-- A node whose children have different slots, and which is finished if it is a wildcard. -/
structure Sound (n : Node H) : Prop where
  slots : (n.children.map fun c => c.label.slot).Nodup
  wildcard : n.label.nType = .wildcardNode → n.children = [] ∧ n.value.isSome = true

section Sound

variable {E : Engine} {fullPath : Str} {segs : List Str} {n n₁ : Node H} {o : Outcome}

theorem Sound.distinctLabels (hn : Sound n) : n.DistinctLabels := by
  have h := hn.slots
  rw [show (fun c : Node H => c.label.slot) = slot ∘ label from rfl, ← map_map] at h
  exact h.of_map

/-- Every walk with a handler keeps the tree sound. The node it starts at may be a fresh one that
has no handler yet. -/
theorem Walks.sound {h : H} (w : Walks E fullPath (some h) segs n n₁ o)
    (hslots : (n.children.map fun c => c.label.slot).Nodup)
    (hbelow : ∀ c ∈ n.children, c.Everywhere Sound)
    (hwild : n.label.nType = .wildcardNode → n.children = [] ∧ segs = []) :
    n₁.Everywhere Sound := by
  -- a wildcard is entered only to set its handler
  have hrest : ∀ {c : Label} (n : Label) (rest : List Str), sameNode c n = true →
      c.nType = .wildcardNode → restAfter n rest = [] := by
    intro c n rest hsame hc
    rw [restAfter, ← nType_eq_of_sameNode hsame, if_pos hc]
  induction w with
  | done => exact ⟨⟨hslots, fun hn => ⟨(hwild hn).1, rfl⟩⟩, hbelow⟩
  | panic => exact ⟨⟨hslots, fun hn => absurd (hwild hn).2 (cons_ne_nil _ _)⟩, hbelow⟩
  | conflict => exact ⟨⟨hslots, fun hn => absurd (hwild hn).2 (cons_ne_nil _ _)⟩, hbelow⟩
  | @found current c c₁ pre post seg rest l o hseg hspan hwalk ih =>
    obtain ⟨hsplit, hsame⟩ := span_found hspan
    have hc := hbelow c (by simp [hsplit])
    have hc₁ : c₁.Everywhere Sound := by
      refine ih hc.here.slots hc.of_mem fun hn => ?_
      exact ⟨(hc.here.wildcard hn).1, hrest l rest hsame hn⟩
    refine ⟨⟨?_, fun hn => absurd (hwild hn).2 (cons_ne_nil _ _)⟩, ?_⟩
    · rw [hsplit] at hslots
      simpa [hwalk.label_eq] using hslots
    · exact forall_mem_replaced hsplit hbelow hc₁
  | @fresh current c₁ pre seg rest l o hseg hspan hfree hwalk ih =>
    obtain ⟨-, hmissing⟩ := span_missing hspan
    have hc₁ : c₁.Everywhere Sound := by
      exact ih nodup_nil nofun fun hn => ⟨rfl, hrest l rest (sameNode_self l) hn⟩
    refine ⟨⟨?_, fun hn => absurd (hwild hn).2 (cons_ne_nil _ _)⟩, ?_⟩
    · -- the slot is free: a child in it would have been the same node or a conflict
      have hnew : ∀ c ∈ current.children, c.label.slot ≠ c₁.label.slot := by
        intro c hc
        rw [hwalk.label_eq]
        exact slot_ne (hmissing c hc) (hfree c hc)
      simpa [nodup_append, hslots] using hnew
    · exact forall_mem_append.mpr ⟨hbelow, forall_mem_singleton.mpr hc₁⟩

end Sound

/-! ### Leaves -/

/-- A leaf has a handler. -/
def Handled (n : Node H) : Prop := n.children = [] → n.value.isSome = true

/-- The children that are leaves have a handler. -/
def LeavesHandled (n : Node H) : Prop := ∀ c ∈ n.children, Handled c

section Leaves

variable {E : Engine} {fullPath : Str} {segs : List Str} {n n₁ : Node H} {o : Outcome} {h : H}

theorem Walks.handled (w : Walks E fullPath (some h) segs n n₁ o) (ho : o = .registered) :
    Handled n₁ := by
  intro hleaf
  cases w with
  | done => rfl
  | panic | conflict => cases ho
  | found | fresh => simp at hleaf

/-- A walk that does not panic leaves no leaf without a handler. -/
theorem Walks.leavesHandled (w : Walks E fullPath (some h) segs n n₁ o) (ho : o ≠ .panic)
    (hn : n.Everywhere LeavesHandled) : n₁.Everywhere LeavesHandled := by
  by_cases hconflict : o.reportsConflict = true
  · rwa [w.eq_of_conflict hconflict]
  · have hregistered : o = .registered := by
      cases o with
      | registered => rfl
      | conflict => exact absurd rfl hconflict
      | panic => exact absurd rfl ho
    clear ho hconflict
    induction w with
    | done => exact ⟨hn.here, hn.of_mem⟩
    | panic | conflict => cases hregistered
    | found _ hspan hwalk ih =>
      obtain ⟨hsplit, -⟩ := span_found hspan
      have hc := hn.of_mem _ (by rw [hsplit]; exact mem_append_right _ mem_cons_self)
      exact ⟨forall_mem_replaced hsplit hn.here (hwalk.handled hregistered),
        forall_mem_replaced hsplit hn.of_mem (ih hc hregistered)⟩
    | fresh _ _ _ hwalk ih =>
      have hleaf := ih ⟨nofun, nofun⟩ hregistered
      refine ⟨forall_mem_append.mpr ⟨hn.here, ?_⟩, forall_mem_append.mpr ⟨hn.of_mem, ?_⟩⟩
      · exact forall_mem_singleton.mpr (hwalk.handled hregistered)
      · exact forall_mem_singleton.mpr hleaf

end Leaves

/-! ### Reachable trees -/

/-- The trees that calls of `AddRoute` with handlers and with patterns of some kind lead to; a call
may end in any way. -/
inductive ReachableWith (E : Engine) (ok : Str → Prop) : Tree H → Prop
  | newTree : ReachableWith E ok newTree
  | addRoute {t : Tree H} {path : Str} (ht : ReachableWith E ok t) (method : String)
    (hpath : ok path) (h : H) : ReachableWith E ok (t.addRoute E method path (some h)).1

/-- The trees that calls of `AddRoute` with handlers lead to. -/
abbrev Reachable (E : Engine) : Tree H → Prop := ReachableWith E fun _ => True

section Reachable

variable {E : Engine} {ok : Str → Prop} {t : Tree H} {method m : String} {path : Str}

theorem root_addRoute_self (h : Option H) : (t.addRoute E method path h).1.root method =
    some (walk E (cleanPath path) h (segments path) (t.rootOrNew method)).1 :=
  lookup_putRoot_self

theorem root_addRoute_of_ne (hm : m ≠ method) (h : Option H) :
    (t.addRoute E method path h).1.root m = t.root m :=
  lookup_putRoot_of_ne hm

theorem rootOrNew_addRoute_self (h : Option H) : (t.addRoute E method path h).1.rootOrNew method =
      (walk E (cleanPath path) h (segments path) (t.rootOrNew method)).1 := by
  rw [Tree.rootOrNew, root_addRoute_self, Option.getD_some]

theorem rootOrNew_addRoute_of_ne (hm : m ≠ method) (h : Option H) :
    (t.addRoute E method path h).1.rootOrNew m = t.rootOrNew m := by
  rw [Tree.rootOrNew, root_addRoute_of_ne hm, Tree.rootOrNew]

/-- What holds of a new root and is kept by every walk holds of all roots. -/
theorem ReachableWith.rootOrNew {P : Node H → Prop} (hnew : P (.leaf (.static [])))
    (hstep : ∀ path h n, ok path → P n → P (walk E (cleanPath path) (some h) (segments path) n).1)
    (ht : ReachableWith E ok t) (m : String) : P (t.rootOrNew m) := by
  induction ht with
  | newTree => exact hnew
  | @addRoute t path _ method hpath h ih =>
    by_cases hm : m = method
    · subst hm
      rw [rootOrNew_addRoute_self]
      exact hstep path h _ hpath ih
    · rwa [rootOrNew_addRoute_of_ne hm]

/-- Every root of a reachable tree is sound. -/
theorem ReachableWith.sound (ht : ReachableWith E ok t) (m : String) :
    (t.rootOrNew m).Everywhere Sound := by
  have hroot : (t.rootOrNew m).Everywhere Sound ∧
      (t.rootOrNew m).label.nType ≠ .wildcardNode := by
    refine ht.rootOrNew (P := fun n => n.Everywhere Sound ∧ n.label.nType ≠ .wildcardNode)
      ⟨⟨⟨nodup_nil, nofun⟩, nofun⟩, nofun⟩ ?_ m
    intro path h n _ hn
    have w := walks_walk E (cleanPath path) (some h) (segments path) n
    refine ⟨w.sound hn.1.here.slots hn.1.of_mem fun hwild => absurd hwild hn.2, ?_⟩
    rw [w.label_eq]
    exact hn.2
  exact hroot.1

theorem ReachableWith.distinctLabels (ht : ReachableWith E ok t) (m : String) :
    (t.rootOrNew m).Everywhere DistinctLabels :=
  (ht.sound m).mono fun _ => Sound.distinctLabels

/-- If no pattern has a lone brace, all leaves have handlers. -/
theorem ReachableWith.leavesHandled (ht : ReachableWith E BracesClose t) (m : String) :
    (t.rootOrNew m).Everywhere LeavesHandled := by
  refine ht.rootOrNew ⟨nofun, nofun⟩ ?_ m
  intro path h n hpath hn
  have w := walks_walk E (cleanPath path) (some h) (segments path) n
  exact w.leavesHandled (w.not_panic fun seg hseg => parseSegment_ne_none (hpath seg hseg)) hn

end Reachable

/-! ### The invariant -/

/-- A node as it should be: at most one static child for each text, at most one child that is a
parameter with or without an expression, at most one wildcard, nothing below a wildcard, and a
handler in every child that is a leaf. -/
structure Regular (n : Node H) : Prop where
  static : ((n.children.filter fun c => c.label.nType = .static).map fun c => c.label.part).Nodup
  dynamic : (n.children.filter fun c =>
    c.label.nType = .paramNode ∨ c.label.nType = .regexNode).length ≤ 1
  wildcard : (n.children.filter fun c => c.label.nType = .wildcardNode).length ≤ 1
  tail : n.label.nType = .wildcardNode → n.children = []
  handled : LeavesHandled n

/-- Children that all have one slot are at most one. -/
theorem length_filter_le_one {cs : List (Node H)} (hcs : (cs.map fun c => c.label.slot).Nodup)
    {p : Node H → Bool} {s : Slot} (hp : ∀ c, p c = true → c.label.slot = s) :
    (cs.filter p).length ≤ 1 := by
  have hnodup := hcs.sublist (List.Sublist.map _ (filter_sublist (p := p)))
  have hslot : (cs.filter p).map (fun c => c.label.slot) =
      List.replicate (cs.filter p).length s := by
    refine eq_replicate_iff.mpr ⟨length_map _, ?_⟩
    rintro _ hmem
    obtain ⟨c, hc, rfl⟩ := mem_map.mp hmem
    exact hp c (mem_filter.mp hc).2
  rw [hslot] at hnodup
  exact nodup_replicate.mp hnodup

theorem regular_of_sound {n : Node H} (hn : Sound n) (hleaves : LeavesHandled n) : Regular n := by
  refine ⟨?_, ?_, ?_, fun hwild => (hn.wildcard hwild).1, hleaves⟩
  · have hnodup := hn.slots.sublist
      (List.Sublist.map _ (filter_sublist (p := fun c => c.label.nType = .static)))
    have hslot : ∀ c ∈ n.children.filter fun c => c.label.nType = .static,
        c.label.slot = .static c.label.part := by
      intro c hc
      have htype : c.label.nType = .static := by simpa using (mem_filter.mp hc).2
      cases hlabel : c.label <;> rw [hlabel] at htype <;> first | rfl | cases htype
    rw [map_congr_left hslot] at hnodup
    refine List.Nodup.of_map Slot.static ?_
    rwa [map_map]
  · refine length_filter_le_one (s := .dynamic) hn.slots fun c hc => ?_
    cases hlabel : c.label <;> simp [hlabel, nType] at hc <;> rfl
  · refine length_filter_le_one (s := .wildcard) hn.slots fun c hc => ?_
    cases hlabel : c.label <;> simp [hlabel, nType] at hc
    rfl

/-- **The tree is regular, and a conflict changes nothing.** After any calls of `AddRoute` with
handlers and with patterns whose brace segments have at least two characters, every node of every
root is regular, and a further call that reports a conflict leaves the whole tree as it was. -/
theorem tree_regular (E : Engine) (t : Tree H) (ht : ReachableWith E BracesClose t) :
    (∀ m root, t.root m = some root → root.Everywhere Regular) ∧
    ∀ m path h, (t.addRoute E m path (some h)).2.reportsConflict = true →
      (t.addRoute E m path (some h)).1 = t := by
  constructor
  · intro m root hroot
    have hnew : t.rootOrNew m = root := by rw [Tree.rootOrNew, hroot, Option.getD_some]
    rw [← hnew]
    exact ((ht.sound m).and (ht.leavesHandled m)).mono fun n hn => regular_of_sound hn.1 hn.2
  · intro m path h hconflict
    have w := walks_walk E (cleanPath path) (some h) (segments path) (t.rootOrNew m)
    have heq := w.eq_of_conflict hconflict
    cases hroot : t.root m with
    | none =>
      -- a new root has no children to be in conflict with
      have hno := w.no_conflict (by rw [Tree.rootOrNew, hroot]; rfl)
      exact absurd (hno.symm.trans hconflict) Bool.false_ne_true
    | some root =>
      have hsame : putRoot m (t.rootOrNew m) t.roots = t.roots := by
        rw [Tree.rootOrNew, hroot]
        exact putRoot_of_lookup hroot
      have hroots : (t.addRoute E m path (some h)).1.roots = t.roots :=
        (congrArg (fun n => putRoot m n t.roots) heq).trans hsame
      exact congrArg Tree.mk hroots

/-- An engine for two expressions, a number and a lower-case word. -/
def wordEngine : Engine where
  compiles expr := expr = "^[0-9]+$".toList || expr = "^[a-z]+$".toList
  matchString expr seg := !seg.isEmpty &&
    seg.all fun c => if expr = "^[0-9]+$".toList then c.isDigit else c.isLower

/-- Users by number, and a form for a new one. -/
def usersTree : Tree String :=
  let t := (newTree.addRoute wordEngine "GET" "/users/{id:[0-9]+}".toList (some "show")).1
  (t.addRoute wordEngine "GET" "/users/new".toList (some "form")).1

theorem usersTree_regular :
    (∀ m root, usersTree.root m = some root → root.Everywhere Regular) ∧
    (usersTree.addRoute wordEngine "GET" "/users/{name}/posts".toList (some "posts")).2 =
      .conflict "/users/{name}/posts".toList "{name}".toList [] ∧
    (usersTree.addRoute wordEngine "GET" "/users/{name}/posts".toList (some "posts")).1 =
      usersTree := by
  have h := tree_regular wordEngine usersTree
    (.addRoute (.addRoute .newTree "GET" (by decide +kernel) "show") "GET" (by decide +kernel)
      "form")
  exact ⟨h.1, by decide +kernel, h.2 _ _ _ (by decide +kernel)⟩

end Kiya.Router
