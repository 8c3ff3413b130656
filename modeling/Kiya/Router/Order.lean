import Kiya.Router.Registration

/-!
# The order of registrations

Two orders of the same registrations lead to different trees, for children are kept in the order in
which they were added. If no expression is stored in the place of another one, and no handler in the
place of another one, then the routes of both trees are the registered patterns with their handlers,
and lookup depends on the routes only.
-/

namespace Kiya.Router

open LabelTree List

variable {H : Type}

/-- The arguments of a call of `AddRoute`. -/
structure Registration (H : Type) where
  method : String
  pattern : Str
  handler : H

/-- The labels of the pattern. -/
def Registration.labels (E : Engine) (r : Registration H) : Option (List Label) :=
  labelsOf E (segments r.pattern)

/-- Calls of `AddRoute`, one after the other, and how each of them ended. -/
def registerAll (E : Engine) : List (Registration H) → Tree H → Tree H × List Outcome
  | [], t => (t, [])
  | r :: rs, t =>
    let first := t.addRoute E r.method r.pattern (some r.handler)
    let others := registerAll E rs first.1
    (others.1, first.2 :: others.2)

/-- In the labels of the registered patterns, a parameter name has only one expression. -/
def SameExpressions (E : Engine) (regs : List (Registration H)) : Prop :=
  ∀ r ∈ regs, ∀ r₁ ∈ regs, ∀ ls ∈ r.labels E, ∀ ls₁ ∈ r₁.labels E, ∀ name expr expr₁,
    Label.regex name expr ∈ ls → Label.regex name expr₁ ∈ ls₁ → expr = expr₁

section Run

variable {E : Engine} {regs : List (Registration H)} {t : Tree H}

/-- A label of a registered pattern. -/
def Registered (E : Engine) (regs : List (Registration H)) (l : Label) : Prop :=
  ∃ r ∈ regs, ∃ ls ∈ r.labels E, l ∈ ls

/-- Labels of registered patterns that count as the same are equal. -/
theorem eq_of_sameNode (hexpr : SameExpressions E regs) {a b : Label} (ha : Registered E regs a)
    (hb : Registered E regs b) (hsame : sameNode a b = true) : a = b := by
  simp only [sameNode, Bool.and_eq_true, decide_eq_true_eq] at hsame
  obtain ⟨⟨htype, hpart⟩, hname⟩ := hsame
  cases a with
  | static part =>
    cases b with
    | static part₁ => exact congrArg Label.static hpart
    | _ => cases htype
  | param name =>
    cases b with
    | param name₁ => exact congrArg Label.param hname
    | _ => cases htype
  | wildcard name =>
    cases b with
    | wildcard name₁ => exact congrArg Label.wildcard hname
    | _ => cases htype
  | regex name expr =>
    cases b with
    | regex name₁ expr₁ =>
      obtain rfl : name = name₁ := hname
      obtain ⟨r, hr, ls, hls, hmem⟩ := ha
      obtain ⟨r₁, hr₁, ls₁, hls₁, hmem₁⟩ := hb
      rw [hexpr r hr r₁ hr₁ ls hls ls₁ hls₁ name expr expr₁ hmem hmem₁]
    | _ => cases htype

/-- A pattern that can be parsed does not panic. -/
theorem Walks.not_panic_of_labels {fullPath : Str} {h : Option H} {segs : List Str} {n n₁ : Node H}
    {o : Outcome} (w : Walks E fullPath h segs n n₁ o) (hsegs : labelsOf E segs ≠ none) :
    o ≠ .panic := by
  induction w with
  | done => simp
  | panic hseg =>
    rw [labelsOf, hseg] at hsegs
    exact absurd rfl hsegs
  | conflict => simp
  | found hseg _ _ ih =>
    rw [labelsOf_cons hseg] at hsegs
    exact ih fun hnone => hsegs (by rw [hnone]; rfl)
  | fresh hseg _ _ _ ih =>
    rw [labelsOf_cons hseg] at hsegs
    exact ih fun hnone => hsegs (by rw [hnone]; rfl)

/-- The registration is for this method and these labels. -/
def Registration.IsFor (E : Engine) (r : Registration H) (m : String) (ls : List Label) : Prop :=
  r.method = m ∧ r.labels E = some ls

/-- The labels of all nodes are labels of registered patterns. -/
def Tree.LabelsRegistered (E : Engine) (regs : List (Registration H)) (t : Tree H) : Prop :=
  ∀ m, (t.rootOrNew m).Everywhere (LabelsIn (Registered E regs))

variable {r : Registration H}

/-- A registration that can be parsed and reports no conflict succeeds. -/
theorem registered_of_no_conflict (hlabels : r.labels E ≠ none)
    (hok : (t.addRoute E r.method r.pattern (some r.handler)).2.reportsConflict = false) :
    (t.addRoute E r.method r.pattern (some r.handler)).2 = .registered := by
  have hwalk := walks_walk E (cleanPath r.pattern) (some r.handler) (segments r.pattern)
    (t.rootOrNew r.method)
  have hpanic := hwalk.not_panic_of_labels hlabels
  cases ho : (t.addRoute E r.method r.pattern (some r.handler)).2 with
  | registered => rfl
  | conflict =>
    rw [ho] at hok
    cases hok
  | panic => exact absurd ho hpanic

variable (hexpr : SameExpressions E regs)

include hexpr

/-- One registration puts its handler at its own labels. -/
theorem route_addRoute (ht : Reachable E t) (hin : t.LabelsRegistered E regs)
    (hr : r ∈ regs) (hlabels : r.labels E ≠ none)
    (hok : (t.addRoute E r.method r.pattern (some r.handler)).2.reportsConflict = false) :
    (t.addRoute E r.method r.pattern (some r.handler)).1.LabelsRegistered E regs ∧
    ∀ m ls w, ((t.addRoute E r.method r.pattern (some r.handler)).1.rootOrNew m).Route ls w ↔
      (r.IsFor E m ls ∧ w = r.handler) ∨ (¬r.IsFor E m ls ∧ (t.rootOrNew m).Route ls w) := by
  obtain ⟨own, hown, hself⟩ := addRoute_eq_graft (registered_of_no_conflict hlabels hok)
  have howned : ∀ l ∈ own, Registered E regs l := fun l hl => ⟨r, hr, own, hown, hl⟩
  -- a node that is taken for one of the pattern has the same expression, too
  have hlanding : landing sameNode own (t.rootOrNew r.method) = own :=
    landing_eq_self (fun a b => eq_of_sameNode hexpr) (hin r.method) howned
  constructor
  · intro m
    by_cases hm : m = r.method
    · subst hm
      rw [hself]
      exact labelsIn_graft (hin _) howned
    · rw [rootOrNew_addRoute_of_ne hm]
      exact hin m
  · intro m ls w
    by_cases hm : m = r.method
    · subst hm
      have hfor : r.IsFor E r.method ls ↔ ls = own := by
        rw [Registration.IsFor, show r.labels E = some own from hown, Option.some_inj]
        exact ⟨fun h => h.2.symm, fun h => ⟨rfl, h.symm⟩⟩
      rw [hself, route_graft sameNode_self (ht.distinctLabels _), hlanding, hfor]
    · have hfor : ¬r.IsFor E m ls := fun h => hm h.1.symm
      rw [rootOrNew_addRoute_of_ne hm]
      simp [hfor]

/-- After all registrations the routes are the registered patterns with their handlers, and those
that were there before. -/
theorem route_registerAll {rs : List (Registration H)} (hrs : ∀ r ∈ rs, r ∈ regs)
    (hlabels : ∀ r ∈ rs, r.labels E ≠ none)
    (hdiff : rs.Pairwise fun r r₁ => r.method = r₁.method → r.labels E ≠ r₁.labels E)
    (ht : Reachable E t) (hin : t.LabelsRegistered E regs)
    (hok : ∀ o ∈ (registerAll E rs t).2, o.reportsConflict = false) :
    Reachable E (registerAll E rs t).1 ∧
    ∀ m ls w, ((registerAll E rs t).1.rootOrNew m).Route ls w ↔
      (∃ r ∈ rs, r.IsFor E m ls ∧ w = r.handler) ∨
        ((∀ r ∈ rs, ¬r.IsFor E m ls) ∧ (t.rootOrNew m).Route ls w) := by
  induction rs generalizing t with
  | nil => exact ⟨ht, by simp [registerAll]⟩
  | cons r rs ih =>
    obtain ⟨hr, hrs⟩ := forall_mem_cons.mp hrs
    obtain ⟨hlabel, hlabels⟩ := forall_mem_cons.mp hlabels
    obtain ⟨hnew, hdiff⟩ := pairwise_cons.mp hdiff
    obtain ⟨hokr, hok⟩ := forall_mem_cons.mp hok
    obtain ⟨hin₁, hstep⟩ := route_addRoute hexpr ht hin hr hlabel hokr
    obtain ⟨hreach, hroutes⟩ := ih hrs hlabels hdiff (.addRoute ht r.method trivial r.handler)
      hin₁ hok
    refine ⟨hreach, fun m ls w => ?_⟩
    -- no later registration is for the same labels
    have hlast : r.IsFor E m ls → ∀ r₁ ∈ rs, ¬r₁.IsFor E m ls := fun hfor r₁ hr₁ hfor₁ =>
      hnew r₁ hr₁ (hfor.1.trans hfor₁.1.symm) (hfor.2.trans hfor₁.2.symm)
    have hiff := (hroutes m ls w).trans (or_congr_right (and_congr_right fun _ => hstep m ls w))
    refine hiff.trans ?_
    by_cases hfor : r.IsFor E m ls
    · have hno : ¬∃ r₁ ∈ rs, r₁.IsFor E m ls ∧ w = r₁.handler := by
        rintro ⟨r₁, hr₁, hfor₁, -⟩
        exact hlast hfor r₁ hr₁ hfor₁
      simp only [forall_mem_cons, exists_mem_cons_iff, hfor, hno]
      simpa using fun _ => hlast hfor
    · simp [hfor]

end Run

/-- **Lookup does not depend on the order of registrations.** If the patterns for a method are
pairwise different as parsed, a parameter name has only one expression, and neither order reports a
conflict, then both trees give the same answer to every method and path. -/
theorem findRoute_order (E : Engine) (regs regs₁ : List (Registration H)) (hperm : regs.Perm regs₁)
    (hlabels : ∀ r ∈ regs, r.labels E ≠ none)
    (hdiff : regs.Pairwise fun r r₁ => r.method = r₁.method → r.labels E ≠ r₁.labels E)
    (hexpr : SameExpressions E regs)
    (hok : ∀ o ∈ (registerAll E regs newTree).2, o.reportsConflict = false)
    (hok₁ : ∀ o ∈ (registerAll E regs₁ newTree).2, o.reportsConflict = false) :
    ∀ m path, (registerAll E regs newTree).1.findRoute E m path =
      (registerAll E regs₁ newTree).1.findRoute E m path := by
  have hempty : (newTree : Tree H).LabelsRegistered E regs := fun m => ⟨nofun, nofun⟩
  have hdiff₁ : regs₁.Pairwise fun r r₁ => r.method = r₁.method → r.labels E ≠ r₁.labels E :=
    hperm.pairwise hdiff fun h hm hl => h hm.symm hl.symm
  obtain ⟨hreach, hroutes⟩ := route_registerAll hexpr (fun r hr => hr) hlabels hdiff .newTree
    hempty hok
  obtain ⟨hreach₁, hroutes₁⟩ := route_registerAll hexpr (fun r hr => hperm.mem_iff.mpr hr)
    (fun r hr => hlabels r (hperm.mem_iff.mpr hr)) hdiff₁ .newTree hempty hok₁
  intro m path
  refine findRoute_congr hreach hreach₁ fun ls w => and_congr_left fun _ => ?_
  rw [hroutes, hroutes₁]
  simp only [hperm.mem_iff]

/-- Three routes of a user. -/
def userRoutes : List (Registration String) :=
  [⟨"GET", "/users/{id:[0-9]+}".toList, "show"⟩, ⟨"GET", "/users/new".toList, "form"⟩,
    ⟨"GET", "/users/{id:[0-9]+}/posts".toList, "posts"⟩]

theorem userRoutes_order :
    (registerAll wordEngine userRoutes newTree).2 = List.replicate 3 .registered ∧
    (registerAll wordEngine userRoutes.reverse newTree).2 = List.replicate 3 .registered ∧
    ∀ m path, (registerAll wordEngine userRoutes newTree).1.findRoute wordEngine m path =
      (registerAll wordEngine userRoutes.reverse newTree).1.findRoute wordEngine m path := by
  refine ⟨by decide +kernel, by decide +kernel, ?_⟩
  refine findRoute_order wordEngine userRoutes userRoutes.reverse (reverse_perm _).symm
    (by decide +kernel) (by decide +kernel) ?_ (by decide +kernel) (by decide +kernel)
  have hnumber : ∀ r ∈ userRoutes, ∀ ls ∈ r.labels wordEngine, ∀ l ∈ ls, l.nType = .regexNode →
      l = .regex "id".toList "^[0-9]+$".toList := by decide +kernel
  intro r hr r₁ hr₁ ls hls ls₁ hls₁ name expr expr₁ hmem hmem₁
  injection hnumber r hr ls hls _ hmem rfl with _ hexpr
  injection hnumber r₁ hr₁ ls₁ hls₁ _ hmem₁ rfl with _ hexpr₁
  rw [hexpr, hexpr₁]

end Kiya.Router
