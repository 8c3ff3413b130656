import Kiya.Router.Lookup

/-!
# What a registration changes

A call of `AddRoute` that ends without a conflict grafts the handler onto the tree, at the labels of
its pattern. Where a node of the same kind, text and parameter name is there already, it is taken
for the pattern's own, and `sameNode` does not compare expressions: a pattern with another
expression under the same name is stored under the expression that was first. A request then has to
match the labels that the handler is stored at, not those of the pattern.

So a registration is exact if and only if the two kinds of labels make no difference for any request
path: one that matches the pattern only has to be served otherwise, and one that matches the
stored labels only has to be answered as before.
-/

namespace Kiya.Router

open LabelTree Label Option

variable {H : Type}

/-- The labels of a pattern, up to its first wildcard; none if a segment cannot be parsed. -/
def labelsOf (E : Engine) : List Str → Option (List Label)
  | [] => some []
  | seg :: rest =>
    match parseSegment E seg with
    | none => none
    | some n => if n.nType = .wildcardNode then some [n] else (labelsOf E rest).map (n :: ·)

section Graft

variable {E : Engine} {fullPath : Str} {segs : List Str} {n n₁ : Node H} {o : Outcome} {h : H}

theorem labelsOf_cons {seg : Str} {rest : List Str} {l : Label}
    (hseg : parseSegment E seg = some l) :
    labelsOf E (seg :: rest) = (labelsOf E (restAfter l rest)).map (l :: ·) := by
  rw [labelsOf, hseg, restAfter]
  simp only
  split_ifs <;> rfl

/-- A walk to the end grafts the handler. -/
theorem Walks.eq_graft (w : Walks E fullPath (some h) segs n n₁ o) (ho : o = .registered) :
    ∃ ls, labelsOf E segs = some ls ∧ n₁ = graft sameNode h ls n := by
  induction w with
  | done => exact ⟨[], rfl, rfl⟩
  | panic | conflict => cases ho
  | found hseg hspan _ ih =>
    obtain ⟨ls, hls, rfl⟩ := ih ho
    refine ⟨_ :: ls, by rw [labelsOf_cons hseg, hls, map_some], ?_⟩
    simp only [graft, hspan]
  | fresh hseg hspan _ _ ih =>
    obtain ⟨ls, hls, rfl⟩ := ih ho
    refine ⟨_ :: ls, by rw [labelsOf_cons hseg, hls, map_some], ?_⟩
    simp only [graft, hspan]
    rw [(span_missing hspan).1]

/-- A registration grafts its handler onto the root of its method. -/
theorem addRoute_eq_graft {t : Tree H} {m : String} {p : Str}
    (hreg : (t.addRoute E m p (some h)).2 = .registered) : ∃ ls, labelsOf E (segments p) = some ls ∧
      (t.addRoute E m p (some h)).1.rootOrNew m = graft sameNode h ls (t.rootOrNew m) := by
  rw [rootOrNew_addRoute_self]
  exact (walks_walk E (cleanPath p) (some h) (segments p) (t.rootOrNew m)).eq_graft hreg

end Graft

/-! ### Stored labels -/

section Stored

variable (E : Engine) (t : Tree H) (m : String) (p q : Str)

/-- The labels at which the handler of a pattern is stored. -/
def storedLabels : Option (List Label) :=
  (labelsOf E (segments p)).map fun ls => landing sameNode ls (t.rootOrNew m)

/-- What the labels of a pattern capture from a request path. -/
def ownCaptures : Option (List Param) :=
  (labelsOf E (segments p)).bind fun ls => captures E ls (segments q)

/-- What the labels at which a handler is stored capture from a request path. -/
def storedCaptures : Option (List Param) :=
  (storedLabels E t m p).bind fun ls => captures E ls (segments q)

variable {E t m p q} {h : H}

/-- After a registration the routes of the method are the old ones, with the new handler at the
stored labels. -/
theorem matches_addRoute (ht : Reachable E t) (hreg : (t.addRoute E m p (some h)).2 = .registered) :
    ∃ stored, storedLabels E t m p = some stored ∧ ∀ q ls w,
      (t.addRoute E m p (some h)).1.Matches E m q ls w ↔
        (captures E ls (segments q)).isSome = true ∧
          ((ls = stored ∧ w = h) ∨ (ls ≠ stored ∧ (t.rootOrNew m).Route ls w)) := by
  obtain ⟨ls, hls, hroot⟩ := addRoute_eq_graft hreg
  refine ⟨landing sameNode ls (t.rootOrNew m), by rw [storedLabels, hls, map_some], ?_⟩
  intro q ms w
  rw [Tree.Matches, Candidate, hroot, route_graft sameNode_self (ht.distinctLabels m), and_comm]

end Stored

/-! ### Answers after a registration -/

section Answers

variable {E : Engine} {t : Tree H} {m : String} {p q : Str} {h : H}
  (ht : Reachable E t) (hreg : (t.addRoute E m p (some h)).2 = .registered)

include ht hreg

/-- A path that does not match the stored labels is answered as before. -/
theorem findRoute_of_not_stored (hq : storedCaptures E t m p q = none) :
    (t.addRoute E m p (some h)).1.findRoute E m q = t.findRoute E m q := by
  obtain ⟨stored, hstored, hmatches⟩ := matches_addRoute ht hreg
  rw [storedCaptures, hstored, bind_some] at hq
  -- the stored labels do not match, so the matching routes of both trees are the same
  refine findRoute_congr (.addRoute ht m trivial h) ht fun ls w => ?_
  rw [hmatches, Tree.Matches, Candidate]
  constructor
  · rintro ⟨hcaptures, ⟨rfl, rfl⟩ | ⟨-, hroute⟩⟩
    · rw [hq] at hcaptures
      cases hcaptures
    · exact ⟨hroute, hcaptures⟩
  · rintro ⟨hroute, hcaptures⟩
    refine ⟨hcaptures, .inr ⟨?_, hroute⟩⟩
    rintro rfl
    rw [hq] at hcaptures
    cases hcaptures

/-- A path is answered as before if a route that comes before the stored labels matches it. -/
theorem findRoute_of_before {stored ls : List Label} {w : H}
    (hstored : storedLabels E t m p = some stored)
    (hfirst : IsFirst Before (t.Matches E m q) ls w)
    (hbefore : List.Lex Before ls stored) :
    (t.addRoute E m p (some h)).1.findRoute E m q = t.findRoute E m q := by
  obtain ⟨stored₁, hstored₁, hmatches⟩ := matches_addRoute ht hreg
  obtain rfl : stored = stored₁ := some_inj.mp (hstored.symm.trans hstored₁)
  have hne : ls ≠ stored := by
    rintro rfl
    exact Std.Asymm.asymm _ _ hbefore hbefore
  have hfirst₁ : IsFirst Before ((t.addRoute E m p (some h)).1.Matches E m q) ls w := by
    refine ⟨(hmatches q ls w).mpr ⟨hfirst.mem.2, .inr ⟨hne, hfirst.mem.1⟩⟩, fun ms v hms => ?_⟩
    obtain ⟨hcaptures, ⟨rfl, rfl⟩ | ⟨-, hroute⟩⟩ := (hmatches q ms v).mp hms
    · exact .inr hbefore
    · exact hfirst.least ms v ⟨hroute, hcaptures⟩
  obtain ⟨params, hparams⟩ := isSome_iff_exists.mp hfirst.mem.2
  rw [findRoute_of_isFirst ht hfirst hparams,
    findRoute_of_isFirst (.addRoute ht m trivial h) hfirst₁ hparams]

/-- A path that matches the stored labels gets the new handler, unless a route before them
matches. -/
theorem findRoute_of_stored {params : List Param} (hq : storedCaptures E t m p q = some params) :
    (t.addRoute E m p (some h)).1.findRoute E m q = (some h, params) ∨
      ∃ ls w, IsFirst Before (t.Matches E m q) ls w ∧
        ∀ stored ∈ storedLabels E t m p, List.Lex Before ls stored := by
  obtain ⟨stored, hstored, hmatches⟩ := matches_addRoute ht hreg
  rw [storedCaptures, hstored, bind_some] at hq
  have hnew := (hmatches q stored h).mpr ⟨by rw [hq]; rfl, .inl ⟨rfl, rfl⟩⟩
  rcases findRoute_isResult (.addRoute ht m trivial h) m q with
    ⟨ls, w, params₁, hfind, hfirst, hcaptures⟩ | ⟨-, hno⟩
  · -- the first match is the new route, or one that was there and comes before it
    rcases hfirst.least stored h hnew with ⟨rfl, rfl⟩ | hbefore
    · left
      rw [hfind, some_inj.mp (hcaptures.symm.trans hq)]
    · right
      refine ⟨ls, w, ⟨?_, fun ms v hms => ?_⟩, ?_⟩
      · obtain ⟨hsome, ⟨rfl, -⟩ | ⟨-, hroute⟩⟩ := (hmatches q ls w).mp hfirst.mem
        · exact absurd hbefore fun h => Std.Asymm.asymm _ _ h h
        · exact ⟨hroute, hsome⟩
      · by_cases hms₁ : ms = stored
        · exact .inr (hms₁ ▸ hbefore)
        · exact hfirst.least ms v ((hmatches q ms v).mpr ⟨hms.2, .inr ⟨hms₁, hms.1⟩⟩)
      · intro stored₁ hmem
        rw [hstored] at hmem
        exact some_inj.mp hmem ▸ hbefore
  · exact absurd hnew (hno stored h)

end Answers

/-! ### Exact registrations -/

/-- What a registration should do: every path that matches the pattern is found afterwards, and all
other paths, and all paths of other methods, are answered as before. -/
structure RegistrationExact (E : Engine) (t : Tree H) (m : String) (p : Str) (h : H) : Prop where
  found : ∀ q, (ownCaptures E p q).isSome = true →
    ((t.addRoute E m p (some h)).1.findRoute E m q).1.isSome = true
  others : ∀ q, ownCaptures E p q = none →
    (t.addRoute E m p (some h)).1.findRoute E m q = t.findRoute E m q
  methods : ∀ m₁ q, m₁ ≠ m →
    (t.addRoute E m p (some h)).1.findRoute E m₁ q = t.findRoute E m₁ q

/-- The labels that a handler is stored at are as good as those of its pattern: a path that matches
the pattern only was found before, and one that matches the stored labels only was answered before
by a route that comes before them, or as it is now. -/
structure StoredFits (E : Engine) (t : Tree H) (m : String) (p : Str) (h : H) : Prop where
  own : ∀ q, (ownCaptures E p q).isSome = true → storedCaptures E t m p q = none →
    (t.findRoute E m q).1.isSome = true
  stored : ∀ q params, ownCaptures E p q = none → storedCaptures E t m p q = some params →
    t.findRoute E m q = (some h, params) ∨
      ∃ ls w, IsFirst Before (t.Matches E m q) ls w ∧
        ∀ stored ∈ storedLabels E t m p, List.Lex Before ls stored

/-- **When a registration is exact.** A call of `AddRoute` that reports no conflict makes every path
that matches its pattern found and leaves all other answers as they were, if and only if the labels
that the handler is stored at fit those of the pattern. -/
theorem registration_exact_iff (E : Engine) (t : Tree H) (m : String) (p : Str) (h : H)
    (ht : Reachable E t) (hreg : (t.addRoute E m p (some h)).2 = .registered) :
    RegistrationExact E t m p h ↔ StoredFits E t m p h := by
  obtain ⟨stored, hstored, -⟩ := matches_addRoute ht hreg
  constructor
  · intro hexact
    refine ⟨fun q hown hno => ?_, fun q params hown hq => ?_⟩
    · rw [← findRoute_of_not_stored ht hreg hno]
      exact hexact.found q hown
    · rw [← hexact.others q hown]
      exact findRoute_of_stored ht hreg hq
  · intro hfits
    refine ⟨fun q hown => ?_, fun q hown => ?_, fun m₁ q hm => ?_⟩
    · cases hq : storedCaptures E t m p q with
      | none =>
        rw [findRoute_of_not_stored ht hreg hq]
        exact hfits.own q hown hq
      | some params =>
        rcases findRoute_of_stored ht hreg hq with hfind | ⟨ls, w, hfirst, hbefore⟩
        · rw [hfind]
          rfl
        · obtain ⟨captured, hcaptured⟩ := isSome_iff_exists.mp hfirst.mem.2
          rw [findRoute_of_before ht hreg hstored hfirst (hbefore stored hstored),
            findRoute_of_isFirst ht hfirst hcaptured]
          rfl
    · cases hq : storedCaptures E t m p q with
      | none => exact findRoute_of_not_stored ht hreg hq
      | some params =>
        rcases findRoute_of_stored ht hreg hq with hfind | ⟨ls, w, hfirst, hbefore⟩
        · rcases hfits.stored q params hown hq with hbefore | ⟨ls, w, hfirst, hbefore⟩
          · rw [hfind, hbefore]
          · exact findRoute_of_before ht hreg hstored hfirst (hbefore stored hstored)
        · exact findRoute_of_before ht hreg hstored hfirst (hbefore stored hstored)
    · rw [Tree.findRoute, Tree.findRoute, root_addRoute_of_ne hm]

/-- Posts of a user under the expression that the users already have. -/
theorem usersTree_posts_exact :
    (usersTree.addRoute wordEngine "GET" "/users/{id:[0-9]+}/posts".toList (some "posts")).2 =
      .registered ∧
    RegistrationExact wordEngine usersTree "GET" "/users/{id:[0-9]+}/posts".toList "posts" := by
  have hreg : (usersTree.addRoute wordEngine "GET" "/users/{id:[0-9]+}/posts".toList
      (some "posts")).2 = .registered := by decide +kernel
  have hsame : storedLabels wordEngine usersTree "GET" "/users/{id:[0-9]+}/posts".toList =
      labelsOf wordEngine (segments "/users/{id:[0-9]+}/posts".toList) := by decide +kernel
  refine ⟨hreg, (registration_exact_iff wordEngine usersTree "GET" _ "posts"
    (.addRoute (.addRoute .newTree "GET" trivial "show") "GET" trivial "form") hreg).mpr ⟨?_, ?_⟩⟩
  · intro q hown hno
    rw [storedCaptures, hsame] at hno
    rw [ownCaptures, hno] at hown
    cases hown
  · intro q params hown hq
    rw [storedCaptures, hsame] at hq
    rw [ownCaptures, hq] at hown
    cases hown

/-- Users by name are stored under the expression for numbers: a name is not found, and a number
gets the handler for names. -/
theorem usersTree_names_not_exact :
    (usersTree.addRoute wordEngine "GET" "/users/{id:[a-z]+}".toList (some "byName")).2 =
      .registered ∧
    (ownCaptures wordEngine "/users/{id:[a-z]+}".toList "/users/ann".toList).isSome = true ∧
    (usersTree.addRoute wordEngine "GET" "/users/{id:[a-z]+}".toList (some "byName")).1.findRoute
      wordEngine "GET" "/users/ann".toList = (none, []) ∧
    ownCaptures wordEngine "/users/{id:[a-z]+}".toList "/users/7".toList = none ∧
    usersTree.findRoute wordEngine "GET" "/users/7".toList =
      (some "show", [⟨"id".toList, "7".toList⟩]) ∧
    (usersTree.addRoute wordEngine "GET" "/users/{id:[a-z]+}".toList (some "byName")).1.findRoute
      wordEngine "GET" "/users/7".toList = (some "byName", [⟨"id".toList, "7".toList⟩]) ∧
    ¬RegistrationExact wordEngine usersTree "GET" "/users/{id:[a-z]+}".toList "byName" := by
  refine ⟨by decide +kernel, by decide +kernel, by decide +kernel, by decide +kernel,
    by decide +kernel, by decide +kernel, fun hexact => ?_⟩
  have hfound := hexact.found "/users/ann".toList (by decide +kernel)
  exact absurd hfound (by decide +kernel)

end Kiya.Router
