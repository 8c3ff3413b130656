import Kiya.Lib.Slice
import Kiya.Router.Chain
import Kiya.Router.Invariant

/-!
# Groups of routes

`router.go`: `Use`, `clone`, `Route` and `addRoute`. All routers of an application share the tree
and the names of the routes; each has a prefix and a slice of middlewares of its own. The callback
of `Route` is called at once with the new router, so that a nested program is the sequence of the
calls that it makes, each on one of the routers that are there: the first router is number 0, and
`Route` creates the next number.

The middlewares that a route gets are read off the slice when it is registered. The abstract side of
it are lists: `Use` appends to the list of its router, and `Route` starts the list of a new one with
that of its parent. That the slices do the same needs that no two routers have a backing array in
common, which the copy in `clone` sees to.
-/

namespace Kiya.Router

open Slice List Option

variable {ω : Type}

/-! ### The routers of an application -/

/-- `Router`: the fields that differ between the routers of an application. -/
structure SubRouter where
  prefixPath : Str
  middleware : Ref

open SubRouter

/-- The routers that were created, and what they share. -/
structure App (ω : Type) where
  heap : Heap (Middleware ω)
  routers : List SubRouter
  tree : Tree (HandlerFunc ω)
  routeNames : List (String × Str)

/-- A call on the router with a number. -/
inductive Call (ω : Type)
  | use (r : ℕ) (ms : List (Middleware ω))
  | route (r : ℕ) (prefixPath : Str)
  | addRoute (r : ℕ) (method : String) (path : Str) (h : Option (Handler ω)) (name : List String)

namespace App

/-- An application with one router. -/
def new : App ω := ⟨[], [⟨[], empty⟩], newTree, []⟩

/-- `Use`. -/
def use (g : Growth) (a : App ω) (i : ℕ) (r : SubRouter) (ms : List (Middleware ω)) : App ω :=
  let appended := append g a.heap r.middleware ms
  { a with heap := appended.1, routers := a.routers.set i { r with middleware := appended.2 } }

/-- `Route`: the `clone` of a router, with a longer prefix. -/
def route (g : Growth) (a : App ω) (r : SubRouter) (prefixPath : Str) : App ω :=
  let copied := append g a.heap empty (read a.heap r.middleware)
  { a with heap := copied.1, routers := a.routers ++ [⟨r.prefixPath ++ prefixPath, copied.2⟩] }

/-- `addRoute`; a name is stored unless `AddRoute` panics. -/
def addRoute (E : Engine) (a : App ω) (r : SubRouter) (method : String) (path : Str)
    (h : Option (Handler ω)) (name : List String) : App ω :=
  let fullPath := r.prefixPath ++ path
  let fullHandler := chain h (read a.heap r.middleware)
  let added := a.tree.addRoute E method fullPath fullHandler
  { a with
    tree := added.1
    routeNames :=
      match added.2, name with
      | .panic, _ => a.routeNames
      | _, n :: _ => if n ≠ "" then (n, fullPath) :: a.routeNames else a.routeNames
      | _, [] => a.routeNames }

/-- One call; there is nothing to call if there is no such router. -/
def call (E : Engine) (g : Growth) (a : App ω) : Call ω → App ω
  | .use i ms => (a.routers[i]?).elim a fun r => a.use g i r ms
  | .route i prefixPath => (a.routers[i]?).elim a fun r => a.route g r prefixPath
  | .addRoute i method path h name =>
    (a.routers[i]?).elim a fun r => a.addRoute E r method path h name

/-- A program of calls. -/
def run (E : Engine) (g : Growth) (calls : List (Call ω)) : App ω :=
  calls.foldl (call E g) new

end App

/-! ### The abstract side -/

/-- What a router stands for: a prefix and a list of middlewares. -/
@[ext]
structure Scope (ω : Type) where
  prefixPath : Str
  middleware : List (Middleware ω)

/-- What a call does to the scopes. -/
def scopeStep (scopes : List (Scope ω)) : Call ω → List (Scope ω)
  | .use i ms => scopes.modify i fun s => { s with middleware := s.middleware ++ ms }
  | .route i prefixPath =>
    scopes ++ (scopes[i]?).toList.map fun s => ⟨s.prefixPath ++ prefixPath, s.middleware⟩
  | .addRoute .. => scopes

/-- The scopes after a program. -/
def scopesAfter (calls : List (Call ω)) : List (Scope ω) := calls.foldl scopeStep [⟨[], []⟩]

/-- A route as it is registered. -/
structure RouteEntry (ω : Type) where
  method : String
  path : Str
  handler : Option (Handler ω)
  middleware : List (Middleware ω)

/-- The route that a call registers, in the scopes it finds. -/
def registrationOf (scopes : List (Scope ω)) : Call ω → Option (RouteEntry ω)
  | .addRoute i method path h _ =>
    (scopes[i]?).map fun s => ⟨method, s.prefixPath ++ path, h, s.middleware⟩
  | _ => none

/-- The routes that the calls register one after the other. -/
def registrationsFrom (scopes : List (Scope ω)) : List (Call ω) → List (RouteEntry ω)
  | [] => []
  | call :: calls =>
    (registrationOf scopes call).toList ++ registrationsFrom (scopeStep scopes call) calls

/-- The routes that a program registers. -/
def registrations (calls : List (Call ω)) : List (RouteEntry ω) :=
  registrationsFrom [⟨[], []⟩] calls

/-! ### The slices stand for the lists -/

section Refinement

variable {E : Engine} {g : Growth} {a : App ω}

/-- The scopes that the routers of an application stand for. -/
def App.scopes (a : App ω) : List (Scope ω) :=
  a.routers.map fun r => ⟨r.prefixPath, read a.heap r.middleware⟩

/-- The routers have backing arrays of their own. -/
def App.Separate (a : App ω) : Prop := Slice.Separate a.heap (a.routers.map middleware)

/-- Routers with the same prefixes and the same elements stand for the same scopes. -/
theorem scopes_eq_of_read {a₁ : App ω} {scopes : List (Scope ω)}
    (hpaths : a₁.routers.map prefixPath = scopes.map Scope.prefixPath)
    (hread : (a₁.routers.map middleware).map (read a₁.heap) =
      scopes.map Scope.middleware) : a₁.scopes = scopes := by
  have hzip (l : List (Scope ω)) :
      List.zipWith Scope.mk (l.map Scope.prefixPath) (l.map Scope.middleware) = l := by
    rw [zipWith_map, zipWith_self]
    exact List.map_id l
  rw [← hzip scopes, ← hpaths, ← hread, ← hzip a₁.scopes, App.scopes, List.map_map, List.map_map,
    List.map_map]
  rfl

theorem map_prefixPath_scopes (a : App ω) :
    a.scopes.map Scope.prefixPath = a.routers.map prefixPath := by
  rw [App.scopes, List.map_map]
  rfl

theorem map_middleware_scopes (a : App ω) : a.scopes.map Scope.middleware =
    (a.routers.map middleware).map (read a.heap) := by
  rw [App.scopes, List.map_map, List.map_map]
  rfl

variable {i : ℕ} {r : SubRouter}

theorem separate_use (ha : a.Separate) (hr : a.routers[i]? = some r)
    (ms : List (Middleware ω)) : (a.use g i r ms).Separate ∧
      (a.use g i r ms).scopes = scopeStep a.scopes (.use i ms) := by
  have hslice : (a.routers.map middleware)[i]? = some r.middleware := by
    rw [getElem?_map, hr, map_some]
  obtain ⟨hseparate, hread⟩ := @Slice.Separate.append _ g _ _ _ ms _ ha hslice
  have hset : (a.use g i r ms).routers.map middleware =
      (a.routers.map middleware).set i (append g a.heap r.middleware ms).2 :=
    map_set
  have hscope : a.scopes[i]? = some ⟨r.prefixPath, read a.heap r.middleware⟩ := by
    rw [App.scopes, getElem?_map, hr, map_some]
  have hmodify : scopeStep a.scopes (.use i ms) =
      a.scopes.set i ⟨r.prefixPath, read a.heap r.middleware ++ ms⟩ := by
    rw [scopeStep, modify_eq_set_getElem?, hscope]
    rfl
  refine ⟨?_, scopes_eq_of_read ?_ ?_⟩
  · rw [App.Separate, hset]
    exact hseparate
  · rw [hmodify, map_set, map_prefixPath_scopes]
    exact map_set
  · rw [hset]
    refine hread.trans ?_
    rw [hmodify, map_set, map_middleware_scopes]

theorem separate_route (ha : a.Separate) (hr : a.routers[i]? = some r)
    (prefixPath : Str) : (a.route g r prefixPath).Separate ∧
      (a.route g r prefixPath).scopes = scopeStep a.scopes (.route i prefixPath) := by
  obtain ⟨hseparate, hread⟩ := @Slice.Separate.copy _ g _ _ (Slice.read a.heap r.middleware) ha
  have hmap : (a.route g r prefixPath).routers.map middleware =
      a.routers.map middleware ++
        [(append g a.heap empty (read a.heap r.middleware)).2] :=
    map_append
  have hscope : a.scopes[i]? = some ⟨r.prefixPath, read a.heap r.middleware⟩ := by
    rw [App.scopes, getElem?_map, hr, map_some]
  have hnew : scopeStep a.scopes (.route i prefixPath) =
      a.scopes ++ [⟨r.prefixPath ++ prefixPath, read a.heap r.middleware⟩] := by
    rw [scopeStep, hscope]
    rfl
  refine ⟨?_, scopes_eq_of_read ?_ ?_⟩
  · rw [App.Separate, hmap]
    exact hseparate
  · rw [hnew, map_append, map_prefixPath_scopes]
    exact map_append
  · rw [hmap]
    refine hread.trans ?_
    rw [hnew, map_append, map_middleware_scopes]
    rfl

/-- What a registration does to the tree. -/
def addEntry (E : Engine) (t : Tree (HandlerFunc ω)) (reg : RouteEntry ω) :
    Tree (HandlerFunc ω) :=
  (t.addRoute E reg.method reg.path (chain reg.handler reg.middleware)).1

/-- **One call on the slices is one call on the lists.** -/
theorem call_refines (ha : a.Separate) (c : Call ω) :
    (a.call E g c).Separate ∧ (a.call E g c).scopes = scopeStep a.scopes c ∧
      (a.call E g c).tree = (registrationOf a.scopes c).toList.foldl (addEntry E) a.tree := by
  have hnone {i : ℕ} (hi : a.routers[i]? = none) : a.scopes[i]? = none := by
    rw [App.scopes, getElem?_map, hi, map_none]
  cases c with
  | use i ms =>
    cases hr : a.routers[i]? with
    | none =>
      have hmodify : scopeStep a.scopes (.use i ms) = a.scopes := by
        rw [scopeStep, modify_eq_set_getElem?, hnone hr]
        rfl
      simp only [App.call, hr, hmodify]
      exact ⟨ha, rfl, rfl⟩
    | some r =>
      obtain ⟨hseparate, hscopes⟩ := separate_use (g := g) ha hr ms
      simp only [App.call, hr]
      exact ⟨hseparate, hscopes, rfl⟩
  | route i prefixPath =>
    cases hr : a.routers[i]? with
    | none =>
      simp only [App.call, hr, scopeStep, hnone hr]
      exact ⟨ha, (append_nil _).symm, rfl⟩
    | some r =>
      obtain ⟨hseparate, hscopes⟩ := separate_route (g := g) ha hr prefixPath
      simp only [App.call, hr]
      exact ⟨hseparate, hscopes, rfl⟩
  | addRoute i method path h name =>
    cases hr : a.routers[i]? with
    | none =>
      simp only [App.call, hr, registrationOf, hnone hr]
      exact ⟨ha, rfl, rfl⟩
    | some r =>
      have hscope : a.scopes[i]? = some ⟨r.prefixPath, read a.heap r.middleware⟩ := by
        rw [App.scopes, getElem?_map, hr, map_some]
      simp only [App.call, hr, registrationOf, hscope]
      exact ⟨ha, rfl, rfl⟩

/-- A program on the slices registers what the program on the lists does. -/
theorem foldl_call_refines (ha : a.Separate) (calls : List (Call ω)) :
    (calls.foldl (App.call E g) a).scopes = calls.foldl scopeStep a.scopes ∧
      (calls.foldl (App.call E g) a).tree =
        (registrationsFrom a.scopes calls).foldl (addEntry E) a.tree := by
  induction calls generalizing a with
  | nil => exact ⟨rfl, rfl⟩
  | cons c calls ih =>
    obtain ⟨hseparate, hscopes, htree⟩ := call_refines (E := E) (g := g) ha c
    obtain ⟨hscopes₁, htree₁⟩ := ih hseparate
    rw [foldl_cons, foldl_cons, hscopes₁, htree₁, hscopes, htree, registrationsFrom, foldl_append]
    exact ⟨rfl, rfl⟩

theorem run_refines (E : Engine) (g : Growth) (calls : List (Call ω)) :
    (App.run E g calls).scopes = scopesAfter calls ∧
      (App.run E g calls).tree = (registrations calls).foldl (addEntry E) newTree :=
  foldl_call_refines (a := App.new) Slice.separate_singleton_empty calls

end Refinement

/-! ### Which middlewares are in force -/

/-- The middlewares that calls of `Use` add to a router. -/
def usesOf (r : ℕ) (calls : List (Call ω)) : List (Middleware ω) :=
  calls.flatMap fun
    | .use i ms => if i = r then ms else []
    | _ => []

/-- How many routers there are after a program. -/
def routersAfter (calls : List (Call ω)) : ℕ :=
  calls.foldl (fun n call => match call with
    | .route i _ => if i < n then n + 1 else n
    | _ => n) 1

/-- `InForce calls r p ms`: after the calls the router `r` has the prefix `p` and the middlewares
`ms`. These are, for the first router, those that `Use` has added to it, and for the router of a
group those that its parent had when it was created, and those that `Use` has added to it since. -/
inductive InForce : List (Call ω) → ℕ → Str → List (Middleware ω) → Prop
  | root (calls : List (Call ω)) : InForce calls 0 [] (usesOf 0 calls)
  | group {before : List (Call ω)} {parent : ℕ} {p : Str} {ms : List (Middleware ω)}
    (hparent : InForce before parent p ms) (q : Str) (after : List (Call ω)) :
    InForce (before ++ .route parent q :: after) (routersAfter before) (p ++ q)
      (ms ++ usesOf (routersAfter before) after)

section InForce

variable {calls : List (Call ω)} {r : ℕ} {p : Str} {ms : List (Middleware ω)}

theorem usesOf_append (r : ℕ) (calls more : List (Call ω)) :
    usesOf r (calls ++ more) = usesOf r calls ++ usesOf r more :=
  flatMap_append

variable {s : Scope ω} {reg : RouteEntry ω}

/-- What a call does to the scope of a router that is there. -/
theorem getElem?_scopeStep {scopes : List (Scope ω)} (hs : scopes[r]? = some s)
    (c : Call ω) : (scopeStep scopes c)[r]? =
      some { s with middleware := s.middleware ++ usesOf r [c] } := by
  cases c with
  | use i ms =>
    rw [scopeStep, getElem?_modify, hs]
    by_cases hi : i = r
    · simp [usesOf, hi]
    · simp [usesOf, hi]
  | route i q =>
    rw [scopeStep, getElem?_append_left (List.getElem?_eq_some_iff.mp hs).1, hs]
    simp [usesOf]
  | addRoute => simpa [scopeStep, usesOf] using hs

theorem getElem?_foldl_scopeStep {scopes : List (Scope ω)} (hs : scopes[r]? = some s)
    (calls : List (Call ω)) : (calls.foldl scopeStep scopes)[r]? =
      some { s with middleware := s.middleware ++ usesOf r calls } := by
  induction calls generalizing scopes s with
  | nil => simpa [usesOf] using hs
  | cons c calls ih =>
    have huses : usesOf r (c :: calls) = usesOf r [c] ++ usesOf r calls := usesOf_append r [c] calls
    rw [foldl_cons, ih (getElem?_scopeStep hs c), huses, append_assoc]

theorem length_scopesAfter (calls : List (Call ω)) :
    (scopesAfter calls).length = routersAfter calls := by
  have hgen : ∀ (scopes : List (Scope ω)), (calls.foldl scopeStep scopes).length =
      calls.foldl (fun n call => match call with
        | .route i _ => if i < n then n + 1 else n
        | _ => n) scopes.length := by
    induction calls with
    | nil => exact fun _ => rfl
    | cons c calls ih =>
      intro scopes
      rw [foldl_cons, foldl_cons, ih]
      congr 1
      cases c with
      | use i ms => exact length_modify ..
      | addRoute => rfl
      | route i q =>
        simp only [scopeStep, length_append, length_map]
        split_ifs with hi
        · rw [getElem?_eq_getElem hi]
          rfl
        · rw [getElem?_eq_none (Nat.le_of_not_lt hi)]
          rfl
  exact hgen _

theorem InForce.append (h : InForce calls r p ms) (c : Call ω) :
    InForce (calls ++ [c]) r p (ms ++ usesOf r [c]) := by
  cases h with
  | root =>
    rw [← usesOf_append]
    exact .root _
  | group hparent q after =>
    rw [append_assoc, append_assoc, ← usesOf_append, cons_append]
    exact .group hparent q (after ++ [c])

theorem scopesAfter_append (calls : List (Call ω)) (c : Call ω) :
    scopesAfter (calls ++ [c]) = scopeStep (scopesAfter calls) c := by
  rw [scopesAfter, foldl_append]
  rfl

/-- **The lists hold exactly what is in force.** -/
theorem scopesAfter_eq_some_iff :
    (scopesAfter calls)[r]? = some ⟨p, ms⟩ ↔ InForce calls r p ms := by
  constructor
  · intro h
    induction calls using List.reverseRecOn generalizing r p ms with
    | nil =>
      obtain ⟨hr, hs⟩ := List.getElem?_eq_some_iff.mp h
      obtain rfl : r = 0 := Nat.lt_one_iff.mp hr
      obtain ⟨rfl, rfl⟩ := Scope.mk.inj hs
      exact .root []
    | append_singleton calls c ih =>
      rw [scopesAfter_append] at h
      cases hold : (scopesAfter calls)[r]? with
      | some s =>
        rw [getElem?_scopeStep hold c] at h
        obtain ⟨rfl, rfl⟩ := Scope.mk.inj (some_inj.mp h)
        exact (ih hold).append c
      | none =>
        have hle : (scopesAfter calls).length ≤ r := List.getElem?_eq_none_iff.mp hold
        -- only `Route` creates a router
        cases c with
        | use i ms' =>
          rw [scopeStep, getElem?_modify, hold] at h
          cases h
        | addRoute =>
          rw [scopeStep, hold] at h
          cases h
        | route i q =>
          cases hparent : (scopesAfter calls)[i]? with
          | none =>
            rw [scopeStep, hparent, toList_none, map_nil, append_nil, hold] at h
            cases h
          | some s =>
            rw [scopeStep, hparent, getElem?_append_right hle] at h
            obtain ⟨hr, hs⟩ := List.getElem?_eq_some_iff.mp h
            have hlast : r = routersAfter calls := by
              rw [← length_scopesAfter]
              simp at hr
              omega
            obtain rfl := hlast
            simp only [toList_some, map_cons, map_nil, getElem_singleton, Scope.mk.injEq] at hs
            obtain ⟨rfl, rfl⟩ := hs
            have hgroup := InForce.group (ih hparent) q []
            rwa [show usesOf (routersAfter calls) ([] : List (Call ω)) = [] from rfl,
              append_nil] at hgroup
  · intro h
    induction h with
    | root calls =>
      rw [scopesAfter, getElem?_foldl_scopeStep (s := ⟨[], []⟩) rfl]
      rfl
    | @group before parent p ms hparent q after ih =>
      have hnew : (scopeStep (scopesAfter before) (.route parent q))[routersAfter before]? =
          some ⟨p ++ q, ms⟩ := by
        rw [scopeStep, ih, ← length_scopesAfter]
        exact getElem?_concat_length
      rw [scopesAfter, foldl_append, foldl_cons]
      exact getElem?_foldl_scopeStep hnew after

theorem registrationOf_eq_some_iff {scopes : List (Scope ω)} {c : Call ω} :
    registrationOf scopes c = some reg ↔ ∃ r path name p,
      c = .addRoute r reg.method path reg.handler name ∧
      scopes[r]? = some ⟨p, reg.middleware⟩ ∧ reg.path = p ++ path := by
  constructor
  · intro h
    cases c with
    | use | route => cases h
    | addRoute r method path handler name =>
      obtain ⟨s, hs, rfl⟩ := map_eq_some_iff.mp h
      exact ⟨r, path, name, s.prefixPath, rfl, hs, rfl⟩
  · rintro ⟨r, path, name, p, rfl, hs, hpath⟩
    rw [registrationOf, hs, map_some]
    obtain ⟨method, full, handler, middleware⟩ := reg
    rw [show full = p ++ path from hpath]

/-- The routes that are registered are those of the calls, each with what is in force before it. -/
theorem mem_registrations_iff : reg ∈ registrations calls ↔ ∃ before r path name after p,
      calls = before ++ .addRoute r reg.method path reg.handler name :: after ∧
      InForce before r p reg.middleware ∧ reg.path = p ++ path := by
  have hgen : ∀ done : List (Call ω), reg ∈ registrationsFrom (scopesAfter done) calls ↔
      ∃ before r path name after p,
        calls = before ++ .addRoute r reg.method path reg.handler name :: after ∧
        InForce (done ++ before) r p reg.middleware ∧ reg.path = p ++ path := by
    induction calls with
    | nil =>
      intro done
      refine ⟨nofun, ?_⟩
      rintro ⟨before, r, path, name, after, p, hsplit, -⟩
      exact absurd hsplit.symm (append_ne_nil_of_right_ne_nil _ (cons_ne_nil _ _))
    | cons c calls ih =>
      intro done
      rw [registrationsFrom, mem_append, mem_toList,
        registrationOf_eq_some_iff, ← scopesAfter_append, ih]
      constructor
      · rintro (⟨r, path, name, p, rfl, hs, hpath⟩ |
          ⟨before, r, path, name, after, p, rfl, hp, hpath⟩)
        · refine ⟨[], r, path, name, calls, p, rfl, ?_, hpath⟩
          rw [append_nil]
          exact scopesAfter_eq_some_iff.mp hs
        · refine ⟨c :: before, r, path, name, after, p, rfl, ?_, hpath⟩
          rwa [append_assoc] at hp
      · rintro ⟨before, r, path, name, after, p, hsplit, hp, hpath⟩
        obtain _ | ⟨c', before⟩ := before
        · obtain ⟨rfl, rfl⟩ := List.cons.inj hsplit
          rw [append_nil] at hp
          exact .inl ⟨r, path, name, p, rfl, scopesAfter_eq_some_iff.mpr hp, hpath⟩
        · obtain ⟨rfl, rfl⟩ := List.cons.inj hsplit
          refine .inr ⟨before, r, path, name, after, p, rfl, ?_, hpath⟩
          rwa [append_assoc]
  exact hgen []

/-- Later calls leave the routes that are registered. -/
theorem registrations_prefix (calls more : List (Call ω)) :
    registrations calls <+: registrations (calls ++ more) := by
  have hgen : ∀ scopes : List (Scope ω),
      registrationsFrom scopes calls <+: registrationsFrom scopes (calls ++ more) := by
    induction calls with
    | nil => exact fun _ => nil_prefix
    | cons c calls ih =>
      intro scopes
      rw [cons_append, registrationsFrom, registrationsFrom, prefix_append_right_inj]
      exact ih _
  exact hgen _

end InForce

/-! ### Handlers in the tree -/

section Stored

variable {H : Type} {E : Engine} {fullPath : Str} {segs : List Str} {n n₁ : Node H} {o : Outcome}
  {h : Option H} {P : H → Prop}

/-- All handlers at a node and below have a property. -/
abbrev AllHandlers (P : H → Prop) (n : Node H) : Prop :=
  n.Everywhere fun n => ∀ F ∈ n.value, P F

/-- A walk stores no handler but its own. -/
theorem Walks.allHandlers (w : Walks E fullPath h segs n n₁ o) (hn : AllHandlers P n)
    (hh : ∀ F ∈ h, P F) : AllHandlers P n₁ := by
  induction w with
  | done => exact ⟨hh, hn.of_mem⟩
  | panic | conflict => exact hn
  | found _ hspan _ ih =>
    obtain ⟨hsplit, -⟩ := LabelTree.span_found hspan
    have hc := hn.of_mem _ (by rw [hsplit]; exact mem_append_right _ mem_cons_self)
    exact ⟨hn.here, LabelTree.forall_mem_replaced hsplit hn.of_mem (ih hc)⟩
  | fresh _ _ _ _ ih =>
    have hleaf := ih ⟨nofun, nofun⟩
    exact ⟨hn.here, forall_mem_append.mpr ⟨hn.of_mem, forall_mem_singleton.mpr hleaf⟩⟩

theorem allHandlers_route {ls : List Label} {F : H} (hn : AllHandlers P n) (hroute : n.Route ls F) :
    P F := by
  induction hroute with
  | here hvalue => exact hn.here _ hvalue
  | child hc _ ih => exact ih (hn.of_mem _ hc)

end Stored

/-- The handlers of a tree are those of its registrations. -/
theorem allHandlers_foldl (E : Engine) {regs : List (RouteEntry ω)} {t : Tree (HandlerFunc ω)}
    {P : String → HandlerFunc ω → Prop} (ht : ∀ m, AllHandlers (P m) (t.rootOrNew m))
    (hregs : ∀ reg ∈ regs, ∀ F ∈ chain reg.handler reg.middleware, P reg.method F) (m : String) :
    AllHandlers (P m) ((regs.foldl (addEntry E) t).rootOrNew m) := by
  induction regs generalizing t with
  | nil => exact ht m
  | cons reg regs ih =>
    obtain ⟨hreg, hregs⟩ := forall_mem_cons.mp hregs
    refine ih (fun m => ?_) hregs
    rw [addEntry]
    by_cases hm : m = reg.method
    · rw [hm, rootOrNew_addRoute_self]
      exact (walks_walk _ _ _ _ _).allHandlers (ht _) hreg
    · rw [rootOrNew_addRoute_of_ne hm]
      exact ht m

/-- **Middleware scoping.** The tree holds the routes of the program, each under the prefix of its
router and with the chain of the middlewares that were in force for its router when it was
registered; later calls leave these as they are; every handler of the tree is one of these chains;
and where every middleware calls `next` once and none aborts, it enters exactly these middlewares,
the first one first, and then the handler of the route. -/
theorem middleware_scoped (E : Engine) (g : Growth) (calls : List (Call ω)) :
    (App.run E g calls).tree = (registrations calls).foldl
      (fun t reg => (t.addRoute E reg.method reg.path (chain reg.handler reg.middleware)).1)
      newTree ∧
    (∀ reg, reg ∈ registrations calls ↔ ∃ before r path name after p,
      calls = before ++ .addRoute r reg.method path reg.handler name :: after ∧
      InForce before r p reg.middleware ∧ reg.path = p ++ path) ∧
    (∀ more, registrations calls <+: registrations (calls ++ more)) ∧
    (∀ m ls F, ((App.run E g calls).tree.rootOrNew m).Route ls F →
      ∃ reg ∈ registrations calls, reg.method = m ∧
        chain reg.handler reg.middleware = some F) ∧
    ∀ reg ∈ registrations calls, ∀ h, reg.handler = some h → ∀ F,
      chain reg.handler reg.middleware = some F → ∀ fate : ℕ → ω,
      (∀ (k : ℕ) (m : Middleware ω), reg.middleware[k]? = some m → (m.body (fate k)).Once) →
      (F (.new fate)).1.trace.filter Event.isEntry =
        (reg.middleware.mapIdx fun k m => .entered k m.name) ++ [.handled h.name] := by
  have htree := (run_refines E g calls).2
  refine ⟨htree, fun reg => mem_registrations_iff, registrations_prefix calls, ?_, ?_⟩
  · intro m ls F hroute
    rw [htree] at hroute
    let P (m : String) (F : HandlerFunc ω) : Prop := ∃ reg ∈ registrations calls,
      reg.method = m ∧ chain reg.handler reg.middleware = some F
    have hnew (m : String) : AllHandlers (P m) ((newTree : Tree (HandlerFunc ω)).rootOrNew m) :=
      ⟨fun F hF => (not_mem_none F hF).elim, nofun⟩
    have hall := allHandlers_foldl E hnew (fun reg hreg F hF => ⟨reg, hreg, rfl, hF⟩) m
    exact allHandlers_route (P := P m) hall hroute
  · intro reg hreg h hh F hF fate honce
    rw [hh] at hF
    obtain rfl := some_inj.mp hF
    have honce₀ : ∀ (k : ℕ) (m : Middleware ω), reg.middleware[k]? = some m →
        (m.body ((Context.new fate).fate ((Context.new fate).calls + k))).Once := by
      intro k m hk
      simpa [Context.new] using honce k m hk
    obtain ⟨t, hext, ht⟩ := entries_chainFrom h (i := 0) rfl honce₀
    rw [hext.trace]
    simpa [Context.new] using ht

/-- A middleware that logs and calls `next`. -/
def logs : Middleware Unit := ⟨"log", fun _ => ⟨[.act .other, .next, .act .other], id⟩⟩

/-- A middleware that checks the user and calls `next`. -/
def checks : Middleware Unit := ⟨"auth", fun _ => ⟨[.next], id⟩⟩

/-- A group with a middleware of its own; the application gets one more after it. -/
def adminProgram : List (Call Unit) :=
  [.use 0 [logs], .route 0 "/admin".toList, .use 1 [checks],
    .addRoute 1 "GET" "/users".toList (some ⟨"users", fun _ => ([], none)⟩) [], .use 0 [checks]]

/-- Capacities as they are needed. -/
def exactGrowth : Growth := ⟨fun _ needed => needed, fun _ _ => le_rfl⟩

/-- The route of the group runs both middlewares, the one of the application first. -/
theorem adminProgram_scoped :
    (registrations adminProgram).map (fun reg => (reg.path, reg.middleware.map Middleware.name)) =
      [("/admin/users".toList, ["log", "auth"])] ∧
    ∀ reg ∈ registrations adminProgram, ∀ h, reg.handler = some h → ∀ F,
      chain reg.handler reg.middleware = some F →
      (F (.new fun _ => ())).1.trace.filter Event.isEntry =
        (reg.middleware.mapIdx fun k m => .entered k m.name) ++ [.handled h.name] := by
  refine ⟨rfl, fun reg hreg h hh F hF => ?_⟩
  refine (middleware_scoped ⟨fun _ => false, fun _ _ => false⟩ exactGrowth
    adminProgram).2.2.2.2 reg hreg h hh F hF _ fun k m hk => ?_
  have hmem : m ∈ [logs, checks] := by
    rw [mem_singleton.mp (show reg ∈ [_] from hreg)] at hk
    exact mem_of_getElem? hk
  rcases mem_cons.mp hmem with rfl | hmem
  · exact ⟨[.act .other], [.act .other], rfl, by decide, by decide⟩
  · rw [mem_singleton.mp hmem]
    exact ⟨[], [], rfl, by decide, by decide⟩

end Kiya.Router
