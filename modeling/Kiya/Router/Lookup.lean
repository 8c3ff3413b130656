import Kiya.Router.Invariant

/-!
# Lookup meets its specification

The routes of a tree are the paths of labels that lead from the root to a handler. A path of labels
matches the segments of a request path if each label accepts its segment, a wildcard accepting all
segments that are left, and it then captures parameters. `FindRoute` returns the handler of the
first route that matches, where static text comes before an expression, an expression before a
parameter and a parameter before a wildcard.

The proof has two steps. `search` keeps its parameters on a stack that all branches share; since
every branch that gives up takes off what it has pushed, it comes to the function `lookup`, which
has no stack. `lookup` then finds the first match, because siblings have different slots: of two
children that accept a segment one has the smaller rank.
-/

namespace Kiya.Router

open LabelTree Label Attempt List Option

variable {H : Type}

/-! ### The specification -/

/-- The order in which the kinds of nodes are tried. -/
def NodeType.rank : NodeType → Nat
  | .static => 0
  | .regexNode => 1
  | .paramNode => 2
  | .wildcardNode => 3

namespace Label

variable (E : Engine)

/-- The label accepts one segment. -/
def accepts : Label → Str → Bool
  | static part, seg => part = seg
  | param _, _ => true
  | regex _ expr, seg => E.matchString expr seg
  | wildcard _, _ => false

/-- The parameters that are captured from one segment. -/
def binds : Label → Str → List Param
  | static _, _ => []
  | param name, seg => [⟨name, seg⟩]
  | regex name _, seg => [⟨name, seg⟩]
  | wildcard _, _ => []

theorem binds_of_nType {l : Label} {seg : Str}
    (hl : l.nType = .regexNode ∨ l.nType = .paramNode) : l.binds seg = [⟨l.paramName, seg⟩] := by
  cases l <;> simp [nType, binds, paramName] at hl ⊢

/-- A label is tried before another one. -/
def Before (a b : Label) : Prop := a.nType.rank < b.nType.rank

instance : Std.Asymm Before := ⟨fun _ _ h => Nat.lt_asymm h⟩

end Label

/-- The parameters that a path of labels captures from segments; none if it does not match. -/
def captures (E : Engine) : List Label → List Str → Option (List Param)
  | [], [] => some []
  | l :: ls, seg :: rest =>
    if l.accepts E seg then (captures E ls rest).map (l.binds seg ++ ·)
    -- a wildcard takes all that is left, and nothing comes behind it
    else if l.nType = .wildcardNode ∧ ls = [] then
      some [⟨l.paramName, ['/'].intercalate (seg :: rest)⟩]
    else none
  | _, _ => none

/-- A route of the node that matches the segments. -/
def Candidate (E : Engine) (segs : List Str) (n : Node H) (ls : List Label) (h : H) : Prop :=
  n.Route ls h ∧ (captures E ls segs).isSome = true

/-- What a lookup should return: the handler of the first route that matches, with what its labels
capture, or nothing if there is none. -/
def IsResult (E : Engine) (segs : List Str) (n : Node H) : Option (H × List Param) → Prop
  | some (h, params) => ∃ ls, IsFirst Before (Candidate E segs n) ls h ∧
      captures E ls segs = some params
  | none => ∀ ls h, ¬Candidate E segs n ls h

/-! ### The search without a stack -/

variable {k : NodeType}

section Lookup

variable (E : Engine)

/-- The first child of a kind that accepts the segment and leads to a handler. -/
def viaChild (lookup : Node H → Option (H × List Param)) (k : NodeType) (seg : Str)
    (children : List (Node H)) : Option (H × List Param) :=
  children.findSome? fun c =>
    if c.label.nType = k && c.label.accepts E seg then
      (lookup c).map fun r => (r.1, c.label.binds seg ++ r.2)
    else none

/-- The wildcard, with all segments that are left. -/
def viaWildcard (segs : List Str) (children : List (Node H)) : Option (H × List Param) :=
  (children.find? fun c => c.label.nType = .wildcardNode).bind fun c =>
    c.value.map fun h => (h, [⟨c.label.paramName, ['/'].intercalate segs⟩])

/-- The handler of the first match, with what it captures. -/
def lookup : List Str → Node H → Option (H × List Param)
  | [], n => n.value.map (·, [])
  | seg :: rest, n =>
    (viaChild E (lookup rest) .static seg n.children).or <|
    (viaChild E (lookup rest) .regexNode seg n.children).or <|
    (viaChild E (lookup rest) .paramNode seg n.children).or <|
    viaWildcard (seg :: rest) n.children

variable {E} {seg : Str} {segs rest : List Str} {n : Node H}

/-- A loop over the children of a kind, if what it does with each comes to `lookup`. -/
theorem returns_loop {accepts : Node H → Bool} {run : Node H → Attempt Param H}
    {children : List (Node H)}
    (haccepts : ∀ c : Node H, accepts c = (c.label.nType = k && c.label.accepts E seg))
    (hrun : ∀ c ∈ children, accepts c = true → Returns (run c)
      ((lookup E rest c).map fun r => (r.1, c.label.binds seg ++ r.2))) :
    Returns (.firstOf accepts run children)
      (viaChild E (lookup E rest) k seg children) := by
  have h := Returns.firstOf hrun
  simp only [haccepts] at h
  exact h

/-- **Parameters of abandoned branches never remain.** The search comes to `lookup`, whatever is on
the stack. -/
theorem returns_search (hn : n.Everywhere Sound) (segs : List Str) :
    Returns (search E segs n) (lookup E segs n) := by
  induction segs generalizing n with
  | nil =>
    intro params
    rw [search, lookup]
    cases n.value <;> simp
  | cons seg rest ih =>
    rw [search, lookup]
    have hchild : ∀ c ∈ n.children, Returns (search E rest c) (lookup E rest c) :=
      fun c hc => ih (hn.of_mem c hc)
    refine .orElse (returns_loop ?_ ?_) (.orElse (returns_loop ?_ ?_)
      (.orElse (returns_loop ?_ ?_) ?_))
    · intro c
      cases c.label <;> simp [nType, part, accepts]
      exact decide_eq_decide.mpr Iff.rfl
    · intro c hc haccepts
      have hbinds : c.label.binds seg = [] := by
        cases hlabel : c.label <;> simp [hlabel, nType, binds] at haccepts ⊢
      simpa [hbinds] using hchild c hc
    · intro c
      cases c.label <;> simp [nType, matchString, accepts]
    · intro c hc haccepts
      have htype : c.label.nType = .regexNode := by simpa using (Bool.and_eq_true_iff.mp haccepts).1
      rw [binds_of_nType (.inl htype)]
      exact (hchild c hc).pushing _
    · intro c
      cases c.label <;> simp [nType, accepts]
    · intro c hc haccepts
      have htype : c.label.nType = .paramNode := by simpa using haccepts
      rw [binds_of_nType (.inr htype)]
      exact (hchild c hc).pushing _
    · intro params
      rw [viaWildcard]
      cases hfind : n.children.find? fun c => c.label.nType = .wildcardNode with
      | none => rfl
      | some c =>
        have hc := mem_of_find?_eq_some hfind
        have hwild : c.label.nType = .wildcardNode := by simpa using find?_some hfind
        obtain ⟨h, hvalue⟩ := isSome_iff_exists.mp ((hn.of_mem c hc).here.wildcard hwild).2
        simp [hvalue]

end Lookup

/-! ### The first match -/

section First

variable {E : Engine} {seg : Str} {rest : List Str} {n c : Node H} {l : Label} {ls : List Label}
  {h : H}

theorem captures_cons (hl : l.accepts E seg = true) :
    captures E (l :: ls) (seg :: rest) = (captures E ls rest).map (l.binds seg ++ ·) := by
  rw [captures, if_pos hl]

theorem not_accepts_of_wildcard (hl : l.nType = .wildcardNode) : l.accepts E seg = false := by
  cases l <;> first | rfl | cases hl

theorem captures_wildcard (hl : l.nType = .wildcardNode) :
    captures E [l] (seg :: rest) = some [⟨l.paramName, ['/'].intercalate (seg :: rest)⟩] := by
  rw [captures, not_accepts_of_wildcard hl, if_neg Bool.false_ne_true, if_pos ⟨hl, rfl⟩]

/-- A route of a child that matches, the child taking the first segment, or all if it is a
wildcard. -/
def Through (E : Engine) (seg : Str) (rest : List Str) (c : Node H) (ls : List Label) (h : H) :
    Prop :=
  c.Route ls h ∧ ((c.label.accepts E seg = true ∧ (captures E ls rest).isSome = true) ∨
    (c.label.nType = .wildcardNode ∧ ls = []))

theorem candidate_cons {ms : List Label} : Candidate E (seg :: rest) n ms h ↔
    ∃ c ∈ n.children, ∃ ls, ms = c.label :: ls ∧ Through E seg rest c ls h := by
  constructor
  · rintro ⟨hroute, hcaptures⟩
    cases hroute with
    | here => cases hcaptures
    | @child _ c ls _ hc hroute =>
      refine ⟨c, hc, ls, rfl, hroute, ?_⟩
      rw [captures] at hcaptures
      split_ifs at hcaptures with haccepts hwild
      · exact .inl ⟨haccepts, by simpa using hcaptures⟩
      · exact .inr hwild
      · cases hcaptures
  · rintro ⟨c, hc, ls, rfl, hroute, ⟨haccepts, hcaptures⟩ | ⟨hwild, rfl⟩⟩
    · refine ⟨.child hc hroute, ?_⟩
      rw [captures_cons haccepts]
      simpa using hcaptures
    · refine ⟨.child hc hroute, ?_⟩
      rw [captures_wildcard hwild]
      rfl

/-- Labels of one rank that take the same segment have the same slot. -/
theorem slot_eq_of_rank_eq {a b : Label} (ha : a.accepts E seg = true ∨ a.nType = .wildcardNode)
    (hb : b.accepts E seg = true ∨ b.nType = .wildcardNode) (hrank : a.nType.rank = b.nType.rank) :
    a.slot = b.slot := by
  cases a <;> cases b <;>
    simp [accepts, nType, NodeType.rank, slot] at ha hb hrank ⊢
  rw [ha, hb]

theorem Through.opens (h : Through E seg rest c ls h) :
    c.label.accepts E seg = true ∨ c.label.nType = .wildcardNode :=
  h.2.imp And.left And.left

/-- The first match through a child is the first one of all if the children of smaller rank have
none. -/
theorem isFirst_of_child (hn : Sound n) (hc : c ∈ n.children)
    (hfirst : IsFirst Before (Through E seg rest c) ls h)
    (hsmaller : ∀ d ∈ n.children, d.label.Before c.label → ∀ ms w, ¬Through E seg rest d ms w) :
    IsFirst Before (Candidate E (seg :: rest) n) (c.label :: ls) h := by
  refine ⟨candidate_cons.mpr ⟨c, hc, ls, rfl, hfirst.mem⟩, fun ms w hms => ?_⟩
  obtain ⟨d, hd, ms, rfl, hthrough⟩ := candidate_cons.mp hms
  -- the two routes part at this node, unless both children have the same slot
  rcases lt_trichotomy d.label.nType.rank c.label.nType.rank with hlt | heq | hgt
  · exact absurd hthrough (hsmaller d hd hlt ms w)
  · have hslot := slot_eq_of_rank_eq hthrough.opens hfirst.mem.opens heq
    obtain rfl : d = c := inj_on_of_nodup_map hn.slots hd hc hslot
    rcases hfirst.least ms w hthrough with ⟨rfl, rfl⟩ | hlex
    · exact .inl ⟨rfl, rfl⟩
    · exact .inr (.cons hlex)
  · exact .inr (.rel hgt)

end First

/-! ### The children one after the other -/

variable {ls : List Label} {h : H} {params : List Param}

section Children

variable {E : Engine} {seg : Str} {rest : List Str} {n : Node H} {c : Node H}

theorem through_of_accepts (hc : c.label.accepts E seg = true) :
    Through E seg rest c ls h ↔ Candidate E rest c ls h := by
  have hwild : c.label.nType ≠ .wildcardNode := by
    intro hwild
    rw [not_accepts_of_wildcard hwild] at hc
    cases hc
  simp [Through, Candidate, hc, hwild]

theorem through_wildcard (hc : c.label.nType = .wildcardNode) :
    Through E seg rest c ls h ↔ ls = [] ∧ c.value = some h := by
  simp only [Through, not_accepts_of_wildcard hc, Bool.false_eq_true, false_and, false_or, hc,
    true_and]
  constructor
  · rintro ⟨hroute, rfl⟩
    exact ⟨rfl, route_nil.mp hroute⟩
  · rintro ⟨rfl, hvalue⟩
    exact ⟨route_nil.mpr hvalue, rfl⟩

variable (ih : ∀ c ∈ n.children, IsResult E rest c (lookup E rest c))

include ih

/-- If the loop over the children of a kind finds nothing, then no route matches through them. -/
theorem not_through_of_viaChild (hk : k ≠ .wildcardNode)
    (hvia : viaChild E (lookup E rest) k seg n.children = none) :
    ∀ d ∈ n.children, d.label.nType = k → ∀ ms w, ¬Through E seg rest d ms w := by
  intro d hd hdk ms w hthrough
  have haccepts : d.label.accepts E seg = true := by
    rcases hthrough.opens with haccepts | hwild
    · exact haccepts
    · exact absurd (hdk.symm.trans hwild) hk
  have hnone := findSome?_eq_none_iff.mp hvia d hd
  simp only [hdk, haccepts, decide_true, Bool.and_true, if_true, map_eq_none_iff] at hnone
  have hresult := ih d hd
  rw [hnone] at hresult
  exact hresult ms w ((through_of_accepts haccepts).mp hthrough)

/-- What the loop over the children of a kind finds is the first match through one of them. -/
theorem isFirst_of_viaChild
    (hvia : viaChild E (lookup E rest) k seg n.children = some (h, params)) :
    ∃ c ∈ n.children, c.label.nType = k ∧ ∃ ls, IsFirst Before (Through E seg rest c) ls h ∧
      captures E (c.label :: ls) (seg :: rest) = some params := by
  obtain ⟨c, hc, hsome⟩ := exists_of_findSome?_eq_some hvia
  split_ifs at hsome with htest
  obtain ⟨hk, haccepts⟩ : c.label.nType = k ∧ c.label.accepts E seg = true := by
    simpa using htest
  obtain ⟨⟨h', captured⟩, hlookup, hpair⟩ := map_eq_some_iff.mp hsome
  obtain ⟨rfl, rfl⟩ := Prod.mk.inj hpair
  have hresult := ih c hc
  rw [hlookup] at hresult
  obtain ⟨ls, hfirst, hcaptures⟩ := hresult
  refine ⟨c, hc, hk, ls, hfirst.congr fun _ _ => (through_of_accepts haccepts).symm, ?_⟩
  rw [captures_cons haccepts, hcaptures, map_some]

end Children

section Wildcard

variable {E : Engine} {seg : Str} {rest : List Str} {n : Node H}

theorem not_through_of_viaWildcard (hn : n.Everywhere Sound)
    (hvia : viaWildcard (seg :: rest) n.children = none) :
    ∀ d ∈ n.children, d.label.nType = .wildcardNode → ∀ ms w, ¬Through E seg rest d ms w := by
  intro d hd hdk
  cases hfind : n.children.find? fun c => c.label.nType = .wildcardNode with
  | none =>
    have hno := find?_eq_none.mp hfind d hd
    exact absurd hdk (by simpa using hno)
  | some c =>
    -- the wildcard that is found has a handler
    have hwild : c.label.nType = .wildcardNode := by simpa using find?_some hfind
    obtain ⟨h, hvalue⟩ := isSome_iff_exists.mp
      ((hn.of_mem c (mem_of_find?_eq_some hfind)).here.wildcard hwild).2
    rw [viaWildcard, hfind, bind_some, hvalue] at hvia
    cases hvia

theorem isFirst_of_viaWildcard (hvia : viaWildcard (seg :: rest) n.children = some (h, params)) :
    ∃ c ∈ n.children, c.label.nType = .wildcardNode ∧
      ∃ ls, IsFirst Before (Through E seg rest c) ls h ∧
        captures E (c.label :: ls) (seg :: rest) = some params := by
  obtain ⟨c, hfind, hsome⟩ := bind_eq_some_iff.mp hvia
  obtain ⟨h', hvalue, hpair⟩ := map_eq_some_iff.mp hsome
  obtain ⟨rfl, rfl⟩ := Prod.mk.inj hpair
  have hwild : c.label.nType = .wildcardNode := by simpa using find?_some hfind
  refine ⟨c, mem_of_find?_eq_some hfind, hwild, [], ⟨?_, ?_⟩, captures_wildcard hwild⟩
  · exact (through_wildcard hwild).mpr ⟨rfl, hvalue⟩
  · intro ms w hms
    obtain ⟨rfl, hw⟩ := (through_wildcard hwild).mp hms
    exact .inl ⟨rfl, some_inj.mp (hw.symm.trans hvalue)⟩

end Wildcard

section Result

variable {E : Engine} {seg : Str} {rest : List Str} {n : Node H}

/-- Without segments the handler of the node is the only candidate. -/
theorem isResult_nil : IsResult E [] n (n.value.map (·, [])) := by
  have hnil : ∀ ls h, Candidate E [] n ls h ↔ ls = [] ∧ n.value = some h := by
    intro ls h
    cases ls with
    | nil => simp [Candidate, captures, route_nil]
    | cons l ls => simp [Candidate, captures]
  cases hvalue : n.value with
  | none =>
    intro ls h hcandidate
    rw [hnil, hvalue] at hcandidate
    cases hcandidate.2
  | some h =>
    refine ⟨[], ⟨(hnil _ _).mpr ⟨rfl, hvalue⟩, fun ms w hms => ?_⟩, rfl⟩
    obtain ⟨rfl, hw⟩ := (hnil ms w).mp hms
    exact .inl ⟨rfl, some_inj.mp (hw.symm.trans hvalue)⟩

/-- No route matches through the children of a kind. -/
def NoneThrough (E : Engine) (seg : Str) (rest : List Str) (n : Node H) (k : NodeType) : Prop :=
  ∀ d ∈ n.children, d.label.nType = k → ∀ ms w, ¬Through E seg rest d ms w

/-- What is found through a kind is the result if there is no match through the kinds that are tried
before it. -/
theorem isResult_of_through (hn : Sound n) {r : H × List Param}
    (hfound : ∃ c ∈ n.children, c.label.nType = k ∧
      ∃ ls, IsFirst Before (Through E seg rest c) ls r.1 ∧
        captures E (c.label :: ls) (seg :: rest) = some r.2)
    (htried : ∀ k' : NodeType, k'.rank < k.rank → NoneThrough E seg rest n k') :
    IsResult E (seg :: rest) n (some r) := by
  obtain ⟨c, hc, rfl, ls, hfirst, hcaptures⟩ := hfound
  refine ⟨c.label :: ls, isFirst_of_child hn hc hfirst ?_, hcaptures⟩
  exact fun d hd hlt => htried _ hlt d hd rfl

theorem isResult_none (hnone : ∀ k, NoneThrough E seg rest n k) :
    IsResult E (seg :: rest) n none := by
  intro ls h hcandidate
  obtain ⟨d, hd, ms, rfl, hthrough⟩ := candidate_cons.mp hcandidate
  exact hnone _ d hd rfl ms h hthrough

end Result

/-- **The lookup finds the first match.** -/
theorem isResult_lookup {E : Engine} {n : Node H} (hn : n.Everywhere Sound) (segs : List Str) :
    IsResult E segs n (lookup E segs n) := by
  induction segs generalizing n with
  | nil => exact isResult_nil
  | cons seg rest ih =>
    have hchild : ∀ c ∈ n.children, IsResult E rest c (lookup E rest c) :=
      fun c hc => ih (hn.of_mem c hc)
    rw [lookup]
    cases hstatic : viaChild E (lookup E rest) .static seg n.children with
    | some r =>
      refine isResult_of_through hn.here (isFirst_of_viaChild hchild hstatic) fun k hlt => ?_
      exact absurd hlt (Nat.not_lt_zero _)
    | none =>
      have hnoStatic : NoneThrough E seg rest n .static :=
        not_through_of_viaChild hchild nofun hstatic
      cases hregex : viaChild E (lookup E rest) .regexNode seg n.children with
      | some r =>
        refine isResult_of_through hn.here (isFirst_of_viaChild hchild hregex) fun k hlt => ?_
        cases k with
        | static => exact hnoStatic
        | _ => exact absurd hlt (by decide)
      | none =>
        have hnoRegex : NoneThrough E seg rest n .regexNode :=
          not_through_of_viaChild hchild nofun hregex
        cases hparam : viaChild E (lookup E rest) .paramNode seg n.children with
        | some r =>
          refine isResult_of_through hn.here (isFirst_of_viaChild hchild hparam) fun k hlt => ?_
          cases k with
          | static => exact hnoStatic
          | regexNode => exact hnoRegex
          | _ => exact absurd hlt (by decide)
        | none =>
          have hnoParam : NoneThrough E seg rest n .paramNode :=
            not_through_of_viaChild hchild nofun hparam
          cases hwild : viaWildcard (seg :: rest) n.children with
          | some r =>
            refine isResult_of_through hn.here (isFirst_of_viaWildcard hwild) fun k hlt => ?_
            cases k with
            | static => exact hnoStatic
            | regexNode => exact hnoRegex
            | paramNode => exact hnoParam
            | wildcardNode => exact absurd hlt (lt_irrefl _)
          | none =>
            refine isResult_none fun k => ?_
            cases k with
            | static => exact hnoStatic
            | regexNode => exact hnoRegex
            | paramNode => exact hnoParam
            | wildcardNode => exact not_through_of_viaWildcard hn hwild

/-! ### `FindRoute` -/

section FindRoute

variable {E : Engine} {t t₁ : Tree H} {m : String} {path : Str}

/-- A route of a method that matches a request path. -/
def Tree.Matches (E : Engine) (t : Tree H) (m : String) (path : Str) (ls : List Label) (h : H) :
    Prop :=
  Candidate E (segments path) (t.rootOrNew m) ls h

/-- `FindRoute` returns what the lookup finds, and no parameters if it finds nothing. -/
theorem findRoute_eq (ht : Reachable E t) :
    t.findRoute E m path = match lookup E (segments path) (t.rootOrNew m) with
      | some (h, params) => (some h, params)
      | none => (none, []) := by
  cases hroot : t.root m with
  | none =>
    have hnew : t.rootOrNew m = .leaf (.static []) := by rw [Tree.rootOrNew, hroot]; rfl
    have hresult := isResult_lookup (E := E) (ht.sound m) (segments path)
    rw [hnew] at hresult ⊢
    rw [Tree.findRoute, hroot]
    cases hlookup : lookup E (segments path) (.leaf (.static []) : Node H) with
    | none => rfl
    | some r =>
      rw [hlookup] at hresult
      obtain ⟨ls, hfirst, -⟩ := hresult
      exact absurd hfirst.mem.1 not_route_leaf
  | some root =>
    have hnew : t.rootOrNew m = root := by rw [Tree.rootOrNew, hroot]; rfl
    have hsearch := returns_search (E := E) (ht.sound m) (segments path) []
    rw [hnew] at hsearch ⊢
    rw [Tree.findRoute, hroot]
    cases hlookup : lookup E (segments path) root with
    | none | some =>
      rwa [hlookup] at hsearch

/-- What `FindRoute` returns is determined by the routes that match. -/
theorem findRoute_isResult (ht : Reachable E t) (m : String) (path : Str) :
    (∃ ls h params, t.findRoute E m path = (some h, params) ∧
      IsFirst Before (t.Matches E m path) ls h ∧
      captures E ls (segments path) = some params) ∨
    (t.findRoute E m path = (none, []) ∧ ∀ ls h, ¬t.Matches E m path ls h) := by
  have hresult := isResult_lookup (E := E) (ht.sound m) (segments path)
  rw [findRoute_eq ht]
  cases hlookup : lookup E (segments path) (t.rootOrNew m) with
  | none =>
    rw [hlookup] at hresult
    exact .inr ⟨rfl, hresult⟩
  | some r =>
    rw [hlookup] at hresult
    obtain ⟨ls, hfirst, hcaptures⟩ := hresult
    exact .inl ⟨ls, r.1, r.2, rfl, hfirst, hcaptures⟩

theorem findRoute_of_isFirst (ht : Reachable E t)
    (hfirst : IsFirst Before (t.Matches E m path) ls h)
    (hcaptures : captures E ls (segments path) = some params) :
    t.findRoute E m path = (some h, params) := by
  rcases findRoute_isResult ht m path with ⟨ls₁, h₁, params₁, hfind, hfirst₁, hcaptures₁⟩ | ⟨-, hno⟩
  · obtain ⟨rfl, rfl⟩ := hfirst.unique hfirst₁
    rw [hfind, some_inj.mp (hcaptures₁.symm.trans hcaptures)]
  · exact absurd hfirst.mem (hno ls h)

/-- Trees with the same matching routes give the same answer. -/
theorem findRoute_congr (ht : Reachable E t) (ht₁ : Reachable E t₁)
    (hmatches : ∀ ls h, t.Matches E m path ls h ↔ t₁.Matches E m path ls h) :
    t.findRoute E m path = t₁.findRoute E m path := by
  rcases findRoute_isResult ht m path with ⟨ls, h, params, hfind, hfirst, hcaptures⟩ | ⟨hfind, hno⟩
  · rw [hfind, findRoute_of_isFirst ht₁ (hfirst.congr hmatches) hcaptures]
  · rcases findRoute_isResult ht₁ m path with ⟨ls₁, h₁, -, -, hfirst₁, -⟩ | ⟨hfind₁, -⟩
    · exact absurd ((hmatches ls₁ h₁).mpr hfirst₁.mem) (hno ls₁ h₁)
    · rw [hfind, hfind₁]

end FindRoute

/-- **Route lookup meets its specification.** In every tree that calls of `AddRoute` with handlers
lead to, `FindRoute` returns the handler of the first route of the method that matches the segments
of the path, with exactly the parameters that its labels capture, and it returns nil without
parameters if and only if no route matches. -/
theorem findRoute_first (E : Engine) (t : Tree H) (ht : Reachable E t) (m : String) (path : Str) :
    (∀ h params, t.findRoute E m path = (some h, params) ↔
      ∃ ls, IsFirst Before (t.Matches E m path) ls h ∧
        captures E ls (segments path) = some params) ∧
    (t.findRoute E m path = (none, []) ↔ ∀ ls h, ¬t.Matches E m path ls h) ∧
    ((t.findRoute E m path).1 = none → (t.findRoute E m path).2 = []) := by
  refine ⟨fun h params => ⟨?_, ?_⟩, ?_⟩
  · intro hfind
    rcases findRoute_isResult ht m path with ⟨ls, h₁, params₁, hfind₁, hfirst, hcaptures⟩ | ⟨hno, -⟩
    · obtain ⟨hh, hparams⟩ := Prod.mk.inj (hfind.symm.trans hfind₁)
      obtain rfl := some_inj.mp hh
      exact ⟨ls, hfirst, hparams ▸ hcaptures⟩
    · cases hfind.symm.trans hno
  · rintro ⟨ls, hfirst, hcaptures⟩
    exact findRoute_of_isFirst ht hfirst hcaptures
  · rcases findRoute_isResult ht m path with ⟨ls, h, params, hfind, hfirst, -⟩ | ⟨hfind, hno⟩
    · rw [hfind]
      exact ⟨⟨nofun, fun hno => absurd hfirst.mem (hno ls h)⟩, nofun⟩
    · rw [hfind]
      exact ⟨⟨fun _ => hno, fun _ => rfl⟩, fun _ => rfl⟩

/-- A request that is abandoned below the number and served by the wildcard. -/
def filesTree : Tree String :=
  let t := (newTree.addRoute wordEngine "GET" "/{id:[0-9]+}/edit".toList (some "edit")).1
  (t.addRoute wordEngine "GET" "/{rest:*}".toList (some "files")).1

theorem filesTree_findRoute :
    filesTree.findRoute wordEngine "GET" "/7/view".toList =
      (some "files", [⟨"rest".toList, "7/view".toList⟩]) ∧
    ∃ ls, IsFirst Before (filesTree.Matches wordEngine "GET" "/7/view".toList) ls "files" ∧
      captures wordEngine ls (segments "/7/view".toList) =
        some [⟨"rest".toList, "7/view".toList⟩] := by
  have hfind : filesTree.findRoute wordEngine "GET" "/7/view".toList =
      (some "files", [⟨"rest".toList, "7/view".toList⟩]) := by decide +kernel
  have h := findRoute_first wordEngine filesTree
    (.addRoute (.addRoute .newTree "GET" trivial "edit") "GET" trivial "files") "GET"
    "/7/view".toList
  exact ⟨hfind, (h.1 _ _).mp hfind⟩

end Kiya.Router
