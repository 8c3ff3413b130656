import Kiya.Lib.Backtrack
import Kiya.Lib.LabelTree
import Kiya.Lib.SlashPath

/-!
# The routing tree

`internal/router/tree.go`: a tree of path segments for every method. `AddRoute` walks down the tree
along the segments of a pattern and adds what is missing, and `FindRoute` searches the tree with the
segments of a request path.

A Go string is the list of its bytes, each written as the character of that number. What the
`regexp` package does is a parameter, the `Engine`. A node's type, part, parameter name and
expression are its `Label`, so that there is an expression exactly if the type is `regexNode`. A nil
handler is `none`; a call of `AddRoute` that panics has changed the tree up to that point.
-/

namespace Kiya.Router

open List

/-- A Go string, byte by byte. -/
abbrev Str := List Char

/-- `regexp`: which expressions compile, and which texts a compiled expression matches. -/
structure Engine where
  compiles : Str → Bool
  matchString : Str → Str → Bool

/-! ### Paths -/

/-- `cleanPath`. -/
def cleanPath (p : Str) : Str :=
  if p = [] then ['/']
  else if p.head? = some '/' then SlashPath.clean p
  else SlashPath.clean ('/' :: p)

/-- `splitPath`. -/
def splitPath (p : Str) : List Str :=
  if p = ['/'] then []
  else
    let trimmed := (p.dropWhile (· = '/')).rdropWhile (· = '/')
    if trimmed = [] then [] else trimmed.splitOn '/'

/-- The segments of a path, as `AddRoute` and `FindRoute` see it. -/
def segments (path : Str) : List Str := splitPath (cleanPath path)

/-! ### Nodes -/

/-- `nodeType`. -/
inductive NodeType
  | static
  | paramNode
  | regexNode
  | wildcardNode
deriving DecidableEq, Repr

/-- What a node says about a segment. -/
inductive Label
  | static (part : Str)
  | param (name : Str)
  | regex (name expr : Str)
  | wildcard (name : Str)
deriving DecidableEq, Repr

namespace Label

/-- `nType`. -/
def nType : Label → NodeType
  | static _ => .static
  | param _ => .paramNode
  | regex _ _ => .regexNode
  | wildcard _ => .wildcardNode

/-- `part`. -/
def part : Label → Str
  | static part => part
  | _ => []

/-- `paramName`. -/
def paramName : Label → Str
  | static _ => []
  | param name => name
  | regex name _ => name
  | wildcard name => name

/-- `regex.MatchString`, for a node that has an expression. -/
def matchString (E : Engine) : Label → Str → Bool
  | regex _ expr, seg => E.matchString expr seg
  | _, _ => false

end Label

/-- `node`. -/
abbrev Node (H : Type) := LabelTree Label H

/-- `Param`. -/
structure Param where
  key : Str
  value : Str
deriving DecidableEq, Repr

/-- `parseSegment`; none if the slice that takes off the braces panics. -/
def parseSegment (E : Engine) (seg : Str) : Option Label :=
  if seg.head? ≠ some '{' then some (.static seg)
  else if seg.length < 2 then none
  else
    let body := seg.tail.dropLast
    if body.length > 100 then some (.param body)
    else
      match body.span (· ≠ ':') with
      | (name, []) => some (.param name)
      | (name, _ :: pattern) =>
        if pattern = ['*'] then some (.wildcard name)
        else
          let expr := '^' :: pattern ++ ['$']
          if E.compiles expr then some (.regex name expr) else some (.param name)

/-- `sameNode`. -/
def sameNode (a b : Label) : Bool :=
  a.nType = b.nType && a.part = b.part && a.paramName = b.paramName

/-- The test for a conflict of a new node `n` with a node `c` that is there. -/
def isConflict (c n : Label) : Bool :=
  (c.nType = .paramNode && (n.nType = .paramNode || n.nType = .regexNode)) ||
  ((c.nType = .regexNode || c.nType = .wildcardNode) &&
    (n.nType = .paramNode || n.nType = .regexNode)) ||
  (c.nType = .wildcardNode && n.nType = .wildcardNode)

/-! ### Registration -/

/-- How a call of `AddRoute` ends; a conflict is logged with the pattern, the segment and the part
of the node that is there. -/
inductive Outcome
  | registered
  | conflict (fullPath seg part : Str)
  | panic
deriving DecidableEq, Repr

variable {H : Type}

/-- The loop of `AddRoute` from the node `current` on. -/
def walk (E : Engine) (fullPath : Str) (h : Option H) : List Str → Node H → Node H × Outcome
  | [], current => ({ current with value := h }, .registered)
  | seg :: rest, current =>
    match parseSegment E seg with
    | none => (current, .panic)
    | some n =>
      let next := fun child : Node H =>
        -- what follows a wildcard is ignored
        if n.nType = .wildcardNode then ({ child with value := h }, Outcome.registered)
        else walk E fullPath h rest child
      match current.children.span fun c => !sameNode c.label n with
      | (pre, child :: post) =>
        ({ current with children := pre ++ (next child).1 :: post }, (next child).2)
      | (_, []) =>
        match current.children.find? fun c => isConflict c.label n with
        | some c => (current, .conflict fullPath seg c.label.part)
        | none =>
          let child := next (.leaf n)
          ({ current with children := current.children ++ [child.1] }, child.2)

/-- `Tree`: the roots, by method. -/
structure Tree (H : Type) where
  roots : List (String × Node H)

/-- `NewTree`. -/
def newTree : Tree H := ⟨[]⟩

/-- Store the root of a method, in its place if there is one. -/
def putRoot (method : String) (root : Node H) : List (String × Node H) → List (String × Node H)
  | [] => [(method, root)]
  | (m, r) :: roots =>
    if m = method then (m, root) :: roots else (m, r) :: putRoot method root roots

namespace Tree

/-- `roots[method]`. -/
def root (t : Tree H) (method : String) : Option (Node H) := t.roots.lookup method

/-- The root that `AddRoute` starts at: `&node{}` if there is none. -/
def rootOrNew (t : Tree H) (method : String) : Node H := (t.root method).getD (.leaf (.static []))

/-- `AddRoute`. -/
def addRoute (E : Engine) (t : Tree H) (method : String) (path : Str) (h : Option H) :
    Tree H × Outcome :=
  let fullPath := cleanPath path
  let result := walk E fullPath h (splitPath fullPath) (t.rootOrNew method)
  (⟨putRoot method result.1 t.roots⟩, result.2)

end Tree

/-! ### Lookup -/

/-- `search`. -/
def search (E : Engine) : List Str → Node H → Attempt Param H
  | [], n => fun params => (n.value, params)
  | seg :: rest, n =>
    .orElse (.firstOf (fun c => c.label.nType = .static && c.label.part = seg)
      (fun c => search E rest c) n.children) <|
    .orElse (.firstOf (fun c => c.label.nType = .regexNode && c.label.matchString E seg)
      (fun c => .pushing ⟨c.label.paramName, seg⟩ (search E rest c)) n.children) <|
    .orElse (.firstOf (fun c => c.label.nType = .paramNode)
      (fun c => .pushing ⟨c.label.paramName, seg⟩ (search E rest c)) n.children) <|
    fun params =>
      match n.children.find? fun c => c.label.nType = .wildcardNode with
      | some c => (c.value, params ++ [⟨c.label.paramName, ['/'].intercalate (seg :: rest)⟩])
      | none => (none, params)

/-- `FindRoute`. -/
def Tree.findRoute (E : Engine) (t : Tree H) (method : String) (path : Str) :
    Option H × List Param :=
  match t.root method with
  | none => (none, [])
  | some root => search E (segments path) root []

/-! ### Roots -/

section Roots

variable {method m : String} {root : Node H} {roots : List (String × Node H)}

theorem lookup_putRoot_self : (putRoot method root roots).lookup method = some root := by
  induction roots with
  | nil => exact lookup_cons_self
  | cons q roots ih =>
    obtain ⟨k, r⟩ := q
    rw [putRoot]
    split_ifs with hk
    · rw [hk, lookup_cons_self]
    · have hbeq : (method == k) = false := beq_eq_false_iff_ne.mpr (Ne.symm hk)
      rwa [lookup_cons, hbeq]

theorem lookup_putRoot_of_ne (h : m ≠ method) :
    (putRoot method root roots).lookup m = roots.lookup m := by
  have hbeq : (m == method) = false := beq_eq_false_iff_ne.mpr h
  induction roots with
  | nil => rw [putRoot, lookup_cons, hbeq]
  | cons q roots ih =>
    obtain ⟨k, r⟩ := q
    rw [putRoot]
    split_ifs with hk
    · rw [lookup_cons, lookup_cons, hk, hbeq]
    · rw [lookup_cons, lookup_cons, ih]

/-- Storing a root where it already is changes nothing. -/
theorem putRoot_of_lookup (h : roots.lookup method = some root) :
    putRoot method root roots = roots := by
  induction roots with
  | nil => cases h
  | cons q roots ih =>
    obtain ⟨k, r⟩ := q
    rw [putRoot]
    split_ifs with hk
    · subst hk
      rw [lookup_cons_self] at h
      rw [Option.some_inj.mp h]
    · have hbeq : (method == k) = false := beq_eq_false_iff_ne.mpr (Ne.symm hk)
      rw [lookup_cons, hbeq] at h
      rw [ih h]

end Roots

end Kiya.Router
