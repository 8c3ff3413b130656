import Kiya.Lib.Sql.Join
import Kiya.Lib.Sql.Lex

/-!
# Reading SQL conditions with their precedence

The Boolean grammar of conditions: `OR` branches of `AND` factors, each an operand with any
number of `NOT`s before it. An operand is a condition in parentheses, or else an *atom*: any
other run of items, such as a comparison, `x NOT IN (…)` or `EXISTS (…)`, whose inner
structure is left alone. The `AND` of `BETWEEN … AND …` belongs to its atom, and so does
everything between `CASE` and `END`. `SELECT` outside the parentheses of an atom and `XOR` are
outside the fragment.

The reader keeps a stack of frames, one for each open bracket. A condition that can be read on
its own can be read on top of any stack (`run_onto`), which gives the three rules for composed
texts: `parse_and`, `parse_or` and `parse_paren`. The atoms of what is read are made of the items
that were read (`forall_termAtoms_of_parse`).
-/

namespace Sql

open List Option

variable {V : Type}

/-! ### Roles of items -/

/-- The brackets of the grammar. -/
inductive Bracket where
  | paren
  | case
  deriving DecidableEq, Repr

/-- What an item is to the Boolean grammar. -/
inductive Role where
  | and
  | or
  | not
  | between
  | open (b : Bracket)
  | close (b : Bracket)
  | foreign
  | plain
  deriving DecidableEq, Repr

/-- Is it a bracket? -/
def Role.isBracket : Role → Bool
  | .open _ => true
  | .close _ => true
  | _ => false

/-- The role of a word; keywords are written in any case. -/
def keyword (cs : List Char) : Role :=
  let w := cs.map Char.toUpper
  if w = "AND".toList then .and
  else if w = "OR".toList then .or
  else if w = "NOT".toList then .not
  else if w = "BETWEEN".toList then .between
  else if w = "CASE".toList then .open .case
  else if w = "END".toList then .close .case
  else if w = "SELECT".toList then .foreign
  else if w = "XOR".toList then .foreign
  else .plain

/-- The role of an item. -/
def Item.role : Item V → Role
  | .word cs => keyword cs
  | .lparen => .open .paren
  | .rparen => .close .paren
  | .quoted _ _ => .plain
  | .sym _ => .plain
  | .arg _ => .plain

/-- Atoms are runs of items. -/
abbrev Atom (V : Type) := List (Item V)

/-! ### Frames -/

/-- The operand being read. -/
inductive Operand (V : Type) where
  | empty
  | group (e : Option (Expr (Atom V))) (is : List (Item V))
  | atom (is : List (Item V))

open Operand

/-- The items of an operand. -/
def Operand.items : Operand V → List (Item V)
  | .empty => []
  | .group _ is => is
  | .atom is => is

/-- The expression an operand is, if nothing follows it. -/
def Operand.expr : Operand V → Option (Expr (Atom V))
  | .empty => none
  | .group e _ => e
  | .atom is => some (.atom is)

/-- `NOT`s before an expression. -/
def negate : Nat → Expr (Atom V) → Expr (Atom V)
  | 0, e => e
  | n + 1, e => .not (negate n e)

/-- What has been read since a bracket was opened. -/
structure Frame (V : Type) where
  bracket : Option Bracket := none
  terms : Terms (Atom V) := [[]]
  nots : Nat := 0
  operand : Operand V := .empty
  between : Nat := 0
  foreign : Bool := false
  items : List (Item V) := []

variable {f : Frame V} {ts : Terms (Atom V)} {i : Item V} {is : List (Item V)}

namespace Frame

/-- Add items to the operand, which then is an atom. -/
def take (f : Frame V) (is : List (Item V)) : Frame V :=
  { f with operand := .atom (f.operand.items ++ is), items := f.items ++ is }

/-- Add a closed bracket to the operand. A parenthesis that begins an operand may be all of
it. -/
def absorb (f : Frame V) (b : Bracket) (e : Option (Expr (Atom V))) (is : List (Item V)) :
    Frame V :=
  match b, f.operand with
  | .paren, .empty => { f with operand := .group e is, items := f.items ++ is }
  | _, _ => f.take is

/-- The operand with the `NOT`s before it. -/
def factor (f : Frame V) : Option (Expr (Atom V)) := f.operand.expr.map (negate f.nots)

/-- The form with the operand as its last factor. -/
def close (f : Frame V) : Option (Terms (Atom V)) :=
  f.factor.map fun e => andTerms f.terms [[e]]

/-- The form read, if nothing follows. -/
def finish (f : Frame V) : Option (Terms (Atom V)) :=
  if f.between = 0 ∧ f.foreign = false then f.close.filter (decide <| Complete ·) else none

/-- The frame after a connective. -/
def next (f : Frame V) (i : Item V) (ts : Terms (Atom V)) : Frame V :=
  { f with terms := ts, nots := 0, operand := .empty, items := f.items ++ [i] }

/-- Read an item that is no bracket. -/
def step (f : Frame V) (i : Item V) : Option (Frame V) :=
  match i.role with
  | .and =>
    if 0 < f.between then some { f.take [i] with between := f.between - 1 }
    else f.close.map (f.next i)
  | .or => if 0 < f.between then none else f.close.map fun ts => f.next i (ts ++ [[]])
  | .not =>
    match f.operand with
    | .empty => some { f with nots := f.nots + 1, items := f.items ++ [i] }
    | _ => some (f.take [i])
  | .between => some { f.take [i] with between := f.between + 1 }
  | .foreign => some { f.take [i] with foreign := true }
  | _ => some (f.take [i])

/-- The frame that has read what `f` has and then what `g` has. -/
def onto (f g : Frame V) : Frame V :=
  { g with
    bracket := f.bracket
    terms := andTerms f.terms g.terms
    foreign := f.foreign || g.foreign
    items := f.items ++ g.items }

/-- An operand can begin. -/
structure Ready (f : Frame V) : Prop where
  nots : f.nots = 0
  operand : f.operand = .empty
  between : f.between = 0
  terms : f.terms ≠ []

theorem onto_take (f g : Frame V) (is : List (Item V)) :
    (f.onto g).take is = f.onto (g.take is) := by
  simp [onto, take]

theorem onto_absorb (f g : Frame V) (b : Bracket) (e : Option (Expr (Atom V)))
    (is : List (Item V)) : (f.onto g).absorb b e is = f.onto (g.absorb b e is) := by
  have hoperand : (f.onto g).operand = g.operand := rfl
  unfold absorb
  rw [hoperand]
  split
  · simp [onto]
  · exact onto_take f g is

theorem close_onto (f g : Frame V) : (f.onto g).close = g.close.map (andTerms f.terms) := by
  have hfactor : (f.onto g).factor = g.factor := rfl
  rw [close, close, hfactor, Option.map_map]
  refine congrArg (Option.map · g.factor) (funext fun e => ?_)
  exact andTerms_assoc f.terms g.terms [[e]]

theorem close_ne_nil (h : f.close = some ts) : ts ≠ [] := by
  obtain ⟨e, -, rfl⟩ := map_eq_some_iff.mp h
  exact andTerms_ne_nil (by simp)

/-- What a frame has read before does not influence how an item is read. -/
theorem step_onto (f : Frame V) {g g' : Frame V} (h : g.step i = some g') :
    (f.onto g).step i = some (f.onto g') := by
  have hbetween : (f.onto g).between = g.between := rfl
  have hoperand : (f.onto g).operand = g.operand := rfl
  unfold step at h ⊢
  rw [hbetween, hoperand, close_onto, onto_take]
  cases hrole : i.role with
  | and =>
    simp only [hrole] at h ⊢
    split at h
    · rename_i hpos
      rw [if_pos hpos]
      obtain rfl := Option.some.inj h
      rfl
    · rename_i hpos
      rw [if_neg hpos]
      obtain ⟨ts, hts, rfl⟩ := map_eq_some_iff.mp h
      simp [hts, next, onto]
  | or =>
    simp only [hrole] at h ⊢
    split at h
    · cases h
    · rename_i hpos
      rw [if_neg hpos]
      obtain ⟨ts, hts, rfl⟩ := map_eq_some_iff.mp h
      simp [hts, next, onto, andTerms_append (close_ne_nil hts)]
  | not =>
    simp only [hrole] at h ⊢
    split at h
    · obtain rfl := Option.some.inj h
      simp [onto]
    · obtain rfl := Option.some.inj h
      rfl
  | between =>
    simp only [hrole] at h ⊢
    obtain rfl := Option.some.inj h
    rfl
  | foreign =>
    simp only [hrole] at h ⊢
    obtain rfl := Option.some.inj h
    simp [onto, take]
  | «open» b =>
    simp only [hrole] at h ⊢
    obtain rfl := Option.some.inj h
    rfl
  | close | plain =>
    simp only [hrole] at h ⊢
    obtain rfl := Option.some.inj h
    rfl

theorem Ready.onto_start (h : f.Ready) : f.onto {} = f := by
  obtain ⟨bracket, terms, nots, operand, between, foreign, items⟩ := f
  obtain ⟨rfl, rfl, rfl, hterms⟩ := h
  rcases terms.eq_nil_or_concat with rfl | ⟨ts, t, rfl⟩
  · exact absurd rfl hterms
  · simp [onto, andTerms_append_singleton]

theorem finish_eq_some_iff : f.finish = some ts ↔
      f.between = 0 ∧ f.foreign = false ∧ f.close = some ts ∧ Complete ts := by
  unfold finish
  split_ifs with h
  · simp [h, filter_eq_some_iff]
  · simp only [false_iff]
    exact fun hf => h ⟨hf.1, hf.2.1⟩

/-- Finishing a condition read after another. -/
theorem finish_onto {f g : Frame V} (hf : f.foreign = false)
    (hg : g.finish = some ts) (hc : Complete (andTerms f.terms ts)) :
    (f.onto g).finish = some (andTerms f.terms ts) := by
  obtain ⟨hbetween, hforeign, hclose, -⟩ := finish_eq_some_iff.mp hg
  refine finish_eq_some_iff.mpr ⟨hbetween, ?_, ?_, hc⟩
  · simp [onto, hf, hforeign]
  · rw [close_onto, hclose]
    rfl

end Frame

/-! ### Stacks -/

/-- Read one item on a stack of frames, the innermost first. -/
def stepItem : List (Frame V) → Item V → Option (List (Frame V))
  | [], _ => none
  | f :: fs, i =>
    match i.role with
    | .open b => some ({ bracket := some b, items := [i] } :: f :: fs)
    | .close b =>
      match fs with
      | [] => none
      | p :: fs =>
        if f.bracket = some b then
          some (p.absorb b (f.finish >>= ofTerms) (f.items ++ [i]) :: fs)
        else none
    | _ => (f.step i).map (· :: fs)

variable {fs fs' : List (Frame V)} {b : Bracket} {w : List Char}

theorem stepItem_open (h : i.role = .open b) :
    stepItem (f :: fs) i = some ({ bracket := some b, items := [i] } :: f :: fs) := by
  simp [stepItem, h]

theorem stepItem_close_nil (h : i.role = .close b) : stepItem [f] i = none := by
  simp [stepItem, h]

theorem stepItem_close {f p : Frame V} (h : i.role = .close b) :
    stepItem (f :: p :: fs) i =
      if f.bracket = some b then
        some (p.absorb b (f.finish >>= ofTerms) (f.items ++ [i]) :: fs)
      else none := by
  simp [stepItem, h]

theorem stepItem_of_not_bracket (h : i.role.isBracket = false) :
    stepItem (f :: fs) i = (f.step i).map (· :: fs) := by
  rw [stepItem]
  cases hrole : i.role <;> simp_all [Role.isBracket]

/-- Read items on a stack of frames. -/
def run (fs : List (Frame V)) (is : List (Item V)) : Option (List (Frame V)) :=
  is.foldlM stepItem fs

/-- The form of a condition. -/
def parse (is : List (Item V)) : Option (Terms (Atom V)) :=
  match run [{}] is with
  | some [f] => f.finish
  | _ => none

theorem run_append (fs : List (Frame V)) (is js : List (Item V)) :
    run fs (is ++ js) = run fs is >>= (run · js) := by
  simp [run, foldlM_append]

theorem run_cons (fs : List (Frame V)) (i : Item V) (is : List (Item V)) :
    run fs (i :: is) = stepItem fs i >>= (run · is) := by
  simp [run, foldlM_cons]

theorem parse_eq_some_iff :
    parse is = some ts ↔ ∃ f, run [{}] is = some [f] ∧ f.finish = some ts := by
  unfold parse
  constructor
  · intro h
    split at h
    · rename_i f hf
      exact ⟨f, hf, h⟩
    · cases h
  · rintro ⟨f, hrun, hf⟩
    rwa [hrun]

/-- The stack `fs` with its outermost frame read after `f`, on top of the stack `below`. -/
def onStack (f : Frame V) (below : List (Frame V)) : List (Frame V) → List (Frame V)
  | [] => []
  | [g] => f.onto g :: below
  | g :: h :: fs => g :: onStack f below (h :: fs)

theorem stepItem_onStack (f : Frame V) (below : List (Frame V)) (h : stepItem fs i = some fs') :
    stepItem (onStack f below fs) i = some (onStack f below fs') := by
  obtain ⟨g, fs, rfl⟩ := exists_cons_of_ne_nil (show fs ≠ [] by rintro rfl; cases h)
  by_cases hb : i.role.isBracket = false
  · -- only the innermost frame changes
    rw [stepItem_of_not_bracket hb] at h
    obtain ⟨g', hg', rfl⟩ := map_eq_some_iff.mp h
    cases fs with
    | nil => rw [onStack, onStack, stepItem_of_not_bracket hb, Frame.step_onto f hg']; rfl
    | cons p fs => rw [onStack, onStack, stepItem_of_not_bracket hb, hg']; rfl
  cases hrole : i.role with
  | «open» b =>
    rw [stepItem_open hrole] at h
    obtain rfl := Option.some.inj h
    cases fs with
    | nil | cons => exact stepItem_open hrole
  | close b =>
    cases fs with
    | nil =>
      rw [stepItem_close_nil hrole] at h
      cases h
    | cons p fs =>
      rw [stepItem_close hrole] at h
      split at h
      · rename_i hbracket
        obtain rfl := Option.some.inj h
        cases fs with
        | nil =>
          rw [onStack, onStack, onStack, stepItem_close hrole, if_pos hbracket, Frame.onto_absorb]
        | cons q fs => rw [onStack, onStack, stepItem_close hrole, if_pos hbracket]; rfl
      · cases h
  | _ => simp [hrole, Role.isBracket] at hb

theorem run_onStack (f : Frame V) (below : List (Frame V)) (h : run fs is = some fs') :
    run (onStack f below fs) is = some (onStack f below fs') := by
  induction is generalizing fs with
  | nil =>
    obtain rfl := Option.some.inj h
    rfl
  | cons i is ih =>
    rw [run_cons] at h ⊢
    obtain ⟨fs₁, hstep, hrun⟩ := bind_eq_some_iff.mp h
    rw [stepItem_onStack f below hstep]
    exact ih hrun

/-- A condition that can be read on its own can be read where an operand can begin. -/
theorem run_onto {f g : Frame V} (hf : f.Ready) (below : List (Frame V))
    (h : run [{}] is = some [g]) : run (f :: below) is = some (f.onto g :: below) := by
  have hstack := run_onStack f below h
  rwa [onStack, onStack, hf.onto_start] at hstack

/-! ### The grammar, compositionally -/

/-- A condition, a connective and a condition. -/
theorem parse_connective {is js : List (Item V)} {ts us vs : Terms (Atom V)}
    (hi : parse is = some ts) (hj : parse js = some us)
    (hstep : ∀ f : Frame V, f.finish = some ts → stepItem [f] i = some [f.next i vs])
    (hvs : vs ≠ []) (hc : Complete (andTerms vs us)) :
    parse (is ++ i :: js) = some (andTerms vs us) := by
  obtain ⟨f, hf, hfinish⟩ := parse_eq_some_iff.mp hi
  obtain ⟨g, hg, hgfinish⟩ := parse_eq_some_iff.mp hj
  obtain ⟨hbetween, hforeign, -⟩ := Frame.finish_eq_some_iff.mp hfinish
  have hready : (f.next i vs).Ready := ⟨rfl, rfl, hbetween, hvs⟩
  refine parse_eq_some_iff.mpr ⟨(f.next i vs).onto g, ?_, ?_⟩
  · rw [run_append, hf, bind_eq_bind, bind_some, run_cons, hstep f hfinish]
    exact run_onto hready [] hg
  · exact Frame.finish_onto hforeign hgfinish hc

theorem complete_of_parse (h : parse is = some ts) : Complete ts := by
  obtain ⟨f, -, hfinish⟩ := parse_eq_some_iff.mp h
  exact (Frame.finish_eq_some_iff.mp hfinish).2.2.2

/-- **`AND`** joins the two branches next to it. -/
theorem parse_and {is js : List (Item V)} {ts us : Terms (Atom V)}
    (hrole : i.role = .and) (hi : parse is = some ts) (hj : parse js = some us) :
    parse (is ++ i :: js) = some (andTerms ts us) := by
  refine parse_connective hi hj (fun f hf => ?_) (complete_of_parse hi).1
    ((complete_of_parse hi).andTerms (complete_of_parse hj))
  obtain ⟨hbetween, -, hclose, -⟩ := Frame.finish_eq_some_iff.mp hf
  simp [stepItem, hrole, Frame.step, hbetween, hclose]

/-- **`OR`** begins a new branch. -/
theorem parse_or {is js : List (Item V)} {ts us : Terms (Atom V)}
    (hrole : i.role = .or) (hi : parse is = some ts) (hj : parse js = some us) :
    parse (is ++ i :: js) = some (ts ++ us) := by
  obtain ⟨u, us, rfl⟩ := exists_cons_of_ne_nil (complete_of_parse hj).1
  have happend : andTerms (ts ++ [[]]) (u :: us) = ts ++ u :: us := by
    rw [andTerms_append_singleton, nil_append]
  rw [← happend]
  refine parse_connective hi hj (fun f hf => ?_) (by simp) ?_
  · obtain ⟨hbetween, -, hclose, -⟩ := Frame.finish_eq_some_iff.mp hf
    simp [stepItem, hrole, Frame.step, hbetween, hclose]
  · rw [happend]
    exact (complete_of_parse hi).append (complete_of_parse hj)

/-- **Parentheses** make one factor. -/
theorem parse_paren (h : parse is = some ts) :
    ∃ e, ofTerms ts = some e ∧ parse (.lparen :: (is ++ [.rparen])) = some [[e]] := by
  obtain ⟨f, hf, hfinish⟩ := parse_eq_some_iff.mp h
  obtain ⟨e, he⟩ := exists_ofTerms (complete_of_parse h)
  refine ⟨e, he, ?_⟩
  set inner : Frame V := { bracket := some .paren, items := [.lparen] } with hinner
  have hopen : stepItem [({} : Frame V)] .lparen = some [inner, {}] := rfl
  have hrun : run [inner, {}] is = some [inner.onto f, {}] :=
    run_onto ⟨rfl, rfl, rfl, by simp [hinner]⟩ [{}] hf
  have hin : (inner.onto f).finish = some ts := by
    have hts : andTerms inner.terms ts = ts := by
      obtain ⟨t, ts, rfl⟩ := exists_cons_of_ne_nil (complete_of_parse h).1
      simp [hinner]
    rw [← hts]
    exact Frame.finish_onto rfl hfinish (by rw [hts]; exact complete_of_parse h)
  have hbracket : (inner.onto f).bracket = some .paren := rfl
  refine parse_eq_some_iff.mpr
    ⟨{ operand := .group (some e) ((inner.onto f).items ++ [.rparen]),
       items := (inner.onto f).items ++ [.rparen] }, ?_, ?_⟩
  · rw [run_cons, hopen, bind_eq_bind, bind_some, run_append, hrun,
      bind_eq_bind, bind_some, run_cons]
    simp [stepItem, Item.role, hbracket, hin, he, Frame.absorb, run]
  · rw [Frame.finish_eq_some_iff]
    refine ⟨rfl, rfl, ?_, by simp [Complete]⟩
    simp [Frame.close, Frame.factor, expr, negate]

/-- Items after the first of an atom are added to it. -/
theorem run_atom (pre : List (Item V)) (h : ∀ i ∈ is, i.role = .plain ∨ i.role = .not) :
    run [({ operand := .atom pre, items := pre } : Frame V)] is =
      some [{ operand := .atom (pre ++ is), items := pre ++ is }] := by
  induction is generalizing pre with
  | nil => simp [run]
  | cons i is ih =>
    have hstep : stepItem [({ operand := .atom pre, items := pre } : Frame V)] i =
        some [{ operand := .atom (pre ++ [i]), items := pre ++ [i] }] := by
      rcases h i mem_cons_self with hi | hi <;> simp [stepItem, hi, Frame.step, Frame.take, items]
    rw [run_cons, hstep, bind_eq_bind, bind_some, ih _ fun j hj => h j (mem_cons_of_mem _ hj)]
    simp

theorem stepItem_word (h : keyword w = .plain) : stepItem [({} : Frame V)] (.word w) =
      some [{ operand := .atom [.word w], items := [.word w] }] := by
  simp [stepItem, Item.role, h, Frame.step, Frame.take, items]

theorem finish_atom (is : List (Item V)) :
    ({ operand := .atom is, items := is } : Frame V).finish = some [[.atom is]] := by
  rw [Frame.finish_eq_some_iff]
  refine ⟨rfl, rfl, ?_, by simp [Complete]⟩
  simp [Frame.close, Frame.factor, expr, negate]

/-- A plain word and items without a role of their own: one atom. -/
theorem parse_words (hw : keyword w = .plain) (his : ∀ i ∈ is, i.role = .plain ∨ i.role = .not) :
    parse (.word w :: is) = some [[.atom (.word w :: is)]] := by
  refine parse_eq_some_iff.mpr
    ⟨{ operand := .atom (.word w :: is), items := .word w :: is }, ?_, finish_atom _⟩
  rw [run_cons, stepItem_word hw, bind_eq_bind, bind_some, run_atom [.word w] his]
  rfl

/-- Items without a role of their own, after the first of an atom or inside its brackets, are
only collected. -/
theorem run_plain (f : Frame V) (fs : List (Frame V)) (h : ∀ i ∈ is, i.role = .plain) :
    ∃ g, run (f :: fs) is = some (g :: fs) ∧ g.bracket = f.bracket ∧
      g.items = f.items ++ is := by
  induction is generalizing f with
  | nil => exact ⟨f, rfl, rfl, by simp⟩
  | cons i is ih =>
    have hi : i.role = .plain := h i mem_cons_self
    obtain ⟨g, hrun, hbracket, hitems⟩ := ih (f.take [i]) fun j hj => h j (mem_cons_of_mem _ hj)
    refine ⟨g, ?_, hbracket, by simp [hitems, Frame.take]⟩
    rw [run_cons, stepItem_of_not_bracket (by rw [hi]; rfl)]
    simpa [Frame.step, hi] using hrun

/-- A word, further words, and plain items in parentheses: one atom. -/
theorem parse_listed {ws is : List (Item V)} (hw : keyword w = .plain)
    (hws : ∀ i ∈ ws, i.role = .plain ∨ i.role = .not) (his : ∀ i ∈ is, i.role = .plain) :
    parse (.word w :: (ws ++ .lparen :: (is ++ [.rparen]))) =
      some [[.atom (.word w :: (ws ++ .lparen :: (is ++ [.rparen])))]] := by
  -- the items before the parenthesis are one atom, which the parenthesis is then added to
  set inner : Frame V := { bracket := some .paren, items := [.lparen] } with hinner
  obtain ⟨g, hg, hbracket, hitems⟩ := run_plain inner
    [{ operand := .atom (.word w :: ws), items := .word w :: ws }] his
  refine parse_eq_some_iff.mpr
    ⟨{ operand := .atom (.word w :: (ws ++ .lparen :: (is ++ [.rparen]))),
       items := .word w :: (ws ++ .lparen :: (is ++ [.rparen])) }, ?_, finish_atom _⟩
  have hopen : stepItem [({ operand := .atom (.word w :: ws), items := .word w :: ws } : Frame V)]
      .lparen = some [inner, { operand := .atom (.word w :: ws), items := .word w :: ws }] := rfl
  rw [run_cons, stepItem_word hw, bind_eq_bind, bind_some, run_append,
    run_atom [.word w] hws, bind_eq_bind, bind_some, singleton_append, run_cons,
    hopen, bind_eq_bind, bind_some, run_append, hg, bind_eq_bind,
    bind_some, run_cons, stepItem_close (b := .paren) rfl, hbracket, if_pos rfl, hitems]
  simp [hinner, Frame.absorb, Frame.take, items, run]

/-! ### Atoms are made of the items read -/

section Items

variable {P : Item V → Prop}

/-- What a frame has read so far consists of items with the property `P`. -/
structure Frame.Over (P : Item V → Prop) (f : Frame V) : Prop where
  terms : ∀ a ∈ termAtoms f.terms, ∀ i ∈ a, P i
  operand : ∀ e, f.operand.expr = some e → ∀ a ∈ e.atoms, ∀ i ∈ a, P i
  operandItems : ∀ i ∈ f.operand.items, P i
  items : ∀ i ∈ f.items, P i

theorem atoms_negate (n : Nat) (e : Expr (Atom V)) : (negate n e).atoms = e.atoms := by
  induction n with
  | zero => rfl
  | succ n ih => exact ih

namespace Frame.Over

/-- A frame in which no operand has begun. -/
theorem of_empty (hterms : f.terms = [[]]) (hoperand : f.operand = .empty)
    (hitems : ∀ i ∈ f.items, P i) : f.Over P := by
  refine ⟨?_, ?_, ?_, hitems⟩
  · simp [hterms, termAtoms]
  · simp [hoperand, expr]
  · simp [hoperand, Operand.items]

theorem take (h : f.Over P) (his : ∀ i ∈ is, P i) : (f.take is).Over P := by
  have hitems : ∀ i ∈ f.operand.items ++ is, P i := by
    intro i hi
    rcases mem_append.mp hi with hi | hi
    · exact h.operandItems i hi
    · exact his i hi
  refine ⟨h.terms, ?_, hitems, ?_⟩
  · intro e he a ha
    obtain rfl : Expr.atom (f.operand.items ++ is) = e := Option.some.inj he
    obtain rfl : a = f.operand.items ++ is := by simpa [Expr.atoms] using ha
    exact hitems
  · intro i hi
    rcases mem_append.mp hi with hi | hi
    · exact h.items i hi
    · exact his i hi

theorem close (h : f.Over P) (hts : f.close = some ts) : ∀ a ∈ termAtoms ts, ∀ i ∈ a, P i := by
  obtain ⟨e, he, rfl⟩ := map_eq_some_iff.mp hts
  obtain ⟨e', he', rfl⟩ := map_eq_some_iff.mp he
  intro a ha
  rw [termAtoms_andTerms, mem_append] at ha
  rcases ha with ha | ha
  · exact h.terms a ha
  · exact h.operand e' he' a (by simpa [termAtoms, atoms_negate] using ha)

theorem next (h : f.Over P) (hi : P i)
    (hts : ∀ a ∈ termAtoms ts, ∀ i ∈ a, P i) : (f.next i ts).Over P := by
  refine ⟨hts, ?_, ?_, ?_⟩
  · intro e he
    cases he
  · intro j hj
    cases hj
  · intro j hj
    rcases mem_append.mp hj with hj | hj
    · exact h.items j hj
    · rwa [mem_singleton.mp hj]

theorem step (h : f.Over P) {f' : Frame V} (hi : P i) (hstep : f.step i = some f') : f'.Over P := by
  have htake : (f.take [i]).Over P := h.take fun j hj => (mem_singleton.mp hj) ▸ hi
  unfold Frame.step at hstep
  split at hstep
  · split_ifs at hstep
    · obtain rfl := Option.some.inj hstep
      exact { htake with }
    · obtain ⟨ts, hts, rfl⟩ := map_eq_some_iff.mp hstep
      exact h.next hi (h.close hts)
  · split_ifs at hstep
    obtain ⟨ts, hts, rfl⟩ := map_eq_some_iff.mp hstep
    refine h.next hi fun a ha => h.close hts a ?_
    simpa [termAtoms] using ha
  · split at hstep
    · obtain rfl := Option.some.inj hstep
      exact ⟨h.terms, h.operand, h.operandItems, htake.items⟩
    · obtain rfl := Option.some.inj hstep
      exact htake
  · obtain rfl := Option.some.inj hstep
    exact { htake with }
  · obtain rfl := Option.some.inj hstep
    exact { htake with }
  · obtain rfl := Option.some.inj hstep
    exact htake

theorem absorb (h : f.Over P) (b : Bracket) {e : Option (Expr (Atom V))}
    (he : ∀ e', e = some e' → ∀ a ∈ e'.atoms, ∀ i ∈ a, P i) (his : ∀ i ∈ is, P i) :
    (f.absorb b e is).Over P := by
  unfold Frame.absorb
  split
  · exact ⟨h.terms, he, his, (h.take his).items⟩
  · exact h.take his

end Frame.Over

theorem forall_over_of_run (hfs : ∀ f ∈ fs, f.Over P)
    (his : ∀ i ∈ is, P i) (h : run fs is = some fs') : ∀ f ∈ fs', f.Over P := by
  induction is generalizing fs with
  | nil =>
    obtain rfl := Option.some.inj h
    exact hfs
  | cons i is ih =>
    rw [run_cons] at h
    obtain ⟨fs₁, hstep, hrun⟩ := bind_eq_some_iff.mp h
    have hi : P i := his i mem_cons_self
    refine ih ?_ (fun j hj => his j (mem_cons_of_mem _ hj)) hrun
    obtain ⟨f, fs, rfl⟩ := exists_cons_of_ne_nil (show fs ≠ [] by rintro rfl; cases hstep)
    obtain ⟨hf, hfs⟩ := forall_mem_cons.mp hfs
    cases hrole : i.role with
    | «open» b =>
      rw [stepItem_open hrole] at hstep
      obtain rfl := Option.some.inj hstep
      have hnew : ({ bracket := some b, items := [i] } : Frame V).Over P :=
        .of_empty rfl rfl fun j hj => mem_singleton.mp hj ▸ hi
      exact forall_mem_cons.mpr ⟨hnew, forall_mem_cons.mpr ⟨hf, hfs⟩⟩
    | close b =>
      cases fs with
      | nil =>
        rw [stepItem_close_nil hrole] at hstep
        cases hstep
      | cons p fs =>
        rw [stepItem_close hrole] at hstep
        split_ifs at hstep
        obtain rfl := Option.some.inj hstep
        obtain ⟨hp, hfs⟩ := forall_mem_cons.mp hfs
        refine forall_mem_cons.mpr ⟨hp.absorb b ?_ ?_, hfs⟩
        · intro e he
          obtain ⟨ts, hts, he⟩ := bind_eq_some_iff.mp he
          rw [atoms_ofTerms he]
          exact hf.close (Frame.finish_eq_some_iff.mp hts).2.2.1
        · intro j hj
          rcases mem_append.mp hj with hj | hj
          · exact hf.items j hj
          · rwa [mem_singleton.mp hj]
    | _ =>
      rw [stepItem_of_not_bracket (by rw [hrole]; rfl)] at hstep
      obtain ⟨f', hf', rfl⟩ := map_eq_some_iff.mp hstep
      exact forall_mem_cons.mpr ⟨hf.step hi hf', hfs⟩

/-- **The atoms of a condition are made of its items.** -/
theorem forall_termAtoms_of_parse (h : parse is = some ts) (his : ∀ i ∈ is, P i) :
    ∀ a ∈ termAtoms ts, ∀ i ∈ a, P i := by
  obtain ⟨f, hrun, hfinish⟩ := parse_eq_some_iff.mp h
  have hstart : ∀ f ∈ [({} : Frame V)], f.Over P := by
    intro f hf
    rw [mem_singleton.mp hf]
    exact .of_empty rfl rfl (by simp)
  exact (forall_over_of_run hstart his hrun f mem_cons_self).close
    (Frame.finish_eq_some_iff.mp hfinish).2.2.1

end Items

end Sql
