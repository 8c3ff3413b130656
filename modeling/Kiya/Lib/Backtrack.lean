import Mathlib

/-!
# Backtracking with a stack

An `Attempt` is a step of a search that either finds something or gives up, and that works on a
stack which all steps share: it pushes on it what it goes through, and has to take it off again when
it gives up. `Returns` says that it does, and what it finds: then the search can be reasoned about
as a function into `Option`, without the stack.
-/

/-- A step of a search with a stack, the last element being the top. -/
abbrev Attempt (S A : Type) := List S → Option A × List S

namespace Attempt

open List

variable {S A C : Type}

/-- Give up. -/
def fail : Attempt S A := fun stack => (none, stack)

/-- Try another one if the first gives up. -/
def orElse (f g : Attempt S A) : Attempt S A := fun stack =>
  match f stack with
  | (some a, stack) => (some a, stack)
  | (none, stack) => g stack

/-- Push an element first, and take the top of the stack off if the attempt gives up. -/
def pushing (p : S) (f : Attempt S A) : Attempt S A := fun stack =>
  match f (stack ++ [p]) with
  | (some a, stack) => (some a, stack)
  | (none, stack) => (none, stack.dropLast)

/-- Try the candidates that are accepted, one after the other. -/
def firstOf (accepts : C → Bool) (run : C → Attempt S A) : List C → Attempt S A
  | [] => fail
  | c :: cs => if accepts c then (run c).orElse (firstOf accepts run cs) else firstOf accepts run cs

/-- What an attempt comes to: with the result `some (a, ps)` it finds `a` and pushes `ps`, and
without one it gives up and leaves the stack as it was. -/
def Returns (f : Attempt S A) (r : Option (A × List S)) : Prop :=
  ∀ stack, f stack = match r with
    | some (a, ps) => (some a, stack ++ ps)
    | none => (none, stack)

variable {f g : Attempt S A} {r r₁ : Option (A × List S)}

theorem Returns.orElse (hf : Returns f r) (hg : Returns g r₁) : Returns (f.orElse g) (r.or r₁) := by
  intro stack
  rw [Attempt.orElse, hf stack]
  cases r with
  | none => exact hg stack
  | some q => rfl

theorem Returns.pushing (p : S) (hf : Returns f r) :
    Returns (f.pushing p) (r.map fun q => (q.1, p :: q.2)) := by
  intro stack
  rw [Attempt.pushing, hf]
  cases r with
  | none | some => simp

variable {accepts : C → Bool} {run : C → Attempt S A} {cs : List C}

theorem Returns.firstOf {result : C → Option (A × List S)}
    (h : ∀ c ∈ cs, accepts c = true → Returns (run c) (result c)) : Returns (firstOf accepts run cs)
      (cs.findSome? fun c => if accepts c then result c else none) := by
  induction cs with
  | nil => exact fun _ => rfl
  | cons c cs ih =>
    obtain ⟨hc, hcs⟩ := forall_mem_cons.mp h
    rw [Attempt.firstOf, findSome?_cons]
    split_ifs with haccepts
    · -- the first result of the list is that of `c`, or else that of the others
      have hor := (hc haccepts).orElse (ih hcs)
      cases hresult : result c with
      | none | some => simpa [hresult] using hor
    · exact ih hcs

/-! ### What is on the stack -/

/-- An attempt pushes only elements with a property. -/
def Keeps (P : S → Prop) (f : Attempt S A) : Prop :=
  ∀ stack, (∀ s ∈ stack, P s) → ∀ s ∈ (f stack).2, P s

variable {P : S → Prop}

theorem Keeps.orElse (hf : Keeps P f) (hg : Keeps P g) : Keeps P (f.orElse g) := by
  intro stack hstack
  have hfirst := hf stack hstack
  rw [Attempt.orElse]
  rcases hrun : f stack with ⟨_ | a, after⟩
  · rw [hrun] at hfirst
    exact hg after hfirst
  · rwa [hrun] at hfirst

theorem Keeps.pushing {p : S} (hp : P p) (hf : Keeps P f) : Keeps P (f.pushing p) := by
  intro stack hstack
  have hpushed : ∀ s ∈ stack ++ [p], P s :=
    forall_mem_append.mpr ⟨hstack, forall_mem_singleton.mpr hp⟩
  have hafter := hf _ hpushed
  rw [Attempt.pushing]
  rcases hrun : f (stack ++ [p]) with ⟨_ | a, after⟩
  · rw [hrun] at hafter
    exact fun s hs => hafter s (dropLast_subset _ hs)
  · rwa [hrun] at hafter

theorem Keeps.firstOf (h : ∀ c ∈ cs, Keeps P (run c)) : Keeps P (firstOf accepts run cs) := by
  induction cs with
  | nil => exact fun _ hstack => hstack
  | cons c cs ih =>
    obtain ⟨hc, hcs⟩ := forall_mem_cons.mp h
    rw [Attempt.firstOf]
    split_ifs
    · exact hc.orElse (ih hcs)
    · exact ih hcs

end Attempt
