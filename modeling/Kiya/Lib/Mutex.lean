import Mathlib.Control.Monad.Basic

/-!
# Computations over a state guarded by a mutex

A `Guarded σ` is a value together with a **non-reentrant** mutex; a `GuardedM σ α` is a
computation of one thread over it. The result `none` stands for a computation that never
returns: the only primitive that can produce it is `lock` on a mutex that is already held,
since no other thread exists that could release it.

`withLock m` is the pattern "lock, defer unlock, then `m`". Its two run equations are the
whole interface: it blocks on a held mutex (`run_withLock_of_held`), and on a free one it
runs `m` with the mutex held and gives it back (`run_withLock_of_free`). The predicates
`ReturnsFree` and `AllReturnFree` say that one computation, or each computation of a list
run in sequence, returns with the mutex free.
-/

/-- A value of type `σ` together with the state of the mutex that guards it. -/
structure Guarded (σ : Type) where
  /-- Is the mutex held? -/
  held : Bool
  /-- The guarded value. -/
  val : σ

/-- Computations of one thread over a guarded value; `none` is "blocked forever". -/
abbrev GuardedM (σ α : Type) := StateT (Guarded σ) Option α

namespace GuardedM

variable {σ α β : Type}

/-- Acquire the mutex; on a held mutex this never returns. -/
def lock : GuardedM σ Unit := fun s =>
  if s.held then none else some ((), { s with held := true })

/-- Release the mutex. -/
def unlock : GuardedM σ Unit := fun s => some ((), { s with held := false })

/-- Read the guarded value. -/
def read : GuardedM σ σ := fun s => some (s.val, s)

/-- Change the guarded value, leaving the mutex as it is. -/
def update (f : σ → σ) : GuardedM σ Unit := fun s => some ((), { s with val := f s.val })

variable (m : GuardedM σ α) (v : σ)

/-- Lock, run `m`, and release the mutex when `m` has returned. -/
def withLock : GuardedM σ α := do
  lock
  let a ← m
  unlock
  return a

@[simp] theorem run_read (s : Guarded σ) : (read : GuardedM σ σ).run s = some (s.val, s) := rfl

@[simp] theorem run_update (f : σ → σ) (s : Guarded σ) :
    (update f).run s = some ((), ⟨s.held, f s.val⟩) := rfl

/-- A held mutex blocks. -/
@[simp] theorem run_withLock_of_held : (withLock m).run ⟨true, v⟩ = none := rfl

/-- On a free mutex, `withLock m` is `m` run with the mutex held and released afterwards. -/
theorem run_withLock_of_free : (withLock m).run ⟨false, v⟩ =
      (m.run ⟨true, v⟩).map fun r => (r.1, ⟨false, r.2.val⟩) := by
  change ((m.run ⟨true, v⟩).bind fun r => some (r.1, (⟨false, r.2.val⟩ : Guarded σ))) = _
  cases m.run ⟨true, v⟩ <;> rfl

/-- The computation returns with the mutex free, taking the value `v` to `v'`. -/
def ReturnsFree (v' : σ) : Prop :=
  ∃ a, m.run ⟨false, v⟩ = some (a, ⟨false, v'⟩)

/-- Run in sequence from `v`, each computation of the list returns with the mutex free. -/
def AllReturnFree : List (GuardedM σ Unit) → σ → Prop
  | [], _ => True
  | m :: ms, v => ∃ v', ReturnsFree m v v' ∧ AllReturnFree ms v'

/-- Run the computations of a list in sequence. -/
def seq : List (GuardedM σ Unit) → GuardedM σ Unit
  | [] => pure ()
  | m :: ms => do m; seq ms

@[simp] theorem run_seq_nil (s : Guarded σ) :
    (seq ([] : List (GuardedM σ Unit))).run s = some ((), s) := rfl

theorem run_seq_cons (m : GuardedM σ Unit) (ms : List (GuardedM σ Unit)) (s : Guarded σ) :
    (seq (m :: ms)).run s = (m.run s).bind fun r => (seq ms).run r.2 := rfl

variable {m : GuardedM σ Unit} {ms : List (GuardedM σ Unit)}

/-- A first computation that returns free hands over to the rest. -/
theorem run_seq_cons_of_returnsFree {v v' : σ} (h : ReturnsFree m v v') :
    (seq (m :: ms)).run ⟨false, v⟩ = (seq ms).run ⟨false, v'⟩ := by
  obtain ⟨a, ha⟩ := h
  rw [run_seq_cons, ha]
  rfl

/-- A list whose first computation blocks does not all return. -/
theorem not_allReturnFree_cons_of_none {v : σ} (h : m.run ⟨false, v⟩ = none) :
    ¬ AllReturnFree (m :: ms) v := by
  rintro ⟨v', ⟨a, ha⟩, -⟩
  rw [h] at ha
  exact absurd ha (by simp)

/-! ### What a computation can do to the guarded value

`Relates R m` says that `R` holds between the guarded value before and after `m`, whenever
`m` returns. For a reflexive and transitive `R` it is closed under the operations that build
computations. -/

/-- Every returning run of `m` takes the guarded value to an `R`-related one. -/
def Relates (R : σ → σ → Prop) (m : GuardedM σ α) : Prop :=
  ∀ s a s', m.run s = some (a, s') → R s.val s'.val

namespace Relates

variable {R : σ → σ → Prop}

protected theorem pure [Std.Refl R] (a : α) : Relates R (pure a : GuardedM σ α) := by
  intro s a' s' h
  obtain ⟨-, rfl⟩ : a = a' ∧ s = s' := by simpa using h
  exact Std.Refl.refl _

protected theorem read [Std.Refl R] : Relates R (read : GuardedM σ σ) := by
  intro s a' s' h
  obtain ⟨-, rfl⟩ : s.val = a' ∧ s = s' := by simpa using h
  exact Std.Refl.refl _

protected theorem update {f : σ → σ} (h : ∀ v, R v (f v)) : Relates R (update f) := by
  intro s a s' hs
  obtain rfl : (⟨s.held, f s.val⟩ : Guarded σ) = s' := by simpa using hs
  exact h s.val

protected theorem bind [IsTrans σ R] {m : GuardedM σ α} {f : α → GuardedM σ β}
    (hm : Relates R m) (hf : ∀ a, Relates R (f a)) : Relates R (m >>= f) := by
  intro s b s' h
  rw [StateT.run_bind] at h
  cases hr : m.run s with
  | none => simp [hr] at h
  | some r =>
    rw [hr] at h
    exact IsTrans.trans _ _ _ (hm s r.1 r.2 hr) (hf r.1 r.2 b s' h)

protected theorem withLock {m : GuardedM σ α} (hm : Relates R m) : Relates R (withLock m) := by
  rintro ⟨held, v⟩ a s' h
  cases held with
  | true => simp at h
  | false =>
    rw [run_withLock_of_free] at h
    obtain ⟨r, hr, hs⟩ := Option.map_eq_some_iff.mp h
    obtain ⟨-, rfl⟩ : r.1 = a ∧ (⟨false, r.2.val⟩ : Guarded σ) = s' := by simpa using hs
    exact hm ⟨true, v⟩ r.1 r.2 hr

variable {c : Prop}

protected theorem ite [Decidable c] {m m' : GuardedM σ α} (hm : Relates R m)
    (hm' : Relates R m') : Relates R (if c then m else m') := by
  split
  · exact hm
  · exact hm'

/-- The rule for a statement that is run only under a condition. -/
protected theorem when [IsTrans σ R] [Decidable c] {k : GuardedM σ α} (hm : Relates R m)
    (hk : Relates R k) : Relates R (if c then m >>= fun _ => k else k) :=
  .ite (hm.bind fun _ => hk) hk

protected theorem seq [Std.Refl R] [IsTrans σ R] (h : ∀ m ∈ ms, Relates R m) :
    Relates R (seq ms) := by
  induction ms with
  | nil => exact Relates.pure ()
  | cons m ms ih =>
    exact (h m List.mem_cons_self).bind fun _ => ih fun m' hm' => h m' (List.mem_cons_of_mem _ hm')

end Relates

end GuardedM
