import Mathlib.Data.List.Basic

/-!
# Savepoints and nested transactions

A `Session` is an open transaction of a SQL database: the state as it is now, and the savepoints
that have been set and not been dropped, the last one first. `SAVEPOINT` sets one, `RELEASE
SAVEPOINT` drops the last one of a name and those set after it, and `ROLLBACK TO SAVEPOINT` brings
back the state of the last one of a name, drops those set after it and keeps the savepoint itself.
The two dialects differ in what a second savepoint of one name does to the first.

`Work` is the reference: a tree of nested transactions, with the writes that should remain.
-/

/-- A savepoint: its name, how many were set before it in the transaction, and the state it brings
back. The number tells savepoints of one name apart. -/
structure Savepoint (σ : Type) where
  name : String
  id : Nat
  state : σ

/-- An open transaction. -/
structure Session (σ : Type) where
  state : σ
  savepoints : List (Savepoint σ) := []
  /-- The number of savepoints set so far. -/
  count : Nat := 0

/-- What setting a savepoint does to an older one of the same name. -/
inductive SameName where
  | replaces
  | hides

namespace Session

variable {σ : Type}

/-- Change the state. -/
def write (w : σ → σ) (t : Session σ) : Session σ := { t with state := w t.state }

/-- `SAVEPOINT name`. -/
def savepoint (old : SameName) (name : String) (t : Session σ) : Session σ :=
  let older := match old with
    | .replaces => t.savepoints.filter (·.name ≠ name)
    | .hides => t.savepoints
  { t with savepoints := ⟨name, t.count, t.state⟩ :: older, count := t.count + 1 }

variable (name : String) (t : Session σ)

/-- The savepoints from the last one of the name on. -/
def downTo : List (Savepoint σ) :=
  t.savepoints.dropWhile (·.name ≠ name)

/-- The savepoint that a name refers to. -/
def resolve : Option (Savepoint σ) := (t.downTo name).head?

/-- `RELEASE SAVEPOINT name`; there is no such savepoint if the result is none. -/
def release : Option (Session σ) :=
  match t.downTo name with
  | [] => none
  | _ :: older => some { t with savepoints := older }

/-- `ROLLBACK TO SAVEPOINT name`. -/
def rollbackTo : Option (Session σ) :=
  match t.downTo name with
  | [] => none
  | sp :: older => some { t with state := sp.state, savepoints := sp :: older }

/-- With a new name, the dialects do not differ. -/
theorem savepoint_of_fresh {old : SameName} {name : String} {t : Session σ}
    (h : ∀ sp ∈ t.savepoints, sp.name ≠ name) : t.savepoint old name =
      { t with savepoints := ⟨name, t.count, t.state⟩ :: t.savepoints, count := t.count + 1 } := by
  cases old with
  | hides => rfl
  | replaces =>
    have hfilter : t.savepoints.filter (·.name ≠ name) = t.savepoints :=
      List.filter_eq_self.mpr fun sp hsp => by simpa using h sp hsp
    simp only [savepoint, hfilter]

section Found

variable {t : Session σ} {later older : List (Savepoint σ)} {sp : Savepoint σ}
  (ht : t.savepoints = later ++ sp :: older) (hlater : ∀ q ∈ later, q.name ≠ sp.name)

include ht hlater

theorem downTo_of_later : t.downTo sp.name = sp :: older := by
  rw [downTo, ht, List.dropWhile_append_of_pos fun q hq => by simpa using hlater q hq]
  simp

theorem resolve_of_later : t.resolve sp.name = some sp := by
  rw [resolve, downTo_of_later ht hlater, List.head?_cons]

theorem release_of_later : t.release sp.name = some { t with savepoints := older } := by
  rw [release, downTo_of_later ht hlater]

theorem rollbackTo_of_later :
    t.rollbackTo sp.name = some { t with state := sp.state, savepoints := sp :: older } := by
  rw [rollbackTo, downTo_of_later ht hlater]

end Found

end Session

/-! ### The reference -/

/-- The work of a transaction: writes, and nested transactions, each with its own work and its
end. -/
inductive Work (ω : Type) where
  | done
  | write (w : ω) (rest : Work ω)
  | nested (work : Work ω) (commits : Bool) (rest : Work ω)

namespace Work

variable {ω : Type}

/-- The writes that remain if the transaction itself does: its own, and those that remain of the
nested transactions that committed. -/
def remaining : Work ω → List ω
  | .done => []
  | .write w rest => w :: rest.remaining
  | .nested work commits rest => (if commits then work.remaining else []) ++ rest.remaining

/-- The number of nested transactions, at any depth. -/
def size : Work ω → Nat
  | .done => 0
  | .write _ rest => rest.size
  | .nested work _ rest => work.size + 1 + rest.size

end Work
