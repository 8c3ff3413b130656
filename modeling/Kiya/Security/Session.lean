import Mathlib
import Kiya.Lib.Base64

/-!
# Sessions

`internal/security/session.go`: a session as a handler sees it, with its values and the flag that it
has to be saved. The session itself is one of the `sessions` package: an identifier, a map of values
and the age of the cookie. The keys are strings, as `Set` takes them.

What a value of the type `any` is stays open, apart from nil, the strings among the values and what
`%v` prints for each. Random bytes are inputs.
-/

namespace Kiya.Security

/-- The values of the type `any` other than nil. -/
class GoAny (V : Type) where
  /-- A string as such a value. -/
  str : Bytes → V
  /-- What `%v` prints. -/
  sprint : V → Bytes
  sprint_str : ∀ s, sprint (str s) = s

instance : GoAny Bytes := ⟨id, id, fun _ => rfl⟩

/-- `Session.Values`; none is nil. -/
abbrev Values (V : Type) := AList fun _ : Bytes => Option V

/-- `sessions.Session`, with the `MaxAge` of its options. -/
structure RawSession (V : Type) where
  id : Bytes
  values : Values V
  maxAge : ℤ
  isNew : Bool

/-- `Session`. -/
structure Session (V : Type) where
  raw : RawSession V
  dirty : Bool

variable {V : Type}

/-- `NewSession`. -/
def newSession (raw : RawSession V) : Session V := ⟨raw, false⟩

/-- The key of the token that every session has. -/
def tKey : Bytes := utf8 "_t"

variable (s : Session V) (key : Bytes)

/-- The key of a flash message. -/
def flashKey : Bytes := utf8 "_flash_" ++ key

namespace Session

variable (s : Session V) (key : Bytes)

/-- `Get`. -/
def get : Option V := (s.raw.values.lookup key).join

/-- `Set`. -/
def set (val : Option V) : Session V :=
  ⟨{ s.raw with values := s.raw.values.insert key val }, true⟩

/-- `Delete`. -/
def delete : Session V :=
  ⟨{ s.raw with values := s.raw.values.erase key }, true⟩

/-- `Clear`. -/
def clear : Session V := ⟨{ s.raw with values := ∅ }, true⟩

/-- `Destroy`. -/
def destroy : Session V := ⟨{ s.raw with values := ∅, maxAge := -1 }, true⟩

/-- `RegenerateID`, with the random bytes that it draws. -/
def regenerateID (draw : List.Vector UInt8 32) : Session V :=
  ⟨{ s.raw with id := Hex.encode draw.toList }, true⟩

/-- `SetMaxAge`. -/
def setMaxAge (age : ℤ) : Session V := ⟨{ s.raw with maxAge := age }, true⟩

/-- `Flash`. -/
def flash (val : Option V) : Session V := s.set (flashKey key) val

/-- `GetFlash`: the message and the session without it. -/
def getFlash (s : Session V) (key : Bytes) : Option V × Session V :=
  match s.raw.values.lookup (flashKey key) with
  | none => (none, s)
  | some val => (val, s.delete (flashKey key))

end Session

/-- What a handler does to its session. -/
inductive Op (V : Type)
  | set (key : Bytes) (val : Option V)
  | delete (key : Bytes)
  | clear
  | destroy
  | regenerateID
  | setMaxAge (age : ℤ)
  | flash (key : Bytes) (val : Option V)
  | getFlash (key : Bytes)

/-- One call of a handler, with the random bytes for it. -/
def Session.apply (s : Session V) (draw : List.Vector UInt8 32) : Op V → Session V
  | .set key val => s.set key val
  | .delete key => s.delete key
  | .clear => s.clear
  | .destroy => s.destroy
  | .regenerateID => s.regenerateID draw
  | .setMaxAge age => s.setMaxAge age
  | .flash key val => s.flash key val
  | .getFlash key => (s.getFlash key).2

/-- The calls of a handler, with random bytes for each. -/
def Session.applyAll (s : Session V) : List (Op V) → (ℕ → List.Vector UInt8 32) → Session V
  | [], _ => s
  | op :: ops, draws => (s.apply (draws 0) op).applyAll ops fun n => draws (n + 1)

/-! ### What the calls leave alone -/

theorem flashKey_ne : flashKey key ≠ tKey := by
  intro h
  have hsecond := congrArg (fun s : Bytes => s[1]?) h
  exact absurd hsecond (by rw [flashKey]; exact (by decide : ¬ (some (102 : UInt8) = some 116)))

theorem Session.get_set_self (val : Option V) : (s.set key val).get key = val := by
  rw [Session.get, Session.set, AList.lookup_insert]
  rfl

theorem Session.get_set_of_ne {key other : Bytes} (val : Option V) (h : other ≠ key) :
    (s.set key val).get other = s.get other := by
  rw [Session.get, Session.set, AList.lookup_insert_ne h]
  rfl

theorem Session.get_delete_of_ne {key other : Bytes} (h : other ≠ key) :
    (s.delete key).get other = s.get other := by
  rw [Session.get, Session.delete, AList.lookup_erase_ne h]
  rfl

variable {s : Session V}

/-- Only one call changes the ID. -/
theorem Session.id_apply {draw : List.Vector UInt8 32} {op : Op V}
    (h : op ≠ .regenerateID) : (s.apply draw op).raw.id = s.raw.id := by
  cases op with
  | regenerateID => exact absurd rfl h
  | getFlash key =>
    rw [Session.apply, Session.getFlash]
    split
    · rfl
    · rfl
  | _ => rfl

theorem Session.id_applyAll_of_notMem {ops : List (Op V)}
    {draws : ℕ → List.Vector UInt8 32} (h : .regenerateID ∉ ops) :
    (s.applyAll ops draws).raw.id = s.raw.id := by
  induction ops generalizing s draws with
  | nil => rfl
  | cons op ops ih =>
    rw [List.mem_cons, not_or] at h
    rw [Session.applyAll, ih h.2, Session.id_apply (Ne.symm h.1)]

/-- The last draw counts. -/
theorem Session.id_applyAll_of_mem {ops : List (Op V)}
    {draws : ℕ → List.Vector UInt8 32} (h : .regenerateID ∈ ops) :
    ∃ n, (s.applyAll ops draws).raw.id = Hex.encode (draws n).toList := by
  induction ops generalizing s draws with
  | nil => cases h
  | cons op ops ih =>
    by_cases hops : .regenerateID ∈ ops
    · obtain ⟨n, hn⟩ := @ih (s.apply (draws 0) op) (fun n => draws (n + 1)) hops
      exact ⟨n + 1, hn⟩
    · refine ⟨0, ?_⟩
      rw [Session.applyAll, Session.id_applyAll_of_notMem hops]
      rcases List.mem_cons.mp h with rfl | hmem
      · rfl
      · exact absurd hmem hops

end Kiya.Security
