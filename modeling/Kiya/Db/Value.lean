import Kiya.Lib.Json

/-!
# Go values, and values in the database

The values that pass between a model struct, the query builder and the database. `Value` is a
Go value as `reflect` sees it; `DbVal` is what a column holds, and `DriverVal` what a driver
hands out for it. `Value.store` is the way in, `setFieldValue` the way out, and the two are not
inverse to each other: a `NULL` leaves the field as it is, and a time comes back in the driver's
location.

Strings are either arbitrary texts or JSON texts. A JSON text is given by its tree and by the
number of its spelling, `0` being the one `json.Marshal` writes, so that decoding and encoding
are functions on trees while equality is still that of the texts.
-/

namespace Kiya

open List Option

/-- A Go string. -/
inductive GoString where
  | text (s : String)
  | json (j : Json) (spelling : Nat)
  deriving DecidableEq, Repr

/-- A `float64`, or a `float32`. It has no fraction, or else it is an odd number divided by a power
of two: `frac half exp` is `(2 * half + 1) / 2 ^ (exp + 1)`. -/
inductive GoFloat where
  | nan
  | inf (negative : Bool)
  | int (n : Int)
  | frac (half : Int) (exp : Nat)
  deriving DecidableEq, Repr

/-- A `time.Time`: its instant, its offset from UTC, and the rest that `reflect.DeepEqual`
compares. -/
structure GoTime where
  instant : Int
  offset : Int := 0
  loc : Nat := 0
  deriving DecidableEq, Repr

/-- A value of a type with no rules of its own: its identity, its encoding if `json.Marshal`
accepts it, and whether it is a zero value. -/
structure Other where
  id : Nat
  encoding : Option Json
  zero : Bool
  deriving DecidableEq, Repr

/-- A Go value. -/
inductive Value where
  | nil
  | int (n : Int)
  | uint (n : Nat)
  | float (x : GoFloat)
  | bool (b : Bool)
  | str (s : GoString)
  | time (t : GoTime)
  | nilPtr
  | ptr (v : Value)
  | other (o : Other)
  deriving DecidableEq, Repr

/-- A value stored in a column. -/
inductive DbVal where
  | null
  | int (n : Int)
  | uint (n : Nat)
  | float (x : GoFloat)
  | bool (b : Bool)
  | str (s : GoString)
  | time (instant : Int)
  | other (o : Other)
  deriving DecidableEq, Repr

/-- A value of a column as the driver delivers it; `other` is one that can be converted to the type
of a field with no rules of its own, and what it becomes. -/
inductive DriverVal where
  | null
  | int (n : Int)
  | uint (n : Nat)
  | float (x : GoFloat)
  | bool (b : Bool)
  | str (s : GoString)
  | bytes (s : GoString)
  | time (t : GoTime)
  | other (o : Other)
  deriving DecidableEq, Repr

/-- The instant of the zero `time.Time`. -/
def zeroInstant : Int := -62135596800

namespace Value

/-- `isZero` on the value of a field. -/
def isZero : Value → Bool
  | .nil => true
  | .int n => n = 0
  | .uint n => n = 0
  | .float x => x = .int 0
  | .bool b => !b
  | .str s => s = .text ""
  | .time t => t.instant = zeroInstant
  | .nilPtr => true
  | .ptr _ => false
  | .other o => o.zero

/-- Does the value hold a NaN, which is unequal to itself? -/
def hasNaN : Value → Bool
  | .float .nan => true
  | .ptr v => v.hasNaN
  | _ => false

/-- `reflect.DeepEqual`. -/
def deepEqual (v w : Value) : Bool := v = w && !v.hasNaN

/-- `json.Marshal`; `none` is an error. -/
def marshal : Value → Option Json
  | .nil => some .null
  | .int n => some (.int n)
  | .uint n => some (.int n)
  | .float (.int n) => some (.int (throughFloat n))
  | .float (.frac half exp) => some (.frac half exp)
  | .float .nan => none
  | .float (.inf _) => none
  | .bool b => some (.bool b)
  | .str (.text s) => some (.str s)
  | .str (.json j spelling) => some (.quoted j spelling)
  | .time t => some (.time t.instant t.offset)
  | .nilPtr => some .null
  | .ptr v => v.marshal
  | .other o => o.encoding

/-- The value a column has after it was assigned a Go value. -/
def store : Value → DbVal
  | .nil => .null
  | .int n => .int n
  | .uint n => .uint n
  | .float x => .float x
  | .bool b => .bool b
  | .str s => .str s
  | .time t => .time t.instant
  | .nilPtr => .null
  | .ptr v => v.store
  | .other o => .other o

end Value

/-! ### Kinds of fields -/

/-- The kind of a struct field; a field that cannot be set has one that says so. -/
inductive Kind where
  | string
  | int (bits : Nat)
  | uint (bits : Nat)
  | float
  | float32
  | bool
  | time
  | ptr (k : Kind)
  | fixed (k : Kind)
  | other
  deriving DecidableEq, Repr

/-- The zero value of a kind. -/
def Kind.zero : Kind → Value
  | .string => .str (.text "")
  | .int _ => .int 0
  | .uint _ => .uint 0
  | .float => .float (.int 0)
  | .float32 => .float (.int 0)
  | .bool => .bool false
  | .time => .time { instant := zeroInstant }
  | .ptr _ => .nilPtr
  | .fixed k => k.zero
  | .other => .other { id := 0, encoding := some .null, zero := true }

/-- An integer cut to a signed integer of the given width. -/
def wrapInt (bits : Nat) (n : Int) : Int :=
  let m := n % 2 ^ bits
  if m < 2 ^ (bits - 1) then m else m - 2 ^ bits

/-- An integer cut to an unsigned integer of the given width. -/
def wrapUint (bits : Nat) (n : Int) : Nat := (n % 2 ^ bits).toNat

namespace GoFloat

/-- A number without its fraction. -/
def whole : GoFloat → Option Int
  | .int n => some n
  | .frac half exp => some ((2 * half + 1).tdiv (2 ^ (exp + 1)))
  | .nan => none
  | .inf _ => none

/-- `int64(x)`: what has no 64-bit integer becomes the smallest one, as on `amd64`. -/
def truncate (x : GoFloat) : Int :=
  (x.whole.filter fun n => -2 ^ 63 ≤ n ∧ n < 2 ^ 63).getD (-2 ^ 63)

/-- `uint64(x)`, before it is cut to 64 bits. -/
def truncateUint (x : GoFloat) : Int :=
  (x.whole.filter fun n => -2 ^ 63 ≤ n ∧ n < 2 ^ 64).getD (2 ^ 63)

/-- A number with its last bits rounded away, to the nearest and from the middle to the even one. -/
def roundBits (s a : Nat) : Nat :=
  let q := a / 2 ^ s
  let r := 2 * (a % 2 ^ s)
  (if 2 ^ s < r ∨ (r = 2 ^ s ∧ q % 2 = 1) then q + 1 else q) * 2 ^ s

/-- The float `a / 2 ^ k`, in lowest terms, with the sign. -/
def ofDyadic (negative : Bool) (a : Nat) : Nat → GoFloat
  | 0 => .int (if negative then -a else a)
  | k + 1 =>
    if a % 2 = 0 then ofDyadic negative (a / 2) k
    else .frac ((if negative then -a - 1 else a - 1 : Int) / 2) k

/-- `float32(x)`, for `x = ± a / 2 ^ k`: 24 bits are kept, and none below `2 ^ (-149)`. -/
def narrow (negative : Bool) (a k : Nat) : GoFloat :=
  let b := roundBits (max (a.log2 + 1 - 24) (k - 149)) a
  if 2 ^ (128 + k) ≤ b then .inf negative else ofDyadic negative b k

/-- `float32(x)`. -/
def toFloat32 : GoFloat → GoFloat
  | .int n => narrow (n < 0) n.natAbs 0
  | .frac half exp => narrow (half < 0) (2 * half + 1).natAbs (exp + 1)
  | x => x

end GoFloat

/-- `setFieldValue`: the field after a value of the driver was put into it. A combination the
code has no rule for leaves the field as it is. -/
def setFieldValue : Kind → Value → DriverVal → Value
  | _, current, .null => current
  | .string, _, .bytes s => .str s
  | .string, _, .str s => .str s
  | .int bits, _, .int n => .int (wrapInt bits n)
  | .int bits, _, .uint n => .int (wrapInt bits (wrapInt 64 n))
  | .int bits, _, .float x => .int (wrapInt bits x.truncate)
  | .uint bits, _, .uint n => .uint (wrapUint bits n)
  | .uint bits, _, .int n => .uint (wrapUint bits n)
  | .uint bits, _, .float x => .uint (wrapUint bits x.truncateUint)
  | .float, _, .float x => .float x
  | .float32, _, .float x => .float x.toFloat32
  | .bool, _, .int n => .bool (n ≠ 0)
  | .bool, _, .bool b => .bool b
  | .time, _, .time t => .time t
  | .ptr k, _, v => .ptr (setFieldValue k k.zero v)
  | .other, _, .other o => .other o
  | _, current, _ => current

/-! ### Maps -/

/-- A Go map with string keys, as the list of its entries; each key occurs once. -/
abbrev GoMap (α : Type) := List (String × α)

namespace GoMap

variable {α : Type}

/-- `m[k]`, with `none` for a missing key. -/
def get (m : GoMap α) (k : String) : Option α := m.lookup k

/-- `m[k] = v`. -/
def set (m : GoMap α) (k : String) (v : α) : GoMap α := m.filter (·.1 ≠ k) ++ [(k, v)]

/-- The keys, in increasing order. -/
def sortedKeys (m : GoMap α) : List String :=
  (m.map Prod.fst).insertionSort fun s t => s.toList ≤ t.toList

variable {m : GoMap α} {k : String} {v : α}

theorem mem_of_get (h : m.get k = some v) : (k, v) ∈ m := by
  obtain ⟨l₁, l₂, rfl, -⟩ := lookup_eq_some_iff.mp h
  simp

@[simp] theorem get_cons_self (k : String) (v : α) (m : GoMap α) :
    get ((k, v) :: m) k = some v := by
  simp [get]

theorem get_cons_of_ne {k c : String} (h : k ≠ c) (v : α) (m : GoMap α) :
    get ((c, v) :: m) k = m.get k := by
  have hbeq : (k == c) = false := by simpa using h
  simp [get, List.lookup, hbeq]

theorem get_eq_none (h : k ∉ m.map Prod.fst) : m.get k = none := by
  induction m with
  | nil => rfl
  | cons q m ih =>
    obtain ⟨c, v⟩ := q
    obtain ⟨hne, hm⟩ := ne_and_not_mem_of_not_mem_cons h
    rw [get_cons_of_ne hne]
    exact ih hm

theorem exists_get (h : k ∈ m.map Prod.fst) : ∃ v, m.get k = some v := by
  induction m with
  | nil => cases h
  | cons q m ih =>
    obtain ⟨c, v⟩ := q
    by_cases hk : k = c
    · subst hk
      exact ⟨v, get_cons_self k v m⟩
    · rw [get_cons_of_ne hk]
      exact ih (mem_of_ne_of_mem hk h)

theorem get_append (m m' : GoMap α) (k : String) :
    get (m ++ m') k = (m.get k).or (m'.get k) := lookup_append

theorem get_filter (hm : (m.map Prod.fst).Nodup) (p : String × α → Bool)
    (k : String) : get (m.filter p) k = (m.get k).filter fun v => p (k, v) := by
  induction m with
  | nil => rfl
  | cons q m ih =>
    obtain ⟨c, v⟩ := q
    obtain ⟨hc, hm⟩ := nodup_cons.mp hm
    by_cases hk : k = c
    · subst hk
      have hnone : get (m.filter p) k = none :=
        get_eq_none fun h => hc ((filter_sublist.map Prod.fst).subset h)
      rw [filter_cons, get_cons_self, filter_some]
      split_ifs
      · exact get_cons_self k v _
      · exact hnone
    · rw [filter_cons, get_cons_of_ne hk, ← ih hm]
      split_ifs
      · exact get_cons_of_ne hk v _
      · rfl

theorem get_set_self (m : GoMap α) (k : String) (v : α) : (m.set k v).get k = some v := by
  have hnone : get (m.filter (·.1 ≠ k)) k = none := by
    refine get_eq_none fun h => ?_
    obtain ⟨p, hp, rfl⟩ := List.mem_map.mp h
    simpa using (mem_filter.mp hp).2
  rw [set, get_append, hnone, none_or]
  exact get_cons_self k v []

theorem get_set_of_ne (m : GoMap α) {k c : String} (h : c ≠ k) (v : α) :
    (m.set k v).get c = m.get c := by
  have hfilter : get (m.filter (·.1 ≠ k)) c = m.get c := by
    induction m with
    | nil => rfl
    | cons q m ih =>
      obtain ⟨d, w⟩ := q
      rw [filter_cons]
      by_cases hc : c = d
      · subst hc
        rw [if_pos (by simpa using h), get_cons_self, get_cons_self]
      · rw [get_cons_of_ne hc, ← ih]
        split_ifs
        · exact get_cons_of_ne hc w _
        · rfl
  rw [set, get_append, hfilter, get_cons_of_ne h]
  exact or_none

theorem nodup_set (hm : (m.map Prod.fst).Nodup) (k : String) (v : α) :
    ((m.set k v).map Prod.fst).Nodup := by
  rw [set, map_append, nodup_append]
  refine ⟨hm.sublist (filter_sublist.map Prod.fst), by simp, ?_⟩
  intro a ha b hb
  obtain ⟨p, hp, rfl⟩ := List.mem_map.mp ha
  have hne := (mem_filter.mp hp).2
  simp_all

theorem get_map_mk {l : List String} (hk : k ∈ l) (f : String → α) :
    get (l.map fun c => (c, f c)) k = some (f k) := by
  induction l with
  | nil => cases hk
  | cons c l ih =>
    rw [map_cons]
    by_cases hc : k = c
    · subst hc
      exact get_cons_self k (f k) _
    · rw [get_cons_of_ne hc]
      exact ih (mem_of_ne_of_mem hc hk)

/-! A map that is filled from a list, with one key for each element. -/

section Fill

variable {β : Type} {key : β → String} {val : β → Option α}

/-- Put the value of an element into a map, if it has one. -/
def put (key : β → String) (val : β → Option α) (m : GoMap α) (x : β) : GoMap α :=
  match val x with
  | none => m
  | some v => m.set (key x) v

variable {l : List β}

theorem nodup_foldl_put (hm : (m.map Prod.fst).Nodup) :
    ((l.foldl (put key val) m).map Prod.fst).Nodup := by
  induction l generalizing m with
  | nil => exact hm
  | cons x l ih =>
    refine ih ?_
    unfold put
    split
    · exact hm
    · exact nodup_set hm _ _

variable {x : β}

theorem get_put_of_ne (h : key x ≠ k) : (put key val m x).get k = m.get k := by
  unfold put
  split
  · rfl
  · exact get_set_of_ne m h.symm _

theorem get_foldl_put_of_notMem (hk : k ∉ l.map key) :
    (l.foldl (put key val) m).get k = m.get k := by
  induction l generalizing m with
  | nil => rfl
  | cons x l ih =>
    have hx : key x ≠ k := fun h => hk (by simp [h])
    have hl : k ∉ l.map key := fun h => hk (mem_cons_of_mem _ h)
    exact (ih hl).trans (get_put_of_ne hx)

theorem get_foldl_put (hl : (l.map key).Nodup) (hx : x ∈ l) (hm : m.get (key x) = none) :
    (l.foldl (put key val) m).get (key x) = val x := by
  induction l generalizing m with
  | nil => cases hx
  | cons y l ih =>
    obtain ⟨hy, hl⟩ := nodup_cons.mp hl
    rw [foldl_cons]
    rcases mem_cons.mp hx with rfl | hx
    · rw [get_foldl_put_of_notMem hy, put]
      cases hval : val x with
      | none => exact hm
      | some v => exact get_set_self m _ v
    · have hne : key y ≠ key x := fun h => hy (h ▸ List.mem_map_of_mem hx)
      exact ih hl hx ((get_put_of_ne hne).trans hm)

/-- If several elements have the same key, the last one that has a value counts. -/
theorem get_foldl_put_eq (l : List β) (m : GoMap α) (k : String) : (l.foldl (put key val) m).get k =
      ((l.reverse.find? fun x => key x = k && (val x).isSome).bind val).or (m.get k) := by
  induction l using List.reverseRecOn with
  | nil => simp
  | append_singleton l x ih =>
    rw [foldl_append, foldl_cons, foldl_nil, reverse_append,
      reverse_singleton, singleton_append, find?_cons]
    by_cases hx : key x = k
    · cases hval : val x with
      | none => simpa [put, hval] using ih
      | some v =>
        rw [put, hval, hx]
        simpa [hval] using get_set_self _ k v
    · rw [get_put_of_ne hx]
      simpa [hx] using ih

end Fill

theorem mem_sortedKeys : k ∈ m.sortedKeys ↔ k ∈ m.map Prod.fst := by
  rw [sortedKeys]
  exact (perm_insertionSort _ _).mem_iff

theorem mem_sortedKeys_of_get (h : m.get k = some v) : k ∈ m.sortedKeys :=
  mem_sortedKeys.mpr (List.mem_map_of_mem (mem_of_get h))

end GoMap

end Kiya
