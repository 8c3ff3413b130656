import Kiya.Db.Operations

/-!
# Rows put into structs

`scanMapToStruct` puts the values that the driver delivers into the fields of a struct, and reports
no error whatever it does to them. `setFieldValue` goes by the kind of the field: it converts some
kinds of values, where a narrow field keeps the lower bits of a number, and for the others it does
nothing, so that the field keeps what it held. `Holds` says that a field holds the value of a
column, and `Carried` when this is so after the scan.
-/

namespace Kiya

open Struct GoFloat Builder

/-! ### Floats of 32 bits -/

variable {x : GoFloat}

namespace GoFloat

/-- The number is one of the floats of 32 bits: it has 24 bits, apart from zeros at the end, and is
neither too large nor too fine. -/
def IsFloat32 : GoFloat → Prop
  | .nan => True
  | .inf _ => True
  | .int n => (∃ m k, n.natAbs = m * 2 ^ k ∧ m < 2 ^ 24) ∧ n.natAbs < 2 ^ 128
  | .frac half exp => (2 * half + 1).natAbs < 2 ^ 24 ∧ exp + 1 ≤ 149

theorem roundBits_eq_self_iff {s a : ℕ} : roundBits s a = a ↔ 2 ^ s ∣ a := by
  constructor
  · intro h
    exact ⟨_, h.symm.trans (mul_comm _ _)⟩
  · intro h
    have hpos := Nat.two_pow_pos s
    rw [roundBits, Nat.mod_eq_zero_of_dvd h, mul_zero, if_neg (by omega), Nat.div_mul_cancel h]

variable {half : ℤ}

theorem exp_lt_of_ofDyadic {negative : Bool} {a k : ℕ} {exp : ℕ}
    (h : ofDyadic negative a k = .frac half exp) : exp < k := by
  induction k generalizing a with
  | zero => cases h
  | succ k ih =>
    rw [ofDyadic] at h
    by_cases heven : a % 2 = 0
    · rw [if_pos heven] at h
      exact (ih h).trans (Nat.lt_succ_self k)
    · rw [if_neg heven] at h
      injection h with _ hexp
      exact hexp ▸ Nat.lt_succ_self k

/-- A number with an odd numerator has its fraction back if the numerator is the same. -/
theorem ofDyadic_eq_frac_iff {exp b : ℕ} :
    ofDyadic (half < 0) b (exp + 1) = .frac half exp ↔ b = (2 * half + 1).natAbs := by
  rw [ofDyadic]
  constructor
  · intro h
    by_cases heven : b % 2 = 0
    · rw [if_pos heven] at h
      exact absurd (exp_lt_of_ofDyadic h) (lt_irrefl _)
    · rw [if_neg heven] at h
      injection h with hhalf
      by_cases hneg : half < 0
      · rw [if_pos (decide_eq_true hneg)] at hhalf
        omega
      · rw [if_neg (by simpa using hneg)] at hhalf
        omega
  · rintro rfl
    rw [if_neg (by omega)]
    by_cases hneg : half < 0
    · rw [if_pos (decide_eq_true hneg)]
      exact congrArg (frac · exp) (by omega)
    · rw [if_neg (by simpa using hneg)]
      exact congrArg (frac · exp) (by omega)

/-- **Numbers that fit.** A float keeps its value if it is one of the narrow ones. -/
theorem toFloat32_eq_self_iff : x.toFloat32 = x ↔ x.IsFloat32 := by
  cases x with
  | nan | inf => exact iff_of_true rfl trivial
  | int n =>
    rw [toFloat32, narrow, IsFloat32, ← two_pow_dvd_iff, ← roundBits_eq_self_iff,
      Nat.zero_sub, Nat.max_zero, add_zero]
    generalize roundBits (n.natAbs.log2 + 1 - 24) n.natAbs = b
    constructor
    · intro h
      by_cases hlarge : 2 ^ 128 ≤ b
      · rw [if_pos hlarge] at h
        cases h
      · rw [if_neg hlarge] at h
        injection h with hn
        have hb : b = n.natAbs := by
          by_cases hneg : n < 0
          · rw [if_pos (decide_eq_true hneg)] at hn
            omega
          · rw [if_neg (by simpa using hneg)] at hn
            omega
        exact ⟨hb, hb ▸ not_le.mp hlarge⟩
    · rintro ⟨rfl, hlt⟩
      rw [if_neg (not_le.mpr hlt), ofDyadic]
      by_cases hneg : n < 0
      · rw [if_pos (decide_eq_true hneg)]
        exact congrArg int (by omega)
      · rw [if_neg (by simpa using hneg)]
        exact congrArg int (by omega)
  | frac half exp =>
    have hne : (2 * half + 1).natAbs ≠ 0 := by omega
    have hdvd (s : ℕ) : 2 ^ s ∣ (2 * half + 1).natAbs ↔ s = 0 := by
      constructor
      · intro h
        by_contra hs
        have htwo : 2 ∣ (2 * half + 1).natAbs := (dvd_pow_self 2 hs).trans h
        omega
      · rintro rfl
        exact one_dvd _
    rw [toFloat32, narrow, IsFloat32]
    constructor
    · intro h
      by_cases hlarge : 2 ^ (128 + (exp + 1)) ≤ roundBits (max ((2 * half + 1).natAbs.log2 + 1 - 24)
          (exp + 1 - 149)) (2 * half + 1).natAbs
      · rw [if_pos hlarge] at h
        cases h
      · rw [if_neg hlarge, ofDyadic_eq_frac_iff, roundBits_eq_self_iff, hdvd] at h
        refine ⟨(Nat.log2_lt hne).mp ?_, ?_⟩
        · omega
        · omega
    · rintro ⟨hlt, hexp⟩
      have hlog := (Nat.log2_lt hne).mpr hlt
      have hround : roundBits (max ((2 * half + 1).natAbs.log2 + 1 - 24) (exp + 1 - 149))
          (2 * half + 1).natAbs = (2 * half + 1).natAbs := by
        rw [roundBits_eq_self_iff, hdvd]
        omega
      have hsmall : (2 * half + 1).natAbs < 2 ^ (128 + (exp + 1)) :=
        hlt.trans_le (Nat.pow_le_pow_right two_pos (by omega))
      rw [hround, if_neg (not_le.mpr hsmall), ofDyadic_eq_frac_iff]

end GoFloat

/-! ### Integers that fit -/

/-- The signed integers of a width. -/
def InInt (bits : ℕ) (n : ℤ) : Prop := -2 ^ (bits - 1) ≤ n ∧ n < 2 ^ (bits - 1)

/-- The unsigned integers of a width. -/
def InUint (bits : ℕ) (n : ℤ) : Prop := 0 ≤ n ∧ n < 2 ^ bits

section Integers

variable {bits : ℕ} {n t : ℤ}

theorem two_pow_eq (h : 0 < bits) : (2 : ℤ) ^ bits = 2 * 2 ^ (bits - 1) := by
  rw [← pow_succ', Nat.sub_add_cancel h]

theorem inInt_wrapInt (h : 0 < bits) (n : ℤ) : InInt bits (wrapInt bits n) := by
  have hpos : (0 : ℤ) < 2 ^ bits := by positivity
  have hnonneg := Int.emod_nonneg n hpos.ne'
  have hlt := Int.emod_lt_of_pos n hpos
  have htwo := two_pow_eq h
  dsimp only [InInt, wrapInt]
  split_ifs <;> omega

theorem wrapInt_of_inInt (h : 0 < bits) (hn : InInt bits n) : wrapInt bits n = n := by
  have hpos : (0 : ℤ) < 2 ^ (bits - 1) := by positivity
  have htwo := two_pow_eq h
  obtain ⟨hlow, hhigh⟩ := hn
  dsimp only [wrapInt]
  by_cases hneg : n < 0
  · have hmod : n % 2 ^ bits = n + 2 ^ bits := by
      rw [← Int.add_emod_right, Int.emod_eq_of_lt (by omega) (by omega)]
    rw [hmod, if_neg (by omega), add_sub_cancel_right]
  · rw [Int.emod_eq_of_lt (by omega) (by omega), if_pos hhigh]

/-- A number that comes through a 64-bit integer fits if it fits. -/
theorem wrapInt_eq_iff (h : 0 < bits) (hle : bits ≤ 64) (ht : InInt 64 n → t = n) :
    wrapInt bits t = n ↔ InInt bits n := by
  constructor
  · rintro rfl
    exact inInt_wrapInt h t
  · intro hn
    have hmono : (2 : ℤ) ^ (bits - 1) ≤ 2 ^ (64 - 1) := pow_le_pow_right₀ one_le_two (by omega)
    rw [ht ⟨by have := hn.1; omega, hn.2.trans_le hmono⟩, wrapInt_of_inInt h hn]

theorem wrapUint_eq_iff (hle : bits ≤ 64) (ht : InUint 64 n → t = n) :
    (wrapUint bits t : ℤ) = n ↔ InUint bits n := by
  have hpos : (0 : ℤ) < 2 ^ bits := by positivity
  rw [wrapUint, Int.toNat_of_nonneg (Int.emod_nonneg t hpos.ne')]
  constructor
  · rintro rfl
    exact ⟨Int.emod_nonneg t hpos.ne', Int.emod_lt_of_pos t hpos⟩
  · intro hn
    have hmono : (2 : ℤ) ^ bits ≤ 2 ^ 64 := pow_le_pow_right₀ one_le_two hle
    rw [ht ⟨hn.1, hn.2.trans_le hmono⟩, Int.emod_eq_of_lt hn.1 hn.2]

end Integers

/-! ### What a field holds -/

/-- The number that a field holds; a boolean is the number 0 or 1. -/
def Value.number : Value → Option GoFloat
  | .int n => some (.int n)
  | .uint n => some (.int n)
  | .float x => some x
  | .bool b => some (.int (if b then 1 else 0))
  | _ => none

/-- The number in a column. -/
def DriverVal.number : DriverVal → Option GoFloat
  | .int n => some (.int n)
  | .uint n => some (.int n)
  | .float x => some x
  | .bool b => some (.int (if b then 1 else 0))
  | _ => none

/-- The field holds the value of the column: the same number, text or time; for a pointer, it is
what it points to. -/
def Holds (v : DriverVal) : Value → Prop
  | .ptr w => Holds v w
  | .str s => v = .str s ∨ v = .bytes s
  | .time t => v = .time t
  | w => ∃ x, v.number = some x ∧ w.number = some x

/-- The value is still in the field after the scan: it fits into it, or there is no rule for it and
the field held it already. -/
def Carried : Kind → Value → DriverVal → Prop
  | .string, _, .str _ => True
  | .string, _, .bytes _ => True
  | .int bits, _, .int n => InInt bits n
  | .int bits, _, .uint n => InInt bits n
  | .int bits, _, .float x => ∃ n, x = .int n ∧ InInt bits n
  | .uint bits, _, .int n => InUint bits n
  | .uint bits, _, .uint n => InUint bits n
  | .uint bits, _, .float x => ∃ n, x = .int n ∧ InUint bits n
  | .float, _, .float _ => True
  | .float32, _, .float x => x.IsFloat32
  | .bool, _, .int n => n = 0 ∨ n = 1
  | .bool, _, .bool _ => True
  | .time, _, .time _ => True
  -- a new value is made for the pointer
  | .ptr k, _, v => Carried k k.zero v
  | _, current, v => Holds v current

/-- The kinds of fields with rules of their own, of the widths that there are. -/
def Kind.scalar : Kind → Bool
  | .int bits => bits ∈ [8, 16, 32, 64]
  | .uint bits => bits ∈ [8, 16, 32, 64]
  | .ptr k => k.scalar
  | .fixed k => k.scalar
  | .other => false
  | _ => true

section Fields

variable {k : Kind} {current : Value} {v : DriverVal} {bits : ℕ}

theorem widths (h : bits ∈ [8, 16, 32, 64]) : 0 < bits ∧ bits ≤ 64 := by
  simp only [List.mem_cons, List.not_mem_nil, or_false] at h
  omega

variable {n t : ℤ} {w : Value}

theorem truncate_of_inInt (h : InInt 64 n) : (int n).truncate = n := by
  have hn : decide (-2 ^ 63 ≤ n ∧ n < 2 ^ 63) = true := decide_eq_true h
  rw [truncate, whole, Option.filter_some, if_pos hn, Option.getD_some]

theorem truncateUint_of_inUint (h : InUint 64 n) : (int n).truncateUint = n := by
  have hn : decide (-2 ^ 63 ≤ n ∧ n < 2 ^ 64) = true := by
    obtain ⟨hlow, hhigh⟩ := h
    exact decide_eq_true ⟨by omega, hhigh⟩
  rw [truncateUint, whole, Option.filter_some, if_pos hn, Option.getD_some]

theorem holds_number_iff {x y : GoFloat} (hv : v.number = some x)
    (hw : w.number = some y) : (∃ z, v.number = some z ∧ w.number = some z) ↔ y = x := by
  rw [hv, hw]
  constructor
  · rintro ⟨z, hx, hy⟩
    exact Option.some_inj.mp (hy.trans hx.symm)
  · rintro rfl
    exact ⟨y, rfl, rfl⟩

theorem holds_wrapInt_iff (hbits : bits ∈ [8, 16, 32, 64])
    (hv : v.number = some (.int n)) (ht : InInt 64 n → t = n) :
    Holds v (.int (wrapInt bits t)) ↔ InInt bits n := by
  obtain ⟨hpos, hle⟩ := widths hbits
  refine (holds_number_iff hv rfl).trans ?_
  rw [int.injEq, wrapInt_eq_iff hpos hle ht]

theorem holds_wrapUint_iff (hbits : bits ∈ [8, 16, 32, 64])
    (hv : v.number = some (.int n)) (ht : InUint 64 n → t = n) :
    Holds v (.uint (wrapUint bits t)) ↔ InUint bits n := by
  refine (holds_number_iff hv rfl).trans ?_
  rw [int.injEq, wrapUint_eq_iff (widths hbits).2 ht]

/-- A number with a fraction is in no integer field. -/
theorem holds_of_not_int {m : ℤ} (hv : v.number = some x)
    (hw : w.number = some (.int m)) (hx : ∀ n, x ≠ .int n) :
    ¬ ∃ z, v.number = some z ∧ w.number = some z := by
  rw [holds_number_iff hv hw]
  exact fun h => hx m h.symm

/-- **One field.** When the field holds the value afterwards. -/
theorem holds_setFieldValue_iff (hk : k.scalar = true) (hv : v ≠ .null) :
    Holds v (setFieldValue k current v) ↔ Carried k current v := by
  induction k generalizing current with
  | string =>
    cases v with
    | null => exact absurd rfl hv
    | str s => exact iff_of_true (.inl rfl) trivial
    | bytes s => exact iff_of_true (.inr rfl) trivial
    | _ => rfl
  | int bits =>
    have hbits := of_decide_eq_true hk
    cases v with
    | null => exact absurd rfl hv
    | int n => exact holds_wrapInt_iff hbits rfl fun _ => rfl
    | uint n => exact holds_wrapInt_iff hbits rfl fun hn => wrapInt_of_inInt (by decide) hn
    | float x =>
      cases x with
      | int n =>
        refine (holds_wrapInt_iff hbits rfl truncate_of_inInt).trans ?_
        exact ⟨fun hn => ⟨n, rfl, hn⟩, fun ⟨_, hint, hn⟩ => int.inj hint ▸ hn⟩
      | _ => exact iff_of_false (holds_of_not_int rfl rfl nofun) nofun
    | _ => rfl
  | uint bits =>
    have hbits := of_decide_eq_true hk
    cases v with
    | null => exact absurd rfl hv
    | int | uint => exact holds_wrapUint_iff hbits rfl fun _ => rfl
    | float x =>
      cases x with
      | int n =>
        refine (holds_wrapUint_iff hbits rfl truncateUint_of_inUint).trans ?_
        exact ⟨fun hn => ⟨n, rfl, hn⟩, fun ⟨_, hint, hn⟩ => int.inj hint ▸ hn⟩
      | _ => exact iff_of_false (holds_of_not_int rfl rfl nofun) nofun
    | _ => rfl
  | float =>
    cases v with
    | null => exact absurd rfl hv
    | float x => exact iff_of_true ⟨x, rfl, rfl⟩ trivial
    | _ => rfl
  | float32 =>
    cases v with
    | null => exact absurd rfl hv
    | float x => exact (holds_number_iff rfl rfl).trans toFloat32_eq_self_iff
    | _ => rfl
  | bool =>
    cases v with
    | null => exact absurd rfl hv
    | int n =>
      refine (holds_number_iff rfl rfl).trans ?_
      rw [int.injEq]
      by_cases hn : n = 0
      · simp [hn, Carried]
      · simp [hn, Carried, eq_comm]
    | bool b => exact iff_of_true ⟨_, rfl, rfl⟩ trivial
    | _ => rfl
  | time =>
    cases v with
    | null => exact absurd rfl hv
    | time t => exact iff_of_true rfl trivial
    | _ => rfl
  | ptr k ih =>
    cases v with
    | null => exact absurd rfl hv
    | _ => exact ih hk
  | fixed k =>
    cases v with
    | null => exact absurd rfl hv
    | _ => rfl
  | other => cases hk

end Fields

/-- Every field whose column is there and not `NULL` holds its value. -/
def Exact (row : Row) (s : Struct) : Prop :=
  ∀ f ∈ s.type.info, ∀ v, row.get f.name = some v → v ≠ .null → Holds v (s.field f.idx)

/-- **Scanning a row.** The struct holds the row if and only if every value fits into its field; no
error is reported in either case. -/
theorem scan_exact_iff (row : Row) (s : Struct)
    (hkinds : ∀ f ∈ s.type.info, (s.type.kindAt f.idx).scalar = true) :
    Exact row (scanMapToStruct row s) ↔
      ∀ f ∈ s.type.info, ∀ v, row.get f.name = some v → v ≠ .null →
        Carried (s.type.kindAt f.idx) (s.field f.idx) v := by
  unfold Exact
  rw [type_scanMapToStruct]
  refine forall₂_congr fun f hf => forall₃_congr fun v hget hnull => ?_
  rw [field_scanMapToStruct hf hget, holds_setFieldValue_iff (hkinds f hf) hnull]

/-- A note with its number of readers, in so many bits, and its rating. -/
def ratedNote (bits : ℕ) : StructType where
  tableName := "notes"
  fields := [{ name := "Readers", kind := .int bits, db := "readers" },
    { name := "Rating", kind := .ptr .float, db := "rating" }]

/-- The number of readers fits into 16 bits, and the rating is a float. -/
theorem ratedNote_exact :
    Exact [("readers", .int 300), ("rating", .float (.frac 4 0))]
      (scanMapToStruct [("readers", .int 300), ("rating", .float (.frac 4 0))]
        (zero (ratedNote 16))) := by
  have hinfo : (ratedNote 16).info = [⟨0, "readers", false, false, false, false, false⟩,
      ⟨1, "rating", false, false, false, false, false⟩] := by decide +kernel
  refine (scan_exact_iff _ _ (by decide +kernel)).mpr ?_
  rw [type_zero, hinfo]
  intro f hf v hget _
  simp only [List.mem_cons, List.not_mem_nil, or_false] at hf
  rcases hf with rfl | rfl
  · obtain rfl : _ = v := Option.some_inj.mp hget
    exact ⟨by decide, by decide⟩
  · obtain rfl : _ = v := Option.some_inj.mp hget
    trivial

/-- The number of readers is cut to 8 bits, and a rating that is an integer is dropped. -/
theorem ratedNote_not_exact :
    (scanMapToStruct [("readers", .int 300), ("rating", .int 4)]
      (zero (ratedNote 8))).vals = [.int 44, .ptr (.float (.int 0))] ∧
    ¬ Exact [("readers", .int 300), ("rating", .int 4)]
      (scanMapToStruct [("readers", .int 300), ("rating", .int 4)] (zero (ratedNote 8))) := by
  refine ⟨by decide +kernel, fun hexact => ?_⟩
  have hmem : ⟨0, "readers", false, false, false, false, false⟩ ∈
      (scanMapToStruct [("readers", .int 300), ("rating", .int 4)]
        (zero (ratedNote 8))).type.info := by decide +kernel
  obtain ⟨x, hx, hfield⟩ := hexact _ hmem (.int 300) rfl nofun
  cases hx
  cases hfield

/-! ### What the destination held before -/

/-- There is a rule for values of this kind in fields of this kind. -/
def Kind.takes : Kind → DriverVal → Bool
  | _, .null => false
  | .string, .str _ => true
  | .string, .bytes _ => true
  | .int _, .int _ => true
  | .int _, .uint _ => true
  | .int _, .float _ => true
  | .uint _, .int _ => true
  | .uint _, .uint _ => true
  | .uint _, .float _ => true
  | .float, .float _ => true
  | .float32, .float _ => true
  | .bool, .int _ => true
  | .bool, .bool _ => true
  | .time, .time _ => true
  | .ptr _, _ => true
  | .other, .other _ => true
  | _, _ => false

variable {k : Kind} {v : DriverVal}

/-- Without a rule the field keeps what it held, and otherwise this is forgotten. -/
theorem setFieldValue_of_takes (h : k.takes v = true) (c₁ c₂ : Value) :
    setFieldValue k c₁ v = setFieldValue k c₂ v := by
  cases k <;> cases v <;> first | rfl | cases h

theorem setFieldValue_of_not_takes (h : k.takes v ≠ true) (c : Value) :
    setFieldValue k c v = c := by
  cases k <;> cases v <;> first | rfl | exact absurd rfl h

namespace Builder

/-- The row that `Find` finds for a destination of a type. -/
def findRow (b : Builder) (t : StructType) : DbM (Option Row) := do
  let b := b.applyScope
  let clone ← check (b.findClone (.structPtr (zero t)))
  getRow clone (clone.build .select)

/-- `Select` on the rows of a result: each one is put into a new struct, behind what the slice
holds. -/
def selectInto (t : StructType) (held : List Struct) (rows : List Row) : List Struct :=
  rows.foldl (fun items row => items ++ [scanMapToStruct row (zero t)]) held

/-- `FindAll` into a slice of structs: the slice afterwards. -/
def findAllInto (b : Builder) (t : StructType) (held : List Struct) : DbM (List Struct) := do
  let rows ← b.findAll (some (.slicePtr (some t)))
  return selectInto t held rows

/-- The destination decides about the statement by its type only. -/
theorem find_structPtr (b : Builder) (s : Struct) :
    b.find (some (.structPtr s)) = (do
      let row ← b.findRow s.type
      return row.map fun row => .structPtr (scanMapToStruct row s)) := by
  have hclone : b.applyScope.findClone (.structPtr (zero s.type)) =
      b.applyScope.findClone (.structPtr s) := rfl
  rw [find, findRow]
  simp only [Option.getD_some, isNil, hclone, bind_assoc, Bool.false_eq_true, if_false]
  rfl

theorem selectInto_eq (t : StructType) (held : List Struct) (rows : List Row) :
    selectInto t held rows = held ++ rows.map fun row => scanMapToStruct row (zero t) := by
  induction rows generalizing held with
  | nil => exact (List.append_nil held).symm
  | cons row rows ih =>
    rw [selectInto, List.foldl_cons, ← selectInto, ih, List.append_assoc]
    rfl

end Builder

section Destination

variable {σ : Type} (h : (c : Cmd) → σ → Cmd.Resp c × σ) (st : σ) (b : Builder)

/-- After both runs of `Find`, the fields of the columns of the row are the same, and zero for
`NULL`. -/
def FindForgets (s₁ s₂ : Struct) : Prop :=
  ∀ row, ((b.findRow s₁.type).run.run h st).1 = .ok (some row) →
    ∃ d₁ d₂ : Struct,
      ((b.find (some (.structPtr s₁))).run.run h st).1 = .ok (some (.structPtr d₁)) ∧
      ((b.find (some (.structPtr s₂))).run.run h st).1 = .ok (some (.structPtr d₂)) ∧
      ∀ f ∈ s₁.type.info, ∀ v, row.get f.name = some v →
        d₁.field f.idx = d₂.field f.idx ∧
          (v = .null → d₁.field f.idx = (s₁.type.kindAt f.idx).zero)

/-- After both runs of `FindAll`, the slices are the same. -/
def FindAllForgets (t : StructType) (l₁ l₂ : List Struct) : Prop :=
  ∀ r₁ r₂, ((b.findAllInto t l₁).run.run h st).1 = .ok r₁ →
    ((b.findAllInto t l₂).run.run h st).1 = .ok r₂ → r₁ = r₂

variable {h st b}

theorem run_find_structPtr {s : Struct} {row : Row}
    (hrow : ((b.findRow s.type).run.run h st).1 = .ok (some row)) :
    ((b.find (some (.structPtr s))).run.run h st).1 =
      .ok (some (.structPtr (scanMapToStruct row s))) := by
  rw [find_structPtr, ExceptT.run_bind, Prog.run_bind]
  rw [hrow]
  rfl

theorem run_findAllInto {t : StructType} {held items : List Struct} :
    ((b.findAllInto t held).run.run h st).1 = .ok items ↔
      ∃ rows, ((b.findAll (some (.slicePtr (some t)))).run.run h st).1 = .ok rows ∧
        items = held ++ rows.map fun row => scanMapToStruct row (zero t) := by
  rw [findAllInto, ExceptT.run_bind, Prog.run_bind]
  rcases hrun : (b.findAll (some (.slicePtr (some t)))).run.run h st with ⟨e | rows, st'⟩
  · constructor
    · intro herr
      cases herr
    · rintro ⟨rows, herr, -⟩
      cases herr
  · constructor
    · intro hok
      refine ⟨rows, rfl, ?_⟩
      rw [← selectInto_eq]
      exact (Except.ok.inj hok).symm
    · rintro ⟨_, ⟨⟩, rfl⟩
      rw [← selectInto_eq]
      rfl

/-- One field after both runs. -/
theorem setFieldValue_congr_iff {c₁ c₂ : Value} :
    (setFieldValue k c₁ v = setFieldValue k c₂ v ∧ (v = .null → setFieldValue k c₁ v = k.zero)) ↔
      k.takes v = true ∨ (c₁ = c₂ ∧ (v = .null → c₁ = k.zero)) := by
  by_cases htakes : k.takes v = true
  · refine iff_of_true ⟨setFieldValue_of_takes htakes c₁ c₂, ?_⟩ (.inl htakes)
    rintro rfl
    cases k <;> cases htakes
  · rw [setFieldValue_of_not_takes htakes, setFieldValue_of_not_takes htakes]
    exact (or_iff_right htakes).symm

theorem findForgets_iff {s₁ s₂ : Struct} (htype : s₁.type = s₂.type) :
    FindForgets h st b s₁ s₂ ↔ ∀ row, ((b.findRow s₁.type).run.run h st).1 = .ok (some row) →
        ∀ f ∈ s₁.type.info, ∀ v, row.get f.name = some v →
          (s₁.type.kindAt f.idx).takes v = true ∨ (s₁.field f.idx = s₂.field f.idx ∧
            (v = .null → s₁.field f.idx = (s₁.type.kindAt f.idx).zero)) := by
  refine forall₂_congr fun row hrow => ?_
  have hrun₁ := run_find_structPtr hrow
  have hrun₂ := run_find_structPtr (s := s₂) (htype ▸ hrow)
  have hfields (f : CachedField) (hf : f ∈ s₁.type.info) (v : DriverVal)
      (hget : row.get f.name = some v) :
      ((scanMapToStruct row s₁).field f.idx = (scanMapToStruct row s₂).field f.idx ∧
        (v = .null → (scanMapToStruct row s₁).field f.idx = (s₁.type.kindAt f.idx).zero)) ↔
      (s₁.type.kindAt f.idx).takes v = true ∨ (s₁.field f.idx = s₂.field f.idx ∧
        (v = .null → s₁.field f.idx = (s₁.type.kindAt f.idx).zero)) := by
    rw [field_scanMapToStruct hf hget, field_scanMapToStruct (htype ▸ hf) hget, ← htype]
    exact setFieldValue_congr_iff
  constructor
  · rintro ⟨d₁, d₂, hd₁, hd₂, hsame⟩ f hf v hget
    rw [hrun₁] at hd₁
    rw [hrun₂] at hd₂
    cases hd₁
    cases hd₂
    exact (hfields f hf v hget).mp (hsame f hf v hget)
  · intro hcond
    exact ⟨_, _, hrun₁, hrun₂, fun f hf v hget => (hfields f hf v hget).mpr (hcond f hf v hget)⟩

theorem findAllForgets_iff {t : StructType} {l₁ l₂ : List Struct} : FindAllForgets h st b t l₁ l₂ ↔
      ∀ rows, ((b.findAll (some (.slicePtr (some t)))).run.run h st).1 = .ok rows → l₁ = l₂ := by
  constructor
  · intro hforgets rows hrows
    have hsame := hforgets _ _ (run_findAllInto.mpr ⟨rows, hrows, rfl⟩)
      (run_findAllInto.mpr ⟨rows, hrows, rfl⟩)
    exact List.append_cancel_right hsame
  · intro hsame r₁ r₂ hr₁ hr₂
    obtain ⟨rows, hrows, rfl⟩ := run_findAllInto.mp hr₁
    obtain ⟨rows', hrows', rfl⟩ := run_findAllInto.mp hr₂
    obtain rfl := Except.ok.inj (hrows.symm.trans hrows')
    rw [hsame rows hrows]

end Destination

/-- **Results and the destination.** What the destination held before is forgotten if and only if
for every column there is a value with a rule, or the same was held before, zero for `NULL`; and
slices were the same before. -/
theorem destination_forgotten_iff {σ : Type} (h : (c : Cmd) → σ → Cmd.Resp c × σ) (st : σ)
    (b : Builder) (s₁ s₂ : Struct) (l₁ l₂ : List Struct) (htype : s₁.type = s₂.type) :
    FindForgets h st b s₁ s₂ ∧ FindAllForgets h st b s₁.type l₁ l₂ ↔
      (∀ row, ((b.findRow s₁.type).run.run h st).1 = .ok (some row) →
        ∀ f ∈ s₁.type.info, ∀ v, row.get f.name = some v →
          (s₁.type.kindAt f.idx).takes v = true ∨ (s₁.field f.idx = s₂.field f.idx ∧
            (v = .null → s₁.field f.idx = (s₁.type.kindAt f.idx).zero))) ∧
      ∀ rows, ((b.findAll (some (.slicePtr (some s₁.type)))).run.run h st).1 = .ok rows → l₁ = l₂ :=
  and_congr (findForgets_iff htype) findAllForgets_iff

/-- A database with one note. -/
def ratedNoteDb (row : Row) : (c : Cmd) → Unit → Cmd.Resp c × Unit
  | .get _ _, st => (.ok (some row), st)
  | .select _ _, st => (.ok [row], st)
  | .exec _ _, st => (.ok (0, none), st)
  | .beginTx, st => (.ok (), st)
  | .commit, st => (.ok (), st)
  | .rollback, st => (.ok (), st)
  | .now, st => (⟨0, 0, 0⟩, st)

/-- A note that was read before. -/
def usedRatedNote : Struct :=
  (zero (ratedNote 16)).setField 1 (.ptr (.float (.int 5)))

theorem run_ratedNoteDb (row : Row) :
    ((findRow { table := "notes" } (ratedNote 16)).run.run (ratedNoteDb row) ()).1 =
        .ok (some row) ∧
      ((findAll { table := "notes" } (some (.slicePtr (some (ratedNote 16))))).run.run
        (ratedNoteDb row) ()).1 = .ok [row] :=
  ⟨rfl, rfl⟩

/-- A used struct and a new one are filled by a row without `NULL`. -/
theorem ratedNote_forgotten :
    FindForgets (ratedNoteDb [("readers", .int 300), ("rating", .float (.frac 4 0))]) ()
      { table := "notes" } usedRatedNote (zero (ratedNote 16)) ∧
    FindAllForgets (ratedNoteDb [("readers", .int 300), ("rating", .float (.frac 4 0))]) ()
      { table := "notes" } (ratedNote 16) [] [] := by
  have htakes : ∀ f ∈ (ratedNote 16).info,
      (GoMap.get [("readers", .int 300), ("rating", .float (.frac 4 0))] f.name).all
        ((ratedNote 16).kindAt f.idx).takes = true := by decide +kernel
  refine (destination_forgotten_iff _ () _ usedRatedNote (zero (ratedNote 16)) [] [] rfl).mpr
    ⟨fun row hrow f hf v hget => .inl ?_, fun _ _ => rfl⟩
  obtain rfl : _ = row := Option.some_inj.mp (Except.ok.inj ((run_ratedNoteDb _).1.symm.trans hrow))
  have hv := htakes f hf
  rwa [hget] at hv

/-- `NULL` leaves the rating of another note, and a used slice still has its notes. -/
theorem ratedNote_not_forgotten :
    ¬ FindForgets (ratedNoteDb [("readers", .int 300), ("rating", .null)]) ()
      { table := "notes" } usedRatedNote (zero (ratedNote 16)) ∧
    ¬ FindAllForgets (ratedNoteDb [("readers", .int 300), ("rating", .null)]) ()
      { table := "notes" } (ratedNote 16) [usedRatedNote] [] := by
  constructor
  · intro hforgets
    have hmem : ⟨1, "rating", false, false, false, false, false⟩ ∈ usedRatedNote.type.info := by
      decide +kernel
    have htype : usedRatedNote.type = (zero (ratedNote 16)).type := rfl
    have hcond := (findForgets_iff htype).mp hforgets [("readers", .int 300), ("rating", .null)]
      (run_ratedNoteDb _).1 _ hmem .null rfl
    revert hcond
    decide +kernel
  · intro hforgets
    have hsame := findAllForgets_iff.mp hforgets _ (run_ratedNoteDb _).2
    cases hsame

end Kiya
