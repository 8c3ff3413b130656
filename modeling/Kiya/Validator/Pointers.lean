import Kiya.Validator.Validate

/-!
# Pointers

`flattenStruct` passes over a nil pointer together with its rules, and records another pointer as it
is. So it is up to each rule what it makes of a pointer: most rules assert that they are given a
string, which a pointer is not. Here each built-in rule is compared on a value and on a pointer to
it (`compared_builtins`). A rule says of a pointer nothing or one of three errors that it also has
for values, so the errors of a field are the same for both, in any order, if and only if each of its
rules gives the same (`perm_filterMap_iff`).
-/

namespace Kiya.Validator

open Fields
open List hiding flatten flatten_append

/-- The types of values that are compared: strings, integers, bools, floats and times. -/
def Value.IsScalar : Value → Prop
  | .string _ _ | .bool _ _ | .int _ | .float _ | .time _ => True
  | _ => False

/-- What a rule says of a value. -/
def ruleError (reg : Registry) (val : Option Value) (r : Σ _ : Bytes, Bytes) : Option Bytes :=
  (reg r.1).bind fun fn => fn.check r.2 val

/-! ### Rules on pointers -/

/-- A length is wrong. -/
def WrongLength (skip : Bytes → Bool) (allowed : ℤ → ℤ → Bool) (param : Bytes) (x : Value) : Prop :=
  ∃ s p, x = .string false s ∧ skip s = false ∧ atoi param = some p ∧ allowed s.length p = false

/-- What is a number for the rule. -/
def IsNumber (env : Env) (x : Value) : Prop :=
  (∃ i, x = .int i) ∨ (∃ bits, x = .float bits) ∨ ∃ s, x = .string false s ∧ env.parseFloat s = true

/-- The built-in rule does not tell a pointer from the value it points to. -/
def Agrees (env : Env) (name param : Bytes) (x : Value) : Prop :=
  if name = utf8 "required" then x ≠ .bool false false
  else if name = utf8 "email" then ¬ ∃ s address, x = .string false s ∧ s ≠ [] ∧
    env.parseAddress s = some address ∧ address ≠ []
  else if name = utf8 "length" then
    ¬ WrongLength List.isEmpty (fun n p => decide (n = p)) param x
  else if name = utf8 "op_length" then
    ¬ WrongLength (fun s => (Strings.trimSpace s).isEmpty) (fun n p => decide (n = p)) param x
  else if name = utf8 "maxlength" then
    ¬ WrongLength List.isEmpty (fun n p => decide (n ≤ p)) param x
  else if name = utf8 "minlength" then
    ¬ WrongLength List.isEmpty (fun n p => decide (p ≤ n)) param x
  else if name = utf8 "url" then ¬ ∃ s scheme, x = .string false s ∧ s ≠ [] ∧
    env.parseRequestURI s = some scheme
  else if name = utf8 "numeric" then ¬ (x.isEmpty = false ∧ IsNumber env x)
  else if name = utf8 "secpass" then ¬ ∃ s, x = .string false s
  else True

/-- The errors that rules have for values of any type. -/
def IsGeneric (msg : Bytes) : Prop := msg = missing ∨ msg = malformed ∨ msg = notNumeric

theorem valRequired_ptr (x : Value) :
    valRequired (some (.ptr x)) = if x.isEmpty then some missing else none := rfl

variable {x : Value}

theorem valRequired_of_scalar (hx : x.IsScalar) (hne : x ≠ .bool false false) :
    valRequired (some x) = if x.isEmpty then some missing else none := by
  cases x with
  | string named s => cases named <;> cases s <;> rfl
  | bool named b =>
    cases named with
    | true => rfl
    | false =>
      cases b with
      | true => rfl
      | false => exact absurd rfl hne
  | int | float => rfl
  | time nanos =>
    by_cases h : nanos = 0
    · subst h
      rfl
    · simp [valRequired, Value.isEmpty, h]
  | _ => cases hx

/-- A value is a string, or the assertion that it is one fails. -/
theorem asString_cases (x : Value) : (∃ s, x = .string false s) ∨ asString (some x) = none := by
  cases x with
  | string named s =>
    cases named with
    | true => exact .inr rfl
    | false => exact .inl ⟨s, rfl⟩
  | _ => exact .inr rfl

/-- What is compared for one rule: when the results are the same, what it says of a pointer, and
that a generic error for the value is the one for the pointer. -/
structure Compared (onPtr onValue : Option Bytes) (agrees : Prop) : Prop where
  eq_iff : onPtr = onValue ↔ agrees
  generic : ∀ msg, onPtr = some msg → IsGeneric msg
  kept : ∀ msg, onValue = some msg → IsGeneric msg → onPtr = some msg

variable {onPtr onValue : Option Bytes} {agrees : Prop} {α β : Type}

/-- The results are the same. -/
theorem Compared.of_eq (h : onPtr = onValue)
    (hagrees : agrees) (hgeneric : ∀ msg, onPtr = some msg → IsGeneric msg) :
    Compared onPtr onValue agrees :=
  ⟨⟨fun _ => hagrees, fun _ => h⟩, hgeneric, fun _ hmsg _ => h.trans hmsg⟩

/-- The results differ, and the one for the value is no generic error. -/
theorem Compared.of_ne (hagrees : ¬ agrees)
    (hgeneric : ∀ msg, onPtr = some msg → IsGeneric msg) (hne : onPtr ≠ onValue)
    (hvalue : ∀ msg, onValue = some msg → ¬ IsGeneric msg) : Compared onPtr onValue agrees :=
  ⟨⟨fun h => absurd h hne, fun h => absurd h hagrees⟩, hgeneric,
    fun msg hmsg hmsg' => absurd hmsg' (hvalue msg hmsg)⟩

theorem isGeneric_of_eq_malformed : ∀ msg, some malformed = some msg → IsGeneric msg :=
  fun _ h => .inr (.inl (Option.some.inj h).symm)

theorem compared_required (hx : x.IsScalar) :
    Compared (valRequired (some (.ptr x))) (valRequired (some x)) (x ≠ .bool false false) := by
  have hgeneric : ∀ msg, valRequired (some (.ptr x)) = some msg → IsGeneric msg := by
    intro msg h
    rw [valRequired_ptr] at h
    split_ifs at h
    exact .inl (Option.some.inj h).symm
  by_cases hfalse : x = .bool false false
  · subst hfalse
    exact .of_ne (fun h => h rfl) hgeneric nofun nofun
  · refine .of_eq ?_ hfalse hgeneric
    rw [valRequired_ptr, valRequired_of_scalar hx hfalse]

theorem compared_secPass (x : Value) :
    Compared (valSecPass (some (.ptr x))) (valSecPass (some x)) (¬ ∃ s, x = .string false s) := by
  have hptr : valSecPass (some (.ptr x)) = some malformed := rfl
  rw [hptr]
  rcases asString_cases x with ⟨s, rfl⟩ | hnone
  · refine .of_ne (fun h => h ⟨s, rfl⟩) isGeneric_of_eq_malformed ?_ ?_
    · rw [valSecPass, asString]
      dsimp only
      split_ifs <;> decide
    · intro msg h
      rw [valSecPass, asString] at h
      dsimp only at h
      split_ifs at h
      · cases h
        unfold IsGeneric
        decide
      · cases h
        unfold IsGeneric
        decide
  · refine .of_eq ?_ ?_ isGeneric_of_eq_malformed
    · rw [valSecPass, hnone]
    · rintro ⟨s, rfl⟩
      cases hnone

variable (env : Env) (reg : Registry) (ranges : Ranges)

theorem compared_email (x : Value) :
    Compared (valEmail env (some (.ptr x))) (valEmail env (some x))
      (¬ ∃ s address, x = .string false s ∧ s ≠ [] ∧ env.parseAddress s = some address ∧
        address ≠ []) := by
  by_cases hempty : isEmpty (some x) = true
  · have hptr : valEmail env (some (.ptr x)) = none := if_pos hempty
    rw [hptr, valEmail, if_pos hempty]
    refine .of_eq rfl ?_ nofun
    rintro ⟨s, address, rfl, hne, -⟩
    exact hne (List.isEmpty_iff.mp hempty)
  · have hptr : valEmail env (some (.ptr x)) = some malformed := if_neg hempty
    rw [hptr, valEmail, if_neg hempty]
    rcases asString_cases x with ⟨s, rfl⟩ | hnone
    · have hne : s ≠ [] := fun h => hempty (List.isEmpty_iff.mpr h)
      rw [asString]
      dsimp only
      cases haddress : env.parseAddress s with
      | none =>
        refine .of_eq rfl ?_ isGeneric_of_eq_malformed
        rintro ⟨s', address, heq, -, hparse, -⟩
        cases heq
        rw [haddress] at hparse
        cases hparse
      | some address =>
        dsimp only
        split_ifs with hnil
        · refine .of_eq rfl ?_ isGeneric_of_eq_malformed
          rintro ⟨s', address', heq, -, hparse, hne'⟩
          cases heq
          rw [haddress] at hparse
          cases hparse
          exact hne' hnil
        · exact .of_ne (fun h => h ⟨s, address, rfl, hne, haddress, hnil⟩)
            isGeneric_of_eq_malformed nofun nofun
    · rw [hnone]
      refine .of_eq rfl ?_ isGeneric_of_eq_malformed
      rintro ⟨s, address, rfl, -⟩
      cases hnone

theorem compared_url (x : Value) : Compared (valUrl env (some (.ptr x))) (valUrl env (some x))
      (¬ ∃ s scheme, x = .string false s ∧ s ≠ [] ∧ env.parseRequestURI s = some scheme) := by
  by_cases hempty : isEmpty (some x) = true
  · have hptr : valUrl env (some (.ptr x)) = none := if_pos hempty
    rw [hptr, valUrl, if_pos hempty]
    refine .of_eq rfl ?_ nofun
    rintro ⟨s, scheme, rfl, hne, -⟩
    exact hne (List.isEmpty_iff.mp hempty)
  · have hptr : valUrl env (some (.ptr x)) = some malformed := if_neg hempty
    rw [hptr, valUrl, if_neg hempty]
    rcases asString_cases x with ⟨s, rfl⟩ | hnone
    · have hne : s ≠ [] := fun h => hempty (List.isEmpty_iff.mpr h)
      rw [asString]
      dsimp only
      cases hscheme : env.parseRequestURI s with
      | none =>
        refine .of_eq rfl ?_ isGeneric_of_eq_malformed
        rintro ⟨s', scheme, heq, -, hparse⟩
        cases heq
        rw [hscheme] at hparse
        cases hparse
      | some scheme =>
        have hagrees : ¬ ¬ ∃ s' scheme, Value.string false s = .string false s' ∧ s' ≠ [] ∧
            env.parseRequestURI s' = some scheme := fun h => h ⟨s, scheme, rfl, hne, hscheme⟩
        dsimp only
        split_ifs
        · exact .of_ne hagrees isGeneric_of_eq_malformed nofun nofun
        · refine .of_ne hagrees isGeneric_of_eq_malformed (by decide) fun msg h => ?_
          cases h
          unfold IsGeneric
          decide
    · rw [hnone]
      refine .of_eq rfl ?_ isGeneric_of_eq_malformed
      rintro ⟨s, scheme, rfl, -⟩
      cases hnone

theorem compared_numeric (x : Value) :
    Compared (valNumeric env (some (.ptr x))) (valNumeric env (some x))
      (¬ (x.isEmpty = false ∧ IsNumber env x)) := by
  by_cases hempty : isEmpty (some x) = true
  · have hptr : valNumeric env (some (.ptr x)) = none := if_pos hempty
    rw [hptr, valNumeric.eq_def, if_pos hempty]
    exact .of_eq rfl (fun h => absurd (hempty.symm.trans h.1) (by decide)) nofun
  · have hptr : valNumeric env (some (.ptr x)) = some notNumeric := if_neg hempty
    have hgeneric : ∀ msg, some notNumeric = some msg → IsGeneric msg :=
      fun _ h => .inr (.inr (Option.some.inj h).symm)
    rw [hptr]
    by_cases hnumber : IsNumber env x
    · have hvalue : valNumeric env (some x) = none := by
        rw [valNumeric.eq_def, if_neg hempty]
        rcases hnumber with ⟨i, rfl⟩ | ⟨bits, rfl⟩ | ⟨s, rfl, hs⟩
        · rfl
        · rfl
        · exact if_pos hs
      rw [hvalue]
      exact .of_ne (fun h => h ⟨Bool.eq_false_iff.mpr hempty, hnumber⟩) hgeneric nofun nofun
    · have hvalue : valNumeric env (some x) = some notNumeric := by
        rw [valNumeric.eq_def, if_neg hempty]
        cases x with
        | int i => exact absurd (.inl ⟨i, rfl⟩) hnumber
        | float bits => exact absurd (.inr (.inl ⟨bits, rfl⟩)) hnumber
        | string named s =>
          cases named with
          | true => rfl
          | false => exact if_neg fun h => hnumber (.inr (.inr ⟨s, rfl, h⟩))
        | _ => rfl
      exact .of_eq hvalue.symm (fun h => hnumber h.2) hgeneric

/-- The last byte tells an error about a length from a generic one. -/
theorem not_isGeneric_length (words : Bytes) (p : ℤ) :
    ¬ IsGeneric (words ++ Numeral.formatInt p ++ utf8 " karakter") := by
  have hlast : (words ++ Numeral.formatInt p ++ utf8 " karakter").getLast? = some 114 := by
    rw [getLast?_append]
    rfl
  rintro (h | h | h)
  · rw [h] at hlast
    exact absurd hlast (by decide)
  · rw [h] at hlast
    exact absurd hlast (by decide)
  · rw [h] at hlast
    exact absurd hlast (by decide)

theorem compared_length (skip : Bytes → Bool) (allowed : ℤ → ℤ → Bool) (words param : Bytes)
    (x : Value) : Compared (valLengthRule skip allowed words param (some (.ptr x)))
      (valLengthRule skip allowed words param (some x)) (¬ WrongLength skip allowed param x) := by
  have hptr : valLengthRule skip allowed words param (some (.ptr x)) = none := rfl
  rw [hptr]
  by_cases hwrong : WrongLength skip allowed param x
  · have hvalue : ∃ p, valLengthRule skip allowed words param (some x) =
        some (words ++ Numeral.formatInt p ++ utf8 " karakter") := by
      obtain ⟨s, p, rfl, hskip, hp, hallowed⟩ := hwrong
      exact ⟨p, by simp only [valLengthRule, asString, hskip, hp, hallowed, Bool.false_eq_true,
        if_false]⟩
    obtain ⟨p, hp⟩ := hvalue
    rw [hp]
    refine .of_ne (fun h => h hwrong) nofun nofun fun msg h => ?_
    exact Option.some.inj h ▸ not_isGeneric_length words p
  · refine .of_eq ?_ hwrong nofun
    symm
    rcases asString_cases x with ⟨s, rfl⟩ | hnone
    · rw [valLengthRule, asString]
      dsimp only
      split_ifs with hskip
      · rfl
      · split
        · rfl
        · rename_i p hp
          split_ifs with hallowed
          · rfl
          · exact absurd ⟨s, p, rfl, Bool.eq_false_iff.mpr hskip, hp,
              Bool.eq_false_iff.mpr hallowed⟩ hwrong
    · rw [valLengthRule, hnone]

/-- **A rule on a pointer and on a value.** -/
theorem compared_builtins {name : Bytes} (hname : name ≠ utf8 "unique") (param : Bytes)
    (hx : x.IsScalar) : Compared (ruleError (builtins env) (some (.ptr x)) ⟨name, param⟩)
      (ruleError (builtins env) (some x) ⟨name, param⟩) (Agrees env name param x) := by
  unfold ruleError builtins Agrees
  dsimp only
  by_cases h : name = utf8 "required"
  · simp only [if_pos h]
    exact compared_required hx
  simp only [if_neg h]
  clear h
  by_cases h : name = utf8 "email"
  · simp only [if_pos h]
    exact compared_email env x
  simp only [if_neg h]
  clear h
  by_cases h : name = utf8 "length"
  · simp only [if_pos h]
    exact compared_length List.isEmpty (fun n p => decide (n = p)) (utf8 "harus ") param x
  simp only [if_neg h]
  clear h
  by_cases h : name = utf8 "op_length"
  · simp only [if_pos h]
    exact compared_length (fun s => (Strings.trimSpace s).isEmpty) (fun n p => decide (n = p))
      (utf8 "harus ") param x
  simp only [if_neg h]
  clear h
  by_cases h : name = utf8 "maxlength"
  · simp only [if_pos h]
    exact compared_length List.isEmpty (fun n p => decide (n ≤ p)) (utf8 "maksimal ") param x
  simp only [if_neg h]
  clear h
  by_cases h : name = utf8 "minlength"
  · simp only [if_pos h]
    exact compared_length List.isEmpty (fun n p => decide (p ≤ n)) (utf8 "minimal ") param x
  simp only [if_neg h]
  clear h
  by_cases h : name = utf8 "url"
  · simp only [if_pos h]
    exact compared_url env x
  simp only [if_neg h]
  clear h
  by_cases h : name = utf8 "numeric"
  · simp only [if_pos h]
    exact compared_numeric env x
  simp only [if_neg h]
  clear h
  rw [if_neg hname]
  by_cases h : name = utf8 "secpass"
  · simp only [if_pos h]
    exact compared_secPass x
  simp only [if_neg h]
  clear h
  exact .of_eq rfl trivial nofun

/-! ### The errors of a field -/

/-- Where one function has all results of another, it has more of them or the same. -/
theorem length_filterMap_le {f g : α → Option β} {l : List α}
    (h : ∀ a ∈ l, ∀ m, f a = some m → g a = some m) :
    (l.filterMap f).length ≤ (l.filterMap g).length := by
  induction l with
  | nil => exact le_rfl
  | cons a l ih =>
    obtain ⟨ha, hl⟩ := forall_mem_cons.mp h
    have hle := ih hl
    cases hf : f a with
    | none =>
      rw [filterMap_cons_none hf]
      refine hle.trans ?_
      cases hg : g a with
      | none => rw [filterMap_cons_none hg]
      | some m => rw [filterMap_cons_some hg, length_cons]; exact Nat.le_succ _
    | some m =>
      rw [filterMap_cons_some hf, filterMap_cons_some (ha m hf), length_cons, length_cons]
      exact Nat.succ_le_succ hle

theorem eq_of_length_filterMap {f g : α → Option β} {l : List α}
    (h : ∀ a ∈ l, ∀ m, f a = some m → g a = some m)
    (hlength : (l.filterMap g).length = (l.filterMap f).length) : ∀ a ∈ l, g a = f a := by
  induction l with
  | nil => exact nofun
  | cons a l ih =>
    obtain ⟨ha, hl⟩ := forall_mem_cons.mp h
    have hle := length_filterMap_le hl
    cases hf : f a with
    | none =>
      rw [filterMap_cons_none hf] at hlength
      cases hg : g a with
      | none =>
        rw [filterMap_cons_none hg] at hlength
        exact forall_mem_cons.mpr ⟨hg.trans hf.symm, ih hl hlength⟩
      | some m =>
        rw [filterMap_cons_some hg, length_cons] at hlength
        omega
    | some m =>
      have hg := ha m hf
      rw [filterMap_cons_some hf, filterMap_cons_some hg, length_cons,
        length_cons, Nat.succ_inj] at hlength
      exact forall_mem_cons.mpr ⟨hg.trans hf.symm, ih hl hlength⟩

/-- **Errors are the same in any order only if each rule gives the same.** Those for pointers are
generic, so those for values are too if they are the same; then a rule with one for the value has
the same one for the pointer, and no other rule has one for the pointer only. -/
theorem perm_filterMap_iff {f g : α → Option Bytes} {l : List α}
    (hgeneric : ∀ a ∈ l, ∀ m, g a = some m → IsGeneric m)
    (hkept : ∀ a ∈ l, ∀ m, f a = some m → IsGeneric m → g a = some m) :
    (l.filterMap g).Perm (l.filterMap f) ↔ ∀ a ∈ l, g a = f a := by
  constructor
  · intro hperm
    refine eq_of_length_filterMap (fun a ha m hm => hkept a ha m hm ?_) hperm.length_eq
    have hmem : m ∈ l.filterMap g := hperm.mem_iff.mpr (mem_filterMap.mpr ⟨a, ha, hm⟩)
    obtain ⟨b, hb, hbm⟩ := mem_filterMap.mp hmem
    exact hgeneric b hb m hbm
  · intro h
    rw [filterMap_congr h]

/-! ### Structs with a pointer -/

/-- The errors that `Validate` reports for a key. -/
def reported (reg : Registry) (ranges : Ranges) (fields : Fields) (key : Bytes) : List Bytes :=
  match (bind {} (.struct fields) none).validate reg ranges with
  | some (_, v) => (v.validateErrors.lookup key).getD []
  | none => []

theorem reported_perm (fields : Fields) (key : Bytes) :
    (reported reg ranges fields key).Perm (fields.errorsOf reg key) := by
  obtain ⟨hglobal, -, -, hrows⟩ := bind_struct fields
  obtain ⟨msgs, hperm, hlookup⟩ := lookup_validateStruct reg ranges 0 fields key
  have hreported : reported reg ranges fields key = msgs := by
    rw [reported, validate, if_neg (not_not_intro hglobal), hrows]
    dsimp only
    rw [hlookup]
    split_ifs with hmsgs
    · exact hmsgs.symm
    · rfl
  rwa [hreported]

theorem Fields.flatten_append : ∀ (fields fields' : Fields) (pre : Bytes),
    (fields.append fields').flatten pre = fields.flatten pre ++ fields'.flatten pre
  | .nil, _, _ => rfl
  | .cons f v rest, fields', pre => by
    rw [append, flatten, flatten, flatten_append rest, append_assoc]

/-- The value depends on what is recorded only. -/
theorem Fields.valueOf_of_flatten_eq {fields fields' : Fields}
    (h : fields.flatten [] = fields'.flatten []) (key : Bytes) :
    fields.valueOf key = fields'.valueOf key := by
  change ((List.foldl record {} (fields.flatten [])).values.lookup key).join =
    ((List.foldl record {} (fields'.flatten [])).values.lookup key).join
  rw [h]

section Field

variable {env : Env} {before after : Fields} {f : Field}

/-- A struct with the given value in a field. -/
def structWith (before : Fields) (f : Field) (after : Fields) (v : Value) : Fields :=
  before.append (.cons f v after)

theorem flatten_structWith (before : Fields) (f : Field) (after : Fields) (v : Value) :
    (structWith before f after v).flatten [] =
    before.flatten [] ++ ((if f.isRead then v.flatten f.key f.validate else []) ++
      after.flatten []) := by
  rw [structWith, flatten_append, flatten]
  rfl

/-- What is recorded for a value, and for a pointer to it. -/
theorem flatten_of_isScalar (hx : x.IsScalar) (key rules : Bytes) :
    x.flatten key rules = [⟨key, some x, rules⟩] ∧
      (Value.ptr x).flatten key rules = [⟨key, some (.ptr x), rules⟩] := by
  cases x <;> first | exact ⟨rfl, rfl⟩ | cases hx

theorem errorsOf_ptr_iff (hx : x.IsScalar) {rules : GoMap Bytes}
    (hunique : rules.lookup (utf8 "unique") = none) :
    (ruleErrors (builtins env) (some (.ptr x)) rules.entries).Perm
        (ruleErrors (builtins env) (some x) rules.entries) ↔
      ∀ name param, rules.lookup name = some param → Agrees env name param x := by
  have hname {name param : Bytes} (h : rules.lookup name = some param) : name ≠ utf8 "unique" := by
    rintro rfl
    rw [hunique] at h
    cases h
  have hcompared (r : Σ _ : Bytes, Bytes) (hr : r ∈ rules.entries) :=
    compared_builtins env (hname (AList.mem_lookup_iff.mpr hr)) r.2 hx
  have hiff := perm_filterMap_iff (f := ruleError (builtins env) (some x))
    (fun r hr => (hcompared r hr).generic) fun r hr => (hcompared r hr).kept
  refine hiff.trans ⟨fun h name param hlookup => ?_, fun h r hr => ?_⟩
  · have hr := AList.mem_lookup_iff.mp hlookup
    exact (hcompared _ hr).eq_iff.mp (h _ hr)
  · exact (hcompared r hr).eq_iff.mpr (h r.1 r.2 (AList.mem_lookup_iff.mpr hr))

/-- **A pointer to a value in a struct**: the errors are the same if and only if the field is not
looked at, another field takes its place, or no rule tells the two apart. -/
theorem reported_ptr_iff (hx : x.IsScalar) (ranges ranges' : Ranges)
    (hunique : ((structWith before f after x).rulesOf f.key).lookup (utf8 "unique") = none) :
    (reported (builtins env) ranges (structWith before f after (.ptr x)) f.key).Perm
        (reported (builtins env) ranges' (structWith before f after x) f.key) ↔
      f.isRead = false ∨ (∃ e ∈ after.flatten [], e.key = f.key) ∨
        ∀ name param, ((structWith before f after x).rulesOf f.key).lookup name = some param →
          Agrees env name param x := by
  have hperm := reported_perm (builtins env) ranges (structWith before f after (.ptr x)) f.key
  have hperm' := reported_perm (builtins env) ranges' (structWith before f after x) f.key
  have hcompare : (reported (builtins env) ranges (structWith before f after (.ptr x)) f.key).Perm
      (reported (builtins env) ranges' (structWith before f after x) f.key) ↔
      ((structWith before f after (.ptr x)).errorsOf (builtins env) f.key).Perm
        ((structWith before f after x).errorsOf (builtins env) f.key) :=
    ⟨fun h => (hperm.symm.trans h).trans hperm', fun h => (hperm.trans h).trans hperm'.symm⟩
  obtain ⟨hvalue, hptr⟩ := flatten_of_isScalar hx f.key f.validate
  have hflat := flatten_structWith before f after x
  have hflat' := flatten_structWith before f after (.ptr x)
  rw [hvalue] at hflat
  rw [hptr] at hflat'
  have hrules : (structWith before f after (.ptr x)).rulesOf f.key =
      (structWith before f after x).rulesOf f.key := by
    refine rulesOf_congr ?_ f.key
    rw [hflat, hflat']
    split_ifs <;> simp
  rw [hcompare, errorsOf, errorsOf, hrules]
  by_cases hread : f.isRead = true
  · rw [if_pos hread] at hflat hflat'
    have hnot : ¬ f.isRead = false := fun h => absurd (hread.symm.trans h) (by decide)
    rw [or_iff_right hnot]
    by_cases hlater : ∃ e ∈ after.flatten [], e.key = f.key
    · rw [← append_assoc] at hflat hflat'
      rw [valueOf_congr hflat' hflat hlater]
      exact ⟨fun _ => .inl hlater, fun _ => .refl _⟩
    · have hkeys : ∀ e ∈ after.flatten [], e.key ≠ f.key := fun e he heq => hlater ⟨e, he, heq⟩
      rw [or_iff_right hlater, ← errorsOf_ptr_iff hx hunique]
      have hof := valueOf_of_last (e := ⟨f.key, some x, f.validate⟩) hflat hkeys
      have hof' := valueOf_of_last (e := ⟨f.key, some (.ptr x), f.validate⟩) hflat' hkeys
      dsimp only at hof hof'
      rw [hof, hof']
  · rw [if_neg hread] at hflat hflat'
    rw [valueOf_of_flatten_eq (hflat'.trans hflat.symm)]
    exact ⟨fun _ => .inl (Bool.eq_false_iff.mpr hread), fun _ => .refl _⟩

/-- A nil pointer is not there. -/
theorem reported_nilPtr_perm (before : Fields) (f : Field) (after : Fields) :
    (reported reg ranges (structWith before f after .nilPtr) f.key).Perm
      ((before.append after).errorsOf reg f.key) := by
  have hflat : (structWith before f after .nilPtr).flatten [] =
      (before.append after).flatten [] := by
    rw [flatten_structWith, flatten_append]
    split_ifs <;> rfl
  have herrors : (structWith before f after .nilPtr).errorsOf reg f.key =
      (before.append after).errorsOf reg f.key := by
    rw [errorsOf, errorsOf, valueOf_of_flatten_eq hflat, rulesOf_congr (congrArg _ hflat)]
  exact herrors ▸ reported_perm reg ranges _ f.key

/-- What is expected of a field with a pointer: of a value what is reported for the value itself,
and of nil that a value is required where the field says so. -/
def ValidatedAlike (reg : Registry) (ranges ranges' : Ranges) (before : Fields) (f : Field)
    (after : Fields) : Option Value → Prop
  | some x => (reported reg ranges (structWith before f after (.ptr x)) f.key).Perm
      (reported reg ranges' (structWith before f after x) f.key)
  | none => (∃ param, (utf8 "required", param) ∈ readRules f.validate) →
      reported reg ranges (structWith before f after .nilPtr) f.key ≠ []

/-- The condition for it. -/
def PointerSafe (env : Env) (before : Fields) (f : Field) (after : Fields) : Option Value → Prop
  | some x => f.isRead = false ∨ (∃ e ∈ after.flatten [], e.key = f.key) ∨
      ∀ name param, ((structWith before f after x).rulesOf f.key).lookup name = some param →
        Agrees env name param x
  | none => (∀ param, (utf8 "required", param) ∉ readRules f.validate) ∨
      (before.append after).errorsOf (builtins env) f.key ≠ []

/-- **Pointers are validated like values if and only if** no rule of the field tells them apart, and
for nil, if no value is required (or another field with the same key has an error). -/
theorem pointer_validated_iff (env : Env) (ranges ranges' : Ranges) (before : Fields) (f : Field)
    (after : Fields) {p : Option Value} (hscalar : ∀ x, p = some x → x.IsScalar)
    (hunique : ∀ x, p = some x →
      ((structWith before f after x).rulesOf f.key).lookup (utf8 "unique") = none) :
    ValidatedAlike (builtins env) ranges ranges' before f after p ↔
      PointerSafe env before f after p := by
  cases p with
  | some x => exact reported_ptr_iff (hscalar x rfl) ranges ranges' (hunique x rfl)
  | none =>
    have hperm := reported_nilPtr_perm (builtins env) ranges before f after
    have hne : reported (builtins env) ranges (structWith before f after .nilPtr) f.key ≠ [] ↔
        (before.append after).errorsOf (builtins env) f.key ≠ [] :=
      not_congr ⟨fun h => (h ▸ hperm).symm.eq_nil, fun h => (h ▸ hperm).eq_nil⟩
    rw [ValidatedAlike, PointerSafe, hne]
    rw [imp_iff_not_or, not_exists]

end Field

/-! ### An age -/

/-- A field with an integer that has to be there. -/
def ageField : Field := ⟨utf8 "Age", true, utf8 "age", utf8 "required|email", []⟩

/-- A pointer to zero gets the error of zero. -/
theorem zeroAge_validated : (Value.int 0).IsScalar ∧
    ValidatedAlike (builtins readNothing) .inOrder .inOrder .nil ageField .nil
      (some (.int 0)) := by
  refine ⟨trivial, (pointer_validated_iff readNothing .inOrder .inOrder .nil ageField .nil
    (fun x h => ?_) fun x h => ?_).mpr ?_⟩
  · cases h
    trivial
  · cases h
    decide +kernel
  · refine .inr (.inr fun name param h => ?_)
    have hentries : ((structWith .nil ageField .nil (.int 0)).rulesOf ageField.key).entries =
        [⟨utf8 "email", []⟩, ⟨utf8 "required", []⟩] := by decide +kernel
    have hmem := AList.mem_lookup_iff.mp h
    rw [hentries, mem_cons, mem_singleton] at hmem
    rcases hmem with heq | heq
    · cases heq
      rw [Agrees, if_neg (by decide), if_pos rfl]
      rintro ⟨s, address, hs, -⟩
      cases hs
    · cases heq
      rw [Agrees, if_pos rfl]
      nofun

/-- A text that has to be long enough. -/
def nickField : Field := ⟨utf8 "Nick", true, utf8 "nick", utf8 "required|minlength[3]", []⟩

/-- A pointer to a text that is too short gets no error, and neither does nil. -/
theorem shortNick_not_validated :
    (reported (builtins readNothing) .inOrder (structWith .nil nickField .nil
      (.string false (utf8 "ab"))) nickField.key = [utf8 "minimal 3 karakter"] ∧
    ¬ ValidatedAlike (builtins readNothing) .inOrder .inOrder .nil nickField .nil
      (some (.string false (utf8 "ab")))) ∧
    (reported (builtins readNothing) .inOrder (structWith .nil nickField .nil .nilPtr)
      nickField.key = [] ∧
    ¬ ValidatedAlike (builtins readNothing) .inOrder .inOrder .nil nickField .nil none) := by
  have hvalue : reported (builtins readNothing) .inOrder (structWith .nil nickField .nil
      (.string false (utf8 "ab"))) nickField.key = [utf8 "minimal 3 karakter"] := by decide +kernel
  have hptr : reported (builtins readNothing) .inOrder (structWith .nil nickField .nil
      (.ptr (.string false (utf8 "ab")))) nickField.key = [] := by decide +kernel
  have hnil : reported (builtins readNothing) .inOrder (structWith .nil nickField .nil .nilPtr)
      nickField.key = [] := by decide +kernel
  refine ⟨⟨hvalue, fun h => ?_⟩, hnil, fun h => h ⟨[], by decide +kernel⟩ hnil⟩
  rw [ValidatedAlike, hvalue, hptr] at h
  exact absurd h.symm.eq_nil (cons_ne_nil _ _)

end Kiya.Validator
