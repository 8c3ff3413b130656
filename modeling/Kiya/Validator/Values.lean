import Kiya.Validator.Flatten

/-!
# Values and rules

The validator of `validator.go` looks at a struct by reflection: at the values of its fields, and at
their tags. Here a value carries what reflection tells of it, and a struct is the list of its
fields, each with its tags and its value. `flatten` is `flattenStruct` with the tags for rules; it
records the same as the model by types (`sameRecords_flattenStruct`). `readRules` is the part of
`mergeRules` that reads such a tag.

A rule is a function of its parameter and the value of a field that gives the text of an error, or
nothing. The built-in rules are here as the source has them; parsers of the standard library and the
rule `unique`, which asks the database, are parameters.
-/

namespace Kiya.Validator

/-! ### Structs -/

/-- The name and the tags of a field. -/
structure Field where
  name : Bytes
  exported : Bool
  form : Bytes
  validate : Bytes
  pivot : Bytes
deriving DecidableEq

mutual

/-- Values as reflection sees them. A string or a bool can be of a type with a name of its own, for
which a type assertion to `string` or `bool` fails. A float is given by its bits, a time by the
nanoseconds since the zero time. -/
inductive Value
  | string (named : Bool) (s : Bytes)
  | bool (named : Bool) (b : Bool)
  | int (i : ℤ)
  | float (bits : UInt64)
  | time (nanos : ℤ)
  -- An array, a map or a slice, by its length.
  | sized (length : ℕ)
  | nilPtr
  | ptr (v : Value)
  | nilInterface
  | interface (v : Value)
  | struct (fields : Fields)
  -- A function, a channel or a complex number.
  | other

/-- The fields of a struct with their values. -/
inductive Fields
  | nil
  | cons (f : Field) (v : Value) (rest : Fields)

end

/-- A struct of the given type with the given values. -/
def Fields.ofLists : List Field → List Value → Fields
  | f :: fs, v :: vs => .cons f v (ofLists fs vs)
  | _, _ => .nil

/-- One struct type behind another. -/
def Fields.append : Fields → Fields → Fields
  | .nil, fs => fs
  | .cons f v rest, fs => .cons f v (rest.append fs)

/-- `reflect.Value.Interface`: the value in an interface, nothing for nil. -/
def Value.toAny : Value → Option Value
  | .nilInterface => none
  | .interface v => some v
  | v => some v

/-- The key of a field in its struct. -/
def Field.key (f : Field) : Bytes := if f.form = [] then f.name else f.form

/-- What `flattenStruct` records for a field: the key, the value, and the tag for rules. -/
structure Entry where
  key : Bytes
  value : Option Value
  rules : Bytes

/-- Whether `flattenStruct` looks at a field. -/
def Field.isRead (f : Field) : Bool := f.exported && decide (f.key ≠ utf8 "-")

mutual

/-- `flattenStruct`, with what it records in order. -/
def Fields.flatten (pre : Bytes) : Fields → List Entry
  | .nil => []
  | .cons f v rest =>
    (if f.isRead then v.flatten (fullKey pre f.key) f.validate else []) ++ rest.flatten pre

/-- The body of the loop in `flattenStruct`, for a field that is looked at. -/
def Value.flatten (key rules : Bytes) : Value → List Entry
  | .nilPtr => []
  | .ptr (.struct fields) => fields.flatten key
  | .struct fields => fields.flatten key
  | v => [⟨key, v.toAny, rules⟩]

end

/-! ### Structs by their types -/

section Typed

open Decoder List

variable {T X : Type} (U : Types T) (R : Val X → Option Value → Prop)

/-- A field has the name and the tag for forms that reflection tells. -/
structure Field.Tells (g : Field) (f : StructField T) : Prop where
  name : g.name = f.name
  exported : g.exported = f.exported
  form : g.form = f.tag

/-- A value of a field as reflection sees it. If it is a struct or a pointer to one, then the fields
inside are given, with their types and as reflection sees them. Other values are related. -/
inductive Seen (f : StructField T) : Val X → List (StructField T × Val X) → Fields → Value → Prop
  | struct {fields : List (StructField T)} {v : Val X} {fs : Fields} :
    U.view f.typ = .struct fields → Seen f v (fields.zip (v.fields fields.length)) fs (.struct fs)
  | ptr {elem : T} {fields : List (StructField T)} {v : Val X} {fs : Fields} :
    U.view f.typ = .ptr elem → U.view elem = .struct fields →
    Seen f (.ptr v) (fields.zip (v.fields fields.length)) fs (.ptr (.struct fs))
  | nilPtr {elem : T} {v : Val X} : U.view f.typ = .ptr elem → (∀ w, v ≠ .ptr w) →
    Seen f v [] .nil .nilPtr
  | leaf {v : Val X} {x : Value} : IsLeaf U f v →
    (∀ elem fields, U.view f.typ = .ptr elem → U.view elem ≠ .struct fields) →
    (∀ key rules, x.flatten key rules = [⟨key, x.toAny, rules⟩]) → R v x.toAny → Seen f v [] .nil x

/-- The fields of a struct with their types and values, as reflection sees them. -/
inductive Shown : List (StructField T × Val X) → Fields → Prop
  | nil : Shown [] .nil
  | cons {f : StructField T} {v : Val X} {g : Field} {x : Value} {fs rest : Fields}
    {inner es : List (StructField T × Val X)} : g.Tells f → Seen U R f v inner fs x →
    Shown inner fs → Shown es rest → Shown ((f, v) :: es) (.cons g x rest)

/-- The same is recorded in the same order. -/
def SameRecords (found : List (Bytes × Val X)) (es : List Entry) : Prop :=
  Forall₂ (fun x e => x.1 = e.key ∧ R x.2 e.value) found es

variable {U R} {f : StructField T} {v : Val X} {g : Field} {x : Value} {fs : Fields}
  {es : List (StructField T × Val X)}

/-- What one pass of the loop records, if it is known for the fields inside. -/
theorem sameRecords_flattenField {n : ℕ} (hg : g.Tells f) (hx : Seen U R f v es fs x)
    (hinner : ∀ pre, ∃ found, flattenAll (flattenField U (flattenStruct U n) pre) es = some found ∧
      SameRecords R found (fs.flatten pre)) (pre : Bytes) :
    ∃ found, flattenField U (flattenStruct U (n + 1)) pre f v = some found ∧
      SameRecords R found (if g.isRead then x.flatten (fullKey pre g.key) g.validate else []) := by
  have hkey : g.key = fieldKey f := by rw [Field.key, fieldKey, hg.name, hg.form]
  rw [flattenField.eq_def, Field.isRead, hkey, hg.exported]
  by_cases hexported : f.exported = true
  swap
  · exact ⟨[], if_pos hexported, by simp [hexported, SameRecords]⟩
  by_cases hskip : fieldKey f = utf8 "-"
  · exact ⟨[], by rw [if_pos hskip, ite_self], by simp [hskip, SameRecords]⟩
  rw [if_neg (not_not_intro hexported), if_neg hskip, if_pos (by simp [hexported, hskip])]
  cases hx with
  | struct hview =>
    rw [hview]
    exact hinner _
  | ptr hview helem =>
    rw [hview]
    dsimp only
    rw [helem]
    exact hinner _
  | nilPtr hview hnil =>
    rw [hview]
    cases v with
    | ptr w => exact absurd rfl (hnil w)
    | _ => exact ⟨[], rfl, .nil⟩
  | leaf hleaf helem hself hrel =>
    rw [hself]
    cases hview : U.view f.typ with
    | struct fields => exact absurd hview (hleaf.1 fields)
    | ptr elem =>
      obtain ⟨w, rfl⟩ := hleaf.2 elem hview
      dsimp only
      cases helem' : U.view elem with
      | struct fields => exact absurd helem' (helem elem fields hview)
      | _ => exact ⟨_, rfl, .cons ⟨rfl, hrel⟩ .nil⟩
    | _ => exact ⟨_, rfl, .cons ⟨rfl, hrel⟩ .nil⟩

theorem sameRecords_flattenAll (h : Shown U R es fs) :
    ∃ N, ∀ n ≥ N, ∀ pre, ∃ found,
      flattenAll (flattenField U (flattenStruct U n) pre) es = some found ∧
        SameRecords R found (fs.flatten pre) := by
  induction h with
  | nil => exact ⟨0, fun _ _ _ => ⟨[], rfl, .nil⟩⟩
  | cons hg hx _ _ ihinner ih =>
    obtain ⟨N, hN⟩ := ihinner
    obtain ⟨N', hN'⟩ := ih
    refine ⟨max (N + 1) N', fun m hm pre => ?_⟩
    obtain ⟨n, rfl⟩ : ∃ n, m = n + 1 := Nat.exists_eq_succ_of_ne_zero (by omega)
    obtain ⟨first, hfirst, hsame⟩ := sameRecords_flattenField hg hx (hN n (by omega)) pre
    obtain ⟨rest, hrest, hsame'⟩ := hN' (n + 1) (by omega) pre
    exact ⟨first ++ rest, by rw [flattenAll, hfirst, hrest], rel_append hsame hsame'⟩

/-- **The two models of `flattenStruct`**, by types and by reflection, record the same. -/
theorem sameRecords_flattenStruct {fields : List (StructField T)} {vals : List (Val X)}
    (h : Shown U R (fields.zip vals) fs) :
    ∃ N, ∀ n ≥ N, ∀ pre, ∃ found, flattenStruct U n fields vals pre = some found ∧
      SameRecords R found (fs.flatten pre) := by
  obtain ⟨N, hN⟩ := sameRecords_flattenAll h
  refine ⟨N + 1, fun m hm pre => ?_⟩
  obtain ⟨n, rfl⟩ : ∃ n, m = n + 1 := Nat.exists_eq_succ_of_ne_zero (by omega)
  exact hN n (by omega) pre

end Typed

/-! ### Tags for rules -/

/-- A rule in a tag: its name and its parameter. -/
def parseRule (rule : Bytes) : Bytes × Bytes :=
  if 91 ∈ rule ∧ rule.getLast? = some 93 then
    (rule.takeWhile (· ≠ 91), (rule.dropWhile (· ≠ 91)).tail.dropLast)
  else (rule, [])

/-- The rules of a tag as `mergeRules` reads them, in order. -/
def readRules (tag : Bytes) : List (Bytes × Bytes) :=
  (((tag.splitOn 124).map Strings.trimSpace).filter (· ≠ [])).map parseRule

/-! ### Empty values -/

/-- `isEmpty`, of a value that is not nil. -/
def Value.isEmpty : Value → Bool
  | .string _ s => s.isEmpty
  | .bool _ b => !b
  | .int i => decide (i = 0)
  | .float bits => decide (bits = 0 ∨ bits = 2 ^ 63)
  | .time nanos => decide (nanos = 0)
  | .sized length => decide (length = 0)
  | .nilPtr => true
  | .ptr v => v.isEmpty
  | .nilInterface => true
  | .interface v => v.isEmpty
  | .struct _ => false
  | .other => false

/-- `isEmpty`. -/
def isEmpty : Option Value → Bool
  | none => true
  | some v => v.isEmpty

/-- The type assertion `val.(string)`. -/
def asString : Option Value → Option Bytes
  | some (.string false s) => some s
  | _ => none

/-! ### The built-in rules -/

/-- The parsers of `net/mail`, `net/url` and `strconv` that rules use, by what is read of their
results, and the rule that asks the database. -/
structure Env where
  -- The address, if the text can be parsed.
  parseAddress : Bytes → Option Bytes
  -- The scheme, if the text can be parsed.
  parseRequestURI : Bytes → Option Bytes
  parseFloat : Bytes → Bool
  unique : Bytes → Option Value → Option Bytes

/-- Libraries that read no text. -/
def readNothing : Env := ⟨fun _ => none, fun _ => none, fun _ => false, fun _ _ => none⟩

/-- The error for a value that has to be there. -/
def missing : Bytes := utf8 "harus diisi"

/-- The error for a text that is not of the right form. -/
def malformed : Bytes := utf8 "format tidak valid"

/-- The error for a value that is no number. -/
def notNumeric : Bytes := utf8 "harus berupa angka"

variable (env : Env) (val : Option Value)

/-- `valRequired`. -/
def valRequired : Option Bytes :=
  match val with
  | some (.string false []) => some missing
  | some (.time 0) => some missing
  | some (.bool false _) => none
  | none => some missing
  | some .nilPtr => some missing
  | some v => if v.isEmpty then some missing else none

/-- The symbols of which a password has to contain one. -/
def symbols : Bytes :=
  utf8 "!@#$%^&*()-_=+[]" ++ [123, 125] ++ utf8 "|;:" ++ [39, 34] ++ utf8 ",.<>?/" ++ [96] ++
    utf8 "~"

/-- `valSecPass`. The loop over runes looks for ASCII characters only, and these are bytes. -/
def valSecPass : Option Bytes :=
  match asString val with
  | none => some malformed
  | some s =>
    if s.length < 8 then some (utf8 "minimal 8 karakter")
    else if (∃ c ∈ s, 65 ≤ c ∧ c ≤ 90) ∧ (∃ c ∈ s, 97 ≤ c ∧ c ≤ 122) ∧
        (∃ c ∈ s, 48 ≤ c ∧ c ≤ 57) ∧ (∃ c ∈ s, c ∈ symbols) then none
    else some (utf8 "harus mengandung huruf besar, huruf kecil, angka, dan simbol")

/-- `valEmail`. -/
def valEmail : Option Bytes :=
  if isEmpty val then none
  else
    match asString val with
    | none => some malformed
    | some s =>
      match env.parseAddress s with
      | none => some malformed
      | some address => if address = [] then some malformed else none

/-- `valUrl`. -/
def valUrl : Option Bytes :=
  if isEmpty val then none
  else
    match asString val with
    | none => some malformed
    | some s =>
      match env.parseRequestURI s with
      | none => some malformed
      | some scheme =>
        if scheme ∈ ["http", "https", "ftp", "mailto"].map utf8 then none
        else some (utf8 "format tidak valid: skema tidak diizinkan")

/-- `valNumeric`. -/
def valNumeric : Option Bytes :=
  if isEmpty val then none
  else
    match val with
    | some (.int _) => none
    | some (.float _) => none
    | _ =>
      match asString val with
      | some s => if env.parseFloat s then none else some notNumeric
      | none => some notNumeric

/-- `strconv.Atoi`. -/
def atoi (param : Bytes) : Option ℤ :=
  match Numeral.parseInt 64 param with
  | .value p => some p
  | _ => none

/-- A rule for the length of a text: which texts are left out, which lengths are allowed, and the
words of the error in front of the number. -/
def valLengthRule (skip : Bytes → Bool) (allowed : ℤ → ℤ → Bool) (words : Bytes) (param : Bytes)
    (val : Option Value) : Option Bytes :=
  match asString val with
  | none => none
  | some s =>
    if skip s then none
    else
      match atoi param with
      | none => none
      | some p =>
        if allowed s.length p then none
        else some (words ++ Numeral.formatInt p ++ utf8 " karakter")

/-- `valLength`. -/
def valLength : Bytes → Option Value → Option Bytes :=
  valLengthRule List.isEmpty (fun n p => decide (n = p)) (utf8 "harus ")

/-- `valOpLength`. -/
def valOpLength : Bytes → Option Value → Option Bytes :=
  valLengthRule (fun s => (Strings.trimSpace s).isEmpty) (fun n p => decide (n = p)) (utf8 "harus ")

/-- `valMaxLength`. -/
def valMaxLength : Bytes → Option Value → Option Bytes :=
  valLengthRule List.isEmpty (fun n p => decide (n ≤ p)) (utf8 "maksimal ")

/-- `valMinLength`. -/
def valMinLength : Bytes → Option Value → Option Bytes :=
  valLengthRule List.isEmpty (fun n p => decide (p ≤ n)) (utf8 "minimal ")

/-- A rule that is registered: what it says about a value, and which parameters it can use. -/
structure RuleFunc where
  check : Bytes → Option Value → Option Bytes
  usable : Bytes → Bool

/-- The rules by their names. -/
abbrev Registry := Bytes → Option RuleFunc

/-- A rule that does not use its parameter. -/
def RuleFunc.simple (check : Option Value → Option Bytes) : RuleFunc :=
  ⟨fun _ => check, fun _ => true⟩

/-- A rule whose parameter is a number. -/
def RuleFunc.number (check : Bytes → Option Value → Option Bytes) : RuleFunc :=
  ⟨check, fun param => (atoi param).isSome⟩

/-- The map `validator` as `init` makes it. -/
def builtins : Registry := fun name =>
  if name = utf8 "required" then some (.simple valRequired)
  else if name = utf8 "email" then some (.simple (valEmail env))
  else if name = utf8 "length" then some (.number valLength)
  else if name = utf8 "op_length" then some (.number valOpLength)
  else if name = utf8 "maxlength" then some (.number valMaxLength)
  else if name = utf8 "minlength" then some (.number valMinLength)
  else if name = utf8 "url" then some (.simple (valUrl env))
  else if name = utf8 "numeric" then some (.simple (valNumeric env))
  else if name = utf8 "unique" then some ⟨env.unique, fun _ => true⟩
  else if name = utf8 "secpass" then some (.simple valSecPass)
  else none

end Kiya.Validator
