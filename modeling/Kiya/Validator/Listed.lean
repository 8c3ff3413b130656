import Kiya.Validator.Validate

/-!
# Rules that are listed

The documentation lists the rules of a field in its tag with commas between them; the validator
reads them with bars. `DocTag` is a tag in the documented form, with either. `Validate` is silent
about rules that it does not read as they are listed: one that is behind a comma becomes part of the
name or of the parameter of another one, one whose name comes twice is replaced, and the tags of
fields that `flattenStruct` passes over are not read at all. It is also silent about a name that is
not registered, and some rules about a parameter that they cannot use.

So a struct without errors has only accepted its listed rules, whatever the rules ask for, if and
only if all of them are known and can use their parameters, and each is read for the key of its
field, after the other rules of its name, and no later field has the key (`Checked`).
-/

namespace Kiya.Validator

open Strings Fields Option

/-! ### Tags in the documented form -/

/-- What stands between two rules. -/
inductive Separator
  | comma
  | pipe
deriving DecidableEq

/-- The separator in a tag. -/
def Separator.byte : Separator → UInt8
  | .comma => 44
  | .pipe => 124

/-- A rule in a tag: a name, or a name with a parameter in brackets. -/
structure ListedRule where
  name : Bytes
  param : Option Bytes
  name_ne : name ≠ []
  trimmed : Strings.trimSpace name = name
  name_plain : ∀ b ∈ name, b ≠ 44 ∧ b ≠ 124 ∧ b ≠ 91 ∧ b ≠ 93
  param_plain : ∀ p, param = some p → 93 ∉ p

/-- The parameter, which is empty if there is none. -/
def ListedRule.arg (r : ListedRule) : Bytes := r.param.getD []

/-- A rule as it is written. -/
def ListedRule.text (r : ListedRule) : Bytes :=
  match r.param with
  | none => r.name
  | some p => r.name ++ 91 :: (p ++ [93])

/-- A tag: rules with separators between them. -/
structure DocTag where
  first : ListedRule
  more : List (Separator × ListedRule)

/-- The rules of a tag. -/
def DocTag.rules (t : DocTag) : List ListedRule := t.first :: t.more.map Prod.snd

/-- A tag as it is written. -/
def DocTag.text (t : DocTag) : Bytes :=
  t.first.text ++ t.more.flatMap fun e => e.1.byte :: e.2.text

mutual

/-- The tags for rules of all fields of a struct, and of the structs in it, with the values of the
fields. -/
def Fields.listed : Fields → List (Bytes × Option Value)
  | .nil => []
  | .cons f v rest => (f.validate, v.toAny) :: (v.listed ++ rest.listed)

/-- The same for a struct that is the value of a field. -/
def Value.listed : Value → List (Bytes × Option Value)
  | .ptr (.struct fields) => fields.listed
  | .struct fields => fields.listed
  | _ => []

end

/-! ### What is expected, and when it is so -/

variable (reg : Registry) (r : ListedRule)

/-- The rule is registered and can use its parameter. -/
def Known : Prop :=
  ∃ fn, reg r.name = some fn ∧ fn.usable r.arg = true

/-- The rule says nothing against a value. -/
def Accepts (val : Option Value) : Prop :=
  ∀ fn, reg r.name = some fn → fn.check r.arg val = none

/-- `Validate` returns nil only if every listed rule is known and accepts the value of its field. -/
def FailsClosed (ranges : Ranges) (fields : Fields) : Prop :=
  (∃ v, (bind {} (.struct fields) none).validate reg ranges = some (false, v)) →
    ∀ e ∈ fields.listed, ∀ tag : DocTag, e.1 = tag.text → ∀ r ∈ tag.rules,
      Known reg r ∧ Accepts reg r e.2

/-- **A rule of a field is checked**: the field is read, no later field has its key, and of the
rules of this name that are listed for the key the last one has this parameter. -/
def Checked (fields : Fields) (r : ListedRule) (val : Option Value) : Prop :=
  ∃ before e after, fields.flatten [] = before ++ e :: after ∧ (∀ e' ∈ after, e'.key ≠ e.key) ∧
    e.value = val ∧ (fields.readFor e.key).reverse.lookup r.name = some r.arg

/-- The same names are registered, with the same parameters that they can use; what the rules say
about a value may differ. -/
def SameRules (reg' : Registry) : Prop :=
  ∀ name, (reg' name).map RuleFunc.usable = (reg name).map RuleFunc.usable

/-- A rule that was read rejects the value that was recorded for its field. -/
def Rejects (fields : Fields) : Prop :=
  ∃ key name param fn, (fields.rulesOf key).lookup name = some param ∧ reg name = some fn ∧
    fn.check param (fields.valueOf key) ≠ none

variable {fields : Fields} {r : ListedRule}

theorem errorsOf_ne_nil_iff {reg : Registry} {key : Bytes} :
    fields.errorsOf reg key ≠ [] ↔ ∃ name param fn,
      (fields.rulesOf key).lookup name = some param ∧ reg name = some fn ∧
        fn.check param (fields.valueOf key) ≠ none := by
  rw [errorsOf, ruleErrors, ne_eq, List.filterMap_eq_nil_iff]
  push Not
  constructor
  · rintro ⟨⟨name, param⟩, hmem, hcheck⟩
    cases hfn : reg name with
    | none =>
      rw [hfn] at hcheck
      exact absurd rfl hcheck
    | some fn =>
      rw [hfn] at hcheck
      exact ⟨name, param, fn, AList.mem_lookup_iff.mpr hmem, hfn, hcheck⟩
  · rintro ⟨name, param, fn, hlookup, hfn, hcheck⟩
    refine ⟨⟨name, param⟩, AList.mem_lookup_iff.mp hlookup, ?_⟩
    rwa [hfn]

/-- `Validate` returns nil if and only if no rule that was read rejects. -/
theorem validate_eq_nil_iff (ranges : Ranges) (fields : Fields) :
    (∃ v, (bind {} (.struct fields) none).validate reg ranges = some (false, v)) ↔
      ¬ Rejects reg fields := by
  obtain ⟨hglobal, -, -, hrows⟩ := bind_struct fields
  have hentries := validateStruct_entries_eq_nil_iff reg ranges 0 fields
  have hvalidate : (∃ v, (bind {} (.struct fields) none).validate reg ranges = some (false, v)) ↔
      ((bind {} (.struct fields) none).validateStruct reg ranges 0).validateErrors.entries =
        [] := by
    rw [validate, if_neg (not_not_intro hglobal), hrows]
    simp
  rw [hvalidate, hentries, Rejects, not_exists]
  refine forall_congr' fun key => ?_
  rw [← errorsOf_ne_nil_iff, not_not]

/-- Checked rules are those in the table that `Bind` makes. -/
theorem checked_iff {val : Option Value} : Checked fields r val ↔
    ∃ key, fields.valueOf key = val ∧ (fields.rulesOf key).lookup r.name = some r.arg := by
  constructor
  · rintro ⟨before, e, after, h, hafter, hvalue, hlookup⟩
    exact ⟨e.key, (valueOf_of_last h hafter).trans hvalue,
      (fields.lookup_rulesOf e.key r.name).trans hlookup⟩
  · rintro ⟨key, hvalue, hlookup⟩
    rw [lookup_rulesOf] at hlookup
    have hkey : ∃ e ∈ fields.flatten [], e.key = key := by
      by_contra hnone
      have hnil : fields.readFor key = [] := by
        rw [readFor, List.filter_eq_nil_iff.mpr fun e he heq =>
          hnone ⟨e, he, of_decide_eq_true heq⟩]
        rfl
      rw [hnil] at hlookup
      cases hlookup
    obtain ⟨before, e, after, h, rfl, hafter⟩ := exists_last hkey
    exact ⟨before, e, after, h, hafter, (valueOf_of_last h hafter).symm.trans hvalue, hlookup⟩

/-- The registered rules with other judgements. -/
def judging (check : Bytes → Bytes → Option Value → Option Bytes) : Registry :=
  fun name => (reg name).map fun fn => { fn with check := check name }

theorem sameRules_judging (check : Bytes → Bytes → Option Value → Option Bytes) :
    SameRules reg (judging reg check) := by
  intro name
  rw [judging, map_map]
  rfl

theorem exists_of_rejects_judging {reg : Registry}
    {check : Bytes → Bytes → Option Value → Option Bytes}
    (h : Rejects (judging reg check) fields) : ∃ key name param,
      (fields.rulesOf key).lookup name = some param ∧
        check name param (fields.valueOf key) ≠ none := by
  obtain ⟨key, name, param, fn, hlookup, hfn, hcheck⟩ := h
  obtain ⟨fn', -, rfl⟩ := map_eq_some_iff.mp hfn
  exact ⟨key, name, param, hlookup, hcheck⟩

theorem Known.congr {reg reg' : Registry} (hsame : SameRules reg reg') (h : Known reg' r) :
    Known reg r := by
  obtain ⟨fn, hfn, husable⟩ := h
  have hmap := hsame r.name
  rw [hfn, map_some] at hmap
  obtain ⟨fn', hfn', heq⟩ := map_eq_some_iff.mp hmap.symm
  exact ⟨fn', hfn', heq ▸ husable⟩

/-- A rule without a parameter. -/
def requiredRule : ListedRule where
  name := utf8 "required"
  param := none
  name_ne := by decide
  trimmed := by decide +kernel
  name_plain := by decide +kernel
  param_plain := nofun

@[inherit_doc requiredRule]
def emailRule : ListedRule where
  name := utf8 "email"
  param := none
  name_ne := by decide
  trimmed := by decide +kernel
  name_plain := by decide +kernel
  param_plain := nofun

/-- The fields of a login without an address, with the given tag. -/
def loginFields (tag : Bytes) : Fields :=
  .cons ⟨utf8 "Email", true, [], tag, []⟩ (.string false [])
    (.cons ⟨utf8 "Password", true, [], utf8 "required", []⟩ (.string false (utf8 "secret")) .nil)

-- With a bar the address of the login is checked.
example : Checked (loginFields (utf8 "required|email")) emailRule (some (.string false [])) :=
  ⟨[], _, _, rfl, by decide +kernel, rfl, by decide +kernel⟩

end Kiya.Validator
