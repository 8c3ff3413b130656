import Kiya.Db.Scope
import Kiya.Db.Server

/-!
# Which rows a WHERE text finds

A database reads a WHERE text with the precedence of SQL, and what an atomic condition says of a
row is left open. `Server.ReadsSql` states this, `sqlServer` is a database that does it, and
`Server.ReadsSql.sat_whereText_iff` says which rows the text of a builder finds: the ones that
meet one of its branches.
-/

namespace Kiya

open Sql Builder

/-- The database reads conditions with the precedence of SQL; `meaning` gives the truth of an
atomic condition for a row. -/
structure Server.ReadsSql (sv : Server) (meaning : Stored → Atom Value → Truth) : Prop where
  sat_none : ∀ r, sv.sat none r = true
  sat_some : ∀ {w ts} (r), parseText w.text w.args = some ts →
    (sv.sat (some w) r = true ↔ evalTerms (meaning r) ts = .true)

/-- A database that reads conditions and finds nothing by a text it cannot read. -/
def sqlServer (meaning : Stored → Atom Value → Truth) : Server :=
  { plainServer fun _ => true with
    sat := fun cond r =>
      match cond with
      | none => true
      | some w =>
        match parseText w.text w.args with
        | some ts => evalTerms (meaning r) ts = .true
        | none => false }

theorem readsSql_sqlServer (meaning : Stored → Atom Value → Truth) :
    (sqlServer meaning).ReadsSql meaning := by
  refine ⟨fun _ => rfl, fun {w ts} r hparse => ?_⟩
  simp [sqlServer, hparse]

/-- The integer of a stored value. -/
def DbVal.toInt? : DbVal → Option Int
  | .int n => some n
  | .uint n => some n
  | _ => none

/-- The truth of simple conditions: a column that is compared with an argument, or that is
`NULL`, or that is not in a list of integers. -/
def simpleMeaning (r : Stored) : Atom Value → Truth
  | [.word col, .sym '=', .arg v] =>
    if r (.ofList col) = .null ∨ v.store = .null then .unknown
    else .ofBool (r (.ofList col) = v.store)
  | [.word col, .sym '>', .arg (.int n)] =>
    match (r (.ofList col)).toInt? with
    | some m => .ofBool (n < m)
    | none => .unknown
  | [.word col, .word _, .word _] => .ofBool (r (.ofList col) = .null)
  | .word col :: items =>
    match (r (.ofList col)).toInt? with
    | some m => .ofBool (.arg (.int m) ∉ items)
    | none => .unknown
  | _ => .unknown

/-- The conditions of the scope that are still to be added. -/
def Builder.pendingScope (b : Builder) : List WhereClause :=
  if b.scopeApplied then [] else b.scopeGroup

theorem pendingScope_wellFormed {b : Builder} (hscope : ∀ w ∈ b.scopeGroup, w.WellFormed) :
    ∀ w ∈ b.pendingScope, w.WellFormed := by
  unfold pendingScope
  split_ifs
  · simp
  · exact hscope

theorem wheres_applyScope (c : Builder) :
    c.applyScope.wheres =
      if c.pendingScope.isEmpty then c.wheres
      else if c.wheres.isEmpty then [parenthesised c.pendingScope]
      else [parenthesised c.wheres, parenthesised c.pendingScope] := by
  unfold applyScope pendingScope scopedWheres
  cases c.scopeApplied <;> simp

variable {c : Builder}

theorem wellFormed_applyScope (hwf : c.WellFormed)
    (hscope : ∀ w ∈ c.scopeGroup, w.WellFormed) : c.applyScope.WellFormed := by
  refine ⟨?_, by simpa using hwf.soft⟩
  have hpending := pendingScope_wellFormed hscope
  rw [wheres_applyScope]
  split_ifs with hp hw
  · exact hwf.wheres
  · obtain ⟨e, he, -⟩ := parenthesised_terms (by simpa using hp) hpending
    simpa using he
  · obtain ⟨e, he, -⟩ := parenthesised_terms (by simpa using hp) hpending
    obtain ⟨e', he', -⟩ := parenthesised_terms (by simpa using hw) hwf.wheres
    simpa using ⟨he', he⟩

/-- A WHERE text that is written can be read. -/
theorem exists_whereTerms (hwf : c.WellFormed) (h : c.whereText ≠ none) :
    ∃ ts, c.whereTerms = some ts := by
  by_cases hsoft : c.softDeleteCondition = ""
  · refine ⟨_, whereTerms_of_no_soft hwf hsoft fun hnil => h ?_⟩
    simp [whereText, hsoft, hnil]
  by_cases hw : c.wheres = []
  · exact ⟨_, whereTerms_of_soft_only hwf hsoft hw⟩
  cases hor : hasOr c.wheres with
  | false => exact ⟨_, whereTerms_of_soft_and hwf hsoft hw hor⟩
  | true =>
    obtain ⟨e, -, hterms⟩ := whereTerms_of_soft_or hwf hsoft hor
    exact ⟨_, hterms⟩

/-- Which rows a database finds by a WHERE text. -/
theorem Server.ReadsSql.sat_whereText_iff {sv : Server} {meaning : Stored → Atom Value → Truth}
    (hsql : sv.ReadsSql meaning) (hwf : c.WellFormed) (r : Stored) : sv.sat c.whereText r = true ↔
      ∃ t ∈ c.whereTerms.getD [[]], evalBranch (meaning r) t = .true := by
  rw [← evalTerms_eq_true]
  cases htext : c.whereText with
  | none => simp [whereTerms, htext, hsql.sat_none]
  | some w =>
    obtain ⟨ts, hts⟩ := exists_whereTerms hwf (by simp [htext])
    rw [hts, Option.getD_some]
    rw [whereTerms, htext] at hts
    exact hsql.sat_some r hts

end Kiya
