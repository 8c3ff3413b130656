import Kiya.Db.Builder

/-!
# Statements

The SQL a builder issues. A statement is kept in the parts its text is written in: what comes
before the condition, the condition, and what comes after it, each with its arguments, together
with what it does. `Stmt.text` puts the parts together; the placeholders of the text are the
arguments in order, and a PostgreSQL connection numbers them.

`whereText` is the condition, joined from the soft-delete condition and the conditions of the
builder by one of three rules.
-/

namespace Kiya

open Sql GoMap

/-- A condition as it stands in a statement: its text and the arguments of its placeholders. -/
structure Where where
  text : String
  args : List Value

/-- What a statement does. An insert can overwrite some columns of a row that is there already. -/
inductive StmtKind where
  | select (cols : List String) (lock : Bool)
  | insert (cols : GoMap Value) (overwritten : List String)
  | update (sets : GoMap Value)
  | delete
  | raw
  | empty

/-- A statement, in the parts of its text. -/
structure Stmt where
  kind : StmtKind
  table : String
  head : String
  headArgs : List Value := []
  cond : Option Where := none
  tail : String := ""
  tailArgs : List Value := []

/-- The text of a condition in a statement. -/
def condText : Option Where → String
  | none => ""
  | some w => " WHERE " ++ w.text

/-- The arguments of a condition in a statement. -/
def condArgs : Option Where → List Value
  | none => []
  | some w => w.args

/-- The text of a statement. -/
def Stmt.text (s : Stmt) : String := s.head ++ condText s.cond ++ s.tail

/-- The arguments of a statement. -/
def Stmt.args (s : Stmt) : List Value := s.headArgs ++ condArgs s.cond ++ s.tailArgs

/-- What a builder is asked to build. -/
inductive Action where
  | select
  | insert (inserts : GoMap Value) (primaryKeys : List String) (autoIncCol : String)
  | update (updates : GoMap Value)
  | delete

/-- The conditions, each after an `AND`. -/
def andAll : List WhereClause → String
  | [] => ""
  | w :: ws => " AND " ++ w.expr ++ andAll ws

/-- Was a condition added with `OrWhere`? -/
def hasOr (ws : List WhereClause) : Bool := ws.any fun w => w.boolean = .or

namespace Builder

variable (b : Builder)

/-- The condition that `buildWheres` writes after `WHERE`, if it writes one. -/
def whereText : Option Where :=
  if b.wheres.isEmpty && b.softDeleteCondition = "" then none
  else if b.softDeleteCondition ≠ "" then
    if b.wheres.isEmpty then some ⟨b.softDeleteCondition, []⟩
    else if hasOr b.wheres then
      some ⟨b.softDeleteCondition ++ " AND (" ++ joinWheres b.wheres ++ ")", joinArgs b.wheres⟩
    else some ⟨b.softDeleteCondition ++ andAll b.wheres, joinArgs b.wheres⟩
  else some ⟨joinWheres b.wheres, joinArgs b.wheres⟩

/-- `buildSelect`. -/
def buildSelect : Stmt :=
  { kind := .select b.selects b.lockForUpdate
    table := b.table
    head := "SELECT " ++ (if b.selects.isEmpty then "*" else ", ".intercalate b.selects) ++
      (if b.table = "" then " FROM undefined_table " else " FROM " ++ b.table) ++
      String.join (b.joins.map fun j =>
        " " ++ j.typ ++ " JOIN " ++ j.table ++ " ON " ++ j.on)
    cond := b.whereText
    tail := (if b.groupBys.isEmpty then "" else " GROUP BY " ++ ", ".intercalate b.groupBys) ++
      (if b.havings.isEmpty then "" else " HAVING " ++ joinWheres b.havings) ++
      (if b.orderBys.isEmpty then "" else " ORDER BY " ++ ", ".intercalate b.orderBys) ++
      (if b.limit.isSome then " LIMIT ?" else "") ++
      (if b.offset.isSome then " OFFSET ?" else "") ++
      (if b.lockForUpdate then " FOR UPDATE" else "")
    tailArgs := joinArgs b.havings ++ (b.limit.toList ++ b.offset.toList).map .int }

/-- The columns of a map that are identifiers, in increasing order, with their values. -/
def columnsOf (m : GoMap Value) : GoMap Value :=
  (m.sortedKeys.filter fun k => sanitizeIdentifier k ≠ "").map fun k =>
    (k, (m.get k).getD .nil)

theorem get_columnsOf (m : GoMap Value) (c : String) :
    (columnsOf m).get c = if sanitizeIdentifier c = "" then none else m.get c := by
  have hkeys : (columnsOf m).map Prod.fst =
      m.sortedKeys.filter fun k => sanitizeIdentifier k ≠ "" := by
    simp [columnsOf, Function.comp_def]
  split_ifs with hc
  · refine get_eq_none fun h => ?_
    rw [hkeys] at h
    simpa [hc] using (List.mem_filter.mp h).2
  · by_cases hmem : c ∈ m.map Prod.fst
    · obtain ⟨v, hv⟩ := exists_get hmem
      have hin : c ∈ m.sortedKeys.filter fun k => sanitizeIdentifier k ≠ "" :=
        List.mem_filter.mpr ⟨mem_sortedKeys.mpr hmem, by simpa using hc⟩
      rw [columnsOf, get_map_mk hin, hv, Option.getD_some]
    · rw [get_eq_none hmem]
      refine get_eq_none fun h => ?_
      rw [hkeys] at h
      exact hmem (mem_sortedKeys.mp (List.mem_filter.mp h).1)

/-- The columns that an upsert overwrites. -/
def overwritten : List String :=
  b.onDuplicateUpdateCols.filter fun c => sanitizeIdentifier c ≠ ""

/-- The part of an `INSERT` that turns it into an upsert. -/
def onConflict (primaryKeys : List String) : String :=
  let cols := b.overwritten
  if cols.isEmpty then ""
  else match b.dialect with
    | .mysql => " ON DUPLICATE KEY UPDATE " ++
        ", ".intercalate (cols.map fun c => c ++ " = VALUES(" ++ c ++ ")")
    | .postgres => " ON CONFLICT (" ++
        (if primaryKeys.isEmpty then "id" else ", ".intercalate primaryKeys) ++
        ") DO UPDATE SET " ++ ", ".intercalate (cols.map fun c => c ++ " = EXCLUDED." ++ c)

/-- `buildInsert`. -/
def buildInsert (inserts : GoMap Value) (primaryKeys : List String) (autoIncCol : String) : Stmt :=
  let cols := columnsOf inserts
  if cols.isEmpty then { kind := .empty, table := b.table, head := "" }
  else
    { kind := .insert cols b.overwritten
      table := b.table
      head := "INSERT INTO " ++ b.table ++ " (" ++ ", ".intercalate (cols.map Prod.fst) ++
        ") VALUES (" ++ placeholders (cols.map Prod.snd) ++ ")"
      headArgs := cols.map Prod.snd
      tail := b.onConflict primaryKeys ++
        (if autoIncCol ≠ "" && b.dialect = .postgres then
          " RETURNING " ++ sanitizeIdentifier autoIncCol
        else "") }

/-- `buildUpdate`; without a valid column nothing is written. -/
def buildUpdate (updates : GoMap Value) : Stmt :=
  let sets := columnsOf updates
  if sets.isEmpty then { kind := .empty, table := b.table, head := "" }
  else
    { kind := .update sets
      table := b.table
      head := "UPDATE " ++ b.table ++ " SET " ++
        ", ".intercalate (sets.map fun p => p.1 ++ " = ?")
      headArgs := sets.map Prod.snd
      cond := b.whereText }

/-- `buildDelete`. -/
def buildDelete : Stmt :=
  { kind := .delete, table := b.table, head := "DELETE FROM " ++ b.table, cond := b.whereText }

/-- `buildRaw`. -/
def build (a : Action) : Stmt :=
  if b.rawQuery ≠ "" then
    { kind := .raw, table := b.table, head := b.rawQuery, headArgs := b.rawArgs }
  else match a with
    | .select => b.buildSelect
    | .insert inserts primaryKeys autoIncCol => b.buildInsert inserts primaryKeys autoIncCol
    | .update updates => b.buildUpdate updates
    | .delete => b.buildDelete

end Builder

/-- Does the statement select, update or delete rows by a condition? -/
def StmtKind.isConditional : StmtKind → Bool
  | .select _ _ => true
  | .update _ => true
  | .delete => true
  | _ => false

/-- Statements that read or write rows by a condition have the condition of the builder. -/
theorem Builder.cond_build {b : Builder} {a : Action}
    (h : (b.build a).kind.isConditional = true) : (b.build a).cond = b.whereText := by
  unfold Builder.build at h ⊢
  split_ifs with hraw
  · simp [hraw, StmtKind.isConditional] at h
  · cases a with
    | select => rfl
    | insert inserts primaryKeys autoIncCol =>
      simp only [if_neg hraw, buildInsert] at h
      split_ifs at h <;> cases h
    | update updates =>
      simp only [if_neg hraw, buildUpdate] at h ⊢
      split_ifs at h ⊢
      · cases h
      · rfl
    | delete => rfl

end Kiya
