import Kiya.Lib.Sql.Text
import Kiya.Db.Reflect

/-!
# The query builder

The state of a `Builder`, the calls that add conditions to it, and the tenant scope.

The fields are those of the source, with these differences: the executor is represented by
whether it is a transaction, the action and its data are arguments of `build`, and select
expressions have no arguments, since no call gives them any. A condition keeps its connective,
its text and its arguments; the text is not parsed by the code, only joined.
-/

namespace Kiya

open Sql

/-! ### Errors -/

/-- The errors of the operations. -/
inductive Err where
  | whereClauseRequired
  | emptyData
  | tableRequired
  | invalidTableName
  | destinationNil
  | modelNil
  | recordNotFound
  | message (text : String)
  | db (code : Nat)
  | historyColumnHint (cause : Err)
  | panic
  deriving DecidableEq, Repr

/-- The text of an error. -/
def Err.error : Err → String
  | .whereClauseRequired => "kiya: update/delete requires a WHERE clause (safety check)"
  | .emptyData => "kiya: insert/update data cannot be empty"
  | .tableRequired => "kiya: table name is required"
  | .invalidTableName => "kiya: invalid table name"
  | .destinationNil => "kiya: destination is nil"
  | .modelNil => "kiya: model is nil"
  | .recordNotFound => "data tidak ditemukan"
  | .message text => text
  | .db code => "database error " ++ toString code
  | .historyColumnHint cause =>
    "kiya: gagal membaca kolom history (kalau tabel ini tidak punya kolom history, " ++
      "panggil .NoHistory()): " ++ cause.error
  | .panic => "panic"

/-! ### Operands -/

/-- A value of type `any` that a caller passes as data or destination, as far as `reflect`
distinguishes it here. A slice is given by the struct type of its elements, if they are
structs or pointers to structs. -/
inductive Any where
  | nil
  | structPtr (s : Struct)
  | nilPtr
  | struct (s : Struct)
  | slicePtr (elem : Option StructType)
  | otherPtr
  | map (m : GoMap Value)
  | otherMap
  | other

/-- The request's resources: the current user, if they can name one. -/
structure Res where
  actor : Option (Value × String)

/-- A scope function: the columns every statement is to be restricted to. -/
abbrev ScopeFunc := List String → Res → GoMap Value

/-- `getTableNameFromModel`. -/
def getTableNameFromModel : Any → Except Err String
  | .nil => .error .panic
  | .nilPtr => .error (.message "model is nil")
  | .structPtr s => .ok s.type.tableName
  | .struct s => .ok s.type.tableName
  | .slicePtr (some t) => .ok t.tableName
  | .slicePtr none => .error (.message "model must be a struct or slice of structs")
  | .otherPtr => .error (.message "model must be a struct or slice of structs")
  | .map _ => .error (.message "model must be a struct or slice of structs")
  | .otherMap => .error (.message "model must be a struct or slice of structs")
  | .other => .error (.message "model must be a struct or slice of structs")

/-! ### Identifiers -/

/-- The characters of an identifier. -/
def isIdentChar (c : Char) : Bool := c.isAlphanum || c = '_' || c = '.'

/-- `SanitizeIdentifier`: the identifier itself, or the empty string. -/
def sanitizeIdentifier (ident : String) : String :=
  if ident = "" then "" else if ident.toList.all isIdentChar then ident else ""

/-- Is the identifier accepted? -/
def isIdent (ident : String) : Bool := ident ≠ "" && ident.toList.all isIdentChar

variable {ident : String}

theorem sanitizeIdentifier_of_isIdent (h : isIdent ident = true) :
    sanitizeIdentifier ident = ident := by
  obtain ⟨hne, hall⟩ : ident ≠ "" ∧ ident.toList.all isIdentChar = true := by
    simpa [isIdent] using h
  rw [sanitizeIdentifier, if_neg hne, if_pos hall]

theorem sanitizeIdentifier_of_not_isIdent (h : isIdent ident = false) :
    sanitizeIdentifier ident = "" := by
  unfold sanitizeIdentifier
  split_ifs with hempty hall
  · rfl
  · simp [isIdent, hempty, hall] at h
  · rfl

/-! ### The builder -/

/-- A condition: its connective, its text and its arguments. -/
structure WhereClause where
  boolean : Conn
  expr : String
  args : List Value

/-- A join. -/
structure JoinClause where
  typ : String
  table : String
  on : String

/-- The two dialects. -/
inductive Dialect where
  | mysql
  | postgres
  deriving DecidableEq, Repr

/-- The state of a query builder. -/
structure Builder where
  table : String := ""
  selects : List String := []
  joins : List JoinClause := []
  wheres : List WhereClause := []
  groupBys : List String := []
  havings : List WhereClause := []
  orderBys : List String := []
  limit : Option Int := none
  offset : Option Int := none
  nullableCols : List String := []
  onDuplicateUpdateCols : List String := []
  rawQuery : String := ""
  rawArgs : List Value := []
  dialect : Dialect := .mysql
  inTx : Bool := false
  dest : Any := .nil
  res : Option Res := none
  scope : Option ScopeFunc := none
  softDeleteCondition : String := ""
  scopeSkipped : Bool := false
  scopeApplied : Bool := false
  unsafeAllowEmptyWhere : Bool := false
  lockForUpdate : Bool := false
  historyTrackingDisabled : Bool := false

namespace Builder

/-! ### Conditions -/

variable (b : Builder) (col : String) (vals : List Value) (val : Value)

/-- `Where`. -/
def whereExpr (expr : String) (args : List Value) : Builder :=
  { b with wheres := b.wheres ++ [⟨.and, expr, args⟩] }

/-- `OrWhere`. -/
def orWhere (expr : String) (args : List Value) : Builder :=
  { b with wheres := b.wheres ++ [⟨.or, expr, args⟩] }

/-- A condition on a column: the column, a text after it and arguments. A column that is no
identifier adds nothing. -/
def whereCol (rest : String) (args : List Value) : Builder :=
  if sanitizeIdentifier col = "" then b else b.whereExpr (sanitizeIdentifier col ++ rest) args

/-- `WhereEq`. -/
def whereEq : Builder := b.whereCol col " = ?" [val]

/-- `WhereNotEq`. -/
def whereNotEq : Builder :=
  b.whereCol col " != ?" [val]

/-- `WhereGt`. -/
def whereGt : Builder := b.whereCol col " > ?" [val]

/-- `WhereGte`. -/
def whereGte : Builder :=
  b.whereCol col " >= ?" [val]

/-- `WhereLt`. -/
def whereLt : Builder := b.whereCol col " < ?" [val]

/-- `WhereLte`. -/
def whereLte : Builder :=
  b.whereCol col " <= ?" [val]

/-- `WhereLike`. -/
def whereLike (pattern : String) : Builder :=
  b.whereCol col " LIKE ?" [.str (.text pattern)]

/-- `WhereNull`. -/
def whereNull : Builder := b.whereCol col " IS NULL" []

/-- A list of placeholders: `?, ?, ?`. -/
def placeholders : String := ", ".intercalate (vals.map fun _ => "?")

/-- `WhereIn`; an empty list matches nothing. -/
def whereIn : Builder :=
  if sanitizeIdentifier col = "" then b
  else if vals.isEmpty then b.whereExpr "1 = 0" []
  else b.whereCol col (" IN (" ++ placeholders vals ++ ")") vals

/-- `WhereNotIn`; an empty list adds nothing. -/
def whereNotIn : Builder :=
  if vals.isEmpty then b else b.whereCol col (" NOT IN (" ++ placeholders vals ++ ")") vals

end Builder

/-- A call that adds a condition. -/
inductive CondCall where
  | expr (text : String) (args : List Value)
  | orExpr (text : String) (args : List Value)
  | eq (col : String) (val : Value)
  | notEq (col : String) (val : Value)
  | gt (col : String) (val : Value)
  | gte (col : String) (val : Value)
  | lt (col : String) (val : Value)
  | lte (col : String) (val : Value)
  | like (col pattern : String)
  | inList (col : String) (vals : List Value)
  | notInList (col : String) (vals : List Value)
  | null (col : String)

/-- Make the call. -/
def CondCall.apply (b : Builder) : CondCall → Builder
  | .expr text args => b.whereExpr text args
  | .orExpr text args => b.orWhere text args
  | .eq col val => b.whereEq col val
  | .notEq col val => b.whereNotEq col val
  | .gt col val => b.whereGt col val
  | .gte col val => b.whereGte col val
  | .lt col val => b.whereLt col val
  | .lte col val => b.whereLte col val
  | .like col pattern => b.whereLike col pattern
  | .inList col vals => b.whereIn col vals
  | .notInList col vals => b.whereNotIn col vals
  | .null col => b.whereNull col

/-! ### Joined conditions -/

/-- The conditions after the first, each with its connective before it. -/
def joinRest : List WhereClause → String
  | [] => ""
  | w :: ws => " " ++ w.boolean.text ++ " " ++ w.expr ++ joinRest ws

/-- The conditions one after the other; the connective of the first is not written. -/
def joinWheres : List WhereClause → String
  | [] => ""
  | w :: ws => w.expr ++ joinRest ws

/-- The arguments of the conditions, in order. -/
def joinArgs (ws : List WhereClause) : List Value := ws.flatMap (·.args)

/-! ### The scope -/

/-- The columns of a scope that are identifiers, in increasing order, as conditions. -/
def scopeClauses (conds : GoMap Value) : List WhereClause :=
  (conds.sortedKeys.filter fun k => sanitizeIdentifier k ≠ "").map fun k =>
    ⟨.and, sanitizeIdentifier k ++ " = ?", [(conds.get k).getD .nil]⟩

/-- Conditions put in parentheses, as one condition. -/
def parenthesised (ws : List WhereClause) : WhereClause :=
  ⟨.and, "(" ++ joinWheres ws ++ ")", joinArgs ws⟩

namespace Builder

variable (b : Builder)

/-- Is the destination a nil pointer? -/
def destIsNilPtr : Bool :=
  match b.dest with
  | .nilPtr => true
  | _ => false

/-- The columns a scope function is told about. -/
def scopeFields : List String :=
  if b.selects.isEmpty then
    match b.dest with
    | .structPtr s => s.type.info.map (·.name)
    | .struct s => s.type.info.map (·.name)
    | _ => []
  else b.selects

/-- The conditions of the scope; none if there is no scope function, if there are no resources,
if the scope is skipped, or if the columns cannot be told from a nil pointer. -/
def scopeGroup : List WhereClause :=
  match b.scope, b.res with
  | some scope, some res =>
    if b.scopeSkipped then []
    else if b.selects.isEmpty && b.destIsNilPtr then []
    else scopeClauses (scope b.scopeFields res)
  | _, _ => []

/-- The conditions with those of the scope. -/
def scopedWheres : List WhereClause :=
  if b.scopeGroup.isEmpty then b.wheres
  else if b.wheres.isEmpty then [parenthesised b.scopeGroup]
  else [parenthesised b.wheres, parenthesised b.scopeGroup]

/-- `applyScope`: once, put the conditions so far in parentheses and add those of the
scope. -/
def applyScope : Builder :=
  if b.scopeApplied then b else { b with scopeApplied := true, wheres := b.scopedWheres }

variable (b : Builder)

/-- Applying the scope changes the conditions, and says that it was applied. -/
theorem applyScope_eq :
    b.applyScope = { b with scopeApplied := true, wheres := b.applyScope.wheres } := by
  unfold applyScope
  split_ifs with happlied
  · cases b
    simp_all
  · rfl

@[simp] theorem scopeApplied_applyScope : b.applyScope.scopeApplied = true := by
  rw [applyScope_eq]

@[simp] theorem selects_applyScope : b.applyScope.selects = b.selects := by
  rw [applyScope_eq]

@[simp] theorem dialect_applyScope : b.applyScope.dialect = b.dialect := by
  rw [applyScope_eq]

@[simp] theorem inTx_applyScope : b.applyScope.inTx = b.inTx := by
  rw [applyScope_eq]

@[simp] theorem rawQuery_applyScope : b.applyScope.rawQuery = b.rawQuery := by
  rw [applyScope_eq]

@[simp] theorem softDeleteCondition_applyScope :
    b.applyScope.softDeleteCondition = b.softDeleteCondition := by
  rw [applyScope_eq]

@[simp] theorem historyTrackingDisabled_applyScope :
    b.applyScope.historyTrackingDisabled = b.historyTrackingDisabled := by
  rw [applyScope_eq]

@[simp] theorem unsafeAllowEmptyWhere_applyScope :
    b.applyScope.unsafeAllowEmptyWhere = b.unsafeAllowEmptyWhere := by
  rw [applyScope_eq]

/-- `ClearSoftDeleteCondition`. -/
def clearSoftDeleteCondition (b : Builder) : Builder := { b with softDeleteCondition := "" }

/-- `checkWhereRequired`. -/
def checkWhereRequired (b : Builder) : Except Err Unit :=
  if b.wheres.isEmpty && !b.unsafeAllowEmptyWhere then .error .whereClauseRequired else .ok ()

end Builder

end Kiya
