import Kiya.Db.Placeholder

/-!
# Statements in pieces

`Build` returns the text of a statement, in the form of the dialect, and its arguments. Here the
text is cut into pieces: each fragment that a caller supplied or that stands for a column, with its
own arguments, after the separator that the builder writes before it. That text and arguments of a
statement are those of its pieces, in the same order, is what keeps them aligned.
-/

namespace Kiya

open Sql Builder Stmt List Function

/-! ### What is built -/

/-- An expression in a `SELECT`, with its arguments. -/
structure SelectClause where
  expr : String
  args : List Value := []

/-- What `Build` is asked for. -/
inductive BuildAction where
  | select (clauses : List SelectClause)
  | insert (inserts : GoMap Value) (primaryKeys : List String) (autoIncCol : String)
  | insertBatch (rows : List (GoMap Value)) (primaryKeys : List String)
  | update (updates : GoMap Value)
  | delete

/-- The columns of an `INSERT` of several rows: those of the first row that are identifiers. -/
def batchCols (rows : List (GoMap Value)) : List String :=
  match rows with
  | [] => []
  | m :: _ => m.sortedKeys.filter fun k => sanitizeIdentifier k ≠ ""

/-- The values of a row for the columns; a column that the row lacks is `nil`. -/
def batchRow (cols : List String) (m : GoMap Value) : List Value :=
  cols.map fun c => (m.get c).getD .nil

namespace Builder

variable (b : Builder)

/-- `buildSelect`, with the arguments of the select expressions. -/
def buildSelectClauses (clauses : List SelectClause) : Stmt :=
  { ({ b with selects := clauses.map (·.expr) } : Builder).buildSelect with
    headArgs := clauses.flatMap (·.args) }

/-- `buildInsertBatch`, with the columns, placeholders and arguments from `InsertBatch`. -/
def buildInsertBatch (rows : List (GoMap Value)) (primaryKeys : List String) : Stmt :=
  let cols := batchCols rows
  if cols.isEmpty then { kind := .empty, table := b.table, head := "" }
  else
    { kind := .insert (rows.flatMap fun m => cols.zip (batchRow cols m)) b.overwritten
      table := b.table
      head := "INSERT INTO " ++ b.table ++ " (" ++ ", ".intercalate cols ++ ") VALUES " ++
        ", ".intercalate (rows.map fun m => "(" ++ placeholders (batchRow cols m) ++ ")")
      headArgs := rows.flatMap (batchRow cols)
      tail := b.onConflict primaryKeys }

/-- `buildRaw`. -/
def buildRaw (a : BuildAction) : Stmt :=
  if b.rawQuery ≠ "" then b.build .select
  else match a with
    | .select clauses => b.buildSelectClauses clauses
    | .insert inserts primaryKeys autoIncCol => b.buildInsert inserts primaryKeys autoIncCol
    | .insertBatch rows primaryKeys => b.buildInsertBatch rows primaryKeys
    | .update updates => b.buildUpdate updates
    | .delete => b.buildDelete

/-- `Build`. -/
def buildSql (a : BuildAction) : String × List Value :=
  (b.dialect.convertPlaceholders (b.buildRaw a).text, (b.buildRaw a).args)

end Builder

/-! ### Pieces -/

/-- A fragment without arguments. -/
def frag (text : String) : Fragment Value := ⟨text.toList, []⟩

/-- A placeholder for a value. -/
def mark (v : Value) : Fragment Value := ⟨['?'], [v]⟩

/-- The condition as a fragment. -/
def WhereClause.fragment (w : WhereClause) : Fragment Value := ⟨w.expr.toList, w.args⟩

/-- The expression as a fragment. -/
def SelectClause.fragment (c : SelectClause) : Fragment Value := ⟨c.expr.toList, c.args⟩

/-- A fragment after a separator. -/
def after (sep : String) (p : Fragment Value) : Fragment Value := p.after sep.toList

/-- A separator alone. -/
def fixed (sep : String) : Fragment Value := after sep (frag "")

/-- Fragments with one separator before the first and another one before the others. -/
def listed (first sep : String) : List (Fragment Value) → List (Fragment Value)
  | [] => []
  | p :: ps => after first p :: ps.map (after sep)

/-- Conditions, each but the first after its connective. -/
def clausePieces (first : String) : List WhereClause → List (Fragment Value)
  | [] => []
  | w :: ws =>
    after first w.fragment :: ws.map fun w => after (" " ++ w.boolean.text ++ " ") w.fragment

namespace Builder

variable (b : Builder)

/-- The pieces of `buildWheres`. -/
def wherePieces : List (Fragment Value) :=
  if b.softDeleteCondition = "" then clausePieces " WHERE " b.wheres
  else after " WHERE " (frag b.softDeleteCondition) ::
    if b.wheres.isEmpty then []
    else if hasOr b.wheres then clausePieces " AND (" b.wheres ++ [fixed ")"]
    else b.wheres.map fun w => after " AND " w.fragment

/-- The pieces of a `SELECT` before its condition. -/
def selectPieces (clauses : List SelectClause) : List (Fragment Value) :=
  (if clauses.isEmpty then [fixed "SELECT *"]
    else listed "SELECT " ", " (clauses.map (·.fragment))) ++
  [if b.table = "" then fixed " FROM undefined_table " else after " FROM " (frag b.table)] ++
  b.joins.flatMap fun j =>
    [after " " (frag j.typ), after " JOIN " (frag j.table), after " ON " (frag j.on)]

/-- The pieces of a `SELECT` after its condition. -/
def endPieces : List (Fragment Value) :=
  listed " GROUP BY " ", " (b.groupBys.map frag) ++
  clausePieces " HAVING " b.havings ++
  listed " ORDER BY " ", " (b.orderBys.map frag) ++
  b.limit.toList.map (fun n => after " LIMIT " (mark (.int n))) ++
  b.offset.toList.map (fun n => after " OFFSET " (mark (.int n))) ++
  if b.lockForUpdate then [fixed " FOR UPDATE"] else []

/-- The pieces of `onConflict`. -/
def onConflictPieces (primaryKeys : List String) : List (Fragment Value) :=
  let cols := b.overwritten
  if cols.isEmpty then []
  else match b.dialect with
    | .mysql =>
      listed " ON DUPLICATE KEY UPDATE " ", "
        ((cols.map fun c => c ++ " = VALUES(" ++ c ++ ")").map frag)
    | .postgres =>
      (if primaryKeys.isEmpty then [fixed " ON CONFLICT (id"]
        else listed " ON CONFLICT (" ", " (primaryKeys.map frag)) ++
      listed ") DO UPDATE SET " ", " ((cols.map fun c => c ++ " = EXCLUDED." ++ c).map frag)

/-- The pieces of an `INSERT` up to its columns. -/
def insertPieces (cols : List String) : List (Fragment Value) :=
  after "INSERT INTO " (frag b.table) :: listed " (" ", " (cols.map frag)

/-- The values of a row, as the pieces of its placeholders. -/
def rowPieces (first : String) (vals : List Value) : List (Fragment Value) :=
  listed first ", " (vals.map mark) ++ [fixed ")"]

/-- The pieces of a statement. -/
def pieces (b : Builder) (a : BuildAction) : List (Fragment Value) :=
  if b.rawQuery ≠ "" then [⟨b.rawQuery.toList, b.rawArgs⟩]
  else match a with
    | .select clauses => b.selectPieces clauses ++ b.wherePieces ++ b.endPieces
    | .insert inserts primaryKeys autoIncCol =>
      let cols := columnsOf inserts
      if cols.isEmpty then []
      else b.insertPieces (cols.map Prod.fst) ++ rowPieces ") VALUES (" (cols.map Prod.snd) ++
        b.onConflictPieces primaryKeys ++
        if autoIncCol ≠ "" && b.dialect = .postgres then
          [after " RETURNING " (frag (sanitizeIdentifier autoIncCol))]
        else []
    | .insertBatch rows primaryKeys =>
      let cols := batchCols rows
      if cols.isEmpty then []
      else b.insertPieces cols ++
        (match rows with
          | [] => []
          | m :: ms => rowPieces ") VALUES (" (batchRow cols m) ++
            ms.flatMap fun m => rowPieces ", (" (batchRow cols m)) ++
        b.onConflictPieces primaryKeys
    | .update updates =>
      let sets := columnsOf updates
      if sets.isEmpty then []
      else after "UPDATE " (frag b.table) ::
        listed " SET " ", " (sets.map fun p => ⟨(p.1 ++ " = ?").toList, [p.2]⟩) ++ b.wherePieces
    | .delete => after "DELETE FROM " (frag b.table) :: b.wherePieces

end Builder

/-! ### Text and arguments of the pieces -/

section Text

variable {sep first : String} {p : Fragment Value} {ps : List (Fragment Value)}

@[simp] theorem text_after : (after sep p).text = sep.toList ++ p.text := rfl

@[simp] theorem args_after : (after sep p).args = p.args := rfl

@[simp] theorem text_frag (text : String) : (frag text).text = text.toList := rfl

@[simp] theorem args_frag (text : String) : (frag text).args = [] := rfl

@[simp] theorem text_mark (v : Value) : (mark v).text = ['?'] := rfl

@[simp] theorem args_mark (v : Value) : (mark v).args = [v] := rfl

@[simp] theorem WhereClause.text_fragment (w : WhereClause) : w.fragment.text = w.expr.toList := rfl

@[simp] theorem WhereClause.args_fragment (w : WhereClause) : w.fragment.args = w.args := rfl

@[simp] theorem SelectClause.text_fragment (c : SelectClause) : c.fragment.text = c.expr.toList :=
  rfl

@[simp] theorem SelectClause.args_fragment (c : SelectClause) : c.fragment.args = c.args := rfl

theorem argsOf_map {β : Type} (f : β → Fragment Value) (l : List β) :
    argsOf (l.map f) = l.flatMap fun x => (f x).args := flatMap_map _ _ _

@[simp] theorem textOf_singleton : textOf [p] = p.text := by simp [textOf]

theorem argsOf_map_after : argsOf (ps.map (after sep)) = argsOf ps := by
  rw [argsOf_map]
  rfl

theorem argsOf_listed : argsOf (listed first sep ps) = argsOf ps := by
  cases ps with
  | nil => rfl
  | cons p ps => simp [listed, argsOf_map_after]

theorem toList_intercalate_cons (sep t : String) (ts : List String) :
    (sep.intercalate (t :: ts)).toList =
      t.toList ++ ts.flatMap fun t => sep.toList ++ t.toList := by
  induction ts generalizing t with
  | nil => simp [String.intercalate_singleton]
  | cons u us ih => simp [String.intercalate_cons_cons, ih, append_assoc]

/-- The texts with the separator between them. -/
theorem textOf_listed {texts : List String} (hne : texts ≠ [])
    (htexts : ps.map (·.text) = texts.map String.toList) :
    textOf (listed first sep ps) = first.toList ++ (sep.intercalate texts).toList := by
  obtain ⟨t, ts, rfl⟩ := exists_cons_of_ne_nil hne
  cases ps with
  | nil => cases htexts
  | cons p ps =>
    obtain ⟨hp, hps⟩ : p.text = t.toList ∧ ps.map (·.text) = ts.map String.toList :=
      List.cons.inj htexts
    have hrest : textOf (ps.map (after sep)) = ts.flatMap fun t => sep.toList ++ t.toList := by
      have hflat : textOf (ps.map (after sep)) =
          (ps.map (·.text)).flatMap fun cs => sep.toList ++ cs := by
        simp [textOf, flatMap_map]
      rw [hflat, hps, flatMap_map]
    rw [listed, textOf_cons, text_after, hrest, toList_intercalate_cons, hp, append_assoc]

theorem argsOf_map_frag (texts : List String) : argsOf (texts.map frag) = [] := by
  induction texts with
  | nil => rfl
  | cons t ts ih => exact ih

theorem argsOf_map_mark (vals : List Value) : argsOf (vals.map mark) = vals := by
  induction vals with
  | nil => rfl
  | cons v vals ih => exact congrArg (v :: ·) ih

/-- Texts that may be none at all. -/
theorem textOf_listed_frag (texts : List String) : textOf (listed first sep (texts.map frag)) =
      (if texts.isEmpty then "" else first ++ sep.intercalate texts).toList := by
  cases texts with
  | nil => rfl
  | cons t ts =>
    rw [textOf_listed (cons_ne_nil t ts) (by simp [comp_def])]
    simp

theorem textOf_clausePieces {ws : List WhereClause} (hne : ws ≠ []) :
    textOf (clausePieces first ws) = first.toList ++ (joinWheres ws).toList := by
  obtain ⟨w, ws, rfl⟩ := exists_cons_of_ne_nil hne
  have hrest : ∀ ws : List WhereClause, textOf (ws.map fun w =>
      after (" " ++ w.boolean.text ++ " ") w.fragment) = (joinRest ws).toList := by
    intro ws
    induction ws with
    | nil => rfl
    | cons w ws ih =>
      rw [map_cons, textOf_cons, ih]
      simp [joinRest]
  rw [clausePieces, textOf_cons, hrest]
  simp [joinWheres]

theorem argsOf_clausePieces (ws : List WhereClause) :
    argsOf (clausePieces first ws) = joinArgs ws := by
  cases ws with
  | nil => rfl
  | cons w ws =>
    have hrest : argsOf (ws.map fun w => after (" " ++ w.boolean.text ++ " ") w.fragment) =
        joinArgs ws := by
      simp [argsOf_map, joinArgs]
    rw [clausePieces, argsOf_cons, hrest]
    rfl

end Text

/-! ### The pieces of each statement -/

section Statements

variable (b : Builder)

theorem textOf_wherePieces : textOf b.wherePieces = (condText b.whereText).toList := by
  unfold wherePieces whereText
  by_cases hsoft : b.softDeleteCondition = ""
  · by_cases hwheres : b.wheres = []
    · simp [hsoft, hwheres, clausePieces, condText]
    · simp [hsoft, hwheres, textOf_clausePieces hwheres, condText]
  · by_cases hwheres : b.wheres = []
    · simp [hsoft, hwheres, condText]
    · by_cases hor : hasOr b.wheres = true
      · simp [hsoft, hwheres, hor, textOf_clausePieces hwheres, condText, fixed]
      · have hand : ∀ ws : List WhereClause,
            textOf (ws.map fun w => after " AND " w.fragment) = (andAll ws).toList := by
          intro ws
          induction ws with
          | nil => rfl
          | cons w ws ih => simp [ih, andAll]
        simp [hsoft, hwheres, hor, hand, condText]

theorem argsOf_wherePieces : argsOf b.wherePieces = condArgs b.whereText := by
  unfold wherePieces whereText
  by_cases hsoft : b.softDeleteCondition = ""
  · by_cases hwheres : b.wheres = []
    · simp [hsoft, hwheres, clausePieces, condArgs]
    · simp [hsoft, hwheres, argsOf_clausePieces, condArgs]
  · by_cases hwheres : b.wheres = []
    · simp [hsoft, hwheres, condArgs]
    · by_cases hor : hasOr b.wheres = true
      · simp [hsoft, hwheres, hor, argsOf_clausePieces, condArgs, fixed]
      · have hand :
            argsOf (b.wheres.map fun w => after " AND " w.fragment) = joinArgs b.wheres := by
          simp [argsOf_map, joinArgs]
        simp [hsoft, hwheres, hor, hand, condArgs]

theorem textOf_selectPieces (clauses : List SelectClause) :
    textOf (b.selectPieces clauses) = (b.buildSelectClauses clauses).head.toList := by
  have hjoins : ∀ js : List JoinClause, textOf (js.flatMap fun j =>
      [after " " (frag j.typ), after " JOIN " (frag j.table), after " ON " (frag j.on)]) =
      (String.join (js.map fun j =>
        " " ++ j.typ ++ " JOIN " ++ j.table ++ " ON " ++ j.on)).toList := by
    intro js
    induction js with
    | nil => rfl
    | cons j js ih =>
      rw [flatMap_cons, textOf_append, ih]
      simp [String.toList_join]
  have hfrom : textOf [if b.table = "" then fixed " FROM undefined_table "
      else after " FROM " (frag b.table)] =
      (if b.table = "" then " FROM undefined_table " else " FROM " ++ b.table).toList := by
    split_ifs <;> simp [fixed]
  have hselect : textOf (if clauses.isEmpty then [fixed "SELECT *"]
      else listed "SELECT " ", " (clauses.map (·.fragment))) =
      ("SELECT " ++ (if (clauses.map (·.expr)).isEmpty then "*"
        else ", ".intercalate (clauses.map (·.expr)))).toList := by
    by_cases hclauses : clauses = []
    · simp [hclauses, fixed]
    · have hne : clauses.map (·.expr) ≠ [] := by simpa using hclauses
      have hlisted := @textOf_listed ", " "SELECT " (clauses.map (·.fragment)) _ hne
        (by simp [comp_def])
      simp [hclauses, hlisted]
  simp only [selectPieces, textOf_append, hselect, hfrom, hjoins]
  simp [buildSelectClauses, buildSelect]

theorem argsOf_selectPieces (clauses : List SelectClause) :
    argsOf (b.selectPieces clauses) = clauses.flatMap (·.args) := by
  have hjoins : argsOf (b.joins.flatMap fun j =>
      [after " " (frag j.typ), after " JOIN " (frag j.table), after " ON " (frag j.on)]) = [] := by
    induction b.joins with
    | nil => rfl
    | cons j js ih => exact ih
  have hfrom : argsOf [if b.table = "" then fixed " FROM undefined_table "
      else after " FROM " (frag b.table)] = [] := by
    split_ifs <;> rfl
  have hselect : argsOf (if clauses.isEmpty then [fixed "SELECT *"]
      else listed "SELECT " ", " (clauses.map (·.fragment))) = clauses.flatMap (·.args) := by
    by_cases hclauses : clauses = []
    · simp [hclauses, fixed]
    · simp [hclauses, argsOf_listed, argsOf_map]
  simp only [selectPieces, argsOf_append, hselect, hfrom, hjoins, append_nil]

theorem textOf_endPieces : textOf b.endPieces = b.buildSelect.tail.toList := by
  have hhaving : textOf (clausePieces " HAVING " b.havings) =
      (if b.havings.isEmpty then "" else " HAVING " ++ joinWheres b.havings).toList := by
    by_cases hhavings : b.havings = []
    · simp [hhavings, clausePieces]
    · simp [hhavings, textOf_clausePieces hhavings]
  have hcount : ∀ (sep : String) (n : Option Int),
      textOf (n.toList.map fun n => after sep (mark (.int n))) =
        (if n.isSome then sep ++ "?" else "").toList := by
    intro sep n
    cases n <;> simp
  have hlock : textOf (if b.lockForUpdate then [fixed " FOR UPDATE"] else []) =
      (if b.lockForUpdate then " FOR UPDATE" else "").toList := by
    split_ifs <;> simp [fixed]
  simp only [endPieces, textOf_append, textOf_listed_frag, hhaving, hcount, hlock,
    buildSelect, String.toList_append]
  rfl

theorem argsOf_endPieces : argsOf b.endPieces = b.buildSelect.tailArgs := by
  have hcount : ∀ (sep : String) (n : Option Int),
      argsOf (n.toList.map fun n => after sep (mark (.int n))) = n.toList.map .int := by
    intro sep n
    cases n <;> rfl
  have hlock : argsOf (if b.lockForUpdate then [fixed " FOR UPDATE"] else []) = [] := by
    split_ifs <;> rfl
  simp only [endPieces, argsOf_append, argsOf_listed, argsOf_map_frag, argsOf_clausePieces,
    hcount, hlock, buildSelect, map_append, append_assoc, nil_append,
    append_nil]

theorem textOf_onConflictPieces (primaryKeys : List String) :
    textOf (b.onConflictPieces primaryKeys) = (b.onConflict primaryKeys).toList := by
  unfold onConflictPieces onConflict
  simp only
  generalize b.overwritten = cols
  by_cases hcols : cols = []
  · simp [hcols]
  · cases b.dialect with
    | mysql => simp [hcols, textOf_listed_frag, -map_map]
    | postgres =>
      by_cases hkeys : primaryKeys = []
      · simp [hcols, hkeys, textOf_listed_frag, fixed, -map_map]
      · simp [hcols, hkeys, textOf_listed_frag, -map_map]

theorem argsOf_onConflictPieces (primaryKeys : List String) :
    argsOf (b.onConflictPieces primaryKeys) = [] := by
  unfold onConflictPieces
  simp only
  generalize b.overwritten = cols
  by_cases hcols : cols = []
  · simp [hcols]
  · cases b.dialect with
    | mysql => simp only [List.isEmpty_iff, hcols, if_false, argsOf_listed, argsOf_map_frag]
    | postgres =>
      by_cases hkeys : primaryKeys = []
      · simp [hcols, hkeys, argsOf_listed, argsOf_map_frag, fixed, -map_map]
      · simp [hcols, hkeys, argsOf_listed, argsOf_map_frag, -map_map]

theorem textOf_rowPieces (first : String) {vals : List Value} (hvals : vals ≠ []) :
    textOf (rowPieces first vals) = (first ++ placeholders vals ++ ")").toList := by
  have hne : vals.map (fun _ => "?") ≠ [] := by simpa using hvals
  have hlisted := @textOf_listed ", " first (vals.map mark) _ hne (by simp [comp_def])
  simp [rowPieces, hlisted, fixed, placeholders]

theorem argsOf_rowPieces (first : String) (vals : List Value) :
    argsOf (rowPieces first vals) = vals := by
  rw [rowPieces, argsOf_append, argsOf_listed, argsOf_map_mark]
  exact append_nil _

theorem textOf_insertPieces {cols : List String} (hcols : cols ≠ []) :
    textOf (b.insertPieces cols) =
      ("INSERT INTO " ++ b.table ++ " (" ++ ", ".intercalate cols).toList := by
  simp [insertPieces, textOf_listed_frag, hcols]

theorem argsOf_insertPieces (cols : List String) : argsOf (b.insertPieces cols) = [] := by
  rw [insertPieces, argsOf_cons, argsOf_listed, argsOf_map_frag]
  rfl

/-- The rows of an `INSERT`, after the first. -/
theorem textOf_rows (cols : List String) (hcols : cols ≠ []) (ms : List (GoMap Value)) :
    textOf (ms.flatMap fun m => rowPieces ", (" (batchRow cols m)) =
      (ms.map fun m => "(" ++ placeholders (batchRow cols m) ++ ")").flatMap
        fun t => ", ".toList ++ t.toList := by
  induction ms with
  | nil => rfl
  | cons m ms ih =>
    have hrow : batchRow cols m ≠ [] := by simpa [batchRow] using hcols
    rw [flatMap_cons, textOf_append, textOf_rowPieces _ hrow, ih]
    simp

theorem argsOf_rows (cols : List String) (ms : List (GoMap Value)) :
    argsOf (ms.flatMap fun m => rowPieces ", (" (batchRow cols m)) =
      ms.flatMap (batchRow cols) := by
  induction ms with
  | nil => rfl
  | cons m ms ih => rw [flatMap_cons, argsOf_append, argsOf_rowPieces, ih, flatMap_cons]

/-- **A statement is put together from its pieces.** -/
theorem text_buildRaw (a : BuildAction) : (b.buildRaw a).text.toList = textOf (b.pieces a) := by
  unfold buildRaw pieces
  by_cases hraw : b.rawQuery = ""
  · simp only [hraw, ne_eq, not_true_eq_false, if_false]
    cases a with
    | select clauses =>
      have hhead := textOf_selectPieces b clauses
      simp only [textOf_append, hhead, textOf_wherePieces, textOf_endPieces, text,
        String.toList_append]
      rfl
    | insert inserts primaryKeys autoIncCol =>
      simp only [buildInsert]
      by_cases hcols : columnsOf inserts = []
      · simp [hcols, text, condText]
      · have hnames : (columnsOf inserts).map Prod.fst ≠ [] := by simpa using hcols
        have hvals : (columnsOf inserts).map Prod.snd ≠ [] := by simpa using hcols
        have hreturning : textOf (if autoIncCol ≠ "" && b.dialect = .postgres then
            [after " RETURNING " (frag (sanitizeIdentifier autoIncCol))] else []) =
            (if autoIncCol ≠ "" && b.dialect = .postgres then
              " RETURNING " ++ sanitizeIdentifier autoIncCol else "").toList := by
          split_ifs <;> simp
        simp only [List.isEmpty_iff, hcols, if_false, textOf_append, textOf_insertPieces b hnames,
          textOf_rowPieces _ hvals, textOf_onConflictPieces, hreturning, text, condText]
        simp
    | insertBatch rows primaryKeys =>
      simp only [buildInsertBatch]
      by_cases hcols : batchCols rows = []
      · simp [hcols, text, condText]
      · cases rows with
        | nil => exact absurd rfl hcols
        | cons m ms =>
          have hrow : batchRow (batchCols (m :: ms)) m ≠ [] := by simpa [batchRow] using hcols
          simp only [List.isEmpty_iff, hcols, if_false, textOf_append, textOf_insertPieces b hcols,
            textOf_rowPieces _ hrow, textOf_rows _ hcols, textOf_onConflictPieces, text,
            condText, map_cons, String.toList_append, toList_intercalate_cons]
          simp
    | update updates =>
      simp only [buildUpdate]
      by_cases hcols : columnsOf updates = []
      · simp [hcols, text, condText]
      · have hsets : (columnsOf updates).map (fun p => p.1 ++ " = ?") ≠ [] := by
          simpa using hcols
        have hlisted := @textOf_listed ", " " SET "
          ((columnsOf updates).map fun p => ⟨(p.1 ++ " = ?").toList, [p.2]⟩) _ hsets
          (by simp [comp_def])
        simp only [List.isEmpty_iff, hcols, if_false, cons_append, textOf_cons, textOf_append,
          hlisted, textOf_wherePieces, text]
        simp
    | delete =>
      rw [textOf_cons, textOf_wherePieces]
      simp [buildDelete, text]
  · simp [hraw, build, text, condText]

theorem args_buildRaw (a : BuildAction) : (b.buildRaw a).args = argsOf (b.pieces a) := by
  unfold buildRaw pieces
  by_cases hraw : b.rawQuery = ""
  · simp only [hraw, ne_eq, not_true_eq_false, if_false]
    cases a with
    | select clauses =>
      simp only [argsOf_append, argsOf_selectPieces, argsOf_wherePieces, argsOf_endPieces, args]
      rfl
    | insert inserts primaryKeys autoIncCol =>
      have hreturning : argsOf (if autoIncCol ≠ "" && b.dialect = .postgres then
          [after " RETURNING " (frag (sanitizeIdentifier autoIncCol))] else []) = [] := by
        split_ifs <;> rfl
      simp only [buildInsert]
      by_cases hcols : columnsOf inserts = []
      · simp [hcols, args, condArgs]
      · simp only [List.isEmpty_iff, hcols, if_false, argsOf_append, argsOf_insertPieces,
          argsOf_rowPieces, argsOf_onConflictPieces, hreturning, args, condArgs]
        simp
    | insertBatch rows primaryKeys =>
      simp only [buildInsertBatch]
      by_cases hcols : batchCols rows = []
      · simp [hcols, args, condArgs]
      · cases rows with
        | nil => exact absurd rfl hcols
        | cons m ms =>
          simp only [List.isEmpty_iff, hcols, if_false, argsOf_append, argsOf_insertPieces,
            argsOf_rowPieces, argsOf_rows, argsOf_onConflictPieces, args, condArgs,
            flatMap_cons]
          simp
    | update updates =>
      simp only [buildUpdate]
      by_cases hcols : columnsOf updates = []
      · simp [hcols, args, condArgs]
      · simp only [List.isEmpty_iff, hcols, if_false, cons_append, argsOf_cons, argsOf_append,
          argsOf_listed, argsOf_map, argsOf_wherePieces, args]
        simp [map_eq_flatMap]
    | delete =>
      rw [argsOf_cons, argsOf_wherePieces]
      simp [buildDelete, args]
  · simp [hraw, build, args, condArgs]

end Statements

end Kiya
