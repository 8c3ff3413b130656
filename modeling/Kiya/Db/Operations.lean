import Kiya.Lib.Prog
import Kiya.Db.Statement
import Kiya.Db.History

/-!
# Operations of the builder

The terminal operations as programs that issue statements to the database and go on with its
answers. Nothing is assumed of the answers here; clock readings are answers too. A failure is
an error of the program, and a panic is one of the errors: both end the operation, and inside
`withTx` both roll the transaction back.

An operation works on the builder it is called on and on clones of it. The functions below take
the builder as an argument; what a later statement of the same operation sees of an earlier
change (`applyScope`, `ensureAuxCol`, a cleared selection) is passed on explicitly.
-/

namespace Kiya

/-! ### Requests to the database -/

/-- What an operation can ask for. Statements are issued inside the transaction of the builder
if it has one. -/
inductive Cmd where
  | get (tx : Bool) (s : Stmt)
  | select (tx : Bool) (s : Stmt)
  | exec (tx : Bool) (s : Stmt)
  | beginTx
  | commit
  | rollback
  | now

/-- A row as the driver delivers it. -/
abbrev Row := GoMap DriverVal

/-- The answers: the first row, all rows, or the number of affected rows and the last insert
id. -/
def Cmd.Resp : Cmd → Type
  | .get _ _ => Except Err (Option Row)
  | .select _ _ => Except Err (List Row)
  | .exec _ _ => Except Err (Int × Option Int)
  | .beginTx => Except Err Unit
  | .commit => Except Err Unit
  | .rollback => Except Err Unit
  | .now => GoTime

/-- The statement of a request. -/
def Cmd.stmt : Cmd → Option Stmt
  | .get _ s => some s
  | .select _ s => some s
  | .exec _ s => some s
  | _ => none

/-- Operations that can fail. -/
abbrev DbM := ExceptT Err (Prog Cmd Cmd.Resp)

variable (b : Builder) (s : Stmt)

/-- `executor.Get`. -/
def getRow : DbM (Option Row) := ExceptT.mk (Prog.issue (Cmd.get b.inTx s))

/-- `executor.Select`. -/
def selectRows : DbM (List Row) :=
  ExceptT.mk (Prog.issue (Cmd.select b.inTx s))

/-- `executor.Exec`. -/
def execStmt : DbM (Int × Option Int) :=
  ExceptT.mk (Prog.issue (Cmd.exec b.inTx s))

/-- `executor.Begin`. -/
def beginTx : DbM Unit := ExceptT.mk (Prog.issue Cmd.beginTx)

/-- `tx.Commit`. -/
def commit : DbM Unit := ExceptT.mk (Prog.issue Cmd.commit)

/-- `tx.Rollback`; its error is only logged. -/
def rollback : DbM Unit := ExceptT.mk (Prog.issue Cmd.rollback >>= fun _ => pure (.ok ()))

/-- `time.Now`. -/
def now : DbM GoTime := ExceptT.lift (Prog.issue Cmd.now)

/-- Fail, or go on. -/
def check {α : Type} (r : Except Err α) : DbM α := ExceptT.mk (pure r)

namespace Builder

/-! ### Reading -/

variable (b : Builder) (dest : Option Any)

/-- The table of a clone: its own, or one derived from the operand. -/
def withTable (name : String) : Builder :=
  if b.table = "" then { b with table := sanitizeIdentifier name } else b

/-- The selection of a clone: its own, or the columns of a struct type. -/
def withCols (t : StructType) : Builder :=
  if b.selects.isEmpty then { b with selects := t.info.map (·.name) } else b

/-- The clone that `Find` builds its statement with. -/
def findClone (d : Any) : Except Err Builder :=
  if b.rawQuery ≠ "" then .ok b
  else
    let clone := { b with limit := some 1 }
    let typed : Except Err Builder :=
      match d with
      | .structPtr s => .ok ((clone.withCols s.type).withTable s.type.tableName)
      | .slicePtr (some t) => .ok ((clone.withCols t).withTable t.tableName)
      | .slicePtr none | .otherPtr =>
        if clone.table = "" then
          .error (.message "Find: model must be a struct or slice of structs")
        else .ok clone
      | _ => .error .modelNil
    typed.bind fun clone => if clone.table = "" then .error .tableRequired else .ok clone

/-- The destination after a row was put into it. -/
def scanInto (row : Row) : Any → Any
  | .structPtr s => .structPtr (scanMapToStruct row s)
  | d => d

/-- Is the destination a nil interface? -/
def isNil : Any → Bool
  | .nil => true
  | _ => false

/-- `Find`: the destination afterwards, or `none` if no row was found. -/
def find : DbM (Option Any) := do
  let b := b.applyScope
  let d := dest.getD b.dest
  if isNil d then throw .destinationNil
  let clone ← check (b.findClone d)
  let row ← getRow clone (clone.build .select)
  return row.map fun row => scanInto row d

/-- `FindOrFail`. -/
def findOrFail : DbM Any := do
  match ← b.find dest with
  | some d => return d
  | none => throw .recordNotFound

/-- The clone that `FindAll` builds its statement with. -/
def findAllClone (d : Any) : Except Err Builder :=
  if b.rawQuery ≠ "" then .ok b
  else
    let typed : Except Err Builder :=
      match d with
      | .slicePtr (some t) => .ok ((b.withCols t).withTable t.tableName)
      | .slicePtr none => .ok b
      | d =>
        if b.table = "" then
          match getTableNameFromModel d with
          | .ok name => .ok (b.withTable name)
          | .error .panic => .error .panic
          | .error e => .error (.message ("FindAll: " ++ e.error))
        else .ok b
    typed.bind fun clone => if clone.table = "" then .error .tableRequired else .ok clone

/-- `FindAll`: the rows found. -/
def findAll : DbM (List Row) := do
  let b := b.applyScope
  let d := dest.getD b.dest
  if isNil d then throw .destinationNil
  let clone ← check (b.findAllClone d)
  selectRows clone (clone.build .select)

/-- An integer from the only column of a row. -/
def scalar (row : Row) : Int :=
  match row with
  | (_, .int n) :: _ => n
  | (_, .uint n) :: _ => n
  | _ => 0

/-- `Count`. -/
def count : DbM Int := do
  let clone := { b.applyScope with selects := ["COUNT(*)"] }
  if clone.table = "" then throw .tableRequired
  let row ← getRow clone (clone.build .select)
  match row with
  | none => throw (.message "sql: no rows in result set")
  | some row => return scalar row

/-- `Exist`. -/
def exist : DbM Bool := do
  let clone := { b.applyScope with selects := ["1"], limit := some 1 }
  if clone.table = "" then throw .tableRequired
  let row ← getRow clone (clone.build .select)
  return row.isSome

end Builder

/-- The result of `Paginate`, without the rows. -/
structure Pagination where
  total : Int
  page : Int
  perPage : Int
  lastPage : Int
  deriving DecidableEq, Repr

namespace Builder

/-- The page asked for, at least the first. -/
def normalPage (page : Int) : Int := if page < 1 then 1 else page

/-- The page size asked for, from 1 to 100; 10 if it is not positive. -/
def normalPerPage (perPage : Int) : Int :=
  let perPage := if perPage < 1 then 10 else perPage
  if perPage > 100 then 100 else perPage

/-- The number of pages; the arithmetic is that of 64-bit integers. -/
def lastPage (total perPage : Int) : Int := (wrapInt 64 (total + perPage - 1)).tdiv perPage

variable (b tb : Builder) (data : GoMap Value) (model : Option Any) (self old : Struct)
    (time : GoTime)

/-- The builder of one page. -/
def pageBuilder (page perPage : Int) : Builder :=
  { b with limit := some perPage, offset := some (wrapInt 64 ((page - 1) * perPage)) }

/-- `Paginate`. -/
def paginate (dest : Any) (page perPage : Int) : DbM Pagination := do
  let page := normalPage page
  let perPage := normalPerPage perPage
  let total ← b.count
  let p := { total, page, perPage, lastPage := lastPage total perPage }
  if total = 0 then return p
  let _ ← (b.applyScope.pageBuilder page perPage).findAll (some dest)
  return p

/-! ### Writing -/

/-- The columns and values of a data map: identifiers, in the selection if there is one, with
zero values of nullable columns as `NULL`. -/
def filterMapData (m : GoMap Value) : GoMap Value :=
  (m.filter fun p => sanitizeIdentifier p.1 ≠ "" && !notSelected b.selects p.1).map fun p =>
    (p.1, if b.nullableCols.contains p.1 && p.2.isZero then .nil else p.2)

/-- The table name, if the data has one, and the columns and values of the data. -/
def rowData (data : Any) : Except Err (String × GoMap Value) :=
  match data with
  | .map m => .ok ("", b.filterMapData m)
  | .otherMap => .error (.message "unsupported map type")
  | .structPtr s => .ok (s.type.tableName, structToMap s b.selects)
  | .struct s => .ok (s.type.tableName, structToMap s b.selects)
  | .slicePtr (some _) => .error (.message "input must be a struct")
  | d =>
    match getTableNameFromModel d with
    | .ok _ => .error (.message "input must be a struct")
    | .error e => .error e

/-- A clone with a table: its own, or one derived from the data. -/
def requireTable (name : String) : Except Err Builder :=
  if b.table = "" then
    if name = "" then .error .tableRequired
    else if sanitizeIdentifier name = "" then .error .invalidTableName
    else .ok { b with table := sanitizeIdentifier name }
  else .ok b

/-- `execUpdate`: the number of affected rows. -/
def execUpdate (data : Any) (skipWhereCheck : Bool) : DbM Int := do
  let b := b.applyScope
  if !skipWhereCheck then check b.checkWhereRequired
  let row ← check (b.rowData data)
  if row.2.isEmpty then throw .emptyData
  let clone ← check (b.requireTable row.1)
  let res ← execStmt clone (clone.build (.update row.2))
  return res.1

/-- The clone of a `DELETE`, with the table of the model if it has none. -/
def deleteClone (model : Any) : Except Err Builder :=
  let named : Except Err Builder :=
    if isNil model then .ok b
    else (getTableNameFromModel model).bind fun name =>
      if b.table = "" then
        if sanitizeIdentifier name = "" then .error .invalidTableName
        else .ok { b with table := sanitizeIdentifier name }
      else .ok b
  named.bind fun clone => if clone.table = "" then .error .tableRequired else .ok clone

/-- `execDelete`: with a soft-delete condition, an update of `deleted_at`. -/
def execDelete (model : Any) (skipWhereCheck : Bool) : DbM Int := do
  let b := b.applyScope
  if b.softDeleteCondition ≠ "" then
    let time ← now
    b.execUpdate (.map [("deleted_at", .time time)]) skipWhereCheck
  else
    if !skipWhereCheck then check b.checkWhereRequired
    let clone ← check (b.deleteClone model)
    let res ← execStmt clone (clone.build .delete)
    return res.1

/-- `execHardDelete`. -/
def execHardDelete (model : Any) : DbM Int := do
  let clone ← check (b.clearSoftDeleteCondition.deleteClone model)
  let res ← execStmt clone (clone.build .delete)
  return res.1

/-- The data after an insert gave the row an id. -/
def withInsertId (id : Int) : Any → Any
  | .structPtr s => .structPtr (assignAutoIncrementID s id)
  | d => d

/-- The columns of the primary key, if the data is a struct. -/
def primaryKeysOf : Any → List String
  | .structPtr s => s.type.primaryKeys
  | .struct s => s.type.primaryKeys
  | _ => []

/-- The autoincrement column, if the data is a struct that has one. -/
def autoIncColOf : Any → String
  | .structPtr s => s.type.autoIncCol
  | .struct s => s.type.autoIncCol
  | _ => ""

/-- `execInsertRaw`: the data afterwards. On PostgreSQL an autoincrement column is read
back. -/
def execInsertRaw (data : Any) : DbM Any := do
  let row ← check (b.rowData data)
  if row.2.isEmpty then throw .emptyData
  let clone ← check (b.requireTable row.1)
  let stmt := clone.build (.insert row.2 (primaryKeysOf data) (autoIncColOf data))
  if autoIncColOf data ≠ "" && clone.dialect = .postgres then
    match ← getRow clone stmt with
    | none => throw (.message "sql: no rows in result set")
    | some row => return withInsertId (scalar row) data
  else
    let res ← execStmt clone stmt
    return withInsertId (res.2.getD 0) data

/-! ### Transactions and locked rows -/

/-- The builder with the executor of a transaction. -/
def intoTx : Builder := { b with inTx := true }

/-- `withTx`: run inside a transaction, the builder's own or a new one. -/
def withTx {α : Type} (fn : Builder → DbM α) : DbM α :=
  if b.inTx then fn b
  else do
    beginTx
    match ← ExceptT.lift (fn b.intoTx).run with
    | .error e =>
      rollback
      throw e
    | .ok a =>
      commit
      return a

/-- `lockCurrentRow`: the stored row of a model, locked. -/
def lockCurrentRow : DbM (Option Struct) := do
  let lb := { b with dest := .nil, selects := [], lockForUpdate := true }
  let found ← lb.find (some (.structPtr (Struct.zero self.type)))
  match found with
  | some (.structPtr old) => return some old
  | _ => return none

/-- `historyOnlyRow`. -/
def historyOnlyRow : StructType :=
  { tableName := "history_only_row"
    fields := [{ name := "History", kind := .string, db := "history" }] }

/-- `loadRawHistoryColumn`: the stored history, locked. -/
def loadRawHistoryColumn : DbM (Option GoString) := do
  let c := { b with dest := .nil, selects := ["history"], lockForUpdate := true }
  let found ← c.find (some (.structPtr (Struct.zero historyOnlyRow)))
  match found with
  | some (.structPtr row) => return some (getHistoryString row 0)
  | _ => return none

/-- `historyColumnHint`: a failure to read the history says what may be missing. -/
def withHistoryHint {α : Type} (m : DbM α) : DbM α :=
  ExceptT.mk (m.run >>= fun r => pure (r.mapError Err.historyColumnHint))

/-- `actor`. -/
def actor : Value × String :=
  ((b.res.bind Res.actor).getD (.nil, ""))

/-- `ensureAuxCol`: add an audit column to a selection, if the model has its field. -/
def ensureAuxCol (structField colName : String) : Builder :=
  if b.selects.isEmpty || !hasField self structField || b.selects.contains colName then b
  else { b with selects := b.selects ++ [colName] }

/-- No affected row means that there is no such record. -/
def requireAffected (affected : Int) : DbM Unit :=
  if affected = 0 then throw .recordNotFound else return

/-! ### Operations on a model -/

/-- Put the actor into a field of the model, if it has the field, and its column into the
selection. -/
def withActor (structField colName : String) : Struct × Builder :=
  if hasField self structField then
    (setActorField self structField b.actor.2, b.ensureAuxCol self structField colName)
  else (self, b)

/-- Put the locked row's history with a new entry into the model, if a tracked column changes,
and its column into the selection. -/
def withModifiedEntry : Struct × Builder :=
  if b.historyTrackingDisabled then (self, b)
  else
    let changes := diffForHistory old self b.selects
    match historyFieldIndex old with
    | none => (self, b)
    | some i =>
      if changes.isEmpty then (self, b)
      else
        let newHist := appendHistoryJSON (getHistoryString old i)
          ⟨"modified", changes, b.actor.1, b.actor.2, time⟩
        (self.setField i (.str newHist), b.ensureAuxCol self "History" "history")

/-- The model and the builder before the `UPDATE`. -/
def prepareUpdate : Struct × Builder :=
  let p := b.withModifiedEntry self old time
  p.2.withActor p.1 "ModifiedBy" "modified_by"

/-- `updateExistingOrNotFound`: the model as it is left to the caller. -/
def updateExistingOrNotFound : DbM Struct := do
  match ← b.lockCurrentRow self with
  | none => throw .recordNotFound
  | some old =>
    let time ← now
    let p := b.prepareUpdate self old time
    let affected ← p.2.execUpdate (.structPtr p.1) true
    requireAffected affected
    return syncPrimaryKey p.1 old

/-- `updateWithHistory`. -/
def updateWithHistory : DbM Struct := do
  let b := b.applyScope
  check b.checkWhereRequired
  b.withTx fun tb => tb.updateExistingOrNotFound self

/-- Put a history with one entry into the model, and its column into the selection. -/
def withCreatedEntry : Struct × Builder :=
  if b.historyTrackingDisabled then (self, b)
  else match historyFieldIndex self with
    | none => (self, b)
    | some i =>
      let newHist := appendHistoryJSON (.text "")
        ⟨"created", structToHistoryMap self b.selects, b.actor.1, b.actor.2, time⟩
      (self.setField i (.str newHist), b.ensureAuxCol self "History" "history")

/-- The model and the builder before the `INSERT`. -/
def prepareInsert : Struct × Builder :=
  let p := b.withCreatedEntry self time
  p.2.withActor p.1 "CreatedBy" "created_by"

/-- `insertWithHistory`. -/
def insertWithHistory : DbM Struct := do
  let time ← now
  let p := b.prepareInsert self time
  match ← p.2.execInsertRaw (.structPtr p.1) with
  | .structPtr self => return self
  | _ => return p.1

/-- `upsertWithHistory`: without a condition, an insert. -/
def upsertWithHistory : DbM Struct := do
  if b.wheres.isEmpty then b.insertWithHistory self
  else b.applyScope.withTx fun tb => tb.updateExistingOrNotFound self

/-- The data of a soft delete (`time` is set) or of a restore of a model, with the actor and
the new entry. -/
def lifecycleData (action : String) (deletedAt : Value) (deletedBy : Value) (time : GoTime) :
    GoMap Value :=
  [("deleted_at", deletedAt)] ++
    (if hasField self "DeletedBy" then [("deleted_by", deletedBy)] else []) ++
    (if b.historyTrackingDisabled then []
      else match historyFieldIndex old with
        | some i =>
          [("history", .str (appendHistoryJSON (getHistoryString old i)
            ⟨action, [], b.actor.1, b.actor.2, time⟩))]
        | none => [])

/-- The builder without its selection. -/
def clearSelects : Builder := { b with selects := [] }

/-- The `UPDATE` that ends a soft delete or a restore; the selection does not apply to it. -/
def execLifecycle : DbM Unit := do
  let affected ← b.clearSelects.execUpdate (.map data) true
  requireAffected affected

/-- `deleteWithHistory`, inside the transaction. -/
def deleteLocked : DbM Struct := do
  match ← tb.lockCurrentRow self with
  | none => throw .recordNotFound
  | some old =>
    if tb.softDeleteCondition = "" then
      let _ ← tb.execHardDelete (.structPtr self)
      return syncPrimaryKey self old
    else
      let time ← now
      let entryTime ← now
      tb.execLifecycle (tb.lifecycleData self old "deleted" (.time time)
        (.str (.text tb.actor.2)) entryTime)
      return syncPrimaryKey self old

/-- `deleteWithHistory`. -/
def deleteWithHistory : DbM Struct := do
  let b := b.applyScope
  check b.checkWhereRequired
  b.withTx fun tb => tb.deleteLocked self

/-- `restoreWithHistory`, inside the transaction. -/
def restoreLocked : DbM Struct := do
  match ← tb.lockCurrentRow self with
  | none => throw .recordNotFound
  | some old =>
    let entryTime ← now
    tb.execLifecycle (tb.lifecycleData self old "restored" .nil .nil entryTime)
    return syncPrimaryKey self old

/-- `restoreWithHistory`. -/
def restoreWithHistory : DbM Struct := do
  let b := b.clearSoftDeleteCondition.applyScope
  check b.checkWhereRequired
  b.withTx fun tb => tb.restoreLocked self

/-- `purgeWithModel`. -/
def purgeWithModel : DbM Struct := do
  let b := b.clearSoftDeleteCondition.applyScope
  check b.checkWhereRequired
  b.withTx fun tb => do
    match ← tb.lockCurrentRow self with
    | none => throw .recordNotFound
    | some old =>
      let _ ← tb.execHardDelete (.structPtr self)
      return syncPrimaryKey self old

/-! ### Operations on a table -/

/-- A data map with the history that a new entry makes of the stored one. -/
def withEntry (existing : GoString) (action : String) (changes : GoMap Value) (time : GoTime) :
    GoMap Value :=
  data.set "history" (.str (appendHistoryJSON existing
    ⟨action, changes, b.actor.1, b.actor.2, time⟩))

/-- `insertMapWithHistory`. -/
def insertMapWithHistory : DbM Unit := do
  let time ← now
  let _ ← b.execInsertRaw (.map (b.withEntry data (.text "") "created" data time))

/-- `updateMapWithHistory`, inside the transaction. -/
def updateMapLocked : DbM Unit := do
  match ← withHistoryHint tb.loadRawHistoryColumn with
  | none => throw .recordNotFound
  | some existing =>
    let time ← now
    tb.execLifecycle (tb.withEntry data existing "modified" data time)

/-- `updateMapWithHistory`. -/
def updateMapWithHistory : DbM Unit := do
  let b := b.applyScope
  check b.checkWhereRequired
  b.withTx fun tb => tb.updateMapLocked data

/-- `deleteRawWithHistory`, inside the transaction. -/
def deleteRawLocked (model : Any) : DbM Unit := do
  if tb.softDeleteCondition = "" then
    if ← tb.exist then
      let _ ← tb.execHardDelete model
    else throw .recordNotFound
  else
    match ← withHistoryHint tb.loadRawHistoryColumn with
    | none => throw .recordNotFound
    | some existing =>
      let time ← now
      let entryTime ← now
      tb.execLifecycle
        (tb.withEntry [("deleted_at", .time time)] existing "deleted" [] entryTime)

/-- `deleteRawWithHistory`. -/
def deleteRawWithHistory (model : Any) : DbM Unit := do
  let b := b.applyScope
  check b.checkWhereRequired
  b.withTx fun tb => tb.deleteRawLocked model

/-- `restoreRawWithHistory`, inside the transaction. -/
def restoreRawLocked : DbM Unit := do
  match ← withHistoryHint tb.loadRawHistoryColumn with
  | none => throw .recordNotFound
  | some existing =>
    let entryTime ← now
    tb.execLifecycle (tb.withEntry [("deleted_at", .nil)] existing "restored" [] entryTime)

/-- `restoreRawWithHistory`. -/
def restoreRawWithHistory : DbM Unit := do
  let b := b.clearSoftDeleteCondition.applyScope
  check b.checkWhereRequired
  b.withTx fun tb => tb.restoreRawLocked

/-! ### The public operations -/

/-- `Update`. -/
def update (data : Option Any) : DbM Unit :=
  match data.getD b.dest with
  | .nil => throw .emptyData
  | .structPtr self => do let _ ← b.updateWithHistory self
  | .map m =>
    if b.historyTrackingDisabled then do let _ ← b.execUpdate (.map m) false
    else b.updateMapWithHistory m
  | d => do let _ ← b.execUpdate d false

/-- `UpdateAll`. -/
def updateAll (data : Any) : DbM Int := b.execUpdate data true

/-- `Delete`. -/
def delete : DbM Unit :=
  match model.getD b.dest with
  | .structPtr self => do let _ ← b.deleteWithHistory self
  | d =>
    if b.historyTrackingDisabled then do let _ ← b.execDelete d false
    else b.deleteRawWithHistory d

/-- `DeleteAll`. -/
def deleteAll (data : Any) : DbM Int := b.execDelete data true

/-- `Purge`. -/
def purge : DbM Unit :=
  match model.getD b.dest with
  | .structPtr self => do let _ ← b.purgeWithModel self
  | d => do let _ ← b.clearSoftDeleteCondition.execDelete d false

/-- `PurgeAll`. -/
def purgeAll : DbM Int :=
  b.clearSoftDeleteCondition.execDelete (model.getD b.dest) true

/-- `Restore`. -/
def restore : DbM Unit :=
  match model.getD b.dest with
  | .structPtr self => do let _ ← b.restoreWithHistory self
  | _ =>
    if b.historyTrackingDisabled then do
      let _ ← b.clearSoftDeleteCondition.execUpdate (.map [("deleted_at", .nil)]) false
    else b.restoreRawWithHistory

/-- `Insert`. -/
def insert (data : Option Any) : DbM Unit :=
  match data.getD b.dest with
  | .nil => throw .emptyData
  | .structPtr self => do let _ ← b.insertWithHistory self
  | .map m =>
    if b.historyTrackingDisabled then do let _ ← b.execInsertRaw (.map m)
    else b.insertMapWithHistory m
  | d => do let _ ← b.execInsertRaw d

/-- The columns an upsert by constraint overwrites. -/
def upsertCols (data : Any) : Except Err (List String) :=
  if b.onDuplicateUpdateCols.isEmpty then
    if b.selects.isEmpty then
      match data with
      | .struct s => .ok (columnsForUpsert s.type)
      | .structPtr s => .ok (columnsForUpsert s.type)
      | .nilPtr => .error (.message "model is nil")
      | _ => .error (.message "model must be a struct")
    else .ok b.selects
  else .ok b.onDuplicateUpdateCols

/-- `upsertRawConstraint`. -/
def upsertRawConstraint (data : Any) : DbM Unit := do
  let cols ← check (b.upsertCols data)
  let _ ← { b with onDuplicateUpdateCols := cols }.execInsertRaw data

/-- `Upsert`. -/
def upsert (data : Option Any) : DbM Unit :=
  match data.getD b.dest with
  | .nil => throw .emptyData
  | .structPtr self => do let _ ← b.upsertWithHistory self
  | d => b.upsertRawConstraint d

/-- The primary key column of a destination. -/
def destKeyColumn : Except Err String :=
  match b.dest with
  | .nil => .error (.message "kiya: Retain requires a bound model (call Bind() first)")
  | .structPtr s => .ok s.type.primaryKeyColumn
  | .struct s => .ok s.type.primaryKeyColumn
  | .nilPtr => .ok "id"
  | _ => .error (.message "model must be a struct")

/-- The builder of `Retain`: with the kept keys excluded and the conditions of the callbacks
added. -/
def retainBuilder (pkCol : String) (keepIDs : List Int) (purge : Bool) (conds : List CondCall) :
    Builder :=
  let b := b.whereNotIn pkCol (keepIDs.map .int)
  let b := conds.foldl CondCall.apply b
  if purge then b.clearSoftDeleteCondition else b

/-- `Retain`. -/
def retain (keepIDs : List Int) (purge : Bool) (conds : List CondCall) : DbM Int := do
  let pkCol ← check b.destKeyColumn
  (b.retainBuilder pkCol keepIDs purge conds).deleteAll b.dest

end Builder

end Kiya
