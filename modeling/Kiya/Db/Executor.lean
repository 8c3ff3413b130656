import Kiya.Db.Operations
import Kiya.Lib.Savepoint

/-!
# Executors and nested transactions

An `Executor` stands for an implementation of the interfaces `Executor` and `Tx`: what the methods
of the executor, and of the transactions that it hands out, do to a state. The implementation over
`sqlx` is modelled on top of `database/sql`. A transaction inside a transaction is a savepoint, with
a name made from a counter that all savepoints of the transaction share.

Over a database with the savepoints of SQL, trees of nested transactions have the reference
semantics: what remains are the writes of the transactions that committed, together with everything
around them.
-/

namespace Kiya

/-! ### Effects -/

/-- A method on a state of type `σ`, which may return an error. -/
abbrev Effect (σ α : Type) := ExceptT Err (StateM σ) α

namespace Effect

variable {σ α β : Type}

/-- The result and the state after it. -/
def on (m : Effect σ α) (s : σ) : Except Err α × σ := m.run s

/-- An effect from what it does to a state. -/
def of (f : σ → Except Err α × σ) : Effect σ α := ExceptT.mk f

@[simp] theorem on_of (f : σ → Except Err α × σ) (s : σ) : (of f).on s = f s := rfl

@[simp] theorem on_pure (a : α) (s : σ) : (pure a : Effect σ α).on s = (.ok a, s) := rfl

theorem on_bind (m : Effect σ α) (f : α → Effect σ β) (s : σ) :
    (m >>= f).on s = match m.on s with
      | (.ok a, s₁) => (f a).on s₁
      | (.error e, s₁) => (.error e, s₁) := by
  change (ExceptT.bindCont f (m.on s).1).run (m.on s).2 = _
  cases m.on s with
  | mk r s₁ => cases r <;> rfl

variable {m : Effect σ α} {f : α → Effect σ β} {s s₁ : σ}

theorem on_bind_of_ok {a : α} (h : m.on s = (.ok a, s₁)) : (m >>= f).on s = (f a).on s₁ := by
  rw [on_bind, h]

theorem on_bind_of_error {e : Err}
    (h : m.on s = (.error e, s₁)) : (m >>= f).on s = (.error e, s₁) := by
  rw [on_bind, h]

end Effect

/-! ### The interfaces -/

/-- A query text with its arguments. -/
structure Query where
  text : String
  args : List Value := []

/-- A call of `Select`, `Get` or `Exec`. -/
inductive Call where
  | select (q : Query)
  | get (q : Query)
  | exec (q : Query)

/-- The results of a call. `Get` gives no row instead of `sql.ErrNoRows`. -/
def Call.Resp : Call → Type
  | .select _ => List Row
  | .get _ => Option Row
  | .exec _ => Int × Option Int

/-- An implementation of the interfaces `Executor` and `Tx`. The methods are called on the executor
itself or on a transaction that `Begin` returned. -/
structure Executor where
  State : Type
  Tx : Type
  call : Option Tx → (c : Call) → Effect State c.Resp
  begin : Option Tx → Effect State Tx
  commit : Tx → Effect State Unit
  rollback : Tx → Effect State Unit

/-- What `sqlx.DB` and `sqlx.Tx` do. -/
structure Database where
  State : Type
  Tx : Type
  query : Option Tx → Query → Effect State (List Row)
  exec : Option Tx → Query → Effect State (Int × Option Int)
  beginTx : Effect State Tx
  commit : Tx → Effect State Unit
  rollback : Tx → Effect State Unit

/-! ### The implementation over sqlx -/

/-- `sqlxTx`: a transaction, and a pointer to its counter of savepoints. -/
structure SqlxTx (D : Database) where
  tx : D.Tx
  spCount : Nat

/-- The transactions: `sqlxTx`, and `sqlxSavepoint`, which embeds one. -/
inductive SqlxHandle (D : Database) where
  | sqlxTx (t : SqlxTx D)
  | sqlxSavepoint (t : SqlxTx D) (name : String)

/-- The `sqlxTx` that is, or is embedded. -/
def SqlxHandle.base {D : Database} : SqlxHandle D → SqlxTx D
  | .sqlxTx t => t
  | .sqlxSavepoint t _ => t

/-- The database, and the counters that have been allocated. -/
structure SqlxState (D : Database) where
  db : D.State
  counters : List Int

section Sqlx

variable {D : Database} {α : Type}

/-- An effect on the database alone. -/
def onDb (m : Effect D.State α) : Effect (SqlxState D) α :=
  .of fun s => ((m.on s.db).1, { s with db := (m.on s.db).2 })

/-- `new(int32)`. -/
def newInt32 : Effect (SqlxState D) Nat :=
  .of fun s => (.ok s.counters.length, { s with counters := s.counters ++ [0] })

/-- `atomic.AddInt32(p, 1)`. -/
def addInt32 (p : Nat) : Effect (SqlxState D) Int :=
  .of fun s =>
    let n := wrapInt 32 (s.counters.getD p 0 + 1)
    (.ok n, { s with counters := s.counters.set p n })

/-- The name of the `n`-th savepoint. -/
def savepointName (n : Int) : String := "kiya_sp_" ++ toString n

/-- `sqlxTx.Begin`, which `sqlxSavepoint` inherits. -/
def SqlxTx.begin (t : SqlxTx D) : Effect (SqlxState D) (SqlxHandle D) := do
  let n ← addInt32 t.spCount
  let _ ← onDb (D.exec (some t.tx) ⟨"SAVEPOINT " ++ savepointName n, []⟩)
  return .sqlxSavepoint t (savepointName n)

end Sqlx

/-- The executor over sqlx. -/
abbrev sqlx (D : Database) : Executor where
  State := SqlxState D
  Tx := SqlxHandle D
  call on
    | .select q => onDb (D.query (on.map (·.base.tx)) q)
    | .get q => do
      let rows ← onDb (D.query (on.map (·.base.tx)) q)
      return rows.head?
    | .exec q => onDb (D.exec (on.map (·.base.tx)) q)
  begin
    | none => do
      let tx ← onDb D.beginTx
      let p ← newInt32
      return .sqlxTx ⟨tx, p⟩
    | some t => t.base.begin
  commit
    | .sqlxTx t => onDb (D.commit t.tx)
    | .sqlxSavepoint t name => do
      let _ ← onDb (D.exec (some t.tx) ⟨"RELEASE SAVEPOINT " ++ name, []⟩)
  rollback
    | .sqlxTx t => onDb (D.rollback t.tx)
    | .sqlxSavepoint t name => do
      let _ ← onDb (D.exec (some t.tx) ⟨"ROLLBACK TO SAVEPOINT " ++ name, []⟩)

/-! ### A database with savepoints -/

/-- What a database does with other statements: the rows a query reads, and what a statement writes
and returns. -/
structure Content (σ : Type) where
  read : Query → σ → List Row
  write : Query → σ → σ
  result : Query → σ → Int × Option Int

/-- The statements on savepoints. -/
inductive Command where
  | savepoint (name : String)
  | release (name : String)
  | rollbackTo (name : String)
  | other
  deriving DecidableEq

/-- What follows a keyword. -/
def afterKeyword (keyword text : String) : Option String :=
  (text.toList.dropPrefix? keyword.toList).map String.ofList

/-- The statement on savepoints that a text is. -/
def Command.parse (text : String) : Command :=
  match afterKeyword "SAVEPOINT " text, afterKeyword "RELEASE SAVEPOINT " text,
    afterKeyword "ROLLBACK TO SAVEPOINT " text with
  | some name, _, _ => .savepoint name
  | none, some name, _ => .release name
  | none, none, some name => .rollbackTo name
  | none, none, none => .other

/-- A connection: what is committed, and the transaction, if one is open. -/
structure Connection (σ : Type) where
  committed : σ
  session : Option (Session σ) := none

/-- The error of a transaction that has ended. -/
def Err.txDone : Err := .message "sql: transaction has already been committed or rolled back"

/-- One connection to a database with savepoints. -/
def sessionDb {σ : Type} (content : Content σ) (old : SameName) : Database where
  State := Connection σ
  Tx := Unit
  query
    | none, q => .of fun s => (.ok (content.read q s.committed), s)
    | some _, q => .of fun s =>
      match s.session with
      | none => (.error .txDone, s)
      | some t => (.ok (content.read q t.state), s)
  exec
    | none, q => .of fun s =>
      (.ok (content.result q s.committed), { s with committed := content.write q s.committed })
    | some _, q => .of fun s =>
      match s.session with
      | none => (.error .txDone, s)
      | some t =>
        match Command.parse q.text with
        | .savepoint name => (.ok (0, none), { s with session := some (t.savepoint old name) })
        | .release name =>
          match t.release name with
          | none => (.error (.message "no such savepoint"), s)
          | some t => (.ok (0, none), { s with session := some t })
        | .rollbackTo name =>
          match t.rollbackTo name with
          | none => (.error (.message "no such savepoint"), s)
          | some t => (.ok (0, none), { s with session := some t })
        | .other =>
          (.ok (content.result q t.state), { s with session := some (t.write (content.write q)) })
  beginTx := .of fun s =>
    match s.session with
    | some _ => (.error (.message "connection in use"), s)
    | none => (.ok (), { s with session := some ⟨s.committed, [], 0⟩ })
  commit _ := .of fun s =>
    match s.session with
    | none => (.error .txDone, s)
    | some t => (.ok (), ⟨t.state, none⟩)
  rollback _ := .of fun s =>
    match s.session with
    | none => (.error .txDone, s)
    | some _ => (.ok (), ⟨s.committed, none⟩)

theorem afterKeyword_append (keyword name : String) :
    afterKeyword keyword (keyword ++ name) = some name := by
  have hdrop : (keyword ++ name).toList.dropPrefix? keyword.toList = some name.toList :=
    List.dropPrefix?_eq_some_iff.mpr ⟨keyword.toList, by simp, by simp⟩
  rw [afterKeyword, hdrop, Option.map_some, String.ofList_toList]

theorem parse_savepoint (name : String) :
    Command.parse ("SAVEPOINT " ++ name) = .savepoint name := by
  rw [Command.parse, afterKeyword_append]

theorem parse_release (name : String) :
    Command.parse ("RELEASE SAVEPOINT " ++ name) = .release name := by
  have hsave : afterKeyword "SAVEPOINT " ("RELEASE SAVEPOINT " ++ name) = none := by
    simp [afterKeyword, List.dropPrefix?]
  rw [Command.parse, afterKeyword_append, hsave]

theorem parse_rollbackTo (name : String) :
    Command.parse ("ROLLBACK TO SAVEPOINT " ++ name) = .rollbackTo name := by
  have hsave : afterKeyword "SAVEPOINT " ("ROLLBACK TO SAVEPOINT " ++ name) = none := by
    simp [afterKeyword, List.dropPrefix?]
  have hrelease : afterKeyword "RELEASE SAVEPOINT " ("ROLLBACK TO SAVEPOINT " ++ name) = none := by
    simp [afterKeyword, List.dropPrefix?]
  rw [Command.parse, afterKeyword_append, hsave, hrelease]

end Kiya
