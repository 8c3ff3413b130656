import Kiya.Db.Operations

/-!
# A database to run the operations on

What one client sees of a database: tables with rows, reads and writes by a condition, and
transactions that can be rolled back. How the texts of conditions are evaluated, which of the
matching rows a read returns, how values are delivered and whether the number of affected rows
counts matched or changed rows is left to the `Server`; nothing is assumed of these but that a
read returns a row that matches, that texts are delivered as texts and `NULL` as `NULL`.

Only statements that read or write rows by a condition are answered; without a raw query the
operations on a row issue no others. All other statements fail, and so does one with an unknown
column. What a raw query does is left open, so results about it cannot be drawn from this model.

`exec` runs an operation. `Atomic` says what a run can do: it fails and leaves the tables as they
were, or it succeeds with a given effect. Its rules follow the shape that the operations on a row
share: some reads, and then one write, inside a transaction or not.
-/

namespace Kiya

open List

/-! ### States -/

/-- A stored row. -/
abbrev Stored := String → DbVal

/-- A table: its columns, and its rows, each with an identity of its own. -/
structure Table where
  columns : List String
  rows : List (Nat × Stored)
  nodup : (rows.map Prod.fst).Nodup

/-- The row with a given identity. -/
def Table.row (t : Table) (id : Nat) : Option Stored := t.rows.lookup id

variable {t : Table} {id : Nat} {r : Stored} {sets : GoMap Value}

theorem Table.row_eq_some_iff : t.row id = some r ↔ (id, r) ∈ t.rows := by
  have key : ∀ l : List (Nat × Stored), (l.map Prod.fst).Nodup →
      (l.lookup id = some r ↔ (id, r) ∈ l) := by
    intro l
    induction l with
    | nil => simp
    | cons q l ih =>
      obtain ⟨i, r'⟩ := q
      intro hnodup
      obtain ⟨hi, hl⟩ := nodup_cons.mp hnodup
      by_cases hid : id = i
      · subst hid
        have hnotin : (id, r) ∉ l := fun h => hi (mem_map.mpr ⟨_, h, rfl⟩)
        simp [hnotin, eq_comm]
      · have hbeq : (id == i) = false := by simpa using hid
        have hrest := ih hl
        simp [List.lookup, hbeq, hid, hrest]
  exact key t.rows t.nodup

/-- The database as one client sees it: the tables, those at the beginning of each open
transaction, and a clock. -/
structure Db where
  tables : String → Table
  saved : List (String → Table) := []
  clock : Nat → GoTime
  ticks : Nat := 0

variable (db : Db)

/-- Replace a table. -/
def Db.set (name : String) (t : Table) : Db :=
  { db with tables := fun n => if n = name then t else db.tables n }

theorem Db.tables_set_self (name : String) (t : Table) :
    (db.set name t).tables name = t := if_pos rfl

theorem Db.tables_set_of_ne {name n : String} (h : n ≠ name) (t : Table) :
    (db.set name t).tables n = db.tables n := if_neg h

/-- What a database is free to choose. -/
structure Server where
  sat : Option Where → Stored → Bool
  pick : Stmt → List (Nat × Stored) → Option (Nat × Stored)
  pick_mem : ∀ {s rows q}, pick s rows = some q → q ∈ rows
  deliver : String → DbVal → DriverVal
  deliver_null : ∀ c, deliver c .null = .null
  deliver_str : ∀ c s, deliver c (.str s) = .str s ∨ deliver c (.str s) = .bytes s
  countsMatched : Bool

/-- An unknown column, or a statement that is not answered. -/
def Err.unsupported : Err := .db 0

/-- A row after an assignment. -/
def assign (sets : GoMap Value) (r : Stored) : Stored := fun c =>
  match sets.get c with
  | some v => v.store
  | none => r c

/-- Does an assignment change a row? -/
def changesRow (sets : GoMap Value) (r : Stored) : Bool := sets.any fun p => p.2.store ≠ r p.1

variable {c : String}

theorem assign_of_get {v : Value} (h : sets.get c = some v)
    (r : Stored) : assign sets r c = v.store := by
  rw [assign, h]

theorem assign_of_get_none (h : sets.get c = none) (r : Stored) : assign sets r c = r c := by
  rw [assign, h]

theorem assign_of_not_changesRow (h : changesRow sets r = false) : assign sets r = r := by
  funext c
  cases hget : sets.get c with
  | none => exact assign_of_get_none hget r
  | some v =>
    have hall : ∀ p ∈ sets, p.2.store = r p.1 := by simpa [changesRow] using h
    rw [assign_of_get hget]
    exact hall _ (GoMap.mem_of_get hget)

namespace Server

/-! ### Statements -/

variable (sv : Server)

/-- The rows that meet a condition. -/
def matching (t : Table) (cond : Option Where) : List (Nat × Stored) :=
  t.rows.filter fun q => sv.sat cond q.2

/-- A row as it is delivered; an expression that is no column is the literal `1`. -/
def driverRow (t : Table) (cols : List String) (r : Stored) : Row :=
  cols.map fun c => (c, if t.columns.contains c then sv.deliver c (r c) else .int 1)

/-- The columns of a `SELECT`. -/
def selected (t : Table) (cols : List String) : List String :=
  if cols.isEmpty then t.columns else cols

/-- The first row of a `SELECT`. A count cannot lock rows. -/
def read (t : Table) (s : Stmt) (cols : List String) (lock : Bool) : Except Err (Option Row) :=
  let found := sv.matching t s.cond
  if cols = ["COUNT(*)"] then
    if lock then .error .unsupported else .ok (some [("COUNT(*)", .int found.length)])
  else if (selected t cols).all fun c => t.columns.contains c || c = "1" then
    .ok ((sv.pick s found).map fun q => sv.driverRow t (selected t cols) q.2)
  else .error .unsupported

/-- One row after an `UPDATE`. -/
def updatedRow (cond : Option Where) (sets : GoMap Value) (q : Nat × Stored) : Nat × Stored :=
  if sv.sat cond q.2 then (q.1, assign sets q.2) else q

/-- The table after an `UPDATE`. -/
def updated (t : Table) (cond : Option Where) (sets : GoMap Value) : Table :=
  { t with
    rows := t.rows.map (sv.updatedRow cond sets)
    nodup := by
      have hid : Prod.fst ∘ sv.updatedRow cond sets = Prod.fst := by
        funext q
        simp only [Function.comp_apply, updatedRow]
        split_ifs <;> rfl
      rw [map_map, hid]
      exact t.nodup }

variable {sv : Server} {cond : Option Where}

/-- The rows after an `UPDATE`. -/
theorem row_updated {r' : Stored} : (sv.updated t cond sets).row id = some r' ↔
      ∃ r, t.row id = some r ∧ r' = if sv.sat cond r then assign sets r else r := by
  simp only [Table.row_eq_some_iff, updated, mem_map, updatedRow]
  constructor
  · rintro ⟨⟨i, r⟩, hmem, hrow⟩
    refine ⟨r, ?_, ?_⟩ <;> split_ifs at hrow ⊢ <;> simp_all
  · rintro ⟨r, hmem, rfl⟩
    refine ⟨(id, r), hmem, ?_⟩
    split_ifs <;> rfl

/-- The number of rows an `UPDATE` reports. -/
def affected (sv : Server) (t : Table) (cond : Option Where) (sets : GoMap Value) : Nat :=
  if sv.countsMatched then (sv.matching t cond).length
  else ((sv.matching t cond).filter fun q => changesRow sets q.2).length

/-- The table after a `DELETE`. -/
def deleted (sv : Server) (t : Table) (cond : Option Where) : Table :=
  { t with
    rows := t.rows.filter fun q => !sv.sat cond q.2
    nodup := t.nodup.sublist (filter_sublist.map Prod.fst) }

/-- A row that is left after a `DELETE` is as it was. -/
theorem row_of_row_deleted (h : (sv.deleted t cond).row id = some r) : t.row id = some r := by
  rw [Table.row_eq_some_iff] at h ⊢
  exact (mem_filter.mp h).1

/-- Execute a statement that writes rows by a condition. -/
def write (sv : Server) (s : Stmt) (db : Db) : Except Err (Int × Option Int) × Db :=
  let t := db.tables s.table
  match s.kind with
  | .update sets =>
    if (sets.map Prod.fst).all t.columns.contains then
      (.ok (sv.affected t s.cond sets, none), db.set s.table (sv.updated t s.cond sets))
    else (.error .unsupported, db)
  | .delete =>
    (.ok ((sv.matching t s.cond).length, none), db.set s.table (sv.deleted t s.cond))
  | _ => (.error .unsupported, db)

/-- Answer a request. -/
def answer (sv : Server) : (c : Cmd) → Db → Cmd.Resp c × Db
  | .get _ s, db =>
    match s.kind with
    | .select cols lock => (sv.read (db.tables s.table) s cols lock, db)
    | _ => (.error .unsupported, db)
  | .select _ s, db =>
    let t := db.tables s.table
    match s.kind with
    | .select cols _ =>
      (.ok ((sv.matching t s.cond).map fun q => sv.driverRow t (selected t cols) q.2), db)
    | _ => (.error .unsupported, db)
  | .exec _ s, db => sv.write s db
  | .beginTx, db => (.ok (), { db with saved := db.tables :: db.saved })
  | .commit, db => (.ok (), { db with saved := db.saved.tail })
  | .rollback, db =>
    (.ok (), { db with tables := db.saved.headD db.tables, saved := db.saved.tail })
  | .now, db => (db.clock db.ticks, { db with ticks := db.ticks + 1 })

/-- Run an operation. -/
def exec {α : Type} (sv : Server) (m : DbM α) (db : Db) : Except Err α × Db :=
  m.run.run sv.answer db

/-- An `UPDATE` that reports no row leaves the table as it was. -/
theorem updated_of_affected_eq_zero (h : sv.affected t cond sets = 0) :
    sv.updated t cond sets = t := by
  have hrow : ∀ q ∈ t.rows, sv.updatedRow cond sets q = q := by
    intro q hq
    unfold updatedRow
    split_ifs with hsat
    · have hmem : q ∈ sv.matching t cond := mem_filter.mpr ⟨hq, hsat⟩
      unfold affected at h
      split_ifs at h
      · rw [length_eq_zero_iff] at h
        rw [h] at hmem
        cases hmem
      · have hunchanged : changesRow sets q.2 = false := by
          by_contra hne
          have hin : q ∈ (sv.matching t cond).filter fun q => changesRow sets q.2 :=
            mem_filter.mpr ⟨hmem, by simpa using hne⟩
          rw [length_eq_zero_iff.mp h] at hin
          cases hin
        rw [assign_of_not_changesRow hunchanged]
    · rfl
  cases t with
  | mk columns rows nodup =>
    have hrows : rows.map (sv.updatedRow cond sets) = rows := by
      exact (map_congr_left hrow).trans (map_id' rows)
    simp [updated, hrows]

/-! ### Runs -/

section Exec

variable {α β : Type} {db db' : Db}

theorem exec_bind (m : DbM α) (f : α → DbM β) :
    sv.exec (m >>= f) db = match sv.exec m db with
      | (.ok a, db₁) => sv.exec (f a) db₁
      | (.error e, db₁) => (.error e, db₁) := by
  rw [exec, ExceptT.run_bind, Prog.run_bind]
  cases h : m.run.run sv.answer db with
  | mk r db₁ =>
    cases r with
    | ok | error => simp [exec, h]

end Exec

end Server

/-- A run of `m` fails and leaves the tables as they were, or it succeeds with the effect `R`. In
both cases it closes the transactions that it opened. -/
def Atomic {α : Type} (sv : Server) (m : DbM α) (db : Db) (R : α → Db → Prop) : Prop :=
  (sv.exec m db).2.saved = db.saved ∧
    match (sv.exec m db).1 with
    | .ok a => R a (sv.exec m db).2
    | .error _ => (sv.exec m db).2.tables = db.tables

namespace Atomic

variable {α β : Type} {sv : Server} {db : Db} {R : α → Db → Prop} {m : DbM α} {a : α} {db' : Db}
  {b : Builder}

theorem of_exec_eq_ok (h : Atomic sv m db R) (hexec : sv.exec m db = (.ok a, db')) : R a db' := by
  have hR := h.2
  rwa [hexec] at hR

variable {e : Err} {f : α → DbM β}

theorem of_exec_eq_error (h : Atomic sv m db R)
    (hexec : sv.exec m db = (.error e, db')) : db'.tables = db.tables := by
  have hR := h.2
  rwa [hexec] at hR

theorem mono {R' : α → Db → Prop} (h : Atomic sv m db R) (hR : ∀ a db', R a db' → R' a db') :
    Atomic sv m db R' := by
  refine ⟨h.1, ?_⟩
  have hres := h.2
  split at hres
  · exact hR _ _ hres
  · exact hres

protected theorem throw : Atomic sv (throw e) db R := ⟨rfl, rfl⟩

theorem bind_of_exec_eq_ok {R : β → Db → Prop}
    (h : sv.exec m db = (.ok a, db)) (hf : Atomic sv (f a) db R) : Atomic sv (m >>= f) db R := by
  unfold Atomic
  rwa [Server.exec_bind, h]

theorem bind_of_exec_eq_error {R : β → Db → Prop}
    (h : sv.exec m db = (.error e, db)) : Atomic sv (m >>= f) db R := by
  unfold Atomic
  rw [Server.exec_bind, h]
  exact ⟨rfl, rfl⟩

theorem check_bind {r : Except Err α} {R : β → Db → Prop}
    (hf : ∀ a, r = .ok a → Atomic sv (f a) db R) : Atomic sv (check r >>= f) db R := by
  cases r with
  | ok a => exact bind_of_exec_eq_ok rfl (hf a rfl)
  | error e => exact bind_of_exec_eq_error (e := e) rfl

theorem now_bind {f : GoTime → DbM β} {R : β → Db → Prop}
    (hf : Atomic sv (f (db.clock db.ticks)) { db with ticks := db.ticks + 1 } R) :
    Atomic sv (now >>= f) db R := hf

/-- A read, and what it found. -/
theorem getRow_bind {s : Stmt} {f : Option Row → DbM β} {R : β → Db → Prop}
    (hf : ∀ cols lock row, s.kind = .select cols lock →
      sv.read (db.tables s.table) s cols lock = .ok row → Atomic sv (f row) db R) :
    Atomic sv (getRow b s >>= f) db R := by
  have hexec : sv.exec (getRow b s) db = sv.answer (.get b.inTx s) db := rfl
  rw [Server.answer] at hexec
  cases hkind : s.kind with
  | select cols lock =>
    simp only [hkind] at hexec
    cases hread : sv.read (db.tables s.table) s cols lock with
    | error e =>
      rw [hread] at hexec
      exact bind_of_exec_eq_error hexec
    | ok row =>
      rw [hread] at hexec
      exact bind_of_exec_eq_ok hexec (hf cols lock row hkind hread)
  | _ =>
    simp only [hkind] at hexec
    exact bind_of_exec_eq_error hexec

/-- A transaction around a part that is atomic. -/
theorem withTx {fn : Builder → DbM α}
    (hR : ∀ a db' saved, R a db' → R a { db' with saved := saved })
    (h : ∀ saved, Atomic sv (fn b.intoTx) { db with saved := saved } R) :
    Atomic sv (b.withTx fn) db R := by
  unfold Builder.withTx
  split_ifs with htx
  · have hb : b.intoTx = b := by rw [Builder.intoTx, ← htx]
    have hin := h db.saved
    rwa [hb] at hin
  · have hin := h (db.tables :: db.saved)
    have hlift : sv.exec (ExceptT.lift (fn b.intoTx).run : DbM (Except Err α))
        { db with saved := db.tables :: db.saved } =
        (.ok (sv.exec (fn b.intoTx) { db with saved := db.tables :: db.saved }).1,
          (sv.exec (fn b.intoTx) { db with saved := db.tables :: db.saved }).2) := by
      rw [Server.exec, ExceptT.run_lift, map_eq_pure_bind, Prog.run_bind]
      rfl
    have hbegin : sv.exec beginTx db = (.ok (), { db with saved := db.tables :: db.saved }) := rfl
    unfold Atomic
    simp only [Server.exec_bind, hbegin, hlift]
    cases hres : sv.exec (fn b.intoTx) { db with saved := db.tables :: db.saved } with
    | mk r db₁ =>
      have hsaved : db₁.saved = db.tables :: db.saved := by
        have hs := hin.1
        rwa [hres] at hs
      cases r with
      | error e =>
        refine ⟨?_, ?_⟩
        · show db₁.saved.tail = db.saved
          rw [hsaved]
          rfl
        · show db₁.saved.headD db₁.tables = db.tables
          rw [hsaved]
          rfl
      | ok a =>
        refine ⟨?_, ?_⟩
        · show db₁.saved.tail = db.saved
          rw [hsaved]
          rfl
        · exact hR _ _ _ (hin.of_exec_eq_ok hres)

end Atomic

/-- A database that evaluates conditions by `sat` and delivers values as they are. -/
def plainServer (sat : Stored → Bool) : Server where
  sat _ r := sat r
  pick _ rows := rows.head?
  pick_mem := mem_of_head?
  deliver _
    | .null => .null
    | .int n => .int n
    | .uint n => .uint n
    | .float x => .float x
    | .bool b => .bool b
    | .str s => .str s
    | .time instant => .time { instant := instant }
    | .other o => .other o
  deliver_null _ := rfl
  deliver_str _ _ := .inl rfl
  countsMatched := true

end Kiya
