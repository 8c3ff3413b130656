import Kiya.Db.Nested

/-!
# The logging layer

`LoggedExecutor` wraps an executor and reports its queries to a logger; a transaction that it hands
out is a `loggedTx`, which wraps one of the inner executor. All methods forward, except `Begin` on a
`loggedTx`: it returns an error. So a program observes the layer as soon as it begins a transaction
inside a transaction, and `DB.Transaction` on a database that is bound to a transaction never runs.

A program is a `Script`: it calls methods on the executor or on one of the transactions it has been
handed, and goes on with what they return. Its trace lists what it observes, with the effects.
-/

namespace Kiya

/-! ### The wrapper -/

/-- An entry of the log, without the duration and the context. -/
structure QueryLog where
  query : Query
  err : Option Err
  rows : Int := 0

/-- What is logged for a call. -/
def QueryLog.of : (c : Call) → Except Err c.Resp → QueryLog
  | .select q, .ok _ => ⟨q, none, 0⟩
  | .get q, .ok _ => ⟨q, none, 0⟩
  | .exec q, .ok res => ⟨q, none, res.1⟩
  | .select q, .error e => ⟨q, some e, 0⟩
  | .get q, .error e => ⟨q, some e, 0⟩
  | .exec q, .error e => ⟨q, some e, 0⟩

/-- The state of the inner executor, and the log. -/
structure LoggedState (E : Executor) where
  inner : E.State
  log : List QueryLog

open LoggedState

/-- `loggedTx`. -/
structure LoggedTx (E : Executor) where
  inner : E.Tx

/-- The error of `loggedTx.Begin`. -/
def Err.nestedBegin : Err := .message "cannot begin a transaction within a transaction"

section Logged

variable {E : Executor} {α : Type}

/-- An effect on the inner executor alone. -/
def onInner (m : Effect E.State α) : Effect (LoggedState E) α :=
  .of fun s => ((m.on s.inner).1, { s with inner := (m.on s.inner).2 })

/-- Forward a call, and log it if there is a logger. -/
def loggedCall (logger : Bool) (tx : Option E.Tx) (c : Call) : Effect (LoggedState E) c.Resp :=
  .of fun s =>
    let r := (E.call tx c).on s.inner
    (r.1, ⟨r.2, if logger then s.log ++ [QueryLog.of c r.1] else s.log⟩)

/-- `LoggedExecutor`, with the `loggedTx` that it hands out. -/
abbrev logged (E : Executor) (logger : Bool) : Executor where
  State := LoggedState E
  Tx := LoggedTx E
  call tx c := loggedCall logger (tx.map (·.inner)) c
  begin
    | none => do
      let tx ← onInner (E.begin none)
      return ⟨tx⟩
    | some _ => throw .nestedBegin
  commit t := onInner (E.commit t.inner)
  rollback t := onInner (E.rollback t.inner)

end Logged

/-! ### Programs -/

/-- A program that has been handed `n` transactions, the last one first. -/
inductive Script : Nat → Type where
  | done {n : Nat} : Script n
  | call {n : Nat} (tx : Option (Fin n)) (c : Call) (next : Except Err c.Resp → Script n) : Script n
  | begin {n : Nat} (tx : Option (Fin n)) (error : Err → Script n) (ok : Script (n + 1)) : Script n
  | finish {n : Nat} (tx : Fin n) (commits : Bool) (next : Except Err Unit → Script n) : Script n

/-- What a program observes of one method. -/
inductive Observed where
  | call (c : Call) (r : Except Err c.Resp)
  | begin (nested : Bool) (r : Except Err Unit)
  | finish (r : Except Err Unit)

/-- A method that was called, with the states before and after it. -/
structure Event (σ : Type) where
  outcome : Observed
  before : σ
  after : σ

/-- The event as it is seen in a part of the state. -/
def Event.map {σ τ : Type} (f : σ → τ) (e : Event σ) : Event τ :=
  ⟨e.outcome, f e.before, f e.after⟩

/-- Commit or roll back. -/
def Executor.finish (E : Executor) (commits : Bool) (tx : E.Tx) : Effect E.State Unit :=
  if commits then E.commit tx else E.rollback tx

/-- The trace of a program. -/
def Script.trace (E : Executor) : {n : Nat} → Script n → (Fin n → E.Tx) → E.State →
    List (Event E.State)
  | _, .done, _, _ => []
  | _, .call tx c next, env, s =>
    let r := (E.call (tx.map env) c).on s
    ⟨.call c r.1, s, r.2⟩ :: (next r.1).trace E env r.2
  | _, .begin tx error ok, env, s =>
    match (E.begin (tx.map env)).on s with
    | (.ok t, s₁) => ⟨.begin tx.isSome (.ok ()), s, s₁⟩ :: ok.trace E (Fin.cons t env) s₁
    | (.error e, s₁) => ⟨.begin tx.isSome (.error e), s, s₁⟩ :: (error e).trace E env s₁
  | _, .finish tx commits next, env, s =>
    let r := (E.finish commits (env tx)).on s
    ⟨.finish r.1, s, r.2⟩ :: (next r.1).trace E env r.2

section Begin

variable {E : Executor} {n : Nat} {tx : Option (Fin n)} {error : Err → Script n}
  {ok : Script (n + 1)} {env : Fin n → E.Tx} {s s₁ : E.State}

theorem Script.trace_begin_of_ok {t : E.Tx} (h : (E.begin (tx.map env)).on s = (.ok t, s₁)) :
    (Script.begin tx error ok).trace E env s =
      ⟨.begin tx.isSome (.ok ()), s, s₁⟩ :: ok.trace E (Fin.cons t env) s₁ := by
  rw [Script.trace, h]

theorem Script.trace_begin_of_error {e : Err} (h : (E.begin (tx.map env)).on s = (.error e, s₁)) :
    (Script.begin tx error ok).trace E env s =
      ⟨.begin tx.isSome (.error e), s, s₁⟩ :: (error e).trace E env s₁ := by
  rw [Script.trace, h]

end Begin

/-- The event is no `Begin` on a transaction, or one that is refused as `loggedTx` does. -/
def Event.NestedRefused {σ : Type} (e : Event σ) : Prop :=
  ∀ r, e.outcome = .begin true r → r = .error .nestedBegin ∧ e.after = e.before

/-! ### Transparency -/

section Transparency

variable {E : Executor} {logger : Bool}

/-- Transactions as the layer hands them out. -/
def wrapAll {n : Nat} (env : Fin n → E.Tx) : Fin n → LoggedTx E := fun i => ⟨env i⟩

theorem wrapAll_cons {n : Nat} (t : E.Tx) (env : Fin n → E.Tx) :
    wrapAll (Fin.cons t env : Fin (n + 1) → E.Tx) = Fin.cons ⟨t⟩ (wrapAll env) := by
  funext i
  refine Fin.cases rfl (fun j => rfl) i

/-- Forget the log. -/
def forget (trace : List (Event (LoggedState E))) : List (Event E.State) :=
  trace.map (Event.map inner)

theorem on_finish_logged (commits : Bool) (tx : E.Tx) (s : LoggedState E) :
    ((logged E logger).finish commits ⟨tx⟩).on s =
      (((E.finish commits tx).on s.inner).1,
        { s with inner := ((E.finish commits tx).on s.inner).2 }) := by
  cases commits <;> rfl

variable {e : Event (LoggedState E)} {e₁ : Event E.State} {rest : List (Event (LoggedState E))}
  {rest₁ : List (Event E.State)}

/-- A method that was forwarded: whether the rest is the same decides. -/
theorem forget_cons_eq_iff (hevent : e.map inner = e₁) (hrefused : e₁.NestedRefused)
    (hrest : forget rest = rest₁ ↔ ∀ x ∈ rest₁, x.NestedRefused) :
    forget (e :: rest) = e₁ :: rest₁ ↔ ∀ x ∈ e₁ :: rest₁, x.NestedRefused := by
  have hcons : forget (e :: rest) = e₁ :: forget rest := by
    rw [forget, List.map_cons, hevent]
    rfl
  rw [hcons, List.cons_inj_right, hrest, List.forall_mem_cons]
  exact ⟨fun h => ⟨hrefused, h⟩, fun h => h.2⟩

/-- A method that is not forwarded is told apart if the inner executor does not refuse it. -/
theorem forget_cons_eq_iff_of_not (hevent : (e.map inner).NestedRefused)
    (hrefused : ¬e₁.NestedRefused) :
    forget (e :: rest) = e₁ :: rest₁ ↔ ∀ x ∈ e₁ :: rest₁, x.NestedRefused := by
  refine iff_of_false (fun h => hrefused ?_) fun h => hrefused (h e₁ List.mem_cons_self)
  rwa [← (List.cons.inj h).1]

/-- **The logging layer is transparent** exactly as long as every transaction that the program
begins inside a transaction is refused by the inner executor, too. -/
theorem logged_trace_eq_iff {n : Nat} (p : Script n) :
    ∀ (env : Fin n → E.Tx) (s : LoggedState E),
      forget (p.trace (logged E logger) (wrapAll env) s) = p.trace E env s.inner ↔
        ∀ e ∈ p.trace E env s.inner, e.NestedRefused := by
  induction p with
  | done =>
    intro env s
    exact iff_of_true rfl nofun
  | call tx c next ih =>
    intro env s
    have htx : (tx.map (wrapAll env)).map (·.inner) = tx.map env := by
      rw [Option.map_map]
      rfl
    simp only [Script.trace, htx]
    exact forget_cons_eq_iff rfl nofun (ih _ env _)
  | begin tx error ok iherror ihok =>
    intro env s
    cases tx with
    | none =>
      cases hbegin : (E.begin none).on s.inner with
      | mk r s₁ =>
        have hinner : (onInner (E.begin none)).on s = (r, { s with inner := s₁ }) := by
          rw [onInner, Effect.on_of, hbegin]
        cases r with
        | ok t =>
          have hlogged : ((logged E logger).begin none).on s = (.ok ⟨t⟩, { s with inner := s₁ }) :=
            Effect.on_bind_of_ok hinner
          rw [Script.trace_begin_of_ok hlogged, Script.trace_begin_of_ok hbegin, ← wrapAll_cons]
          exact forget_cons_eq_iff rfl nofun (ihok _ _)
        | error e =>
          have hlogged : ((logged E logger).begin none).on s = (.error e, { s with inner := s₁ }) :=
            Effect.on_bind_of_error hinner
          rw [Script.trace_begin_of_error hlogged, Script.trace_begin_of_error hbegin]
          exact forget_cons_eq_iff rfl nofun (iherror _ _ _)
    | some i =>
      have hlogged : ((logged E logger).begin (some (wrapAll env i))).on s =
        (.error .nestedBegin, s) := rfl
      rw [Script.trace_begin_of_error hlogged]
      have hown : (Event.map inner
          ⟨.begin true (.error .nestedBegin), s, s⟩).NestedRefused := by
        intro r hr
        cases hr
        exact ⟨rfl, rfl⟩
      cases hbegin : (E.begin (some (env i))).on s.inner with
      | mk r s₁ =>
        cases r with
        | ok t =>
          rw [Script.trace_begin_of_ok hbegin]
          exact forget_cons_eq_iff_of_not hown fun h => nomatch (h _ rfl).1
        | error e =>
          rw [Script.trace_begin_of_error hbegin]
          by_cases href : e = .nestedBegin ∧ s₁ = s.inner
          · obtain ⟨rfl, rfl⟩ := href
            exact forget_cons_eq_iff rfl hown (iherror _ _ _)
          · refine forget_cons_eq_iff_of_not hown fun h => href ?_
            exact ⟨Except.error.inj (h _ rfl).1, (h _ rfl).2⟩
  | finish tx commits next ih =>
    intro env s
    have hfinish := @on_finish_logged E logger commits (env tx) s
    simp only [Script.trace]
    rw [show wrapAll env tx = ⟨env tx⟩ from rfl, hfinish]
    exact forget_cons_eq_iff rfl nofun (ih _ env _)

end Transparency

/-! ### Transactions of a database -/

/-- A `DB`: its executor, or a transaction that it was bound to. -/
structure DB (E : Executor) where
  executor : Option E.Tx := none

namespace DB

variable {E : Executor}

/-- `DB.Begin`. -/
def begin (db : DB E) : Effect E.State E.Tx := E.begin db.executor

/-- `DB.Use`. -/
def use (tx : E.Tx) : DB E := ⟨some tx⟩

/-- `DB.Transaction`: commit, or roll back if the function returned an error or panicked. -/
def transaction (db : DB E) (fn : E.Tx → Effect E.State Unit) : Effect E.State Unit := do
  let tx ← db.begin
  .of fun s =>
    match (fn tx).on s with
    | (.error e, s₁) => (.error e, ((E.rollback tx).on s₁).2)
    | (.ok (), s₁) => (E.commit tx).on s₁

end DB

/-- A handler inside the transaction of its request: it writes in a transaction of its own. -/
def requestScope (E : Executor) : Effect E.State Unit := do
  let tx ← DB.begin ({} : DB E)
  (DB.use tx).transaction fun nested => do
    let _ ← E.call (some nested) (.exec ⟨"INSERT", []⟩)
  E.commit tx

/-- A program that begins a transaction in a transaction. -/
def beginTwice : Script 0 :=
  .begin none (fun _ => .done) (.begin (some 0) (fun _ => .done) .done)

/-- On the inner executor the transaction of the handler is a savepoint, and its write is committed.
Behind the logging layer it is refused, with the error that should be gone. -/
theorem requestScope_refused :
    (requestScope (sqlx (sessionDb journal .hides))).on
        ⟨(⟨[], none⟩ : Connection (List String)), []⟩ =
        (.ok (), ⟨(⟨["INSERT"], none⟩ : Connection (List String)), [1]⟩) ∧
      ((requestScope (logged (sqlx (sessionDb journal .hides)) true)).on
        ⟨⟨(⟨[], none⟩ : Connection (List String)), []⟩, []⟩).1 =
        .error (.message "cannot begin a transaction within a transaction") ∧
      forget (beginTwice.trace (logged (sqlx (sessionDb journal .hides)) true) Fin.elim0
          ⟨⟨(⟨[], none⟩ : Connection (List String)), []⟩, []⟩) ≠
        beginTwice.trace (sqlx (sessionDb journal .hides)) Fin.elim0
          ⟨(⟨[], none⟩ : Connection (List String)), []⟩ := by
  refine ⟨by rfl, by rfl, fun h => ?_⟩
  rw [beginTwice, Script.trace_begin_of_ok rfl, Script.trace_begin_of_error rfl,
    Script.trace_begin_of_ok rfl, Script.trace_begin_of_ok rfl] at h
  -- the second events differ
  have hsecond := congrArg Event.outcome (List.cons.inj (List.cons.inj h).2).1
  injection hsecond with _ hresult
  cases hresult

end Kiya
