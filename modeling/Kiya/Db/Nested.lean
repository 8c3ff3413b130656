import Kiya.Db.Executor

/-!
# Trees of nested transactions

A tree of nested transactions is run on `sqlxTx` and `sqlxSavepoint`, against a database with
savepoints. A nested transaction that was rolled back leaves its savepoint behind, and transactions
at all depths draw their names from one counter. Names do not repeat as long as the counter does not
overflow, so the savepoints that are left behind have other names than those that are still to be
used: this is the invariant of the induction.
-/

namespace Kiya

open Effect List

variable {σ : Type}

/-- A statement that writes; it is none on savepoints. -/
abbrev Write := { q : Query // Command.parse q.text = .other }

/-- How a nested transaction ends: the savepoint that its `Begin` set, and the one that the name in
its `Commit` or `Rollback` refers to, each told by its number. -/
structure Ending where
  own : Option Nat
  named : Option Nat
  deriving DecidableEq

section Run

variable (content : Content σ) (old : SameName)

/-- The savepoint that was set last. -/
def lastSet : Effect (SqlxState (sessionDb content old)) (Option Nat) :=
  .of fun s => (.ok ((s.db : Connection σ).session.bind fun t => t.savepoints.head?.map (·.id)), s)

/-- The savepoint that the name of a nested transaction refers to. -/
def namedBy : SqlxHandle (sessionDb content old) →
    Effect (SqlxState (sessionDb content old)) (Option Nat)
  | .sqlxTx _ => pure none
  | .sqlxSavepoint _ name =>
    .of fun s => (.ok ((s.db : Connection σ).session.bind fun t => (t.resolve name).map (·.id)), s)

/-- Perform a write in a transaction. -/
def execWrite (w : Write) (t : SqlxHandle (sessionDb content old)) :
    Effect (SqlxState (sessionDb content old)) (Int × Option Int) :=
  (sqlx (sessionDb content old)).call (some t) (.exec w.1)

/-- Begin a transaction, inside another one or not. -/
def beginOn (t : Option (SqlxHandle (sessionDb content old))) :
    Effect (SqlxState (sessionDb content old)) (SqlxHandle (sessionDb content old)) :=
  (sqlx (sessionDb content old)).begin t

/-- End a transaction. -/
def finish (commits : Bool) (t : SqlxHandle (sessionDb content old)) :
    Effect (SqlxState (sessionDb content old)) Unit :=
  if commits then (sqlx (sessionDb content old)).commit t
  else (sqlx (sessionDb content old)).rollback t

/-- Do the work of a transaction; the nested ones are begun on it, and ended. -/
def runWork : Work Write → SqlxHandle (sessionDb content old) →
    Effect (SqlxState (sessionDb content old)) (List Ending)
  | .done, _ => pure []
  | .write w rest, t => do
    let _ ← execWrite content old w t
    runWork rest t
  | .nested work commits rest, t => do
    let child ← beginOn content old (some t)
    let own ← lastSet content old
    let inner ← runWork work child
    let named ← namedBy content old child
    finish content old commits child
    let outer ← runWork rest t
    return ⟨own, named⟩ :: (inner ++ outer)

/-- Begin a transaction, do its work, and end it. -/
def runTree (work : Work Write) (commits : Bool) :
    Effect (SqlxState (sessionDb content old)) (List Ending) := do
  let t ← beginOn content old none
  let endings ← runWork content old work t
  finish content old commits t
  return endings

end Run

/-! ### Names -/

theorem savepointName_injective {a b : Int} (h : savepointName a = savepointName b) : a = b :=
  Int.repr_inj.mp ((String.append_right_inj _).mp h)

/-- The savepoints have names of numbers over `m` and up to `n`. -/
def NamedWithin (m n : Nat) (sps : List (Savepoint σ)) : Prop :=
  ∀ sp ∈ sps, ∃ k : Nat, m < k ∧ k ≤ n ∧ sp.name = savepointName k

namespace NamedWithin

variable {m n m' n' : Nat} {sps : List (Savepoint σ)}

theorem nil : NamedWithin m n ([] : List (Savepoint σ)) := nofun

theorem mono (h : NamedWithin m n sps) (hm : m' ≤ m) (hn : n ≤ n') : NamedWithin m' n' sps := by
  intro sp hsp
  obtain ⟨k, hmk, hkn, hname⟩ := h sp hsp
  exact ⟨k, by omega, by omega, hname⟩

theorem append {later : List (Savepoint σ)} (h : NamedWithin m n later)
    (h' : NamedWithin m n sps) : NamedWithin m n (later ++ sps) := by
  intro sp hsp
  exact (mem_append.mp hsp).elim (h sp) (h' sp)

theorem cons {sp : Savepoint σ} (hm : m < n) (hname : sp.name = savepointName n)
    (h : NamedWithin m n sps) : NamedWithin m n (sp :: sps) := by
  intro q hq
  rcases mem_cons.mp hq with rfl | hq
  · exact ⟨n, hm, le_rfl, hname⟩
  · exact h q hq

/-- A number outside the bounds gives a name that is not used. -/
theorem name_ne (h : NamedWithin m n sps) {k : Nat} (hk : k ≤ m ∨ n < k) :
    ∀ sp ∈ sps, sp.name ≠ savepointName k := by
  intro sp hsp heq
  obtain ⟨j, hmj, hjn, hname⟩ := h sp hsp
  have hjk : (j : Int) = k := savepointName_injective (hname.symm.trans heq)
  omega

end NamedWithin

open NamedWithin

/-! ### The steps -/

section Steps

variable {content : Content σ} {old : SameName} {s₀ : σ} {t : Session σ} {counters : List Int}
  {h : SqlxHandle (sessionDb content old)} {x : (sessionDb content old).Tx}

/-- A connection with an open transaction. -/
def opened (content : Content σ) (old : SameName) (s₀ : σ) (t : Session σ) (counters : List Int) :
    SqlxState (sessionDb content old) :=
  ⟨(⟨s₀, some t⟩ : Connection σ), counters⟩

theorem on_exec_savepoint (name : String) :
    (onDb ((sessionDb content old).exec (some x) ⟨"SAVEPOINT " ++ name, []⟩)).on
        (opened content old s₀ t counters) =
      (.ok (0, none), opened content old s₀ (t.savepoint old name) counters) := by
  simp [onDb, opened, sessionDb, parse_savepoint]

variable {name : String} {t₁ : Session σ}

theorem on_exec_release (hrelease : t.release name = some t₁) :
    (onDb ((sessionDb content old).exec (some x) ⟨"RELEASE SAVEPOINT " ++ name, []⟩)).on
        (opened content old s₀ t counters) =
      (.ok (0, none), opened content old s₀ t₁ counters) := by
  simp [onDb, opened, sessionDb, parse_release, hrelease]

theorem on_exec_rollbackTo (hrollback : t.rollbackTo name = some t₁) :
    (onDb ((sessionDb content old).exec (some x) ⟨"ROLLBACK TO SAVEPOINT " ++ name, []⟩)).on
        (opened content old s₀ t counters) =
      (.ok (0, none), opened content old s₀ t₁ counters) := by
  simp [onDb, opened, sessionDb, parse_rollbackTo, hrollback]

theorem on_execWrite (w : Write) :
    (execWrite content old w h).on (opened content old s₀ t counters) =
      (.ok (content.result w.1 t.state),
        opened content old s₀ (t.write (content.write w.1)) counters) := by
  change (onDb ((sessionDb content old).exec (some h.base.tx) w.1)).on _ = _
  simp [onDb, opened, sessionDb, w.2]

/-- A nested transaction sets a savepoint of the next name. -/
theorem on_beginOn {n : Nat} (hcounter : counters[h.base.spCount]? = some (n : Int))
    (hn : n + 1 < 2 ^ 31) (hnames : NamedWithin 0 n t.savepoints) :
    (beginOn content old (some h)).on (opened content old s₀ t counters) =
      (.ok (.sqlxSavepoint h.base (savepointName (n + 1 : Nat))),
        opened content old s₀
          ⟨t.state, ⟨savepointName (n + 1 : Nat), t.count, t.state⟩ :: t.savepoints, t.count + 1⟩
          (counters.set h.base.spCount (n + 1 : Nat))) := by
  have hwrap : wrapInt 32 (counters.getD h.base.spCount 0 + 1) = (n + 1 : Nat) := by
    rw [getD_eq_getElem?_getD, hcounter, Option.getD_some]
    simp only [wrapInt]
    omega
  have hadd : (addInt32 h.base.spCount).on (opened content old s₀ t counters) =
      (.ok ((n + 1 : Nat) : Int),
        opened content old s₀ t (counters.set h.base.spCount (n + 1 : Nat))) := by
    simp only [addInt32, on_of, opened, hwrap]
  have hset := @Session.savepoint_of_fresh σ old _ t (hnames.name_ne (Or.inr (Nat.lt_succ_self n)))
  simp only [beginOn, SqlxTx.begin]
  rw [on_bind_of_ok hadd, on_bind_of_ok (on_exec_savepoint _), hset]
  rfl

section Finish

variable {base : SqlxTx (sessionDb content old)} {later older : List (Savepoint σ)}
  {sp : Savepoint σ} (ht : t.savepoints = later ++ sp :: older)
  (hlater : ∀ q ∈ later, q.name ≠ sp.name)

include ht hlater

theorem on_namedBy :
    (namedBy content old (.sqlxSavepoint base sp.name)).on (opened content old s₀ t counters) =
      (.ok (some sp.id), opened content old s₀ t counters) := by
  have hresolve := Session.resolve_of_later ht hlater
  simp [namedBy, opened, hresolve]

/-- A commit drops the savepoint, a rollback brings back its state; both drop the later ones. -/
theorem on_finish (commits : Bool) :
    (finish content old commits (.sqlxSavepoint base sp.name)).on
        (opened content old s₀ t counters) = (.ok (), opened content old s₀
        ⟨if commits then t.state else sp.state, (if commits then [] else [sp]) ++ older, t.count⟩
        counters) := by
  cases commits with
  | true =>
    have hrelease := Session.release_of_later ht hlater
    exact on_bind_of_ok (on_exec_release hrelease)
  | false =>
    have hrollback := Session.rollbackTo_of_later ht hlater
    exact on_bind_of_ok (on_exec_rollbackTo hrollback)

end Finish

end Steps

/-! ### Trees -/

theorem SqlxHandle.base_sqlxSavepoint {D : Database} (t : SqlxTx D) (name : String) :
    (SqlxHandle.sqlxSavepoint t name).base = t := rfl

/-- The state after some writes. -/
def applyWrites (content : Content σ) (ws : List Write) (s : σ) : σ :=
  ws.foldl (fun s w => content.write w.1 s) s

theorem applyWrites_nested (content : Content σ) (work : Work Write) (commits : Bool)
    (rest : Work Write) (s : σ) :
    applyWrites content (work.nested commits rest).remaining s = applyWrites content rest.remaining
        (if commits then applyWrites content work.remaining s else s) := by
  cases commits with
  | true => exact foldl_append
  | false => rfl

variable {counters : List Int} {p : Nat} {n : Int}

theorem set_of_getElem? (h : counters[p]? = some n) : counters.set p n = counters := by
  obtain ⟨hp, rfl⟩ := List.getElem?_eq_some_iff.mp h
  exact set_getElem_self hp

theorem getElem?_set_of_getElem? (h : counters[p]? = some n) (m : Int) :
    (counters.set p m)[p]? = some m := by
  obtain ⟨hp, -⟩ := List.getElem?_eq_some_iff.mp h
  rw [getElem?_set_self hp]

/-- **The work of a transaction.** From a transaction in which names up to `n` are used, the work
leaves the writes that remain, and some savepoints with names over `n`. -/
theorem on_runWork {content : Content σ} {old : SameName} (s₀ : σ) (work : Work Write) :
    ∀ (h : SqlxHandle (sessionDb content old)) (t : Session σ) (counters : List Int) (n : Nat),
      counters[h.base.spCount]? = some (n : Int) → n + work.size < 2 ^ 31 →
      NamedWithin 0 n t.savepoints →
      ∃ endings later, (runWork content old work h).on (opened content old s₀ t counters) =
          (.ok endings, opened content old s₀
            ⟨applyWrites content work.remaining t.state, later ++ t.savepoints, t.count + work.size⟩
            (counters.set h.base.spCount (n + work.size : Nat))) ∧
        NamedWithin n (n + work.size) later ∧ endings.length = work.size ∧
        ∀ e ∈ endings, ∃ id, e = ⟨some id, some id⟩ := by
  induction work with
  | done =>
    intro h t counters n hcounter hn hnames
    refine ⟨[], [], ?_, nil, rfl, nofun⟩
    simp only [Work.size, Nat.add_zero, set_of_getElem? hcounter]
    rfl
  | write w rest ih =>
    intro h t counters n hcounter hn hnames
    obtain ⟨endings, later, hrun, hspec⟩ :=
      ih h (t.write (content.write w.1)) counters n hcounter hn hnames
    refine ⟨endings, later, ?_, hspec⟩
    rwa [runWork, on_bind_of_ok (on_execWrite w)]
  | nested work commits rest ihwork ihrest =>
    intro h t counters n hcounter hn hnames
    simp only [Work.size] at hn
    -- the savepoint of the nested transaction, and the transaction after its work
    let sp : Savepoint σ := ⟨savepointName (n + 1 : Nat), t.count, t.state⟩
    have hcounter₁ := getElem?_set_of_getElem? hcounter (n + 1 : Nat)
    have hnames₁ : NamedWithin 0 (n + 1) (sp :: t.savepoints) :=
      (hnames.mono le_rfl (Nat.le_succ n)).cons (Nat.succ_pos n) rfl
    obtain ⟨inner, left, hwork, hleft, hinner, hown⟩ := ihwork (.sqlxSavepoint h.base sp.name)
      ⟨t.state, sp :: t.savepoints, t.count + 1⟩ _ (n + 1) hcounter₁ (by omega) hnames₁
    let t₁ : Session σ := ⟨applyWrites content work.remaining t.state, left ++ sp :: t.savepoints,
      t.count + 1 + work.size⟩
    -- what the work has left behind has later names, so the name still refers to the savepoint
    have hlater := hleft.name_ne (Or.inl le_rfl)
    have hnamed := @on_namedBy σ content old s₀ t₁
      (counters.set h.base.spCount (n + 1 + work.size : Nat)) h.base left _ sp rfl hlater
    have hfinish := @on_finish σ content old s₀ t₁
      (counters.set h.base.spCount (n + 1 + work.size : Nat)) h.base left _ sp rfl hlater commits
    have hnames₂ : NamedWithin 0 (n + 1 + work.size)
        ((if commits then [] else [sp]) ++ t.savepoints) := by
      cases commits with
      | true => exact hnames.mono le_rfl (by omega)
      | false => exact hnames₁.mono le_rfl (by omega)
    obtain ⟨outer, later, hrest, hnew, houter, hown'⟩ := ihrest h
      ⟨if commits then t₁.state else sp.state, (if commits then [] else [sp]) ++ t.savepoints,
        t₁.count⟩ _ (n + 1 + work.size) (getElem?_set_of_getElem? hcounter _) (by omega) hnames₂
    refine ⟨⟨some sp.id, some sp.id⟩ :: (inner ++ outer),
      later ++ (if commits then [] else [sp]), ?_, ?_, ?_, ?_⟩
    · have hlast : (lastSet content old).on (opened content old s₀
          ⟨t.state, sp :: t.savepoints, t.count + 1⟩ (counters.set h.base.spCount (n + 1 : Nat))) =
          (.ok (some sp.id), opened content old s₀ ⟨t.state, sp :: t.savepoints, t.count + 1⟩
            (counters.set h.base.spCount (n + 1 : Nat))) := rfl
      have hsize : n + (work.nested commits rest).size = n + 1 + work.size + rest.size := by
        simp only [Work.size]
        omega
      have hcount : t.count + (work.nested commits rest).size = t₁.count + rest.size := by
        simp only [Work.size, t₁]
        omega
      simp only [SqlxHandle.base_sqlxSavepoint, set_set] at hwork
      rw [runWork, on_bind_of_ok (on_beginOn hcounter (by omega) hnames),
        on_bind_of_ok hlast, on_bind_of_ok hwork, on_bind_of_ok hnamed,
        on_bind_of_ok hfinish, on_bind_of_ok hrest, on_pure, set_set,
        append_assoc, applyWrites_nested, hsize, hcount]
    · refine (hnew.mono (by omega) (by simp only [Work.size]; omega)).append ?_
      cases commits with
      | true => exact nil
      | false =>
        have hsp : NamedWithin n (n + 1) [sp] := nil.cons (Nat.lt_succ_self n) rfl
        exact hsp.mono le_rfl (by simp only [Work.size]; omega)
    · simp only [length_cons, length_append, hinner, houter, Work.size]
      omega
    · intro e he
      rcases mem_cons.mp he with rfl | he
      · exact ⟨_, rfl⟩
      · exact (mem_append.mp he).elim (hown e) (hown' e)

/-- **Nested transactions have the reference semantics.** After a tree of fewer than `2 ^ 31` nested
transactions, the committed state has the writes that remain, if the whole commits, and else none;
and every nested transaction ended with its own savepoint. -/
theorem nested_transactions_reference (content : Content σ) (old : SameName) (work : Work Write)
    (hsize : work.size < 2 ^ 31) (commits : Bool) (s₀ : σ) (counters : List Int) :
    ∃ endings counters₁, (runTree content old work commits).on
        ⟨(⟨s₀, none⟩ : Connection σ), counters⟩ =
        (.ok endings,
          ⟨(⟨applyWrites content (if commits then work.remaining else []) s₀, none⟩ : Connection σ),
            counters₁⟩) ∧
      endings.length = work.size ∧ ∀ e ∈ endings, ∃ id, e = ⟨some id, some id⟩ := by
  let t : SqlxHandle (sessionDb content old) := .sqlxTx ⟨(), counters.length⟩
  have hbegin : (beginOn content old none).on ⟨(⟨s₀, none⟩ : Connection σ), counters⟩ =
      (.ok t, opened content old s₀ ⟨s₀, [], 0⟩ (counters ++ [0])) := rfl
  obtain ⟨endings, left, hwork, -, hspec⟩ := on_runWork s₀ work t ⟨s₀, [], 0⟩ (counters ++ [0]) 0
    (by simp [t, SqlxHandle.base]) (by omega) nil
  refine ⟨endings, (counters ++ [0]).set counters.length (0 + work.size : Nat), ?_, hspec⟩
  rw [runTree, on_bind_of_ok hbegin, on_bind_of_ok hwork]
  cases commits with
  | true | false => exact on_bind_of_ok rfl

/-- Writes append to a list of texts. -/
def journal : Content (List String) where
  read _ _ := []
  write q s := s ++ [q.text]
  result _ _ := (1, none)

/-- A write of a text. -/
def journalEntry (text : String) (h : Command.parse text = .other) : Write := ⟨⟨text, []⟩, h⟩

/-- A nested transaction that is rolled back after one inside it has committed, and then another
one that commits. -/
def nestedWork : Work Write :=
  .write (journalEntry "a" (by decide +kernel)) <|
    .nested
      (.write (journalEntry "b" (by decide +kernel)) <|
        .nested (.write (journalEntry "c" (by decide +kernel)) .done) true .done)
      false <|
    .nested (.write (journalEntry "d" (by decide +kernel)) .done) true .done

/-- Of the four writes, the first and the last remain. -/
theorem nestedWork_remaining :
    nestedWork.size < 2 ^ 31 ∧
      applyWrites journal nestedWork.remaining [] = ["a", "d"] ∧
      ∃ endings counters, (runTree journal .hides nestedWork true).on
          ⟨(⟨[], none⟩ : Connection (List String)), []⟩ =
        (.ok endings,
          ⟨(⟨applyWrites journal nestedWork.remaining [], none⟩ : Connection (List String)),
            counters⟩) ∧
      endings.length = 3 ∧ ∀ e ∈ endings, ∃ id, e = ⟨some id, some id⟩ :=
  ⟨by decide, by decide, nested_transactions_reference journal .hides nestedWork (by decide) true
    [] []⟩

end Kiya
