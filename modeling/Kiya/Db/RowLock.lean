import Kiya.Lib.Protocol
import Kiya.Db.Trail

/-!
# A row that several clients work on

The database as several clients see one row: the latest committed version, the client that holds the
exclusive lock on the row, and for each client the version that its open transaction has written.
A plain `SELECT` reads the latest version and waits for nothing. A `SELECT ... FOR UPDATE` waits
until no other client holds the lock, reads the latest version, and takes the lock if it finds the
row; an `UPDATE` waits in the same way. The lock is held until the transaction ends, and outside of
a transaction each statement is one of its own. Every request may also fail, at any time; a commit
that fails ends the transaction without effect.

`phases` is the protocol of an operation that adds one entry to the history: begin, lock and read,
write under the lock, and commit or roll back. `simulation` says that operations which obey it, in
any interleaving, extend the history by one entry for each commit, in the order of the commits.
-/

namespace Kiya

open List Function

/-! ### The shared row -/

/-- A row, its lock and the open transactions. -/
structure RowState (ι : Type) where
  row : Stored
  holder : Option ι := none
  draft : ι → Option Stored := fun _ => none
  log : List ι := []

/-- A server, and the table of the row, which has a history. -/
structure RowServer where
  server : Server
  table : String
  columns : List String
  history : "history" ∈ columns

open RowServer

/-- The table with one row. -/
def RowServer.tableOf (rs : RowServer) (r : Stored) : Table := ⟨rs.columns, [(0, r)], by simp⟩

variable {ι : Type} [DecidableEq ι]

namespace RowState

/-- The version of the row that a client sees, inside its transaction or not. -/
def version (s : RowState ι) (i : ι) (tx : Bool) : Stored :=
  if tx then (s.draft i).getD s.row else s.row

/-- Does no other client hold the lock? -/
def FreeFor (s : RowState ι) (i : ι) : Prop := s.holder = none ∨ s.holder = some i

instance (s : RowState ι) (i : ι) : Decidable (s.FreeFor i) := inferInstanceAs (Decidable (_ ∨ _))

/-- End the transaction of a client. -/
def release (s : RowState ι) (i : ι) : RowState ι :=
  { s with
    holder := if s.holder = some i then none else s.holder
    draft := Function.update s.draft i none }

/-- A client takes the lock. -/
def lock (s : RowState ι) (i : ι) : RowState ι := { s with holder := some i }

/-- A client writes a version, under the lock. -/
def write (s : RowState ι) (i : ι) (r : Stored) : RowState ι :=
  { s with holder := some i, draft := Function.update s.draft i (some r) }

/-- The transaction of a client is committed. -/
def commit (s : RowState ι) (i : ι) : RowState ι :=
  { s.release i with row := s.version i true, log := s.log ++ [i] }

/-- A client writes a version in a transaction of its own. -/
def writeThrough (s : RowState ι) (i : ι) (r : Stored) : RowState ι :=
  { s with row := r, log := s.log ++ [i] }

end RowState

open RowState

/-- The state after a read. A row that was found is locked, if the read asks for it inside a
transaction. -/
def RowState.afterRead (s : RowState ι) (i : ι) (locks : Bool) :
    Except Err (Option Row) → RowState ι
  | .ok (some _) => if locks then s.lock i else s
  | _ => s

/-- Answer a `SELECT`; `none` if it has to wait. -/
def RowServer.read (rs : RowServer) (i : ι) (tx : Bool) (stmt : Stmt) (s : RowState ι) :
    Option (Except Err (Option Row) × RowState ι) :=
  match stmt.kind with
  | .select cols lock =>
    if stmt.table = rs.table ∧ (lock = true → s.FreeFor i) then
      let res := rs.server.read (rs.tableOf (s.version i tx)) stmt cols lock
      some (res, s.afterRead i (tx && lock) res)
    else none
  | _ => none

/-- The state after an `UPDATE`. -/
def RowState.afterUpdate (s : RowState ι) (i : ι) (tx found : Bool) (r : Stored) : RowState ι :=
  if found then if tx then s.write i r else s.writeThrough i r else s

/-- Answer an `UPDATE`; `none` if it has to wait. -/
def RowServer.update (rs : RowServer) (i : ι) (tx : Bool) (stmt : Stmt) (s : RowState ι) :
    Option (Except Err (Int × Option Int) × RowState ι) :=
  match stmt.kind with
  | .update sets =>
    if stmt.table = rs.table ∧ s.FreeFor i then
      let r := s.version i tx
      if (sets.map Prod.fst).all rs.columns.contains then
        some (.ok (rs.server.affected (rs.tableOf r) stmt.cond sets, none),
          s.afterUpdate i tx (rs.server.sat stmt.cond r) (assign sets r))
      else some (.error .unsupported, s)
    else none
  | _ => none

/-- Answer a request; `none` if it has to wait, or is no read or update of the row. -/
def RowServer.serve (rs : RowServer) (i : ι) (time : GoTime) :
    (c : Cmd) → RowState ι → Option (Cmd.Resp c × RowState ι)
  | .beginTx, s => some (.ok (), s)
  | .get tx stmt, s => rs.read i tx stmt s
  | .exec tx stmt, s => rs.update i tx stmt s
  | .commit, s => some (.ok (), s.commit i)
  | .rollback, s => some (.ok (), s.release i)
  | .now, s => some (time, s)
  | .select _ _, _ => none

/-- Fail. -/
def RowServer.fail (i : ι) (e : Err) : (c : Cmd) → RowState ι → Option (Cmd.Resp c × RowState ι)
  | .beginTx, s => some (.error e, s)
  | .get _ _, s => some (.error e, s)
  | .select _ _, s => some (.error e, s)
  | .exec _ _, s => some (.error e, s)
  | .commit, s => some (.error e, s.release i)
  | .rollback, s => some (.error e, s.release i)
  | .now, _ => none

/-- The answers to a request of a client, with their effects. -/
def RowServer.Answers (rs : RowServer) (i : ι) (c : Cmd) (s : RowState ι) (r : Cmd.Resp c)
    (s' : RowState ι) : Prop :=
  (∃ time, rs.serve i time c s = some (r, s')) ∨ ∃ e, fail i e c s = some (r, s')

/-! ### The protocol of an operation -/

/-- How far the transaction of an operation has come. -/
inductive Phase where
  | idle
  | opened
  | locked (r : Stored)
  | wrote (r r' : Stored)
  | committed
  | aborted

/-- The entries of a history come back from being decoded and encoded. -/
def Stable (entries : List Json) : Prop := ∀ e ∈ entries, recodeEntry e = e

/-- The history of `r₁` is that of `r` with one entry more, which satisfies `E`. -/
def Grew (E : Json → Prop) (r r₁ : Stored) : Prop :=
  ∀ entries, trail (r "history") = some entries → Stable entries →
    ∃ e, E e ∧ trail (r₁ "history") = some (entries ++ [e])

/-- The protocol of an operation whose entries satisfy `E`. -/
def RowServer.phases (rs : RowServer) (E : Json → Prop) : Protocol Cmd Cmd.Resp Phase where
  allowed c φ :=
    match c, φ with
    | .beginTx, .idle => True
    | .get tx stmt, .opened =>
      tx = true ∧ stmt.table = rs.table ∧ ∃ cols, stmt.kind = .select cols true
    | .exec tx stmt, .locked r =>
      tx = true ∧ stmt.table = rs.table ∧ ∃ sets, stmt.kind = .update sets ∧
        (rs.server.sat stmt.cond r → Grew E r (assign sets r))
    | .commit, .wrote _ _ => True
    | .rollback, .opened => True
    | .rollback, .locked _ => True
    | .rollback, .wrote _ _ => True
    | .now, _ => True
    | _, _ => False
  step c φ res φ' :=
    match c, φ with
    | .beginTx, _ => (res = .ok () ∧ φ' = .opened) ∨ ((∃ e, res = .error e) ∧ φ' = .idle)
    | .get _ stmt, _ =>
      ((∃ e, res = .error e) ∧ φ' = .opened) ∨ (res = .ok none ∧ φ' = .opened) ∨
        ∃ cols row r, stmt.kind = .select cols true ∧
          rs.server.read (rs.tableOf r) stmt cols true = .ok (some row) ∧ res = .ok (some row) ∧
          φ' = .locked r
    | .exec _ stmt, .locked r =>
      ((∃ e, res = .error e) ∧ φ' = .locked r) ∨
        ∃ sets, stmt.kind = .update sets ∧
          res = .ok (rs.server.affected (rs.tableOf r) stmt.cond sets, none) ∧
          φ' = if rs.server.sat stmt.cond r then .wrote r (assign sets r) else .locked r
    | .commit, _ => (res = .ok () ∧ φ' = .committed) ∨ ((∃ e, res = .error e) ∧ φ' = .aborted)
    | .rollback, _ => φ' = .aborted
    | .now, _ => φ' = φ
    | _, _ => False

/-- What a phase says about the shared row. -/
def Phase.Holds (E : ι → Json → Prop) (i : ι) (φ : Phase) (s : RowState ι) : Prop :=
  match φ with
  | .locked r => s.holder = some i ∧ s.row = r ∧ s.draft i = none ∧ i ∉ s.log
  | .wrote r r' => s.holder = some i ∧ s.row = r ∧ s.draft i = some r' ∧ Grew (E i) r r' ∧ i ∉ s.log
  | .committed => s.holder ≠ some i ∧ s.draft i = none ∧ i ∈ s.log
  | _ => s.holder ≠ some i ∧ s.draft i = none ∧ i ∉ s.log

/-- **No entry is lost.** The history is the initial one with one entry for each client that has
committed, in the order of the commits. -/
structure Accounted (E : ι → Json → Prop) (initial : List Json) (s : RowState ι) : Prop where
  nodup : s.log.Nodup
  entries : ∃ es, trail (s.row "history") = some (initial ++ es) ∧ Stable (initial ++ es) ∧
    List.Forall₂ E s.log es

/-! ### Answers -/

section Answers

variable {rs : RowServer} {i : ι} {s s' : RowState ι} {stmt : Stmt}

theorem RowServer.Answers.get_cases {cols : List String}
    {r : Except Err (Option Row)} (hkind : stmt.kind = .select cols true)
    (h : rs.Answers i (.get true stmt) s r s') :
    ((∃ e, r = .error e) ∧ s' = s) ∨ (r = .ok none ∧ s' = s) ∨
      ∃ row, s.FreeFor i ∧
        rs.server.read (rs.tableOf (s.version i true)) stmt cols true = .ok (some row) ∧
        r = .ok (some row) ∧ s' = s.lock i := by
  rcases h with ⟨time, h⟩ | ⟨e, h⟩
  · simp only [serve, read, hkind] at h
    split_ifs at h with hcond
    obtain ⟨rfl, rfl⟩ := Prod.mk.inj (Option.some.inj h)
    cases hres : rs.server.read (rs.tableOf (s.version i true)) stmt cols true with
    | error e => exact .inl ⟨⟨e, rfl⟩, rfl⟩
    | ok row =>
      cases row with
      | none => exact .inr (.inl ⟨rfl, rfl⟩)
      | some row => exact .inr (.inr ⟨row, hcond.2 trivial, rfl, rfl, rfl⟩)
  · obtain ⟨rfl, rfl⟩ := Prod.mk.inj (Option.some.inj h)
    exact .inl ⟨⟨e, rfl⟩, rfl⟩

theorem RowServer.Answers.exec_cases {sets : GoMap Value}
    {r : Except Err (Int × Option Int)} (hkind : stmt.kind = .update sets)
    (h : rs.Answers i (.exec true stmt) s r s') :
    ((∃ e, r = .error e) ∧ s' = s) ∨
      (s.FreeFor i ∧
        r = .ok (rs.server.affected (rs.tableOf (s.version i true)) stmt.cond sets, none) ∧
        s' = if rs.server.sat stmt.cond (s.version i true) then
          s.write i (assign sets (s.version i true)) else s) := by
  rcases h with ⟨time, h⟩ | ⟨e, h⟩
  · simp only [serve, update, hkind] at h
    split at h
    · rename_i hcond
      split at h
      · obtain ⟨rfl, rfl⟩ := Prod.mk.inj (Option.some.inj h)
        exact .inr ⟨hcond.2, rfl, rfl⟩
      · obtain ⟨rfl, rfl⟩ := Prod.mk.inj (Option.some.inj h)
        exact .inl ⟨⟨_, rfl⟩, rfl⟩
    · cases h
  · obtain ⟨rfl, rfl⟩ := Prod.mk.inj (Option.some.inj h)
    exact .inl ⟨⟨e, rfl⟩, rfl⟩

end Answers

/-! ### Other clients -/

section Others

variable {E : ι → Json → Prop} {i j : ι} {s s' : RowState ι} {φ : Phase}

omit [DecidableEq ι] in
/-- A phase says nothing about the row unless the client holds the lock. -/
theorem Phase.Holds.congr (h : φ.Holds E j s) (hholder : s'.holder = some j ↔ s.holder = some j)
    (hrow : s.holder = some j → s'.row = s.row) (hdraft : s'.draft j = s.draft j)
    (hlog : j ∈ s'.log ↔ j ∈ s.log) : φ.Holds E j s' := by
  unfold Phase.Holds at h ⊢
  cases φ with
  | locked r =>
    obtain ⟨hh, hr, hd, hl⟩ := h
    exact ⟨hholder.mpr hh, (hrow hh).trans hr, hdraft.trans hd, fun h => hl (hlog.mp h)⟩
  | wrote r r' =>
    obtain ⟨hh, hr, hd, hgrew, hl⟩ := h
    exact ⟨hholder.mpr hh, (hrow hh).trans hr, hdraft.trans hd, hgrew, fun h => hl (hlog.mp h)⟩
  | committed =>
    obtain ⟨hh, hd, hl⟩ := h
    exact ⟨fun h => hh (hholder.mp h), hdraft.trans hd, hlog.mpr hl⟩
  | _ =>
    obtain ⟨hh, hd, hl⟩ := h
    exact ⟨fun h => hh (hholder.mp h), hdraft.trans hd, fun h => hl (hlog.mp h)⟩

variable (hj : j ≠ i)

include hj

omit [DecidableEq ι] in
theorem RowState.FreeFor.holder_iff (hfree : s.FreeFor i) :
    (some i : Option ι) = some j ↔ s.holder = some j := by
  have hij : (some i : Option ι) ≠ some j := fun h => hj (Option.some.inj h).symm
  rcases hfree with h | h <;> simp [h, hij]

omit [DecidableEq ι] in
theorem Phase.Holds.lock (h : φ.Holds E j s) (hfree : s.FreeFor i) : φ.Holds E j (s.lock i) :=
  h.congr (hfree.holder_iff hj) (fun _ => rfl) rfl Iff.rfl

theorem Phase.Holds.write (h : φ.Holds E j s) (hfree : s.FreeFor i) (r : Stored) :
    φ.Holds E j (s.write i r) :=
  h.congr (hfree.holder_iff hj) (fun _ => rfl) (update_of_ne hj _ _) Iff.rfl

theorem RowState.holder_release : (s.release i).holder = some j ↔ s.holder = some j := by
  unfold release
  by_cases hi : s.holder = some i
  · have hij : (some i : Option ι) ≠ some j := fun h => hj (Option.some.inj h).symm
    simp [hi, hij]
  · simp [hi]

theorem Phase.Holds.release (h : φ.Holds E j s) : φ.Holds E j (s.release i) :=
  h.congr (holder_release hj) (fun _ => rfl) (update_of_ne hj _ _) Iff.rfl

theorem Phase.Holds.commit (h : φ.Holds E j s) (hi : s.holder = some i) :
    φ.Holds E j (s.commit i) := by
  have hij : s.holder ≠ some j := by
    rw [hi]
    exact fun h => hj (Option.some.inj h).symm
  refine h.congr (holder_release hj) (fun h => absurd h hij) (update_of_ne hj _ _) ?_
  simp [RowState.commit, hj]

end Others

/-! ### Every interleaving -/

section Simulation

variable {rs : RowServer} {E : ι → Json → Prop} {initial : List Json} {s s' : RowState ι} {i : ι}

omit [DecidableEq ι] in
theorem RowState.version_of_draft_none (h : s.draft i = none) : s.version i true = s.row := by
  rw [version, if_pos rfl, h]
  rfl

theorem RowState.holder_release_ne (s : RowState ι) (i : ι) : (s.release i).holder ≠ some i := by
  unfold release
  split_ifs with hi
  · simp
  · exact hi

/-- Ending a transaction, without a commit. -/
theorem Phase.holds_aborted (h : i ∉ s.log) : Phase.aborted.Holds E i (s.release i) :=
  ⟨s.holder_release_ne i, update_self .., h⟩

theorem RowServer.Answers.rollback_eq {r : Except Err Unit}
    (h : rs.Answers i .rollback s r s') : s' = s.release i := by
  rcases h with ⟨time, h⟩ | ⟨e, h⟩ <;> exact (Prod.mk.inj (Option.some.inj h)).2.symm

/-- A commit adds the entry of the client to the history. -/
theorem Accounted.commit {r r' : Stored}
    (hE : ∀ i e, E i e → recodeEntry e = e) (h : Accounted E initial s)
    (hφ : (Phase.wrote r r').Holds E i s) : Accounted E initial (s.commit i) := by
  obtain ⟨-, rfl, hdraft, hgrew, hlog⟩ := hφ
  obtain ⟨es, htrail, hstable, hes⟩ := h.entries
  obtain ⟨e, he, htrail'⟩ := hgrew _ htrail hstable
  have hversion : s.version i true = r' := by
    rw [version, if_pos rfl, hdraft]
    rfl
  refine ⟨?_, es ++ [e], ?_, ?_, ?_⟩
  · exact nodup_append.mpr ⟨h.nodup, nodup_singleton i, by
      rintro a ha b hb rfl
      exact hlog (mem_singleton.mp hb ▸ ha)⟩
  · simp only [RowState.commit, hversion, htrail', append_assoc]
  · intro e' he'
    rw [← append_assoc] at he'
    rcases mem_append.mp he' with he' | he'
    · exact hstable e' he'
    · exact hE i e' (mem_singleton.mp he' ▸ he)
  · exact rel_append hes (.cons he .nil)

variable {c : Cmd}

/-- The client that issues a request goes on to a next phase. -/
theorem self_step (hE : ∀ i e, E i e → recodeEntry e = e) {r : Cmd.Resp c} {φ : Phase}
    (hG : Accounted E initial s) (hφ : φ.Holds E i s)
    (hallowed : (rs.phases (E i)).allowed c φ) (hanswer : rs.Answers i c s r s') :
    Accounted E initial s' ∧ ∃ φ', (rs.phases (E i)).step c φ r φ' ∧ φ'.Holds E i s' := by
  cases c with
  | beginTx =>
    cases φ with
    | idle =>
      rcases hanswer with ⟨time, h⟩ | ⟨e, h⟩
      · obtain ⟨rfl, rfl⟩ := Prod.mk.inj (Option.some.inj h)
        exact ⟨hG, .opened, .inl ⟨rfl, rfl⟩, hφ⟩
      · obtain ⟨rfl, rfl⟩ := Prod.mk.inj (Option.some.inj h)
        exact ⟨hG, .idle, .inr ⟨⟨e, rfl⟩, rfl⟩, hφ⟩
    | _ => cases hallowed
  | get tx stmt =>
    cases φ with
    | opened =>
      obtain ⟨hholder, hdraft, hlog⟩ := hφ
      obtain ⟨rfl, -, cols, hkind⟩ := hallowed
      rcases hanswer.get_cases hkind with ⟨herr, rfl⟩ | ⟨hnone, rfl⟩ | ⟨row, -, hread, hrow, rfl⟩
      · exact ⟨hG, .opened, .inl ⟨herr, rfl⟩, hholder, hdraft, hlog⟩
      · exact ⟨hG, .opened, .inr (.inl ⟨hnone, rfl⟩), hholder, hdraft, hlog⟩
      · rw [version_of_draft_none hdraft] at hread
        exact ⟨⟨hG.nodup, hG.entries⟩, .locked s.row,
          .inr (.inr ⟨cols, row, s.row, hkind, hread, hrow, rfl⟩), rfl, rfl, hdraft, hlog⟩
    | _ => cases hallowed
  | exec tx stmt =>
    cases φ with
    | locked r₀ =>
      obtain ⟨hholder, rfl, hdraft, hlog⟩ := hφ
      obtain ⟨rfl, -, sets, hkind, hgrew⟩ := hallowed
      rcases hanswer.exec_cases hkind with ⟨herr, rfl⟩ | ⟨-, hres, rfl⟩
      · exact ⟨hG, .locked s'.row, .inl ⟨herr, rfl⟩, hholder, rfl, hdraft, hlog⟩
      · rw [version_of_draft_none hdraft] at hres ⊢
        refine ⟨?_, _, .inr ⟨sets, hkind, hres, rfl⟩, ?_⟩
        · split_ifs
          · exact ⟨hG.nodup, hG.entries⟩
          · exact hG
        · split_ifs with hsat
          · exact ⟨rfl, rfl, update_self .., hgrew hsat, hlog⟩
          · exact ⟨hholder, rfl, hdraft, hlog⟩
    | _ => cases hallowed
  | commit =>
    cases φ with
    | wrote r₀ r₁ =>
      rcases hanswer with ⟨time, h⟩ | ⟨e, h⟩
      · obtain ⟨rfl, rfl⟩ := Prod.mk.inj (Option.some.inj h)
        exact ⟨hG.commit hE hφ, .committed, .inl ⟨rfl, rfl⟩, holder_release_ne s i,
          update_self .., mem_append_right _ (mem_singleton_self i)⟩
      · obtain ⟨rfl, rfl⟩ := Prod.mk.inj (Option.some.inj h)
        exact ⟨⟨hG.nodup, hG.entries⟩, .aborted, .inr ⟨⟨e, rfl⟩, rfl⟩,
          Phase.holds_aborted hφ.2.2.2.2⟩
    | _ => cases hallowed
  | rollback =>
    have hlog : i ∉ s.log := by
      cases φ with
      | opened => exact hφ.2.2
      | locked r₀ => exact hφ.2.2.2
      | wrote r₀ r₁ => exact hφ.2.2.2.2
      | _ => cases hallowed
    rw [hanswer.rollback_eq]
    exact ⟨⟨hG.nodup, hG.entries⟩, .aborted, rfl, Phase.holds_aborted hlog⟩
  | now =>
    rcases hanswer with ⟨time, h⟩ | ⟨e, h⟩
    · obtain ⟨rfl, rfl⟩ := Prod.mk.inj (Option.some.inj h)
      exact ⟨hG, φ, rfl, hφ⟩
    · cases h
  | select tx stmt => cases hallowed

/-- The phases of the other clients stay true. -/
theorem others_step {i j : ι} {r : Cmd.Resp c} {φ ψ : Phase}
    (hφ : φ.Holds E i s) (hallowed : (rs.phases (E i)).allowed c φ)
    (hanswer : rs.Answers i c s r s') (hj : j ≠ i) (hψ : ψ.Holds E j s) : ψ.Holds E j s' := by
  cases c with
  | beginTx =>
    rcases hanswer with ⟨time, h⟩ | ⟨e, h⟩ <;> exact (Prod.mk.inj (Option.some.inj h)).2 ▸ hψ
  | get tx stmt =>
    cases φ with
    | opened =>
      obtain ⟨rfl, -, cols, hkind⟩ := hallowed
      rcases hanswer.get_cases hkind with ⟨-, rfl⟩ | ⟨-, rfl⟩ | ⟨row, hfree, -, -, rfl⟩
      · exact hψ
      · exact hψ
      · exact hψ.lock hj hfree
    | _ => cases hallowed
  | exec tx stmt =>
    cases φ with
    | locked r₀ =>
      obtain ⟨rfl, -, sets, hkind, -⟩ := hallowed
      rcases hanswer.exec_cases hkind with ⟨-, rfl⟩ | ⟨hfree, -, rfl⟩
      · exact hψ
      · split_ifs
        · exact hψ.write hj hfree _
        · exact hψ
    | _ => cases hallowed
  | commit =>
    cases φ with
    | wrote r₀ r₁ =>
      rcases hanswer with ⟨time, h⟩ | ⟨e, h⟩
      · exact (Prod.mk.inj (Option.some.inj h)).2 ▸ hψ.commit hj hφ.1
      · exact (Prod.mk.inj (Option.some.inj h)).2 ▸ hψ.release hj
    | _ => cases hallowed
  | rollback =>
    rw [hanswer.rollback_eq]
    exact hψ.release hj
  | now =>
    rcases hanswer with ⟨time, h⟩ | ⟨e, h⟩
    · exact (Prod.mk.inj (Option.some.inj h)).2 ▸ hψ
    · cases h
  | select tx stmt => cases hallowed

/-- **Operations that obey the protocol account for every entry**, in every interleaving. -/
theorem simulation (hE : ∀ i e, E i e → recodeEntry e = e) :
    Interleaving.Simulation rs.Answers (fun i => rs.phases (E i)) (Accounted E initial)
      (fun i φ s => φ.Holds E i s) where
  self := self_step hE
  others _ hφ hallowed hanswer := others_step hφ hallowed hanswer

end Simulation

end Kiya
