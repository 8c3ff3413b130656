import Mathlib
import Kiya.Logger.System

/-!
# Shutdown of the logger

`Close` holds `logStateMu` while it waits for the Telegram goroutines, and these have to take it to
read their configuration. So it never returns if one of them comes too late: a deadlock stays one
(`State.Deadlocked.step`).

Whether this can happen is decided when `Close` gets the lock. Without work for Telegram that has
yet to read the configuration (`State.Quiet`) there is none later, since no call can read the
channel any more. Otherwise a deadlock can be reached: the workers take all entries out of the
channel before they exit, and start a goroutine for each one that is to be sent.
-/

namespace Kiya.Logger

open State SenderState List Function

variable {s s' : State} {w : Fin 3} {e : Entry} {i : ℕ} {c : WorkerState} {d : Bool}
  {rest : List Entry}

namespace State

/-! ### Where `Close` is -/

@[simp]
theorem closer_put (s : State) (ch : Option ℕ) (e : Entry) : (s.put ch e).closer = s.closer := by
  unfold put
  split <;> rfl

@[simp]
theorem senders_put (s : State) (ch : Option ℕ) (e : Entry) : (s.put ch e).senders = s.senders := by
  unfold put
  split <;> rfl

@[simp]
theorem closer_afterClose (s : State) : s.afterClose.closer = .done := by
  unfold afterClose
  split <;> rfl

@[simp]
theorem senders_afterClose (s : State) : s.afterClose.senders = s.senders := by
  unfold afterClose
  split <;> rfl

/-! ### With the lock -/

/-- `Close` has the lock. -/
def Holding (s : State) : Prop :=
  s.closer = .locked ∨ s.closer = .waitsWorkers ∨ s.closer = .waitsTelegram ∨ s.closer = .closes

theorem Holding.not_readable (h : s.Holding) : ¬ s.Readable := by
  rintro (hcloser | hcloser)
  · simp [Holding, hcloser] at h
  · simp [Holding, hcloser] at h

/-- A call without the lock and with nothing for Telegram. -/
def stillCaller : CallerState → Prop
  | .reads _ => False
  | .readsAgain => False
  | .sends (some _) e => e.sendTelegram = false
  | _ => True

/-- A worker with nothing for Telegram. -/
def stillWorker (c : WorkerState) : Prop := ∀ e d, c = .handles e d → e.sendTelegram = false

/-- A goroutine that does not run or has read its configuration. -/
def stillSender (c : SenderState) : Prop := c = .idle ∨ c = .sends

/-- No reader has the lock, and nothing is to be sent. -/
structure Still (s : State) : Prop where
  caller : ∀ i, stillCaller (s.callers i)
  entries : ∀ e ∈ s.entries, e.sendTelegram = false
  worker : ∀ w, stillWorker (s.workers w)
  sender : ∀ j, stillSender (s.senders j)

theorem Quiet.still (h : s.Quiet) (hreader : s.NoReader) : s.Still where
  caller i := by
    cases hold : s.callers i with
    | reads c => exact hreader.caller i c hold
    | readsAgain => exact hreader.caller_again i hold
    | sends ch e =>
      cases ch with
      | none => trivial
      | some ch => exact h.caller i ch e hold
    | _ => trivial
  entries := h.entries
  worker := h.worker
  sender j := by
    have hneeds := h.sender j
    cases hold : s.senders j with
    | idle => exact .inl rfl
    | queues => exact absurd (.inl hold) hneeds
    | wants => exact absurd (.inr hold) hneeds
    | reads => exact absurd hold (hreader.sender j)
    | sends => exact .inr rfl

variable {j : ℕ}

section Still

variable (h : s.Still)
include h

theorem Still.setCaller {c : CallerState} (hc : stillCaller c) : (s.setCaller i c).Still where
  caller := (forall_update_iff s.callers fun _ => stillCaller).mpr
    ⟨hc, fun k _ => h.caller k⟩
  entries := h.entries
  worker := h.worker
  sender := h.sender

theorem Still.setWorker (hc : stillWorker c) : (s.setWorker w c).Still where
  caller := h.caller
  entries := h.entries
  worker := (forall_update_iff s.workers fun _ => stillWorker).mpr
    ⟨hc, fun k _ => h.worker k⟩
  sender := h.sender

theorem Still.setSender {c : SenderState} (hc : stillSender c) : (s.setSender j c).Still where
  caller := h.caller
  entries := h.entries
  worker := h.worker
  sender := (forall_update_iff s.senders fun _ => stillSender).mpr
    ⟨hc, fun k _ => h.sender k⟩

/-- An entry is taken out of the channel. -/
theorem Still.take (hentries : s.entries = e :: rest) :
    ({ s with entries := rest }.setWorker w (.handles e d)).Still := by
  obtain ⟨he, hrest⟩ := forall_mem_cons.mp (hentries ▸ h.entries)
  have hstill : { s with entries := rest }.Still := ⟨h.caller, hrest, h.worker, h.sender⟩
  refine hstill.setWorker fun e' d' heq => ?_
  cases heq
  exact he

theorem Still.put {ch : Option ℕ} (he : stillCaller (.sends ch e)) : (s.put ch e).Still := by
  unfold State.put
  split
  · rename_i hput
    rw [hput.1] at he
    refine ⟨h.caller, fun e' he' => ?_, h.worker, h.sender⟩
    rcases mem_append.mp he' with he' | he'
    · exact h.entries e' he'
    · rwa [mem_singleton.mp he']
  · exact h

end Still

theorem stillWorker_resumed (d : Bool) : stillWorker (resumed d) := by
  cases d <;> nofun

/-- **While `Close` has the lock, nothing new is to be sent.** -/
theorem Still.step (h : s.Still) (hholding : s.Holding) (hstep : Step s s')
    (hholding' : s'.Holding) : s'.Still := by
  cases hstep with
  | call c hidle => exact h.setCaller trivial
  | rlock _ hreadable => exact absurd hreadable hholding.not_readable
  | @runlock i _ hreads => exact (hreads ▸ h.caller i : stillCaller (.reads _)).elim
  | rlockAgain _ hreadable => exact absurd hreadable hholding.not_readable
  | @runlockAgain i hreads => exact (hreads ▸ h.caller i : stillCaller .readsAgain).elim
  | @put i ch e hsends => exact (h.put (hsends ▸ h.caller i)).setCaller trivial
  | receive _ _ hentries => exact h.take hentries
  | stop => exact h.setWorker nofun
  | drain _ hentries => exact h.take hentries
  | exit => exact h.setWorker nofun
  | @handle _ _ d => exact h.setWorker (stillWorker_resumed d)
  | @spawn w _ _ _ hhandles hsend =>
    exact absurd (h.worker w _ _ hhandles) (by rw [hsend]; decide)
  | @acquire j hqueues => exact absurd (hqueues ▸ h.sender j) (by simp [stillSender])
  | rlockSender _ hreadable => exact absurd hreadable hholding.not_readable
  | @runlockSender j hreads => exact absurd (hreads ▸ h.sender j) (by simp [stillSender])
  | finish =>
    have hstill : { s with telegramSem := s.telegramSem - 1 }.Still := { h with }
    exact hstill.setSender (.inl rfl)
  | start => exact { h with }
  | lock | closeStop | workersDone | telegramDone => exact { h with }
  | unlock =>
    exfalso
    simp [Holding] at hholding'

theorem Still.not_deadlocked (h : s.Still) : ¬ s.Deadlocked := by
  rintro ⟨-, j, hneeds⟩
  rcases h.sender j with hidle | hsends
  · simp [NeedsLock, hidle] at hneeds
  · simp [NeedsLock, hsends] at hneeds

/-! ### How `Close` gets the lock -/

/-- The steps of `Close`, and all others leave it where it is. -/
theorem closer_step (h : Step s s') :
    s'.closer = s.closer ∨ (s.closer = .idle ∧ s'.closer = .wants) ∨
      (s.closer = .wants ∧ s.NoReader ∧ s' = { s with closer := .locked }) ∨
      (s.closer = .locked ∧ s' = { s with closer := .waitsWorkers, stopped := true }) ∨
      (s.closer = .waitsWorkers ∧ (∀ w, s.workers w = .exited) ∧
        s' = { s with closer := .waitsTelegram, logChan := none }) ∨
      (s.closer = .waitsTelegram ∧ (∀ j, s.senders j = .idle) ∧ s'.closer = .closes) ∨
      (s.closer = .closes ∧ s'.closer = .done) := by
  cases h with
  | put => exact .inl (closer_put s _ _)
  | start _ hidle => exact .inr (.inl ⟨hidle, rfl⟩)
  | lock hwants hreader => exact .inr (.inr (.inl ⟨hwants, hreader, rfl⟩))
  | closeStop hlocked => exact .inr (.inr (.inr (.inl ⟨hlocked, rfl⟩)))
  | workersDone hwaits hall => exact .inr (.inr (.inr (.inr (.inl ⟨hwaits, hall, rfl⟩))))
  | telegramDone hwaits hall => exact .inr (.inr (.inr (.inr (.inr (.inl ⟨hwaits, hall, rfl⟩)))))
  | unlock hcloses =>
    exact .inr (.inr (.inr (.inr (.inr (.inr ⟨hcloses, closer_afterClose s⟩)))))
  | _ => exact .inl rfl

theorem lock_of_step (h : Step s s') (hnot : ¬ s.Holding) (hholding : s'.Holding) :
    s.closer = .wants ∧ s.NoReader ∧ s' = { s with closer := .locked } := by
  rcases closer_step h with hsame | ⟨-, hwants⟩ | hlock | ⟨hlocked, -⟩ | ⟨hwaits, -⟩ | ⟨hwaits, -⟩ |
    ⟨hcloses, -⟩
  · unfold Holding at hholding hnot
    rw [hsame] at hholding
    exact absurd hholding hnot
  · simp [Holding, hwants] at hholding
  · exact hlock
  · exact absurd (.inl hlocked) hnot
  · exact absurd (.inr (.inl hwaits)) hnot
  · exact absurd (.inr (.inr (.inl hwaits))) hnot
  · exact absurd (.inr (.inr (.inr hcloses))) hnot

theorem needsLock_setSender {j k : ℕ} {c : SenderState} (hj : (s.senders j).NeedsLock)
    (hc : (s.senders k).NeedsLock → c.NeedsLock) : ((s.setSender k c).senders j).NeedsLock := by
  by_cases hjk : j = k
  · subst hjk
    rw [senders_setSender, update_self]
    exact hc hj
  · rwa [senders_setSender, update_of_ne hjk]

/-- A goroutine that needs the lock waits as long as `Close` has it. -/
theorem needsLock_step (h : Step s s') (hreadable : ¬ s.Readable) (hj : (s.senders j).NeedsLock) :
    (s'.senders j).NeedsLock := by
  have hnot {k : ℕ} {c c' : SenderState} (hk : s.senders k = c) (hc : ¬ c.NeedsLock) :
      (s.senders k).NeedsLock → c'.NeedsLock := fun hneeds => absurd (hk ▸ hneeds) hc
  cases h with
  | put => exact (senders_put s _ _).symm ▸ hj
  | spawn _ _ hidle => exact needsLock_setSender hj fun _ => .inl rfl
  | acquire => exact needsLock_setSender hj fun _ => .inr rfl
  | rlockSender _ hread => exact absurd hread hreadable
  | runlockSender hreads => exact needsLock_setSender hj (hnot hreads (by simp [NeedsLock]))
  | finish hsends => exact needsLock_setSender hj (hnot hsends (by simp [NeedsLock]))
  | unlock => exact (senders_afterClose s).symm ▸ hj
  | _ => exact hj

/-- **A deadlock stays one.** -/
theorem Deadlocked.step (h : s.Deadlocked) (hstep : Step s s') : s'.Deadlocked := by
  obtain ⟨hwaits, j, hneeds⟩ := h
  have hreadable : ¬ s.Readable := Holding.not_readable (.inr (.inr (.inl hwaits)))
  refine ⟨?_, j, needsLock_step hstep hreadable hneeds⟩
  rcases closer_step hstep with hsame | ⟨hidle, -⟩ | ⟨hwants, -⟩ | ⟨hlocked, -⟩ | ⟨hworkers, -⟩ |
    ⟨-, hall, -⟩ | ⟨hcloses, -⟩
  · exact hsame.trans hwaits
  · exact absurd (hwaits.symm.trans hidle) (by decide)
  · exact absurd (hwaits.symm.trans hwants) (by decide)
  · exact absurd (hwaits.symm.trans hlocked) (by decide)
  · exact absurd (hwaits.symm.trans hworkers) (by decide)
  · simp [NeedsLock, hall j] at hneeds
  · exact absurd (hwaits.symm.trans hcloses) (by decide)

end State

/-- A step that meets the condition: `Close` gets the lock only if nothing is left to be sent. -/
def CalmStep (s s' : State) : Prop :=
  Step s s' ∧ (s.closer = .wants → s'.closer = .locked → s.Quiet)

theorem still_of_calm (h : Relation.ReflTransGen CalmStep .initial s)
    (hholding : s.Holding) : s.Still := by
  induction h with
  | refl => simp [Holding, initial] at hholding
  | @tail s s' _ hstep ih =>
    by_cases hold : s.Holding
    · exact (ih hold).step hold hstep.1 hholding
    · obtain ⟨hwants, hreader, rfl⟩ := lock_of_step hstep.1 hold hholding
      have hstill := (hstep.2 hwants rfl).still hreader
      exact { hstill with }

/-! ### A deadlock can be reached -/

namespace State

/-- Only finitely many goroutines run. -/
def Finite (s : State) : Prop := ∃ N, ∀ j ≥ N, s.senders j = .idle

/-- A call that has no other channel than the given one. -/
def freshCaller (last : ℕ) (c : CallerState) : Prop := ∀ ch e, c = .sends (some ch) e → ch = last

/-- A worker in the outer loop. -/
def freshWorker (c : WorkerState) : Prop := c = .selects ∨ ∃ e, c = .handles e false

/-- As long as the workers are not stopped. -/
structure Fresh (s : State) : Prop where
  chan : s.logChan = some s.lastChan
  stopped : s.stopped = false
  caller : ∀ i, freshCaller s.lastChan (s.callers i)
  worker : ∀ w, freshWorker (s.workers w)

/-- `Close` has not gone further than this. -/
def Early (s : State) : Prop := s.closer = .idle ∨ s.closer = .wants ∨ s.closer = .locked

theorem Finite.setSender (h : s.Finite) (j : ℕ) (c : SenderState) : (s.setSender j c).Finite := by
  obtain ⟨N, hN⟩ := h
  refine ⟨max N (j + 1), fun k hk => ?_⟩
  have hkj : k ≠ j := by omega
  rw [senders_setSender, update_of_ne hkj]
  exact hN k (le_of_max_le_left hk)

theorem Finite.step (h : s.Finite) (hstep : Step s s') : s'.Finite := by
  have hput (ch : Option ℕ) (e : Entry) : (s.put ch e).Finite := by
    unfold Finite
    rwa [senders_put]
  cases hstep with
  | put => exact hput _ _
  | spawn => exact h.setSender _ _
  | acquire => exact Finite.setSender (s := { s with telegramSem := s.telegramSem + 1 }) h _ _
  | rlockSender | runlockSender => exact h.setSender _ _
  | finish => exact Finite.setSender (s := { s with telegramSem := s.telegramSem - 1 }) h _ _
  | unlock =>
    unfold Finite
    rwa [senders_afterClose]
  | _ => exact h

section Fresh

variable (h : s.Fresh)
include h

theorem Fresh.setCaller {c : CallerState} (hc : freshCaller s.lastChan c) :
    (s.setCaller i c).Fresh where
  chan := h.chan
  stopped := h.stopped
  caller := (forall_update_iff s.callers fun _ => freshCaller s.lastChan).mpr
    ⟨hc, fun k _ => h.caller k⟩
  worker := h.worker

theorem Fresh.setWorker (hc : freshWorker c) : (s.setWorker w c).Fresh where
  chan := h.chan
  stopped := h.stopped
  caller := h.caller
  worker := (forall_update_iff s.workers fun _ => freshWorker).mpr
    ⟨hc, fun k _ => h.worker k⟩

theorem Fresh.put (ch : Option ℕ) (e : Entry) : (s.put ch e).Fresh := by
  unfold State.put
  split
  · exact { h with }
  · exact h

theorem Fresh.sends (e : Entry) : freshCaller s.lastChan (.sends s.logChan e) := by
  intro ch e' heq
  rw [h.chan] at heq
  cases heq
  rfl

theorem Fresh.afterFirst (c : Call) : freshCaller s.lastChan (s.afterFirst c) := by
  cases c with
  | info => nofun
  | error => exact h.sends _
  | waf =>
    cases hdebug : s.isDebug with
    | false => simpa [State.afterFirst, hdebug] using h.sends ⟨true, true⟩
    | true =>
      simp only [State.afterFirst, hdebug]
      nofun

theorem Fresh.resumed_eq (hw : s.workers w = .handles e d) : freshWorker (resumed d) := by
  rcases h.worker w with hselects | ⟨e', hhandles⟩
  · rw [hw] at hselects
    cases hselects
  · rw [hw] at hhandles
    cases hhandles
    exact .inl rfl

theorem Fresh.not_drains (w : Fin 3) : s.workers w ≠ .drains := by
  intro hw
  rcases h.worker w with hselects | ⟨e, hhandles⟩
  · rw [hw] at hselects
    cases hselects
  · rw [hw] at hhandles
    cases hhandles

end Fresh

/-- Before the workers are stopped they are in the outer loop, and there is one channel. -/
theorem Fresh.step (h : s.Fresh) (hstep : Step s s') (hearly : s'.Early) : s'.Fresh := by
  cases hstep with
  | call | rlock => exact h.setCaller nofun
  | @runlock i c => exact h.setCaller (h.afterFirst c)
  | rlockAgain => exact h.setCaller nofun
  | runlockAgain => exact h.setCaller (h.sends _)
  | put => exact (h.put _ _).setCaller nofun
  | @receive w e rest =>
    have hfresh : { s with entries := rest }.Fresh := { h with }
    exact hfresh.setWorker (.inr ⟨e, rfl⟩)
  | stop _ hstopped => exact absurd (h.stopped.symm.trans hstopped) (by decide)
  | drain hw => exact absurd hw (h.not_drains _)
  | exit hw => exact absurd hw (h.not_drains _)
  | handle hw => exact h.setWorker (h.resumed_eq hw)
  | @spawn w _ _ _ hw =>
    have hfresh := h.setWorker (w := w) (h.resumed_eq hw)
    exact ⟨h.chan, h.stopped, h.caller, hfresh.worker⟩
  | closeStop | workersDone | telegramDone | unlock => simp [Early] at hearly
  | _ => exact { h with }

theorem Early.of_step (h : Step s s') (hearly : s'.Early) : s.Early := by
  rcases closer_step h with hsame | ⟨hidle, -⟩ | ⟨hwants, -⟩ | ⟨-, rfl⟩ | ⟨-, -, rfl⟩ |
    ⟨-, -, hcloses⟩ | ⟨-, hdone⟩
  · unfold Early at hearly
    rwa [hsame] at hearly
  · exact .inl hidle
  · exact .inr (.inl hwants)
  · simp [Early] at hearly
  · simp [Early] at hearly
  · simp [Early, hcloses] at hearly
  · simp [Early, hdone] at hearly

theorem fresh_initial : initial.Fresh := ⟨rfl, rfl, nofun, fun _ => .inl rfl⟩

/-- **Reachable states**, up to the point where `Close` has the lock. -/
theorem fresh_of_reaches (h : Reaches .initial s) (hearly : s.Early) : s.Fresh := by
  induction h with
  | refl => exact fresh_initial
  | tail _ hstep ih => exact (ih (.of_step hstep hearly)).step hstep hearly

theorem finite_of_reaches (h : Reaches .initial s) : s.Finite := by
  induction h with
  | refl => exact ⟨0, fun _ _ => rfl⟩
  | tail _ hstep ih => exact ih.step hstep

/-- The workers are stopped, but none has exited. -/
structure Draining (s : State) : Prop where
  closer : s.closer = .waitsWorkers
  stopped : s.stopped = true
  worker : ∀ w, s.workers w ≠ .exited
  finite : s.Finite

/-- Something is to be sent: a goroutine needs the lock, or one will be started. -/
def Pending (s : State) : Prop :=
  (∃ j, (s.senders j).NeedsLock) ∨ (∃ e ∈ s.entries, e.sendTelegram = true) ∨
    ∃ w e d, s.workers w = .handles e d ∧ e.sendTelegram = true

/-- Steps of the workers only. -/
structure Leads (s s' : State) : Prop where
  reaches : Reaches s s'
  draining : s'.Draining
  callers : s'.callers = s.callers
  lastChan : s'.lastChan = s.lastChan
  pending : s.Pending → s'.Pending

theorem Draining.leads (h : s.Draining) : s.Leads s := ⟨.refl, h, rfl, rfl, id⟩

theorem Leads.trans {s s' s'' : State} (h : s.Leads s') (h' : s'.Leads s'') : s.Leads s'' :=
  ⟨h.reaches.trans h'.reaches, h'.draining, h'.callers.trans h.callers,
    h'.lastChan.trans h.lastChan, fun hpending => h'.pending (h.pending hpending)⟩

theorem Pending.setWorker (h : s.Pending) (hw : stillWorker (s.workers w))
    (c : WorkerState) : (s.setWorker w c).Pending := by
  rcases h with hneeds | hentry | ⟨k, e, d, hk, he⟩
  · exact .inl hneeds
  · exact .inr (.inl hentry)
  · refine .inr (.inr ⟨k, e, d, ?_, he⟩)
    have hkw : k ≠ w := by
      rintro rfl
      exact absurd (hw e d hk) (by rw [he]; decide)
    rwa [workers_setWorker, update_of_ne hkw]

theorem Draining.setWorker (h : s.Draining) (hc : c ≠ .exited) : (s.setWorker w c).Draining where
  closer := h.closer
  stopped := h.stopped
  worker := (forall_update_iff s.workers fun _ c => c ≠ .exited).mpr
    ⟨hc, fun k _ => h.worker k⟩
  finite := h.finite

/-- A worker leaves the outer loop. -/
theorem Draining.leads_stop (h : s.Draining) (hw : s.workers w = .selects) :
    s.Leads (s.setWorker w .drains) := by
  refine ⟨.single (.stop hw h.stopped), h.setWorker nofun, rfl, rfl, fun hpending => ?_⟩
  exact hpending.setWorker (by rw [hw]; nofun) _

/-- A worker is done with an entry. -/
theorem Draining.leads_handle (h : s.Draining) (hw : s.workers w = .handles e d) :
    ∃ s', s.Leads s' ∧ s'.workers = Function.update s.workers w (resumed d) ∧
      s'.entries = s.entries := by
  have hresumed : resumed d ≠ .exited := by cases d <;> nofun
  cases he : e.sendTelegram with
  | false =>
    refine ⟨s.setWorker w (resumed d), ⟨.single (.handle hw he), h.setWorker hresumed, rfl, rfl,
      fun hpending => hpending.setWorker ?_ _⟩, rfl, rfl⟩
    intro e' d' heq
    rw [hw] at heq
    cases heq
    exact he
  | true =>
    obtain ⟨N, hN⟩ := h.finite
    have hdraining := h.setWorker (w := w) hresumed
    refine ⟨(s.setWorker w (resumed d)).setSender N .queues, ⟨.single (.spawn hw he (hN N le_rfl)),
      ⟨h.closer, h.stopped, hdraining.worker, hdraining.finite.setSender _ _⟩, rfl, rfl,
      fun _ => ?_⟩, rfl, rfl⟩
    refine .inl ⟨N, ?_⟩
    rw [senders_setSender, update_self]
    exact .inl rfl

/-- Every worker comes to the inner loop. -/
theorem Draining.leads_drains (h : s.Draining) (w : Fin 3) :
    ∃ s', s.Leads s' ∧ s'.workers = Function.update s.workers w .drains ∧
      s'.entries = s.entries := by
  cases hw : s.workers w with
  | selects => exact ⟨_, h.leads_stop hw, rfl, rfl⟩
  | drains => exact ⟨s, h.leads, by rw [← hw, update_eq_self], rfl⟩
  | exited => exact absurd hw (h.worker w)
  | handles e d =>
    obtain ⟨s', hleads, hworkers, hentries⟩ := h.leads_handle hw
    cases d with
    | true => exact ⟨s', hleads, hworkers, hentries⟩
    | false =>
      have hselects : s'.workers w = .selects := by
        rw [hworkers, update_self]
        rfl
      refine ⟨_, hleads.trans (hleads.draining.leads_stop hselects), ?_, hentries⟩
      rw [workers_setWorker, hworkers, update_idem]

theorem Draining.leads_all_drains (h : s.Draining) :
    ∃ s', s.Leads s' ∧ (∀ w, s'.workers w = .drains) ∧ s'.entries = s.entries := by
  obtain ⟨s₀, h₀, hw₀, he₀⟩ := h.leads_drains 0
  obtain ⟨s₁, h₁, hw₁, he₁⟩ := h₀.draining.leads_drains 1
  obtain ⟨s₂, h₂, hw₂, he₂⟩ := h₁.draining.leads_drains 2
  refine ⟨s₂, h₀.trans (h₁.trans h₂), fun w => ?_, he₂.trans (he₁.trans he₀)⟩
  rw [hw₂, hw₁, hw₀]
  fin_cases w <;> rfl

/-- A worker takes an entry out of the channel and is done with it. -/
theorem Draining.leads_take (h : s.Draining) (hw : s.workers w = .drains)
    (hentries : s.entries = e :: rest) :
    ∃ s', s.Leads s' ∧ s'.workers = s.workers ∧ s'.entries = rest := by
  have hstill : stillWorker (s.workers w) := by
    rw [hw]
    nofun
  have hrest : { s with entries := rest }.Draining := { h with }
  have hself : ({ s with entries := rest }.setWorker w (.handles e true)).workers w =
      .handles e true := update_self _ _ _
  have htake : s.Leads ({ s with entries := rest }.setWorker w (.handles e true)) := by
    refine ⟨.single (.drain hw hentries), hrest.setWorker nofun, rfl, rfl, fun hpending => ?_⟩
    rcases hpending.setWorker hstill (.handles e true) with hneeds | ⟨e', he', hsend⟩ | hworker
    · exact .inl hneeds
    · rcases mem_cons.mp (hentries ▸ he' : e' ∈ e :: rest) with rfl | he'
      · exact .inr (.inr ⟨w, e', true, hself, hsend⟩)
      · exact .inr (.inl ⟨e', he', hsend⟩)
    · exact .inr (.inr hworker)
  obtain ⟨s', hleads, hworkers, hentries'⟩ := htake.draining.leads_handle hself
  refine ⟨s', htake.trans hleads, ?_, hentries'⟩
  rw [hworkers, workers_setWorker, update_idem]
  exact update_eq_self_iff.mpr hw.symm

/-- **The channel is emptied**, and the workers are about to exit. -/
theorem Draining.leads_empty (h : s.Draining) :
    ∃ s', s.Leads s' ∧ (∀ w, s'.workers w = .drains) ∧ s'.entries = [] := by
  obtain ⟨s₀, h₀, hw₀, he₀⟩ := h.leads_all_drains
  -- By induction on the entries, which one worker takes out.
  generalize hentries : s.entries = es at he₀
  clear hentries
  induction es generalizing s₀ with
  | nil => exact ⟨s₀, h₀, hw₀, he₀⟩
  | cons e es ih =>
    obtain ⟨s₂, h₂, hw₂, he₂⟩ := (h₀.draining.leads_take (hw₀ 0) he₀)
    exact ih s₂ (h₀.trans h₂) (fun w => by rw [hw₂]; exact hw₀ w) he₂

/-- The workers exit, and `Close` waits for what they have started. -/
theorem Draining.reaches_deadlock (h : s.Draining) (hw : ∀ w, s.workers w = .drains)
    (hentries : s.entries = []) (hpending : s.Pending) : ∃ s', Reaches s s' ∧ s'.Deadlocked := by
  have hneeds : ∃ j, (s.senders j).NeedsLock := by
    rcases hpending with hneeds | ⟨e, he, -⟩ | ⟨w, e, d, hhandles, -⟩
    · exact hneeds
    · rw [hentries] at he
      cases he
    · rw [hw w] at hhandles
      cases hhandles
  let s₀ := s.setWorker 0 .exited
  let s₁ := s₀.setWorker 1 .exited
  let s₂ := s₁.setWorker 2 .exited
  have h₀ : Step s s₀ := .exit (hw 0) hentries
  have h₁ : Step s₀ s₁ := .exit (hw 1) hentries
  have h₂ : Step s₁ s₂ := .exit (hw 2) hentries
  have hexited : ∀ w, s₂.workers w = .exited := by
    intro w
    fin_cases w <;> rfl
  have hdone : Step s₂ { s₂ with closer := .waitsTelegram, logChan := none } :=
    .workersDone h.closer hexited
  exact ⟨_, .tail (.tail (.tail (.single h₀) h₁) h₂) hdone, rfl, hneeds⟩

/-- From here on a deadlock can be reached if something is pending. -/
theorem Draining.exists_deadlock (h : s.Draining) (hpending : s.Pending) :
    ∃ s', Reaches s s' ∧ s'.Deadlocked := by
  obtain ⟨s', hleads, hw, hentries⟩ := h.leads_empty
  obtain ⟨s'', hreaches, hdeadlocked⟩ :=
    hleads.draining.reaches_deadlock hw hentries (hleads.pending hpending)
  exact ⟨s'', hleads.reaches.trans hreaches, hdeadlocked⟩

/-- The entry of a call gets into the empty channel. -/
theorem Draining.exists_deadlock_of_caller (h : s.Draining)
    (hi : s.callers i = .sends (some s.lastChan) e) (he : e.sendTelegram = true) :
    ∃ s', Reaches s s' ∧ s'.Deadlocked := by
  obtain ⟨s₁, hleads, hw, hentries⟩ := h.leads_empty
  have hput : s₁.put (some s.lastChan) e = { s₁ with entries := [e] } := by
    unfold put
    rw [if_pos, hentries]
    · rfl
    · rw [hleads.lastChan, hentries]
      exact ⟨rfl, by decide⟩
  have hstep : Step s₁ ({ s₁ with entries := [e] }.setCaller i .idle) :=
    hput ▸ .put (hleads.callers ▸ hi)
  have hd := hleads.draining
  have hdraining : ({ s₁ with entries := [e] }.setCaller i .idle).Draining := { hd with }
  obtain ⟨s', hreaches, hdeadlocked⟩ :=
    hdraining.exists_deadlock (.inr (.inl ⟨e, mem_singleton_self e, he⟩))
  exact ⟨s', (hleads.reaches.tail hstep).trans hreaches, hdeadlocked⟩

/-- **A deadlock can be reached** if something is left to be sent. -/
theorem exists_deadlock (hs : Reaches .initial s) (hlocked : s.closer = .locked)
    (hquiet : ¬ s.Quiet) : ∃ s', Reaches s s' ∧ s'.Deadlocked := by
  have hfresh := fresh_of_reaches hs (.inr (.inr hlocked))
  have hworker (w : Fin 3) : s.workers w ≠ .exited := by
    rcases hfresh.worker w with hw | ⟨e, hw⟩
    · rw [hw]
      nofun
    · rw [hw]
      nofun
  have hfinite := finite_of_reaches hs
  have hdraining : { s with closer := .waitsWorkers, stopped := true }.Draining :=
    ⟨rfl, rfl, hworker, hfinite⟩
  have hstop : Step s { s with closer := .waitsWorkers, stopped := true } := .closeStop hlocked
  obtain ⟨s', hreaches, hdeadlocked⟩ :
      ∃ s', Reaches { s with closer := .waitsWorkers, stopped := true } s' ∧ s'.Deadlocked := by
    by_cases hcaller : ∀ i c e, s.callers i = .sends (some c) e → e.sendTelegram = false
    · refine hdraining.exists_deadlock ?_
      by_contra hpending
      simp only [Pending, not_or, not_exists, not_and, Bool.not_eq_true] at hpending
      exact hquiet ⟨hcaller, hpending.2.1, hpending.2.2, hpending.1⟩
    · push Not at hcaller
      obtain ⟨i, c, e, hi, he⟩ := hcaller
      obtain rfl := hfresh.caller i c e hi
      exact hdraining.exists_deadlock_of_caller hi (by simpa using he)
  exact ⟨s', .head hstop hreaches, hdeadlocked⟩

end State

/-- `Close` keeps the lock to its end. -/
theorem State.Holding.step (h : s.Holding) (hstep : Step s s') :
    s'.Holding ∨ s'.closer = .done := by
  rcases closer_step hstep with hsame | ⟨hidle, -⟩ | ⟨-, -, rfl⟩ | ⟨-, rfl⟩ | ⟨-, -, rfl⟩ |
    ⟨-, -, hcloses⟩ | ⟨-, hdone⟩
  · left
    unfold Holding
    rwa [hsame]
  · simp [Holding, hidle] at h
  · exact .inl (.inl rfl)
  · exact .inl (.inr (.inl rfl))
  · exact .inl (.inr (.inr (.inl rfl)))
  · exact .inl (.inr (.inr (.inr hcloses)))
  · exact .inr hdone

theorem State.done_step (h : s.closer = .done) (hstep : Step s s') : s'.closer = .done := by
  rcases closer_step hstep with hsame | ⟨hother, -⟩ | ⟨hother, -⟩ | ⟨hother, -⟩ | ⟨hother, -⟩ |
    ⟨hother, -⟩ | ⟨hother, -⟩
  · exact hsame.trans h
  all_goals exact absurd (h.symm.trans hother) (by decide)

/-- Nothing is sent later if there is nothing when `Close` gets the lock. -/
theorem State.Still.not_deadlocked_of_reaches (h : s.Still) (hholding : s.Holding)
    (hreaches : Reaches s s') : ¬ s'.Deadlocked := by
  have hrun : (s'.Holding ∧ s'.Still) ∨ s'.closer = .done := by
    induction hreaches with
    | refl => exact .inl ⟨hholding, h⟩
    | tail _ hstep ih =>
      rcases ih with ⟨hheld, hstill⟩ | hdone
      · rcases hheld.step hstep with hheld' | hdone
        · exact .inl ⟨hheld', hstill.step hheld hstep hheld'⟩
        · exact .inr hdone
      · exact .inr (done_step hdone hstep)
  rcases hrun with ⟨-, hstill⟩ | hdone
  · exact hstill.not_deadlocked
  · rintro ⟨hwaits, -⟩
    exact absurd (hdone.symm.trans hwaits) (by decide)

/-- **Shutdown and deadlock.** No run comes to a deadlock in which `Close` gets the lock only when
nothing is left to be sent by Telegram; and whenever it gets the lock, a deadlock can be reached
from there if and only if something is left. -/
theorem deadlock_iff_not_quiet (s s' : State) :
    (Relation.ReflTransGen CalmStep .initial s → ¬ s.Deadlocked) ∧
    (Reaches .initial s → Step s s' → s.closer = .wants → s'.closer = .locked →
      ((∃ s'', Reaches s' s'' ∧ s''.Deadlocked) ↔ ¬ s.Quiet)) := by
  constructor
  · intro hs hdeadlocked
    have hholding : s.Holding := .inr (.inr (.inl hdeadlocked.1))
    exact (still_of_calm hs hholding).not_deadlocked hdeadlocked
  · intro hs hstep hwants hlocked
    have hnot : ¬ s.Holding := by simp [Holding, hwants]
    obtain ⟨-, hreader, rfl⟩ := lock_of_step hstep hnot (.inl hlocked)
    constructor
    · rintro ⟨s'', hreaches, hdeadlocked⟩ hquiet
      have hstill := hquiet.still hreader
      have hstill' : { s with closer := .locked }.Still := { hstill with }
      exact hstill'.not_deadlocked_of_reaches (.inl rfl) hreaches hdeadlocked
    · intro hquiet
      refine exists_deadlock (hs.tail hstep) rfl fun hq => hquiet ?_
      exact { hq with }

/-- An entry for an error is in the channel, and nothing else has happened. -/
def State.errorLogged : State := { initial with entries := [⟨false, true⟩] }

theorem reaches_errorLogged : Reaches .initial .errorLogged := by
  have hcall : Reaches .initial (initial.setCaller 0 (.wants .error)) := .single (.call .error rfl)
  have hsends := (hcall.tail (.rlock (i := 0) rfl (.inl rfl))).tail (.runlock (i := 0) rfl)
  have hput := hsends.tail (.put (i := 0) rfl)
  have hidle : Function.update (fun _ : ℕ => CallerState.idle) 0 .idle = fun _ => .idle :=
    update_eq_self 0 _
  simpa [Reaches, setCaller, afterFirst, put, initial, errorLogged, capacity, hidle] using hput

/-- An error is logged, then the logger is closed: the goroutine that is started for it waits for
the lock, and `Close` for the goroutine, for ever. -/
theorem error_then_close :
    ∃ s, Reaches .initial s ∧ s.closer = .waitsTelegram ∧ s.senders 0 = .wants ∧
      ∀ s', Reaches s s' → s'.Deadlocked := by
  have hlock := (reaches_errorLogged.tail (.start none rfl)).tail
    (.lock rfl ⟨nofun, nofun, nofun⟩)
  have hstop := hlock.tail (.closeStop rfl)
  have hspawn := ((hstop.tail (.stop (w := 0) rfl rfl)).tail (.drain (w := 0) rfl rfl)).tail
    (.spawn (w := 0) (j := 0) rfl rfl rfl)
  have hexit₀ := hspawn.tail (.exit (w := 0) rfl rfl)
  have hexit₁ := (hexit₀.tail (.stop (w := 1) rfl rfl)).tail (.exit (w := 1) rfl rfl)
  have hexit₂ := (hexit₁.tail (.stop (w := 2) rfl rfl)).tail (.exit (w := 2) rfl rfl)
  have hdone := hexit₂.tail (.workersDone rfl fun w => by fin_cases w <;> rfl)
  have hwants := hdone.tail (.acquire (j := 0) rfl (by decide))
  refine ⟨_, hwants, rfl, rfl, fun s' hs' => ?_⟩
  induction hs' with
  | refl => exact ⟨rfl, 0, .inr rfl⟩
  | tail _ hstep ih => exact ih.step hstep

end Kiya.Logger
