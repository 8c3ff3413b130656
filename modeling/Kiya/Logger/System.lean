import Mathlib.Data.Fintype.Basic
import Mathlib.Logic.Function.Basic
import Mathlib.Logic.Relation

/-!
# The logger and its threads

`internal/logger`: calls of `LogInfo`, `LogError` and `LogWAF` put entries into a channel, three
workers take them out and write them to files, and for some entries they start a goroutine that
sends a message by Telegram. `Close`, or `Init` once more, stops the workers and waits for all of
them.

What the threads share is `logStateMu`, a lock for readers and a writer. A call reads the
configuration under it, and so does each Telegram goroutine; `Close` holds it as the writer from its
start to its end. A writer that waits keeps new readers out.

`State` has the state of every thread and what they share, `Step` is one step of one of them. A step
is from one operation of a thread that can block to the next; what is written to files, consoles and
the network is left out, with the mutexes for it, which no thread holds while it waits for something
else. There are any number of calls and of Telegram goroutines: those that do not run are `idle`.
-/

namespace Kiya.Logger

/-! ### Threads -/

/-- `logEntry`, without its texts. -/
structure Entry where
  isWAF : Bool
  sendTelegram : Bool
deriving DecidableEq

/-- The functions that log; `LogWarn` does what `LogInfo` does. -/
inductive Call
  | info
  | error
  | waf
deriving DecidableEq

/-- A call. -/
inductive CallerState
  | idle
  /-- At the first `RLock`. -/
  | wants (call : Call)
  /-- With the lock. -/
  | reads (call : Call)
  /-- At the second `RLock` of `logf`. -/
  | wantsAgain
  /-- With the lock again. -/
  | readsAgain
  /-- With an entry for the channel that was read, if there was one. -/
  | sends (ch : Option ℕ) (e : Entry)
deriving DecidableEq

/-- `logWorker`. -/
inductive WorkerState
  /-- At the outer `select`. -/
  | selects
  /-- At the inner `select`. -/
  | drains
  /-- In `processLogEntry`, called from one or the other. -/
  | handles (e : Entry) (draining : Bool)
  | exited
deriving DecidableEq

/-- A Telegram goroutine. -/
inductive SenderState
  | idle
  /-- At the semaphore. -/
  | queues
  /-- At the `RLock` of `sendTelegramDirect`. -/
  | wants
  /-- With the lock. -/
  | reads
  /-- With the token and the group. -/
  | sends
deriving DecidableEq

/-- `Close`, or `Init` once more. -/
inductive CloserState
  | idle
  /-- At the `Lock`. -/
  | wants
  /-- With the lock, which it keeps to the end. -/
  | locked
  /-- At `logWg.Wait()`. -/
  | waitsWorkers
  /-- At `telegramWg.Wait()`. -/
  | waitsTelegram
  /-- After both. -/
  | closes
  | done
deriving DecidableEq

/-- The threads and what they share. Channels have numbers, and the entries are those of the last
one; none for `logChan` is nil. -/
structure State where
  isDebug : Bool
  logChan : Option ℕ
  lastChan : ℕ
  entries : List Entry
  /-- Whether `stopLogCh` is closed. -/
  stopped : Bool
  callers : ℕ → CallerState
  workers : Fin 3 → WorkerState
  senders : ℕ → SenderState
  /-- How many goroutines are past the semaphore. -/
  telegramSem : ℕ
  closer : CloserState
  /-- For `Init`, whether it is for the debug mode. -/
  reinit : Option Bool

/-- After `Init` in production mode. -/
def State.initial : State where
  isDebug := false
  logChan := some 0
  lastChan := 0
  entries := []
  stopped := false
  callers _ := .idle
  workers _ := .selects
  senders _ := .idle
  telegramSem := 0
  closer := .idle
  reinit := none

/-! ### Steps -/

namespace State

variable (s : State)

/-- No writer has the lock or waits for it. -/
def Readable : Prop := s.closer = .idle ∨ s.closer = .done

/-- No reader has the lock. -/
structure NoReader (s : State) : Prop where
  caller : ∀ i c, s.callers i ≠ .reads c
  caller_again : ∀ i, s.callers i ≠ .readsAgain
  sender : ∀ j, s.senders j ≠ .reads

/-- What a call does after the first `RUnlock`, with what it has read. -/
def afterFirst (s : State) : Call → CallerState
  | .info => .wantsAgain
  | .error => .sends s.logChan ⟨false, !s.isDebug⟩
  | .waf => if s.isDebug then .idle else .sends s.logChan ⟨true, !s.isDebug⟩

/-- The capacity of the channel. -/
def capacity : ℕ := 2000

/-- A `select` with a `default`: the entry is dropped if the channel is full. Nothing reads from a
channel that is not the last one. -/
def put (ch : Option ℕ) (e : Entry) : State :=
  if ch = some s.lastChan ∧ s.entries.length < capacity then { s with entries := s.entries ++ [e] }
  else s

/-- The state of a thread changes. -/
def setCaller (i : ℕ) (c : CallerState) : State :=
  { s with callers := Function.update s.callers i c }

@[inherit_doc setCaller]
def setWorker (w : Fin 3) (c : WorkerState) : State :=
  { s with workers := Function.update s.workers w c }

@[inherit_doc setCaller]
def setSender (j : ℕ) (c : SenderState) : State :=
  { s with senders := Function.update s.senders j c }

@[simp]
theorem workers_setWorker (w : Fin 3) (c : WorkerState) :
    (s.setWorker w c).workers = Function.update s.workers w c := rfl

@[simp]
theorem senders_setSender (j : ℕ) (c : SenderState) :
    (s.setSender j c).senders = Function.update s.senders j c := rfl

/-- Where a worker goes on after an entry. -/
def resumed (draining : Bool) : WorkerState := if draining then .drains else .selects

/-- What `Close` and `Init` do at their end, with the `Unlock`. -/
def afterClose : State :=
  match s.reinit with
  | none => { s with closer := .done }
  | some true => { s with closer := .done, isDebug := true }
  | some false =>
    { s with
      closer := .done
      isDebug := false
      logChan := some (s.lastChan + 1)
      lastChan := s.lastChan + 1
      entries := []
      stopped := false
      workers := fun _ => .selects }

end State

/-- One step of one thread. -/
inductive Step : State → State → Prop
  | call {s : State} {i : ℕ} (c : Call) : s.callers i = .idle → Step s (s.setCaller i (.wants c))
  | rlock {s : State} {i : ℕ} {c : Call} : s.callers i = .wants c → s.Readable →
    Step s (s.setCaller i (.reads c))
  | runlock {s : State} {i : ℕ} {c : Call} : s.callers i = .reads c →
    Step s (s.setCaller i (s.afterFirst c))
  | rlockAgain {s : State} {i : ℕ} : s.callers i = .wantsAgain → s.Readable →
    Step s (s.setCaller i .readsAgain)
  | runlockAgain {s : State} {i : ℕ} : s.callers i = .readsAgain →
    Step s (s.setCaller i (.sends s.logChan ⟨false, false⟩))
  | put {s : State} {i : ℕ} {ch : Option ℕ} {e : Entry} : s.callers i = .sends ch e →
    Step s ((s.put ch e).setCaller i .idle)
  | receive {s : State} {w : Fin 3} {e : Entry} {rest : List Entry} : s.workers w = .selects →
    s.logChan = some s.lastChan → s.entries = e :: rest →
    Step s ({ s with entries := rest }.setWorker w (.handles e false))
  | stop {s : State} {w : Fin 3} : s.workers w = .selects → s.stopped = true →
    Step s (s.setWorker w .drains)
  | drain {s : State} {w : Fin 3} {e : Entry} {rest : List Entry} : s.workers w = .drains →
    s.entries = e :: rest → Step s ({ s with entries := rest }.setWorker w (.handles e true))
  | exit {s : State} {w : Fin 3} : s.workers w = .drains → s.entries = [] →
    Step s (s.setWorker w .exited)
  | handle {s : State} {w : Fin 3} {e : Entry} {d : Bool} : s.workers w = .handles e d →
    e.sendTelegram = false → Step s (s.setWorker w (State.resumed d))
  | spawn {s : State} {w : Fin 3} {e : Entry} {d : Bool} {j : ℕ} : s.workers w = .handles e d →
    e.sendTelegram = true → s.senders j = .idle →
    Step s ((s.setWorker w (State.resumed d)).setSender j .queues)
  | acquire {s : State} {j : ℕ} : s.senders j = .queues → s.telegramSem < 5 →
    Step s ({ s with telegramSem := s.telegramSem + 1 }.setSender j .wants)
  | rlockSender {s : State} {j : ℕ} : s.senders j = .wants → s.Readable →
    Step s (s.setSender j .reads)
  | runlockSender {s : State} {j : ℕ} : s.senders j = .reads → Step s (s.setSender j .sends)
  | finish {s : State} {j : ℕ} : s.senders j = .sends →
    Step s ({ s with telegramSem := s.telegramSem - 1 }.setSender j .idle)
  | start {s : State} (reinit : Option Bool) : s.closer = .idle →
    Step s { s with closer := .wants, reinit }
  | lock {s : State} : s.closer = .wants → s.NoReader → Step s { s with closer := .locked }
  | closeStop {s : State} : s.closer = .locked →
    Step s { s with closer := .waitsWorkers, stopped := true }
  | workersDone {s : State} : s.closer = .waitsWorkers → (∀ w, s.workers w = .exited) →
    Step s { s with closer := .waitsTelegram, logChan := none }
  | telegramDone {s : State} : s.closer = .waitsTelegram → (∀ j, s.senders j = .idle) →
    Step s { s with closer := .closes }
  | unlock {s : State} : s.closer = .closes → Step s s.afterClose

/-- What can be reached. -/
def Reaches : State → State → Prop := Relation.ReflTransGen Step

/-- The goroutine has to take the lock before it is done. -/
def SenderState.NeedsLock (c : SenderState) : Prop := c = .queues ∨ c = .wants

/-- **Deadlock.** The lock is held by a thread that waits for a goroutine which needs it. The
workers do not take the lock, so this is about the Telegram goroutines. -/
def State.Deadlocked (s : State) : Prop :=
  s.closer = .waitsTelegram ∧ ∃ j, (s.senders j).NeedsLock

/-- Nothing is left to be sent by Telegram that has not read the configuration: no entry for it is
on its way into the channel, in the channel or with a worker, and no goroutine needs the lock. -/
structure State.Quiet (s : State) : Prop where
  caller : ∀ i c e, s.callers i = .sends (some c) e → e.sendTelegram = false
  entries : ∀ e ∈ s.entries, e.sendTelegram = false
  worker : ∀ w e d, s.workers w = .handles e d → e.sendTelegram = false
  sender : ∀ j, ¬ (s.senders j).NeedsLock

end Kiya.Logger
