import Kiya.Lib.Mutex
import Kiya.Net.Http

/-!
# The buffering response writer of the WAF layer

`WafResponseWriter` stands between a handler and the server's `ResponseWriter`. It holds the
response back in `body` until the WAF engine has seen it, unless the content type is binary,
the handler flushes, or the buffer limit is exceeded; from then on it is `streaming` and
passes every chunk through. All its methods but `FlushToClient` lock `mu` on entry, so they
are computations over a `Guarded` writer.

The engine (`coraza`) is not part of this repository: a transaction is the list of calls
made on it so far, and an `Engine` is an arbitrary function that says, from that list, which
interruption `tx.Interruption()` reports. Asking is itself a recorded call, so an engine may
answer differently each time it is asked.

The `…Locked` functions and `afterWrite`, `afterFlush` say what a method does to the writer
when it gets the mutex and the header has been written; the `run_…` lemmas connect them to
the methods, and say which calls never return.
-/

namespace Kiya

open GuardedM

/-! ### The engine -/

/-- `types.Interruption`, as far as the framework reads it. -/
structure Interruption where
  ruleID : Int
  status : Int

/-- The calls the framework makes on a transaction. -/
inductive TxCall
  | processConnection (serverIP : String) (serverPort : Int) (clientIP : String)
      (clientPort : Int)
  | processURI (uri method proto : String)
  | addRequestHeader (k v : String)
  | processRequestHeaders
  | writeRequestBody (b : Bytes)
  | processRequestBody
  | addResponseHeader (k v : String)
  | processResponseHeaders (code : Int) (proto : String)
  | writeResponseBody (b : Bytes)
  | processResponseBody
  | interruption
  | close

/-- A WAF engine: the answer of `tx.Interruption()` after the calls made so far. -/
abbrev Engine := List TxCall → Option Interruption

/-- The engine never interrupts. -/
def Engine.Silent (engine : Engine) : Prop := ∀ log, engine log = none

variable {engine : Engine}

theorem Engine.Silent.bind_eq_none (hs : engine.Silent)
    (tx : Option (List TxCall)) : tx.bind engine = none := by
  cases tx with
  | none => rfl
  | some log => exact hs log

/-- An interruption the engine reported in the course of a transaction: it is the answer to
one of the `tx.Interruption()` calls of the transaction's log. -/
def Engine.Reported (engine : Engine) (log : List TxCall) (it : Interruption) : Prop :=
  ∃ before, before ++ [.interruption] <+: log ∧ engine before = some it

/-- What has been reported stays reported as the transaction goes on. -/
theorem Engine.Reported.mono {log log' : List TxCall} {it : Interruption}
    (h : engine.Reported log it) (hl : log <+: log') : engine.Reported log' it := by
  obtain ⟨before, hpre, hit⟩ := h
  exact ⟨before, hpre.trans hl, hit⟩

/-! ### The writer -/

/-- The notice sent in place of a response blocked by its headers, or of a blocked request. -/
def blockNotice : Bytes := goBytes "Blocked by WAF"

/-- The notice sent in place of a response blocked by its body. -/
def blockBodyNotice : Bytes := goBytes "Blocked by WAF (Response Body)"

/-- `wafResponseWriter`, less its mutex (see `Guarded`). -/
structure WafResponseWriter where
  /-- The embedded `http.ResponseWriter`. -/
  rw : ResponseWriter
  status : Int := statusOK
  body : Bytes := []
  wrote : Bool := false
  streaming : Bool := false
  maxBufferSize : Int := 0
  bufferLimitExceeded : Bool := false
  /-- The calls made on the transaction, if one is attached. -/
  tx : Option (List TxCall) := none
  blocked : Bool := false

/-- Computations over the locked writer. -/
abbrev WafM := GuardedM WafResponseWriter

namespace WafResponseWriter

/-- Make calls on the transaction, in order. -/
def tell (calls : List TxCall) (w : WafResponseWriter) : WafResponseWriter :=
  { w with tx := w.tx.map (· ++ calls) }

/-- `tx.Interruption()`. -/
def interruption (engine : Engine) (w : WafResponseWriter) :
    Option Interruption × WafResponseWriter :=
  (w.tx.bind engine, w.tell [.interruption])

/-- `w.ResponseWriter.Write(b)`. -/
def send (b : Bytes) (w : WafResponseWriter) : (Nat × Option String) × WafResponseWriter :=
  let (r, rw) := w.rw.write b
  (r, { w with rw := rw })

/-- The content types that are streamed without inspection. -/
def isBinaryContent (ct : String) : Bool :=
  hasPrefix ct "image/" || hasPrefix ct "video/" || hasPrefix ct "audio/" ||
    ct == "application/octet-stream" || ct == "application/pdf" ||
    hasPrefix ct "application/font-" || hasPrefix ct "font/"

/-- The response-header phase of `WriteHeader`: report the headers to the engine and ask it.
Returns whether the response is blocked and the status code to use. -/
def processHeaders (engine : Engine) (code : Int) (w : WafResponseWriter) :
    (Bool × Int) × WafResponseWriter :=
  if w.tx.isNone then ((false, code), w)
  else
    let w := w.tell (w.rw.header.flatMap fun e =>
      e.2.map fun v => .addResponseHeader (toLower e.1) v)
    let w := w.tell [.processResponseHeaders code "HTTP/1.1"]
    match w.interruption engine with
    | (some it, w) =>
      ((true, it.status),
        { w with
          body := blockNotice
          rw := { w.rw with header := w.rw.header.set "Content-Type" "text/plain" } })
    | (none, w) => ((false, code), w)

/-- `WriteHeader`, between `Lock` and `Unlock`. -/
def writeHeaderLocked (engine : Engine) (code : Int) (w : WafResponseWriter) :
    WafResponseWriter :=
  if w.wrote then w
  else
    let ((isBlocked, code), w) := w.processHeaders engine code
    let ct := w.rw.header.get "Content-Type"
    let w :=
      if isBinaryContent ct && !isBlocked then
        { w with rw := w.rw.writeHeader code, wrote := true, streaming := true }
      else { w with status := code, wrote := true }
    if isBlocked then { w with blocked := true } else w

/-- `WriteHeader`. -/
def writeHeader (engine : Engine) (code : Int) : WafM Unit :=
  withLock (update (writeHeaderLocked engine code))

/-- `w.ResponseWriter.Write(b)` as a computation. -/
def forward (b : Bytes) : WafM (Nat × Option String) := do
  let w ← read
  update fun w => (w.send b).2
  return (w.send b).1

/-- `FlushToClient`, which does not lock. -/
def flushToClient (engine : Engine) : WafM (Option String) := do
  let w ← read
  if w.streaming then return none
  if w.body.length > 0 || w.wrote then
    if !w.wrote then writeHeader engine statusOK
    update fun w => { w with rw := w.rw.writeHeader w.status }
    let w ← read
    let r ← forward w.body
    return r.2
  return none

/-- `Write`. -/
def write (engine : Engine) (b : Bytes) : WafM (Nat × Option String) := withLock do
  let w ← read
  if !w.wrote then writeHeader engine statusOK
  let w ← read
  if w.blocked then return (b.length, none)
  if w.streaming then forward b
  else if w.maxBufferSize > 0 && (w.body.length : Int) + b.length > w.maxBufferSize then
    update fun w => { w with bufferLimitExceeded := true, streaming := true }
    let _ ← flushToClient engine
    forward b
  else
    update fun w => { w with body := w.body ++ b }
    return (b.length, none)

/-- `Flush`. -/
def flush (engine : Engine) : WafM Unit := withLock do
  let w ← read
  if w.rw.flusher then
    if !w.wrote then writeHeader engine w.status
    let w ← read
    if w.streaming then
      update fun w => { w with rw := w.rw.flush }
    else
      update fun w => { w with rw := w.rw.writeHeader w.status }
      if w.body.length > 0 then
        update fun w => { (w.send w.body).2 with body := [] }
      update fun w => { w with streaming := true, rw := w.rw.flush }

/-- `Hijack`, returning its error. -/
def hijack : WafM (Option String) := withLock do
  let w ← read
  if w.streaming || w.wrote then
    return some "cannot hijack after response has been written"
  if w.rw.hijacker then
    update fun w => { w with streaming := true, rw := w.rw.hijack.2 }
    return w.rw.hijack.1
  return some "underlying ResponseWriter does not implement http.Hijacker"

/-- `Written`. -/
def written : WafM Bool := withLock do return (← read).wrote

/-- `StatusCode`. -/
def statusCode : WafM Int := withLock do return (← read).status

end WafResponseWriter

/-! ### Handlers -/

/-- The calls a handler makes on the writer it is given; `setHeader` is `w.Header().Set`. -/
inductive WriterCall
  | setHeader (k v : String)
  | writeHeader (code : Int)
  | write (b : Bytes)
  | flush
  | hijack
  | written
  | statusCode

open WafResponseWriter in
/-- One call of the handler, its result dropped. -/
def WriterCall.run (engine : Engine) : WriterCall → WafM Unit
  | setHeader k v => update fun w => { w with rw := { w.rw with header := w.rw.header.set k v } }
  | writeHeader code => WafResponseWriter.writeHeader engine code
  | write b => do let _ ← WafResponseWriter.write engine b
  | flush => WafResponseWriter.flush engine
  | hijack => do let _ ← WafResponseWriter.hijack
  | written => do let _ ← WafResponseWriter.written
  | statusCode => do let _ ← WafResponseWriter.statusCode

/-- All calls of a handler, in order. -/
def runCalls (engine : Engine) (calls : List WriterCall) : WafM Unit :=
  GuardedM.seq (calls.map (WriterCall.run engine))

/-! ### What the methods do -/

namespace WafResponseWriter

variable {w : WafResponseWriter}

variable (code : Int) (b : Bytes)

/-- What `Write` does to a writer whose header is written. -/
def afterWrite (w : WafResponseWriter) : WafResponseWriter :=
  if w.blocked then w
  else if w.streaming then (w.send b).2
  else if w.maxBufferSize > 0 && (w.body.length : Int) + b.length > w.maxBufferSize then
    (send b { w with bufferLimitExceeded := true, streaming := true }).2
  else { w with body := w.body ++ b }

/-- What `Flush` does to a writer whose header is written. -/
def afterFlush (w : WafResponseWriter) : WafResponseWriter :=
  if !w.rw.flusher then w
  else if w.streaming then { w with rw := w.rw.flush }
  else
    let rw := w.rw.writeHeader w.status
    { w with
      rw := (if w.body.length > 0 then (rw.write w.body).2 else rw).flush
      body := []
      streaming := true }

/-- What `FlushToClient` does to a writer whose header is written. -/
def afterFlushToClient (w : WafResponseWriter) : WafResponseWriter :=
  if w.streaming then w
  else { w with rw := ((w.rw.writeHeader w.status).write w.body).2 }

@[simp] theorem run_forward (s : Guarded WafResponseWriter) :
    (forward b).run s = some ((s.val.send b).1, ⟨s.held, (s.val.send b).2⟩) := rfl

theorem run_writeHeader_held : (writeHeader engine code).run ⟨true, w⟩ = none := rfl

theorem run_writeHeader : (writeHeader engine code).run ⟨false, w⟩ =
      some ((), ⟨false, w.writeHeaderLocked engine code⟩) := rfl

/-- `FlushToClient` once the header is written, whatever the state of the mutex. -/
theorem run_flushToClient (hw : w.wrote = true) (held : Bool) :
    ∃ r, (flushToClient engine).run ⟨held, w⟩ = some (r, ⟨held, w.afterFlushToClient⟩) := by
  unfold flushToClient afterFlushToClient
  cases hs : w.streaming <;> simp [hs, hw, send]

/-- `FlushToClient` on a streaming writer does nothing. -/
theorem run_flushToClient_streaming (hs : w.streaming = true) (held : Bool) :
    (flushToClient engine).run ⟨held, w⟩ = some (none, ⟨held, w⟩) := by
  unfold flushToClient
  simp [hs]

/-- `Write` after the header is written returns with the mutex free. -/
theorem run_write (hw : w.wrote = true) (b : Bytes) :
    ∃ r, (write engine b).run ⟨false, w⟩ = some (r, ⟨false, w.afterWrite b⟩) := by
  unfold write afterWrite
  rw [run_withLock_of_free]
  by_cases hb : w.blocked
  · simp [hw, hb]
  by_cases hs : w.streaming
  · simp [hw, hb, hs]
  by_cases hm : w.maxBufferSize > 0 ∧ (w.body.length : Int) + b.length > w.maxBufferSize
  · -- the limit is exceeded: `FlushToClient` runs with `streaming` already set
    simp [hw, hb, hs, hm, run_flushToClient_streaming]
  · simp [hw, hb, hs, hm]

/-- **`Write` before any `WriteHeader` blocks**: it calls `WriteHeader` with `mu` held. -/
theorem run_write_unwritten (hw : w.wrote = false) (b : Bytes) :
    (write engine b).run ⟨false, w⟩ = none := by
  unfold write
  rw [run_withLock_of_free]
  simp [hw, run_writeHeader_held]

/-- `Flush` after the header is written returns with the mutex free. -/
theorem run_flush (hw : w.wrote = true) :
    (flush engine).run ⟨false, w⟩ = some ((), ⟨false, w.afterFlush⟩) := by
  unfold flush afterFlush
  rw [run_withLock_of_free]
  by_cases hf : w.rw.flusher
  · by_cases hs : w.streaming
    · simp [hw, hf, hs]
    · by_cases hb : w.body.length > 0
      · simp [hw, hf, hs, hb, send]
      · have hnil : w.body = [] := List.eq_nil_of_length_eq_zero (by omega)
        simp [hw, hf, hs, hnil]
  · simp [hf]

/-- On a connection that cannot flush, `Flush` does nothing. -/
theorem run_flush_of_not_flusher (hf : w.rw.flusher = false) :
    (flush engine).run ⟨false, w⟩ = some ((), ⟨false, w⟩) := by
  unfold flush
  rw [run_withLock_of_free]
  simp [hf]

/-- **`Flush` before any `WriteHeader` blocks** on a connection that can flush. -/
theorem run_flush_unwritten (hw : w.wrote = false) (hf : w.rw.flusher = true) :
    (flush engine).run ⟨false, w⟩ = none := by
  unfold flush
  rw [run_withLock_of_free]
  simp [hw, hf, run_writeHeader_held]

/-- `WriteHeader` leaves the header written. -/
theorem wrote_writeHeaderLocked : (w.writeHeaderLocked engine code).wrote = true := by
  unfold writeHeaderLocked
  split
  · assumption
  · dsimp only
    split <;> split <;> rfl

theorem flusher_processHeaders : (w.processHeaders engine code).2.rw.flusher = w.rw.flusher := by
  unfold processHeaders
  split
  · rfl
  · dsimp only [interruption]
    split <;>
    · rename_i heq
      obtain ⟨-, rfl⟩ := Prod.mk.inj heq
      rfl

theorem flusher_writeHeaderLocked :
    (w.writeHeaderLocked engine code).rw.flusher = w.rw.flusher := by
  unfold writeHeaderLocked
  split
  · rfl
  · have h := @flusher_processHeaders engine w code
    dsimp only
    split <;> split <;> simpa using h

theorem wrote_afterWrite : (w.afterWrite b).wrote = w.wrote := by
  unfold afterWrite
  split
  · rfl
  · split
    · rfl
    · split <;> rfl

theorem wrote_afterFlush : w.afterFlush.wrote = w.wrote := by
  unfold afterFlush
  split
  · rfl
  · split <;> rfl

/-- What `Hijack` does. -/
def afterHijack (w : WafResponseWriter) : WafResponseWriter :=
  if w.streaming || w.wrote then w
  else if w.rw.hijacker then { w with streaming := true, rw := w.rw.hijack.2 }
  else w

theorem run_hijack : ∃ r, hijack.run ⟨false, w⟩ = some (r, ⟨false, w.afterHijack⟩) := by
  unfold hijack afterHijack
  rw [run_withLock_of_free]
  by_cases hs : w.streaming
  · simp [hs]
  by_cases hw : w.wrote
  · simp [hw]
  by_cases hj : w.rw.hijacker
  · simp [hs, hw, hj]
  · simp [hs, hw, hj]

theorem wrote_afterHijack : w.afterHijack.wrote = w.wrote := by
  unfold afterHijack
  split
  · rfl
  · split <;> rfl

theorem flusher_afterHijack : w.afterHijack.rw.flusher = w.rw.flusher := by
  unfold afterHijack
  split
  · rfl
  · split
    · simp only [ResponseWriter.hijack]
      split <;> rfl
    · rfl

end WafResponseWriter

end Kiya
