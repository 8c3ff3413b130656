import Kiya.Waf.Writer

/-!
# `WrapWithWAF`

The closure that `WrapWithWAF` returns for a non-nil engine, as one computation over a fresh
`WafResponseWriter`:

* `inspectRequest` reports the request to the engine. It answers a blocked request itself,
  and refuses a body over the limit with `413`; otherwise it returns the request that is
  forwarded, whose body reader has been replaced.
* `serveHandler` runs the handler on the writer, which may panic at its end. After it,
  `inspectResponse` reports the buffered response to the engine and flushes it, or
  `recoverPanic` is the deferred recovery.

`wrapWithWAF` puts them together and runs them; its result `none` is a closure that never
returns. `inspected` reads off a transaction what `tx.WriteRequestBody` was given.
-/

namespace Kiya

open GuardedM WafResponseWriter

/-- `defaultMaxWAFBufferSize`. -/
def defaultMaxWAFBufferSize : Int := 10 * 2 ^ 20

/-- A handler, run on one request: its calls on the writer, and whether it panics after
them. -/
structure Handler where
  calls : List WriterCall
  panics : Bool := false

/-! ### The request -/

/-- The methods whose body is read and inspected. -/
def inspectsBody (method : String) : Bool :=
  method == "POST" || method == "PUT" || method == "PATCH"

variable (engine : Engine) (maxBufferSize : Int) (req : Request)

/-- Read the request body. Returns the request with its body reader as the handler will see
it and the bytes for the engine, or `none` when the limit was exceeded. -/
def readRequestBody : Option (Request × Bytes) :=
  if inspectsBody req.method then
    let (bodyBytes, err) := (req.body.maxBytesReader maxBufferSize).readAll
    let req := { req with body := Body.ofBytes bodyBytes }
    match err with
    | none => some (req, bodyBytes)
    | some e =>
      if contains e Body.tooLarge then none
      else some (req, []) -- the error is logged, and `bodyBytes = []byte{}`
  else some (req, [])

/-- Send a status and a notice on the embedded writer, bypassing the buffer. -/
def answer (status : Int) (notice : Bytes) (w : WafResponseWriter) : WafResponseWriter :=
  { w with rw := ((w.rw.writeHeader status).write notice).2 }

/-- The calls on the transaction up to the request-header phase. -/
def requestCalls : List TxCall :=
  [.processConnection req.serverIP req.serverPort req.clientIP 0,
    .processURI req.requestURI req.method req.proto] ++
  (if req.host ≠ "" then [.addRequestHeader "host" req.host] else []) ++
  (req.header.flatMap fun e => e.2.map fun v => .addRequestHeader (toLower e.1) v) ++
  [.processRequestHeaders]

/-- `tx.Interruption()` as a computation. -/
def askInterruption : WafM (Option Interruption) := do
  let w ← read
  update fun w => (w.interruption engine).2
  return (w.interruption engine).1

/-- The request phases: returns the request to forward, or `none` when it was answered here. -/
def inspectRequest : WafM (Option Request) := do
  update (tell (requestCalls req))
  match ← askInterruption engine with
  | some it =>
    update (answer it.status blockNotice)
    return none
  | none =>
    match readRequestBody maxBufferSize req with
    | none =>
      update fun w => { w with rw := w.rw.writeHeader statusRequestEntityTooLarge }
      return none
    | some (req, bodyBytes) =>
      update (tell [.writeRequestBody bodyBytes, .processRequestBody])
      match ← askInterruption engine with
      | some it =>
        update (answer it.status blockNotice)
        return none
      | none => return some req

/-! ### The response -/

/-- Replace the buffered response by the notice for a blocked body. -/
def blockBody (it : Interruption) (w : WafResponseWriter) : WafResponseWriter :=
  { w with
    body := blockBodyNotice
    status := it.status
    rw := { w.rw with header := w.rw.header.set "Content-Type" "text/plain" }
    blocked := true }

/-- The response-body phase, after the handler has returned. -/
def inspectResponse : WafM Unit := do
  let w ← read
  if w.bufferLimitExceeded then return
  update (tell [.writeResponseBody
    (if !w.streaming && w.body.length > 0 then w.body else []), .processResponseBody])
  match ← askInterruption engine with
  | some it => if !w.streaming then update (blockBody it)
  | none => pure ()
  let _ ← flushToClient engine

/-- The recovery from a panic of the handler. -/
def recoverPanic : WafM Unit := do
  withLock (update fun w =>
    { w with
      wrote := true
      status := statusInternalServerError
      body := goBytes "Internal Server Error"
      rw := { w.rw with header := w.rw.header.set "Content-Type" "text/plain; charset=utf-8" } })
  let _ ← flushToClient engine

/-! ### The closure -/

/-- Run the handler and finish its response, with the deferred `tx.Close()`. -/
def serveHandler (h : Handler) : WafM Unit := do
  runCalls engine h.calls
  if h.panics then
    update (tell [.close])
    recoverPanic engine
  else
    inspectResponse engine
    update (tell [.close])

/-- The closure, as a computation over its writer. Returns the request the handler got. -/
def serveHTTP (next : Request → Handler) (req : Request) : WafM (Option Request) := do
  match ← inspectRequest engine maxBufferSize req with
  | none =>
    update (tell [.close])
    return none
  | some req =>
    serveHandler engine (next req)
    return some req

/-- The limit in force: a non-positive argument selects the default. -/
def bufferLimit : Int :=
  if maxBufferSize ≤ 0 then defaultMaxWAFBufferSize else maxBufferSize

/-- The writer the closure starts with, its transaction attached. -/
def newWriter (rw : ResponseWriter) : WafResponseWriter :=
  { rw := rw, maxBufferSize := maxBufferSize, tx := some [] }

/-- `WrapWithWAF(next, waf, maxBufferSize)` for a non-nil engine, serving one request. The
result is the forwarded request and the final writer; `none` means that the closure never
returns. -/
def wrapWithWAF (next : Request → Handler) (rw : ResponseWriter) (req : Request) :
    Option (Option Request × WafResponseWriter) :=
  ((serveHTTP engine (bufferLimit maxBufferSize) next req).run
    ⟨false, newWriter (bufferLimit maxBufferSize) rw⟩).map fun r => (r.1, r.2.val)

theorem bufferLimit_of_pos {maxBufferSize : Int} (h : 0 < maxBufferSize) :
    bufferLimit maxBufferSize = maxBufferSize := by
  rw [bufferLimit, if_neg (by omega)]

/-- The bytes given to `tx.WriteRequestBody` before `tx.ProcessRequestBody` was called. -/
def inspected : List TxCall → Bytes
  | [] => []
  | .processRequestBody :: _ => []
  | .writeRequestBody b :: log => b ++ inspected log
  | _ :: log => inspected log

/-! ### Handlers that write a body -/

/-- The calls that follow `WriteHeader`. -/
inductive BodyCall
  | write (b : Bytes)
  | flush

/-- The call on the writer. -/
def BodyCall.toCall : BodyCall → WriterCall
  | write b => .write b
  | flush => .flush

/-- A handler that sets some headers, writes its status and then its body. -/
def bodyHandler (headers : List (String × String)) (code : Int) (ops : List BodyCall) :
    Handler where
  calls := headers.map (fun kv => .setHeader kv.1 kv.2) ++
    .writeHeader code :: ops.map BodyCall.toCall

/-- The header map after the handler's `Header().Set` calls. -/
def withHeaders (h : Header) (headers : List (String × String)) : Header :=
  headers.foldl (fun h kv => h.set kv.1 kv.2) h

/-- The `Header().Set` calls before `WriteHeader` only change the header map. -/
theorem run_setHeaders (headers : List (String × String)) (calls : List WriterCall)
    (w : WafResponseWriter) :
    (runCalls engine (headers.map (fun kv => .setHeader kv.1 kv.2) ++ calls)).run ⟨false, w⟩ =
      (runCalls engine calls).run
        ⟨false, { w with rw := { w.rw with header := withHeaders w.rw.header headers } }⟩ := by
  induction headers generalizing w with
  | nil => rfl
  | cons kv headers ih =>
    exact ih { w with rw := { w.rw with header := w.rw.header.set kv.1 kv.2 } }

/-- The writer as the handler's `WriteHeader` finds it. -/
def atWriteHeader (w : WafResponseWriter) (headers : List (String × String)) :
    WafResponseWriter :=
  { w with rw := { w.rw with header := withHeaders w.rw.header headers } }

/-- Serving such a handler is serving its body after `WriteHeader`, and then the response
phase. -/
theorem run_serveHandler_bodyHandler {engine : Engine} {headers : List (String × String)}
    {code : Int} {ops : List BodyCall} {w w₁ w₂ : WafResponseWriter}
    (h₁ : (runCalls engine (ops.map BodyCall.toCall)).run
      ⟨false, (atWriteHeader w headers).writeHeaderLocked engine code⟩ = some ((), ⟨false, w₁⟩))
    (h₂ : (inspectResponse engine).run ⟨false, w₁⟩ = some ((), ⟨false, w₂⟩)) :
    (serveHandler engine (bodyHandler headers code ops)).run ⟨false, w⟩ =
      some ((), ⟨false, w₂.tell [.close]⟩) := by
  have hcalls : (runCalls engine (bodyHandler headers code ops).calls).run ⟨false, w⟩ =
      some ((), ⟨false, w₁⟩) := by
    rw [← h₁]
    exact (run_setHeaders engine headers _ _).trans
      (run_seq_cons_of_returnsFree ⟨(), run_writeHeader code⟩)
  unfold serveHandler
  rw [StateT.run_bind, hcalls]
  simp only [Option.bind_eq_bind, Option.bind_some, bodyHandler, Bool.false_eq_true, if_false,
    StateT.run_bind, h₂, run_update]

end Kiya
