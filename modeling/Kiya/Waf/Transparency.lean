import Kiya.Waf.Log

/-!
# When the WAF writer is transparent

A handler that calls `WriteHeader(code)` and then `Write`s and `Flush`es, under an engine
that never interrupts. After the header the writer is in one of two states: it is `Streaming`,
with everything written so far already with the client, or it is `Buffering`, with everything
written so far in `body` and nothing sent. `delivered` follows these states and says what the
client has received when the closure returns (`wrapWithWAF_delivers`).

The one transition that loses data is the overflow of the buffer limit: `Write` sets
`streaming` before it calls `FlushToClient`, which then does nothing, so the buffered bytes
are dropped and the status stays at the implicit `200`.
-/

namespace Kiya

open GuardedM WafResponseWriter ResponseWriter BodyCall List

/-! ### What is written and what is delivered -/

/-- The bytes written, in order. -/
def writtenBytes : List BodyCall → Bytes
  | [] => []
  | .write b :: ops => b ++ writtenBytes ops
  | .flush :: ops => writtenBytes ops

/-- The chunks written before the first `Flush` that has an effect. -/
def beforeFlush (flusher : Bool) : List BodyCall → List Bytes
  | [] => []
  | .write b :: ops => b :: beforeFlush flusher ops
  | .flush :: ops => if flusher then [] else beforeFlush flusher ops

/-- What the client has received when a buffering writer with `buf` in its buffer has served
the remaining calls: the status and the body. -/
def delivered (flusher : Bool) (limit code : Int) (buf : Bytes) : List BodyCall → Int × Bytes
  | [] => (code, buf)
  | .write b :: ops =>
    if (buf.length : Int) + b.length > limit then (statusOK, b ++ writtenBytes ops)
    else delivered flusher limit code (buf ++ b) ops
  | .flush :: ops =>
    if flusher then (code, buf ++ writtenBytes ops) else delivered flusher limit code buf ops

/-! ### The two states of the writer -/

/-- Everything written so far, `sent`, is with the client under the status `code`. -/
structure Streaming (w : WafResponseWriter) (code : Int) (sent : Bytes) : Prop where
  wrote : w.wrote = true
  streaming : w.streaming = true
  blocked : w.blocked = false
  status : w.rw.Open code
  body : w.rw.clientBody = sent

/-- Everything written so far, `buf`, is in the buffer and nothing has been sent. -/
structure Buffering (w : WafResponseWriter) (limit code : Int) (buf : Bytes) : Prop where
  wrote : w.wrote = true
  streaming : w.streaming = false
  blocked : w.blocked = false
  exceeded : w.bufferLimitExceeded = false
  untouched : w.rw.Untouched
  maxBufferSize : w.maxBufferSize = limit
  status : w.status = code
  body : w.body = buf

theorem clientBody_write {rw : ResponseWriter} (h : rw.hijacked = false) (b : Bytes) :
    (rw.write b).2.clientBody = rw.clientBody ++ b := by
  simp [clientBody, writes_write h]

variable {w : WafResponseWriter} {code limit : Int} {sent buf : Bytes} {engine : Engine}

/-- A streaming writer passes a chunk through. -/
theorem Streaming.afterWrite (h : Streaming w code sent) (b : Bytes) :
    Streaming (w.afterWrite b) code (sent ++ b) := by
  have hw : w.afterWrite b = (w.send b).2 := by
    simp [WafResponseWriter.afterWrite, h.blocked, h.streaming]
  rw [hw]
  refine ⟨h.wrote, h.streaming, h.blocked, h.status.write b, ?_⟩
  change (w.rw.write b).2.clientBody = _
  rw [clientBody_write h.status.hijacked, h.body]

/-- A streaming writer stays as it is when flushed. -/
theorem Streaming.afterFlush (h : Streaming w code sent) : Streaming w.afterFlush code sent := by
  cases hf : w.rw.flusher with
  | false => simpa [WafResponseWriter.afterFlush, hf] using h
  | true =>
    have hw : w.afterFlush = { w with rw := w.rw.flush } := by
      simp [WafResponseWriter.afterFlush, hf, h.streaming]
    rw [hw]
    refine ⟨h.wrote, h.streaming, h.blocked, h.status.flush, ?_⟩
    rw [← h.body]
    simp [clientBody]

/-- A chunk that fits is buffered. -/
theorem Buffering.afterWrite {buf b : Bytes}
    (h : Buffering w limit code buf) (hfit : ¬ (buf.length : Int) + b.length > limit) :
    Buffering (w.afterWrite b) limit code (buf ++ b) := by
  have hw : w.afterWrite b = { w with body := w.body ++ b } := by
    simp [WafResponseWriter.afterWrite, h.blocked, h.streaming, h.maxBufferSize, h.body, hfit]
  rw [hw]
  exact ⟨h.wrote, h.streaming, h.blocked, h.exceeded, h.untouched, h.maxBufferSize, h.status,
    by rw [h.body]⟩

/-- **A chunk that does not fit loses the buffer**: the chunk is sent alone, with the
implicit status. -/
theorem Buffering.afterWrite_overflow {buf b : Bytes} (h : Buffering w limit code buf)
    (hl : 0 < limit) (hover : (buf.length : Int) + b.length > limit) :
    Streaming (w.afterWrite b) statusOK b := by
  have hw : w.afterWrite b =
      (send b { w with bufferLimitExceeded := true, streaming := true }).2 := by
    simp [WafResponseWriter.afterWrite, h.blocked, h.streaming, h.maxBufferSize, h.body, hover, hl]
  rw [hw]
  refine ⟨h.wrote, rfl, h.blocked, h.untouched.open_write b, ?_⟩
  change (w.rw.write b).2.clientBody = _
  rw [clientBody_write h.untouched.hijacked, clientBody, h.untouched.writes]
  rfl

/-- `Flush` sends the status and the buffer. -/
theorem Buffering.afterFlush (h : Buffering w limit code buf) (hf : w.rw.flusher = true) :
    Streaming w.afterFlush code buf := by
  have ho := h.untouched.open_writeHeader code
  have hw : w.afterFlush =
      { w with
        rw := (if buf.length > 0 then ((w.rw.writeHeader code).write buf).2
          else w.rw.writeHeader code).flush
        body := []
        streaming := true } := by
    simp [WafResponseWriter.afterFlush, hf, h.streaming, h.status, h.body]
  rw [hw]
  refine ⟨h.wrote, rfl, h.blocked, ?_, ?_⟩
  · split
    · exact (ho.write buf).flush
    · exact ho.flush
  · split
    · simp [clientBody, writes_write ho.hijacked, h.untouched.writes]
    · rename_i hnil
      have hbuf : buf = [] := eq_nil_of_length_eq_zero (by omega)
      simp [clientBody, h.untouched.writes, hbuf]

theorem flusher_afterWrite (b : Bytes) (w : WafResponseWriter) :
    (w.afterWrite b).rw.flusher = w.rw.flusher := by
  unfold WafResponseWriter.afterWrite
  split
  · rfl
  · split
    · exact flusher_write _ _
    · split
      · exact flusher_write _ _
      · rfl

/-! ### Serving the body -/

/-- A streaming writer delivers whatever follows. -/
theorem Streaming.run_body (engine : Engine) (h : Streaming w code sent) (ops : List BodyCall) :
    ∃ w', (runCalls engine (ops.map toCall)).run ⟨false, w⟩ = some ((), ⟨false, w'⟩) ∧
      Streaming w' code (sent ++ writtenBytes ops) := by
  induction ops generalizing w sent with
  | nil => exact ⟨w, rfl, by simpa [writtenBytes] using h⟩
  | cons op ops ih =>
    cases op with
    | write b =>
      obtain ⟨r, hr⟩ := @run_write engine w h.wrote b
      obtain ⟨w', hrun, hw'⟩ := ih (h.afterWrite b)
      refine ⟨w', ?_, by simpa [writtenBytes] using hw'⟩
      rw [← hrun]
      exact run_seq_cons_of_returnsFree ⟨(), by simp [toCall, WriterCall.run, hr]⟩
    | flush =>
      obtain ⟨w', hrun, hw'⟩ := ih h.afterFlush
      refine ⟨w', ?_, hw'⟩
      rw [← hrun]
      exact run_seq_cons_of_returnsFree ⟨(), run_flush h.wrote⟩

/-- A buffering writer ends in one of the two states, with what `delivered` says. -/
theorem Buffering.run_body (engine : Engine) (hl : 0 < limit) (h : Buffering w limit code buf)
    (ops : List BodyCall) :
    ∃ w', (runCalls engine (ops.map toCall)).run ⟨false, w⟩ = some ((), ⟨false, w'⟩) ∧
      (Streaming w' (delivered w.rw.flusher limit code buf ops).1
          (delivered w.rw.flusher limit code buf ops).2 ∨
        Buffering w' limit (delivered w.rw.flusher limit code buf ops).1
          (delivered w.rw.flusher limit code buf ops).2) := by
  induction ops generalizing w buf with
  | nil => exact ⟨w, rfl, .inr h⟩
  | cons op ops ih =>
    cases op with
    | write b =>
      obtain ⟨r, hr⟩ := @run_write engine w h.wrote b
      have hret : ReturnsFree ((write b).toCall.run engine) w (w.afterWrite b) :=
        ⟨(), by simp [toCall, WriterCall.run, hr]⟩
      by_cases hover : (buf.length : Int) + b.length > limit
      · obtain ⟨w', hrun, hw'⟩ := (h.afterWrite_overflow hl hover).run_body engine ops
        refine ⟨w', (run_seq_cons_of_returnsFree hret).trans hrun, .inl ?_⟩
        simpa [delivered, hover] using hw'
      · obtain ⟨w', hrun, hw'⟩ := ih (h.afterWrite hover)
        refine ⟨w', (run_seq_cons_of_returnsFree hret).trans hrun, ?_⟩
        rw [flusher_afterWrite] at hw'
        simpa [delivered, hover] using hw'
    | flush =>
      have hret : ReturnsFree (flush.toCall.run engine) w w.afterFlush := ⟨(), run_flush h.wrote⟩
      cases hf : w.rw.flusher with
      | true =>
        obtain ⟨w', hrun, hw'⟩ := (h.afterFlush hf).run_body engine ops
        refine ⟨w', (run_seq_cons_of_returnsFree hret).trans hrun, .inl ?_⟩
        simpa [delivered, hf] using hw'
      | false =>
        have hid : w.afterFlush = w := by simp [WafResponseWriter.afterFlush, hf]
        rw [hid] at hret
        obtain ⟨w', hrun, hw'⟩ := ih h
        refine ⟨w', (run_seq_cons_of_returnsFree hret).trans hrun, ?_⟩
        simpa [delivered, hf] using hw'

/-! ### Before and after the body -/

/-- Under a silent engine the header phase only makes calls on the transaction. -/
theorem processHeaders_of_silent (hs : engine.Silent) (code : Int) (w : WafResponseWriter) :
    ∃ calls, w.processHeaders engine code = ((false, code), w.tell calls) := by
  rcases processHeaders_cases engine code w with ⟨it, calls, hit, -⟩ | h
  · exact absurd hit hs.not_reportedIn
  · exact h

/-- `WriteHeader` on a writer that has sent nothing, under a silent engine. -/
theorem writeHeaderLocked_of_silent (hs : engine.Silent) (code : Int)
    (hw : w.wrote = false) (hb : w.blocked = false)
    (hst : w.streaming = false) (hex : w.bufferLimitExceeded = false) (hbody : w.body = [])
    (hrw : w.rw.Untouched) :
    if isBinaryContent (w.rw.header.get "Content-Type") then
      Streaming (w.writeHeaderLocked engine code) code []
    else Buffering (w.writeHeaderLocked engine code) w.maxBufferSize code [] := by
  obtain ⟨calls, hp⟩ := processHeaders_of_silent hs code w
  cases hbin : isBinaryContent (w.rw.header.get "Content-Type") with
  | true =>
    have hval : w.writeHeaderLocked engine code =
        { w.tell calls with
          rw := w.rw.writeHeader code
          wrote := true
          streaming := true } := by
      simp [writeHeaderLocked, hw, hp, WafResponseWriter.tell, hbin]
    rw [if_pos rfl, hval]
    refine ⟨rfl, rfl, hb, hrw.open_writeHeader code, ?_⟩
    simp [clientBody, hrw.writes]
  | false =>
    have hval : w.writeHeaderLocked engine code =
        { w.tell calls with status := code, wrote := true } := by
      simp [writeHeaderLocked, hw, hp, WafResponseWriter.tell, hbin]
    rw [if_neg (by simp), hval]
    exact ⟨rfl, hst, hb, hex, hrw, rfl, rfl, hbody⟩

/-- Under a silent engine the body phase flushes the buffer and sends nothing else. -/
theorem run_inspectResponse_of_silent (hs : engine.Silent)
    (hw : w.wrote = true) (hex : w.bufferLimitExceeded = false) :
    ∃ calls, (inspectResponse engine).run ⟨false, w⟩ =
      some ((), ⟨false, (w.tell calls).afterFlushToClient⟩) := by
  obtain ⟨calls, ⟨-, it, hit, -⟩ | hrun⟩ := run_inspectResponse engine hw hex
  · exact absurd hit hs.not_reportedIn
  · exact ⟨calls, hrun⟩

/-- A streaming response is complete when the handler returns. -/
theorem Streaming.run_inspectResponse (hs : engine.Silent) (h : Streaming w code sent) :
    ∃ w', (inspectResponse engine).run ⟨false, w⟩ = some ((), ⟨false, w'⟩) ∧ w'.rw = w.rw := by
  cases hex : w.bufferLimitExceeded with
  | true =>
    refine ⟨w, ?_, rfl⟩
    unfold inspectResponse
    simp [hex]
  | false =>
    obtain ⟨calls, hrun⟩ := run_inspectResponse_of_silent hs h.wrote hex
    refine ⟨_, hrun, ?_⟩
    simp [afterFlushToClient, WafResponseWriter.tell, h.streaming]

/-- A buffered response is sent when the handler returns. -/
theorem Buffering.run_inspectResponse (hs : engine.Silent) (h : Buffering w limit code buf) :
    ∃ w', (inspectResponse engine).run ⟨false, w⟩ = some ((), ⟨false, w'⟩) ∧
      w'.rw = ((w.rw.writeHeader code).write buf).2 := by
  obtain ⟨calls, hrun⟩ := run_inspectResponse_of_silent hs h.wrote h.exceeded
  refine ⟨_, hrun, ?_⟩
  simp [afterFlushToClient, WafResponseWriter.tell, h.streaming, h.status, h.body]

/-- What the client has received, as a status and a body. -/
def ResponseWriter.received (rw : ResponseWriter) : Int × Bytes := (rw.clientStatus, rw.clientBody)

/-- A handler that writes its status and its body is served to its end, and the client has
received what `delivered` says, or everything if the content is binary. -/
theorem run_serveHandler_body (hs : engine.Silent) (hl : 0 < limit) {rw : ResponseWriter}
    (hrw : rw.Untouched) (tx : Option (List TxCall))
    (headers : List (String × String)) (code : Int) (ops : List BodyCall) :
    ∃ w', (serveHandler engine (bodyHandler headers code ops)).run
        ⟨false, { rw := rw, maxBufferSize := limit, tx := tx }⟩ = some ((), ⟨false, w'⟩) ∧
      w'.rw.received =
        if isBinaryContent ((withHeaders rw.header headers).get "Content-Type") then
          (code, writtenBytes ops)
        else delivered rw.flusher limit code [] ops := by
  set w₀ : WafResponseWriter :=
    atWriteHeader { rw := rw, maxBufferSize := limit, tx := tx } headers with hw₀
  have hhead := writeHeaderLocked_of_silent hs code (w := w₀) rfl rfl rfl rfl rfl
    (hrw.withHeader _)
  cases hbin : isBinaryContent ((withHeaders rw.header headers).get "Content-Type") with
  | true =>
    have hstr : Streaming (w₀.writeHeaderLocked engine code) code [] := by
      simpa [hw₀, atWriteHeader, hbin] using hhead
    obtain ⟨w₁, h₁, hw₁⟩ := hstr.run_body engine ops
    obtain ⟨w₂, h₂, hrw₂⟩ := hw₁.run_inspectResponse hs
    refine ⟨_, run_serveHandler_bodyHandler h₁ h₂, ?_⟩
    change w₂.rw.received = _
    rw [hrw₂, received, hw₁.status.clientStatus, hw₁.body]
    rfl
  | false =>
    have hbuf : Buffering (w₀.writeHeaderLocked engine code) limit code [] := by
      simpa [hw₀, atWriteHeader, hbin] using hhead
    have hfl : (w₀.writeHeaderLocked engine code).rw.flusher = rw.flusher :=
      flusher_writeHeaderLocked code
    obtain ⟨w₁, h₁, hw₁⟩ := hbuf.run_body engine hl ops
    rw [hfl] at hw₁
    rcases hw₁ with hw₁ | hw₁
    · obtain ⟨w₂, h₂, hrw₂⟩ := hw₁.run_inspectResponse hs
      refine ⟨_, run_serveHandler_bodyHandler h₁ h₂, ?_⟩
      change w₂.rw.received = _
      rw [hrw₂, received, hw₁.status.clientStatus, hw₁.body]
      rfl
    · obtain ⟨w₂, h₂, hrw₂⟩ := hw₁.run_inspectResponse hs
      refine ⟨_, run_serveHandler_bodyHandler h₁ h₂, ?_⟩
      have ho := hw₁.untouched.open_writeHeader (delivered rw.flusher limit code [] ops).1
      change w₂.rw.received = _
      rw [hrw₂, received, (ho.write _).clientStatus, clientBody_write ho.hijacked]
      simp [clientBody, hw₁.untouched.writes]

/-! ### The closure -/

/-- What the client has received when the closure returns. -/
theorem wrapWithWAF_delivers (hs : engine.Silent) {maxBufferSize : Int}
    (hm : 0 < maxBufferSize) {rw : ResponseWriter} (hrw : rw.Untouched) {req fwd : Request}
    {b : Bytes} (hread : readRequestBody maxBufferSize req = some (fwd, b))
    {next : Request → Handler} {headers : List (String × String)} {ops : List BodyCall}
    (hnext : next fwd = bodyHandler headers code ops) :
    ∃ w, wrapWithWAF engine maxBufferSize next rw req = some (some fwd, w) ∧
      w.rw.received =
        if isBinaryContent ((withHeaders rw.header headers).get "Content-Type") then
          (code, writtenBytes ops)
        else delivered rw.flusher maxBufferSize code [] ops := by
  obtain ⟨w, hrun, hw⟩ := run_serveHandler_body hs hm hrw (some (forwardedCalls req b)) headers
    code ops
  refine ⟨w, ?_, hw⟩
  have hreq := run_inspectRequest_of_silent hs hread ⟨false, newWriter maxBufferSize rw⟩
  rw [← hnext] at hrun
  have hserve := run_serveHTTP_eq_some_iff.mpr ⟨_, hreq, hrun⟩
  rw [wrapWithWAF, bufferLimit_of_pos hm, hserve]
  rfl

/-- When everything arrives: the buffer never overflows, or it overflows while it is empty
and the status is the implicit one. -/
theorem delivered_eq_iff (flusher : Bool) (hbuf : (buf.length : Int) ≤ limit)
    (ops : List BodyCall) :
    delivered flusher limit code buf ops = (code, buf ++ writtenBytes ops) ↔
      (buf.length : Int) + (beforeFlush flusher ops).flatten.length ≤ limit ∨
      (code = statusOK ∧ buf = [] ∧
        ∃ b, (beforeFlush flusher ops).find? (fun b => !b.isEmpty) = some b ∧
          limit < b.length) := by
  induction ops generalizing buf with
  | nil => simp [delivered, writtenBytes, beforeFlush, hbuf]
  | cons op ops ih =>
    cases op with
    | write b =>
      simp only [delivered, writtenBytes, beforeFlush, flatten_cons, length_append, find?_cons]
      split
      · rename_i hover
        -- the buffer overflows: only an empty buffer and the implicit status lose nothing
        have hne : b.isEmpty = false := by
          rw [isEmpty_eq_false_iff]
          rintro rfl
          rw [length_nil] at hover
          omega
        have hno : ¬ ((buf.length : Int) +
            ((b.length + (beforeFlush flusher ops).flatten.length : ℕ) : Int) ≤ limit) := by
          omega
        rw [or_iff_right hno, Prod.mk.injEq]
        constructor
        · rintro ⟨hcode, hbytes⟩
          have hlen := congrArg List.length hbytes
          rw [length_append, length_append, length_append] at hlen
          obtain rfl : buf = [] := eq_nil_of_length_eq_zero (by omega)
          exact ⟨hcode.symm, rfl, b, by simp [hne], by
            omega⟩
        · rintro ⟨hcode, rfl, -⟩
          exact ⟨hcode.symm, rfl⟩
      · rename_i hfit
        have hbuf' : ((buf ++ b).length : Int) ≤ limit := by
          rw [length_append]
          omega
        rw [← append_assoc, ih hbuf', length_append]
        push_cast
        rw [Int.add_assoc]
        refine or_congr_right (and_congr_right fun _ => ?_)
        by_cases hb : b = []
        · simp [hb]
        · -- a first non-empty chunk that fits is not longer than the limit
          have hlt : ¬ limit < (b.length : Int) := by omega
          simp [hb, isEmpty_eq_false_iff.mpr hb, hlt]
    | flush =>
      cases flusher with
      | true => simp [delivered, writtenBytes, beforeFlush, hbuf]
      | false => simpa [delivered, writtenBytes, beforeFlush] using ih hbuf

/-- **Transparency, exactly.** Under an engine that never interrupts, and for a handler that
is reached and calls `WriteHeader(code)` and then `Write`s and `Flush`es, the client receives
`code` and the bytes written, in order, if and only if the content type is binary, or the
chunks written before the first effective `Flush` fit the limit together, or the status is
`200` and the first non-empty of these chunks exceeds the limit on its own. -/
theorem transparent_iff {engine : Engine} (hs : engine.Silent) {maxBufferSize : Int}
    (hm : 0 < maxBufferSize) {rw : ResponseWriter} (hrw : rw.Untouched) {req fwd : Request}
    {b : Bytes} (hread : readRequestBody maxBufferSize req = some (fwd, b))
    {next : Request → Handler} {headers : List (String × String)} {code : Int}
    {ops : List BodyCall} (hnext : next fwd = bodyHandler headers code ops) :
    (∃ w, wrapWithWAF engine maxBufferSize next rw req = some (some fwd, w) ∧
        w.rw.received = (code, writtenBytes ops)) ↔
      isBinaryContent ((withHeaders rw.header headers).get "Content-Type") = true ∨
      ((beforeFlush rw.flusher ops).flatten.length : Int) ≤ maxBufferSize ∨
      (code = statusOK ∧
        ∃ b, (beforeFlush rw.flusher ops).find? (fun b => !b.isEmpty) = some b ∧
          maxBufferSize < b.length) := by
  obtain ⟨w, hwrap, hrec⟩ := wrapWithWAF_delivers hs hm hrw hread hnext
  have hval : (∃ w, wrapWithWAF engine maxBufferSize next rw req = some (some fwd, w) ∧
      w.rw.received = (code, writtenBytes ops)) ↔ w.rw.received = (code, writtenBytes ops) := by
    rw [hwrap]
    simp
  rw [hval, hrec]
  split
  · rename_i hbin
    exact iff_of_true rfl (.inl hbin)
  · rename_i hbin
    have hiff := @delivered_eq_iff code maxBufferSize [] rw.flusher
      (by rw [length_nil]; omega) ops
    rw [or_iff_right hbin]
    simpa using hiff

/-- A handler that answers `201` with the bytes `abc` and `de`, as HTML. -/
def createdHandler : Handler :=
  bodyHandler [("Content-Type", "text/html")] 201 [.write [97, 98, 99], .write [100, 101]]

/-- Within a limit of eight bytes its response arrives as written. -/
theorem transparent_within_limit :
    ∃ w, wrapWithWAF (fun _ => none) 8 (fun _ => createdHandler) {} { method := "GET" } =
        some (some { method := "GET" }, w) ∧
      w.rw.received = (201, [97, 98, 99, 100, 101]) := by
  have hiff := @transparent_iff (fun _ => none) (fun _ => rfl) 8 (by decide) {} ⟨rfl, rfl, rfl⟩
    { method := "GET" } { method := "GET" } [] rfl (fun _ => createdHandler) _ _ _ rfl
  exact hiff.mpr (.inr (.inl (by decide)))

/-- With a limit of four bytes it arrives as `200` with its second chunk only. -/
theorem overflow_loses_buffer :
    ∃ w, wrapWithWAF (fun _ => none) 4 (fun _ => createdHandler) {} { method := "GET" } =
        some (some { method := "GET" }, w) ∧
      w.rw.received = (200, [100, 101]) ∧
      w.rw.received ≠ (201, writtenBytes [.write [97, 98, 99], .write [100, 101]]) := by
  obtain ⟨w, hwrap, hrec⟩ := @wrapWithWAF_delivers _ (fun _ => none) (fun _ => rfl) 4 (by decide)
    {} ⟨rfl, rfl, rfl⟩ { method := "GET" } { method := "GET" } [] rfl (fun _ => createdHandler) _ _
    rfl
  have hval : w.rw.received = (200, [100, 101]) := hrec.trans (by decide)
  exact ⟨w, hwrap, hval, by rw [hval]; decide⟩

end Kiya
