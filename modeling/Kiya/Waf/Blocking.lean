import Kiya.Waf.Log

/-!
# A blocked response never leaks

A handler whose first call on the writer is `WriteHeader`, and that then `Write`s and
`Flush`es, under an arbitrary engine. The response can be blocked in two places: by
`WriteHeader`, in the response-header phase, and after the handler has returned, in the
response-body phase, unless the writer is streaming by then.

After `WriteHeader` the writer is therefore in one of two states. Either it is
`HeaderBlocked`: the notice is all there is in the buffer, or, after a `Flush`, all that has
been sent, and `Write` drops its chunks. Or it is `Unblocked`: as long as it is not streaming
nothing has been sent, so the body phase can still replace everything. Both are kept by every
later call.
-/

namespace Kiya

open GuardedM WafResponseWriter Option

/-! ### The two states after `WriteHeader` -/

/-- The response was blocked by `it` in the header phase. -/
structure HeaderBlocked (engine : Engine) (it : Interruption) (w : WafResponseWriter) :
    Prop where
  wrote : w.wrote = true
  blocked : w.blocked = true
  exceeded : w.bufferLimitExceeded = false
  reported : ReportedIn engine w it
  /-- The notice is in the buffer, or it is all that was sent. -/
  notice : (w.streaming = false ∧ w.rw.Untouched ∧ w.body = blockNotice ∧
      w.status = it.status) ∨
    (w.streaming = true ∧ w.rw.Open it.status ∧ w.rw.writes = [blockNotice])

/-- The response is not blocked, and nothing has been sent unless it is streaming. -/
structure Unblocked (w : WafResponseWriter) : Prop where
  wrote : w.wrote = true
  blocked : w.blocked = false
  transaction : w.tx.isSome = true
  held : w.streaming = false → w.rw.Untouched ∧ w.bufferLimitExceeded = false

/-- The two states together. -/
def AfterHeader (engine : Engine) (w : WafResponseWriter) : Prop :=
  (∃ it, HeaderBlocked engine it w) ∨ Unblocked w

variable {engine : Engine} {w : WafResponseWriter}

theorem AfterHeader.wrote (h : AfterHeader engine w) : w.wrote = true := by
  rcases h with ⟨it, h⟩ | h
  · exact h.wrote
  · exact h.wrote

variable {it : Interruption}

/-- `Write` on a blocked writer does nothing. -/
theorem HeaderBlocked.afterWrite (h : HeaderBlocked engine it w) (b : Bytes) :
    HeaderBlocked engine it (w.afterWrite b) := by
  have hw : w.afterWrite b = w := by simp [WafResponseWriter.afterWrite, h.blocked]
  rwa [hw]

/-- `Flush` on a blocked writer sends the notice, once. -/
theorem HeaderBlocked.afterFlush (h : HeaderBlocked engine it w) :
    HeaderBlocked engine it w.afterFlush := by
  cases hf : w.rw.flusher with
  | false =>
    have hw : w.afterFlush = w := by simp [WafResponseWriter.afterFlush, hf]
    rwa [hw]
  | true =>
    rcases h.notice with ⟨hst, hrw, hbody, hstatus⟩ | ⟨hst, hopen, hwrites⟩
    · have hlen : blockNotice.length > 0 := by decide
      have ho := hrw.open_writeHeader it.status
      have hw : w.afterFlush =
          { w with
            rw := ((w.rw.writeHeader it.status).write blockNotice).2.flush
            body := []
            streaming := true } := by
        simp [WafResponseWriter.afterFlush, hf, hst, hbody, hstatus, hlen]
      rw [hw]
      refine ⟨h.wrote, h.blocked, h.exceeded, h.reported, .inr ⟨rfl, (ho.write _).flush, ?_⟩⟩
      simp [ResponseWriter.writes_write ho.hijacked, hrw.writes]
    · have hw : w.afterFlush = { w with rw := w.rw.flush } := by
        simp [WafResponseWriter.afterFlush, hf, hst]
      rw [hw]
      refine ⟨h.wrote, h.blocked, h.exceeded, h.reported, .inr ⟨hst, hopen.flush, ?_⟩⟩
      simpa using hwrites

/-- `Write` keeps an unblocked writer unblocked. -/
theorem Unblocked.afterWrite (h : Unblocked w) (b : Bytes) : Unblocked (w.afterWrite b) := by
  unfold WafResponseWriter.afterWrite
  split
  · exact h
  · split
    · rename_i hst
      refine ⟨h.wrote, h.blocked, h.transaction, fun hno => ?_⟩
      exact absurd (hst.symm.trans hno) (by simp)
    · rename_i hst
      split
      · exact ⟨h.wrote, h.blocked, h.transaction, fun hno => absurd hno (by simp [send])⟩
      · exact { h with }

/-- `Flush` keeps an unblocked writer unblocked. -/
theorem Unblocked.afterFlush (h : Unblocked w) : Unblocked w.afterFlush := by
  unfold WafResponseWriter.afterFlush
  split
  · exact h
  · split
    · rename_i hst
      refine ⟨h.wrote, h.blocked, h.transaction, fun hno => ?_⟩
      exact absurd (hst.symm.trans hno) (by simp)
    · exact ⟨h.wrote, h.blocked, h.transaction, fun hno => absurd hno (by simp)⟩

/-- **Every later call keeps the state**, and returns. -/
theorem AfterHeader.run_body (h : AfterHeader engine w) (ops : List BodyCall) :
    ∃ w', (runCalls engine (ops.map BodyCall.toCall)).run ⟨false, w⟩ = some ((), ⟨false, w'⟩) ∧
      AfterHeader engine w' := by
  induction ops generalizing w with
  | nil => exact ⟨w, rfl, h⟩
  | cons op ops ih =>
    cases op with
    | write b =>
      have hnext : AfterHeader engine (w.afterWrite b) := by
        rcases h with ⟨it, h⟩ | h
        · exact .inl ⟨it, h.afterWrite b⟩
        · exact .inr (h.afterWrite b)
      obtain ⟨r, hr⟩ := @run_write engine w h.wrote b
      obtain ⟨w', hrun, hw'⟩ := ih hnext
      refine ⟨w', Eq.trans ?_ hrun, hw'⟩
      exact run_seq_cons_of_returnsFree ⟨(), by simp [BodyCall.toCall, WriterCall.run, hr]⟩
    | flush =>
      have hnext : AfterHeader engine w.afterFlush := by
        rcases h with ⟨it, h⟩ | h
        · exact .inl ⟨it, h.afterFlush⟩
        · exact .inr h.afterFlush
      obtain ⟨w', hrun, hw'⟩ := ih hnext
      exact ⟨w', (run_seq_cons_of_returnsFree ⟨(), run_flush h.wrote⟩).trans hrun, hw'⟩

/-! ### Before and after the body -/

/-- `WriteHeader` on a fresh writer leads to one of the two states. -/
theorem afterHeader_writeHeaderLocked (engine : Engine) (code : Int) (hw : w.wrote = false)
    (hb : w.blocked = false) (hst : w.streaming = false)
    (hex : w.bufferLimitExceeded = false) (htx : w.tx.isSome = true) (hrw : w.rw.Untouched) :
    AfterHeader engine (w.writeHeaderLocked engine code) := by
  rcases processHeaders_cases engine code w with ⟨it, calls, hit, hp⟩ | ⟨calls, hp⟩
  · left
    have hval : w.writeHeaderLocked engine code =
        { w.tell calls with
          body := blockNotice
          rw := { w.rw with header := w.rw.header.set "Content-Type" "text/plain" }
          status := it.status
          wrote := true
          blocked := true } := by
      simp [writeHeaderLocked, hw, hp, WafResponseWriter.tell]
    rw [hval]
    exact ⟨it, rfl, rfl, hex, hit, .inl ⟨hst, hrw.withHeader _, rfl, rfl⟩⟩
  · right
    have htx' : (w.tell calls).tx.isSome = true := by simpa [WafResponseWriter.tell] using htx
    simp only [writeHeaderLocked, hw, hp, Bool.false_eq_true, if_false, Bool.not_false,
      Bool.and_true]
    split
    · exact ⟨rfl, hb, htx', fun hno => absurd hno (by simp)⟩
    · exact ⟨rfl, hb, htx', fun _ => ⟨hrw, hex⟩⟩

/-- What the client has of a blocked response: one of the two notices and nothing else,
under the status of an interruption that the engine reported. -/
def Withheld (engine : Engine) (w : WafResponseWriter) : Prop :=
  (w.rw.writes = [blockNotice] ∨ w.rw.writes = [blockBodyNotice]) ∧
    ∃ it, ReportedIn engine w it ∧ w.rw.clientStatus = it.status

/-- Flushing a buffered notice. -/
theorem withheld_afterFlushToClient (hit : ReportedIn engine w it) (hst : w.streaming = false)
    (hrw : w.rw.Untouched) (hstatus : w.status = it.status)
    (hbody : w.body = blockNotice ∨ w.body = blockBodyNotice) :
    Withheld engine w.afterFlushToClient := by
  have ho := hrw.open_writeHeader w.status
  have hval : w.afterFlushToClient =
      { w with rw := ((w.rw.writeHeader w.status).write w.body).2 } := by
    simp [afterFlushToClient, hst]
  rw [hval]
  refine ⟨?_, it, hit, ?_⟩
  · simp only [ResponseWriter.writes_write ho.hijacked, ResponseWriter.writes_writeHeader,
      hrw.writes, List.nil_append]
    rcases hbody with hbody | hbody
    · exact .inl (by rw [hbody])
    · exact .inr (by rw [hbody])
  · rw [(ho.write w.body).clientStatus, hstatus]

/-- The response-body phase returns, and withholds the response if it is blocked. -/
theorem AfterHeader.inspectResponse_withheld (h : AfterHeader engine w) :
    ∃ w', (inspectResponse engine).run ⟨false, w⟩ = some ((), ⟨false, w'⟩) ∧
      (w'.blocked = true → Withheld engine w') := by
  rcases h with ⟨it, h⟩ | h
  · obtain ⟨calls, hcase⟩ := run_inspectResponse engine h.wrote h.exceeded
    rcases hcase with ⟨hst, it', hit', hrun⟩ | hrun
    · -- blocked by its headers, and then again by its body
      refine ⟨_, hrun, fun _ => ?_⟩
      rcases h.notice with ⟨-, hrw, -, -⟩ | ⟨hst', -, -⟩
      · exact withheld_afterFlushToClient hit' hst (hrw.withHeader _) rfl (.inr rfl)
      · exact absurd (hst.symm.trans hst') (by simp)
    · refine ⟨_, hrun, fun _ => ?_⟩
      have hrep := h.reported.continues (continues_tell calls w)
      rcases h.notice with ⟨hst, hrw, hbody, hstatus⟩ | ⟨hst, hopen, hwrites⟩
      · exact withheld_afterFlushToClient hrep hst hrw hstatus (.inl hbody)
      · have hval : (w.tell calls).afterFlushToClient = w.tell calls := by
          simp [afterFlushToClient, WafResponseWriter.tell, hst]
        rw [hval]
        exact ⟨.inl hwrites, it, hrep, hopen.clientStatus⟩
  · cases hex : w.bufferLimitExceeded with
    | true =>
      refine ⟨w, ?_, fun hno => absurd (h.blocked.symm.trans hno) (by simp)⟩
      unfold inspectResponse
      simp [hex]
    | false =>
      obtain ⟨calls, hcase⟩ := run_inspectResponse engine h.wrote hex
      rcases hcase with ⟨hst, it, hit, hrun⟩ | hrun
      · refine ⟨_, hrun, fun _ => ?_⟩
        exact withheld_afterFlushToClient hit hst ((h.held hst).1.withHeader _) rfl (.inr rfl)
      · refine ⟨_, hrun, fun hno => ?_⟩
        have hb : (w.tell calls).afterFlushToClient.blocked = false := by
          unfold afterFlushToClient
          split <;> exact h.blocked
        exact absurd (hb.symm.trans hno) (by simp)

/-! ### The closure -/

/-- The request phases return, and never block the writer. -/
theorem run_inspectRequest_returns (engine : Engine) (maxBufferSize : Int) (req : Request)
    (s : Guarded WafResponseWriter) :
    ∃ fwd w, (inspectRequest engine maxBufferSize req).run s = some (fwd, ⟨s.held, w⟩) ∧
      w.blocked = s.val.blocked := by
  unfold inspectRequest
  simp only [StateT.run_bind, run_update, run_askInterruption, bind_eq_bind, bind_some]
  split
  · exact ⟨none, _, rfl, rfl⟩
  · split
    · exact ⟨none, _, rfl, rfl⟩
    · simp only [StateT.run_bind, run_update, run_askInterruption, bind_eq_bind, bind_some]
      split
      · exact ⟨none, _, rfl, rfl⟩
      · exact ⟨_, _, rfl, rfl⟩

/-- The handler is served to its end, and its response withheld if it is blocked. -/
theorem run_serveHandler_withheld (engine : Engine) (hw : w.wrote = false) (hb : w.blocked = false)
    (hst : w.streaming = false)
    (hex : w.bufferLimitExceeded = false) (htx : w.tx.isSome = true) (hrw : w.rw.Untouched)
    (headers : List (String × String)) (code : Int) (ops : List BodyCall) :
    ∃ w', (serveHandler engine (bodyHandler headers code ops)).run ⟨false, w⟩ =
        some ((), ⟨false, w'⟩) ∧ (w'.blocked = true → Withheld engine w') := by
  have hstart : AfterHeader engine ((atWriteHeader w headers).writeHeaderLocked engine code) :=
    afterHeader_writeHeaderLocked engine code hw hb hst hex htx (hrw.withHeader _)
  obtain ⟨w₁, h₁, hw₁⟩ := hstart.run_body ops
  obtain ⟨w₂, h₂, hw₂⟩ := hw₁.inspectResponse_withheld
  refine ⟨_, run_serveHandler_bodyHandler h₁ h₂, fun hblocked => ?_⟩
  obtain ⟨hwrites, it, hit, hstatus⟩ := hw₂ hblocked
  exact ⟨hwrites, it, hit.continues (continues_tell _ w₂), hstatus⟩

/-- An engine that interrupts every response with `403`, after its headers. -/
def headerBlocker : Engine := fun log =>
  match log.getLast? with
  | some (.processResponseHeaders _ _) => some { ruleID := 950100, status := 403 }
  | _ => none

end Kiya
