import Kiya.Waf.Log

/-!
# Does the session cookie reach the client?

`serveInternal` saves the session in a deferred function, so the `Set-Cookie` header is added
to the header map after the handler has returned. The server sends the header map as it is at
the first `WriteHeader` on the connection, and a later change is lost. When that happens
depends on the path of the response: with no WAF, or on an exempt path, the handler writes to
the connection at once; behind the WAF writer a response is held back until the handler has
returned, unless its content type is binary, it is longer than the buffer, or it is flushed.

* `createRootHandler` serves one request on any of the paths; `serveInternal` and
  `serveDirect` are the part of `serveInternal` from the handler on, on the WAF writer and on
  the connection.
* `heldBack` decides, from the handler's calls, whether the WAF writer holds the response.

The cookie can be anything that `Save` may write. A writer that has not been touched when the
session is saved carries the cookie to the end (`Carries`), and one whose headers are gone
misses it to the end (`Misses`); both are kept by every later step, by the rules of
`Kiya.Waf.Log`.
-/

namespace Kiya

open GuardedM WafResponseWriter WriterCall ResponseWriter Header List Option

/-! ### Serving a request -/

/-- The settings of the router that decide the path of a response. -/
structure RootConfig where
  waf : Option Engine := none
  wafExemptPaths : List String := []
  maxWAFBufferSize : Int := 0

/-- One request as `serveInternal` serves it: the changes of the header map before the handler
(request id, CORS, security and cache headers, browser cookie), the calls on the writer made by
the handler, its middleware and the error handler, and whether the handler panics after them. -/
structure Exchange where
  setup : Header → Header := id
  calls : List WriterCall
  panics : Bool := false

/-- `Session.Save` of a changed session: the cookie goes into the header map. -/
def saveSession (cookie : String) (rw : ResponseWriter) : ResponseWriter :=
  { rw with header := rw.header.add "Set-Cookie" cookie }

/-- What `http.Error` does to the header map. -/
def errorHeader (rw : ResponseWriter) : ResponseWriter :=
  { rw with
    header := ((rw.header.del "Content-Length").set "Content-Type"
      "text/plain; charset=utf-8").set "X-Content-Type-Options" "nosniff" }

/-- The body of the answer to a panic. -/
def errorText : Bytes := goBytes "Internal Server Error\n"

/-- A call of the handler on the connection, through the status recorder. The recorder has no
`Written`, and `StatusCode` does not concern the connection. -/
def WriterCall.runDirect (rw : ResponseWriter) : WriterCall → ResponseWriter
  | setHeader k v => { rw with header := rw.header.set k v }
  | writeHeader code => rw.writeHeader code
  | write b => (rw.write b).2
  | flush => if rw.flusher then rw.flush else rw
  | hijack => if rw.hijacker then rw.hijack.2 else rw
  | written | statusCode => rw

/-- `serveInternal` on the connection. The deferred functions run in reverse order, so the
session is saved before a panic is answered. -/
def serveDirect (ex : Exchange) (cookie : String) (rw : ResponseWriter) : ResponseWriter :=
  let rw := { rw with header := ex.setup rw.header }
  let rw := ex.calls.foldl runDirect rw
  let rw := saveSession cookie rw
  if ex.panics then (((errorHeader rw).writeHeader statusInternalServerError).write errorText).2
  else rw

/-- Change the embedded writer. -/
def onConnection (f : ResponseWriter → ResponseWriter) : WafM Unit :=
  update fun w => { w with rw := f w.rw }

/-- The end of `serveInternal`, when the handler has returned or panicked. -/
def finishInternal (engine : Engine) (panics : Bool) (cookie : String) : WafM Unit :=
  if panics then do
    onConnection (saveSession cookie)
    onConnection errorHeader
    writeHeader engine statusInternalServerError
    let _ ← write engine errorText
  else do
    let _ ← statusCode
    onConnection (saveSession cookie)

/-- `serveInternal` on the WAF writer. -/
def serveInternal (engine : Engine) (ex : Exchange) (cookie : String) : WafM Unit := do
  onConnection fun rw => { rw with header := ex.setup rw.header }
  runCalls engine ex.calls
  finishInternal engine ex.panics cookie

/-- The closure of `WrapWithWAF` around a handler that recovers from its own panics. -/
def serveNext (engine : Engine) (maxBufferSize : Int) (next : Request → WafM Unit)
    (req : Request) : WafM (Option Request) := do
  match ← inspectRequest engine maxBufferSize req with
  | none =>
    update (tell [.close])
    return none
  | some req =>
    next req
    inspectResponse engine
    update (tell [.close])
    return some req

/-- The engine that a request passes, if any. -/
def RootConfig.engineFor (cfg : RootConfig) (path : String) : Option Engine :=
  if cfg.wafExemptPaths.any (hasPrefix path) then none else cfg.waf

/-- `createRootHandler`, serving one request. The result is whether the handler was reached and
the final state of the connection; `none` means that serving never ends. -/
def createRootHandler (cfg : RootConfig) (path : String) (ex : Exchange) (cookie : String)
    (rw : ResponseWriter) (req : Request) : Option (Bool × ResponseWriter) :=
  match cfg.engineFor path with
  | none => some (true, serveDirect ex cookie rw)
  | some engine =>
    let limit := bufferLimit cfg.maxWAFBufferSize
    ((serveNext engine limit (fun _ => serveInternal engine ex cookie) req).run
      ⟨false, newWriter limit rw⟩).map fun r => (r.1.isSome, r.2.val.rw)

namespace ResponseWriter

/-- As the response stands, the client receives the cookie. -/
def Carries (rw : ResponseWriter) (cookie : String) : Prop :=
  rw.hijacked = false ∧ cookie ∈ rw.clientHeader.values "Set-Cookie"

end ResponseWriter

/-- If the request reaches the handler, then the client receives the cookie. -/
def CookieReceived (cfg : RootConfig) (path : String) (ex : Exchange) (cookie : String)
    (rw : ResponseWriter) (req : Request) : Prop :=
  ∃ ran rw', createRootHandler cfg path ex cookie rw req = some (ran, rw') ∧
    (ran = true → rw'.Carries cookie)

/-! ### Responses that are held back -/

/-- The call sends nothing and takes nothing over, on a connection with these abilities. -/
def WriterCall.quiet (flusher hijacker : Bool) : WriterCall → Bool
  | setHeader _ _ | written | statusCode => true
  | flush => !flusher
  | hijack => !hijacker
  | writeHeader _ | write _ => false

/-- The number of bytes the call writes. -/
def WriterCall.size : WriterCall → Nat
  | write b => b.length
  | _ => 0

/-- The call is a `Flush`. -/
def WriterCall.isFlush : WriterCall → Bool
  | flush => true
  | _ => false

/-- The number of bytes that the calls write. -/
def bodySize (calls : List WriterCall) : Nat := (calls.map size).sum

/-- The calls on the transaction with which the response headers are judged. -/
def responseCalls (h : Header) (code : Int) : List TxCall :=
  (h.flatMap fun e => e.2.map fun v => .addResponseHeader (toLower e.1) v) ++
    [.processResponseHeaders code "HTTP/1.1"]

/-- The WAF writer holds back what the handler sends: before its first `WriteHeader` the
handler sends nothing; at that call the engine interrupts the response, or the content type is
not binary and the bytes written after it fit into the buffer; and after it the handler does
not flush. -/
def heldBack (engine : Engine) (limit : Int) (flusher hijacker : Bool) (log : List TxCall) :
    Header → List WriterCall → Bool
  | _, [] => true
  | h, .writeHeader code :: calls =>
    ((engine (log ++ responseCalls h code)).isSome ||
      (!isBinaryContent (h.get "Content-Type") && decide ((bodySize calls : Int) ≤ limit))) &&
    !(flusher && calls.any isFlush)
  | h, .setHeader k v :: calls => heldBack engine limit flusher hijacker log (h.set k v) calls
  | h, c :: calls => c.quiet flusher hijacker && heldBack engine limit flusher hijacker log h calls

/-- The calls on the transaction before a request that the WAF forwards, or `none` for one that
it answers itself. -/
def admitted (engine : Engine) (maxBufferSize : Int) (req : Request) : Option (List TxCall) :=
  if (engine (requestCalls req)).isSome then none
  else match readRequestBody maxBufferSize req with
    | none => none
    | some (_, b) =>
      if (engine (requestCalls req ++
          [.interruption, .writeRequestBody b, .processRequestBody])).isSome then none
      else some (forwardedCalls req b)

/-- Nothing is sent before the session is saved: the WAF holds the response back, or the
handler sends nothing at all. -/
def SavedInTime (cfg : RootConfig) (path : String) (ex : Exchange) (flusher hijacker : Bool)
    (req : Request) : Prop :=
  match cfg.engineFor path with
  | none => ex.calls.all (quiet flusher hijacker) = true
  | some engine =>
    ∀ log, admitted engine (bufferLimit cfg.maxWAFBufferSize) req = some log →
      heldBack engine (bufferLimit cfg.maxWAFBufferSize) flusher hijacker log (ex.setup [])
        ex.calls = true

/-! ### What later steps keep -/

namespace ResponseWriter

/-- The cookie will not reach the client any more: the headers were sent without it, or the
connection was taken over. -/
def Misses (rw : ResponseWriter) (cookie : String) : Prop :=
  rw.hijacked = true ∨ ∃ s, rw.sent = some s ∧ cookie ∉ s.2.values "Set-Cookie"

variable {rw : ResponseWriter} {cookie : String}

theorem Misses.not_carries (h : rw.Misses cookie) : ¬ rw.Carries cookie := by
  rintro ⟨hhijacked, hmem⟩
  rcases h with h | ⟨s, hs, hnot⟩
  · exact absurd (h.symm.trans hhijacked) (by simp)
  · rw [clientHeader, hs] at hmem
    exact hnot hmem

theorem Misses.withHeader (h : rw.Misses cookie) (hd : Header) :
    Misses { rw with header := hd } cookie := h

theorem Misses.writeHeader (h : rw.Misses cookie) (code : Int) :
    (rw.writeHeader code).Misses cookie := by
  rcases h with h | ⟨s, hs, hnot⟩
  · exact .inl (by rw [hijacked_writeHeader, h])
  · refine .inr ⟨s, ?_, hnot⟩
    simp [ResponseWriter.writeHeader, hs]

theorem Misses.write (h : rw.Misses cookie) (b : Bytes) : (rw.write b).2.Misses cookie := by
  unfold ResponseWriter.write
  split
  · exact h
  · exact h.writeHeader statusOK

theorem Misses.flush (h : rw.Misses cookie) : rw.flush.Misses cookie := by
  unfold ResponseWriter.flush
  split
  · exact h
  · exact h.writeHeader statusOK

theorem Misses.hijack (h : rw.Misses cookie) : rw.hijack.2.Misses cookie := by
  unfold ResponseWriter.hijack
  split
  · exact h
  · exact .inl rfl

/-- A change of other headers keeps the cookie. -/
theorem Carries.withHeader (h : rw.Carries cookie) {hd : Header}
    (hhd : hd.values "Set-Cookie" = rw.header.values "Set-Cookie") :
    Carries { rw with header := hd } cookie := by
  refine ⟨h.1, ?_⟩
  have hmem := h.2
  unfold clientHeader at hmem ⊢
  cases hs : rw.sent with
  | none =>
    rw [hs] at hmem
    exact hhd ▸ hmem
  | some s =>
    rwa [hs] at hmem

theorem Carries.writeHeader (h : rw.Carries cookie) (code : Int) :
    (rw.writeHeader code).Carries cookie := by
  refine ⟨by rw [hijacked_writeHeader, h.1], ?_⟩
  have hmem := h.2
  unfold clientHeader at hmem ⊢
  cases hs : rw.sent with
  | none | some => simpa [ResponseWriter.writeHeader, h.1, hs] using hmem

theorem Carries.write (h : rw.Carries cookie) (b : Bytes) : (rw.write b).2.Carries cookie := by
  unfold ResponseWriter.write
  rw [if_neg (by simp [h.1])]
  exact h.writeHeader statusOK

/-- A session saved before anything was sent reaches the client. -/
theorem Untouched.carries_saveSession (h : rw.Untouched) (cookie : String) :
    (saveSession cookie rw).Carries cookie := by
  refine ⟨h.hijacked, ?_⟩
  have hsent : (saveSession cookie rw).sent = none := h.sent
  rw [clientHeader, hsent]
  exact (values_add_self rw.header "Set-Cookie" cookie).symm ▸ mem_append_right _ mem_cons_self

section Sent

variable (h : rw.Untouched) (hno : cookie ∉ rw.header.values "Set-Cookie")
include h hno

/-- The headers of an untouched writer without the cookie are sent. -/
theorem Untouched.misses_writeHeader (code : Int) : (rw.writeHeader code).Misses cookie :=
  .inr ⟨(code, rw.header), by simp [writeHeader, h.hijacked, h.sent], hno⟩

theorem Untouched.misses_write (b : Bytes) : (rw.write b).2.Misses cookie := by
  unfold write
  rw [if_neg (by simp [h.hijacked])]
  exact h.misses_writeHeader hno statusOK

theorem Untouched.misses_flush : rw.flush.Misses cookie := by
  unfold flush
  rw [if_neg (by simp [h.hijacked])]
  exact h.misses_writeHeader hno statusOK

end Sent

theorem Untouched.misses_hijack (h : rw.Untouched) : rw.hijack.2.Misses cookie := by
  unfold hijack
  rw [if_neg (by simp [h.hijacked])]
  exact .inl rfl

end ResponseWriter

theorem values_errorHeader (rw : ResponseWriter) :
    (errorHeader rw).header.values "Set-Cookie" = rw.header.values "Set-Cookie" := by
  rw [errorHeader, values_set_of_ne _ (by decide), values_set_of_ne _ (by decide),
    values_del_of_ne _ (by decide)]

/-! ### No WAF -/

/-- The cookie is not among the values under `Set-Cookie`, and the handler does not set it. -/
def Unset (cookie : String) (h : Header) (calls : List WriterCall) : Prop :=
  cookie ∉ h.values "Set-Cookie" ∧ .setHeader "Set-Cookie" cookie ∉ calls

/-- There is such a cookie for every handler. -/
theorem exists_unset (h : Header) (calls : List WriterCall) : ∃ cookie, Unset cookie h calls := by
  classical
  obtain ⟨cookie, hnot⟩ := Infinite.exists_notMem_finset
    (h.values "Set-Cookie" ++ calls.filterMap fun c => match c with
      | .setHeader _ v => some v
      | _ => none).toFinset
  simp only [List.mem_toFinset, mem_append, not_or, mem_filterMap, not_exists, not_and] at hnot
  exact ⟨cookie, hnot.1, fun hmem => hnot.2 _ hmem rfl⟩

variable {cookie : String} {calls : List WriterCall} {rw : ResponseWriter} {w : WafResponseWriter}
  {c : WriterCall} {h : Header} {s : Guarded WafResponseWriter} {cfg : RootConfig} {path : String}
  {engine : Engine} {req : Request} {log : List TxCall}

theorem Unset.tail (hu : Unset cookie h (c :: calls)) : Unset cookie h calls :=
  ⟨hu.1, fun hmem => hu.2 (mem_cons_of_mem _ hmem)⟩

theorem Unset.setHeader {cookie k v : String} (hu : Unset cookie h (.setHeader k v :: calls)) :
    Unset cookie (h.set k v) calls := by
  refine ⟨?_, hu.tail.2⟩
  by_cases hk : k = "Set-Cookie"
  · subst hk
    rw [values_set_self, mem_singleton]
    rintro rfl
    exact hu.2 mem_cons_self
  · rw [values_set_of_ne _ (Ne.symm hk)]
    exact hu.1

/-- A quiet handler leaves the connection untouched. -/
theorem untouched_foldl_runDirect (hq : calls.all (quiet rw.flusher rw.hijacker) = true)
    (h : rw.Untouched) : (calls.foldl runDirect rw).Untouched := by
  induction calls generalizing rw with
  | nil => exact h
  | cons c calls ih =>
    rw [List.all_cons, Bool.and_eq_true] at hq
    cases c with
    | setHeader k v => exact ih hq.2 (h.withHeader _)
    | writeHeader | write => simp [quiet] at hq
    | flush =>
      have hf : rw.flusher = false := by simpa [quiet] using hq.1
      rw [foldl_cons, runDirect, hf]
      exact ih hq.2 h
    | hijack =>
      have hj : rw.hijacker = false := by simpa [quiet] using hq.1
      rw [foldl_cons, runDirect, hj]
      exact ih hq.2 h
    | written | statusCode => exact ih hq.2 h

/-- What is missed stays missed. -/
theorem misses_foldl_runDirect (calls : List WriterCall) (h : rw.Misses cookie) :
    (calls.foldl runDirect rw).Misses cookie := by
  induction calls generalizing rw with
  | nil => exact h
  | cons c calls ih =>
    refine ih ?_
    cases c with
    | setHeader k v => exact h.withHeader _
    | writeHeader code => exact h.writeHeader code
    | write b => exact h.write b
    | flush =>
      rw [runDirect]
      split
      · exact h.flush
      · exact h
    | hijack =>
      rw [runDirect]
      split
      · exact h.hijack
      · exact h
    | written | statusCode => exact h

/-- A handler that is not quiet sends the headers, or takes the connection over, before the
session is saved. -/
theorem misses_of_not_quiet (hq : calls.all (quiet rw.flusher rw.hijacker) = false)
    (h : rw.Untouched) (hu : Unset cookie rw.header calls) :
    (calls.foldl runDirect rw).Misses cookie := by
  induction calls generalizing rw with
  | nil => simp at hq
  | cons c calls ih =>
    cases c with
    | setHeader k v => exact ih hq (h.withHeader _) hu.setHeader
    | writeHeader code => exact misses_foldl_runDirect calls (h.misses_writeHeader hu.1 code)
    | write b => exact misses_foldl_runDirect calls (h.misses_write hu.1 b)
    | flush =>
      rw [foldl_cons, runDirect]
      cases hf : rw.flusher with
      | true => exact misses_foldl_runDirect calls (h.misses_flush hu.1)
      | false => exact ih (by simpa [quiet, hf] using hq) h hu.tail
    | hijack =>
      rw [foldl_cons, runDirect]
      cases hj : rw.hijacker with
      | true => exact misses_foldl_runDirect calls h.misses_hijack
      | false => exact ih (by simpa [quiet, hj] using hq) h hu.tail
    | written | statusCode => exact ih hq h hu.tail

/-- On the connection the cookie is received exactly after a quiet handler. -/
theorem serveDirect_carries_iff (ex : Exchange) (h : rw.Untouched) :
    (∀ cookie, (serveDirect ex cookie rw).Carries cookie) ↔
      ex.calls.all (quiet rw.flusher rw.hijacker) = true := by
  set start : ResponseWriter := { rw with header := ex.setup rw.header }
  have huntouched : start.Untouched := h.withHeader _
  constructor
  · intro hall
    by_contra hq
    rw [Bool.not_eq_true] at hq
    obtain ⟨cookie, hu⟩ := exists_unset (ex.setup rw.header) ex.calls
    have hmiss : (ex.calls.foldl runDirect start).Misses cookie :=
      misses_of_not_quiet hq huntouched hu
    refine Misses.not_carries ?_ (hall cookie)
    unfold serveDirect
    dsimp only
    split
    · exact (((hmiss.withHeader _).withHeader _).writeHeader _).write _
    · exact hmiss.withHeader _
  · intro hq cookie
    have hquiet : (ex.calls.foldl runDirect start).Untouched :=
      untouched_foldl_runDirect hq huntouched
    have hsaved := hquiet.carries_saveSession cookie
    unfold serveDirect
    dsimp only
    split
    · exact ((hsaved.withHeader (values_errorHeader _)).writeHeader _).write _
    · exact hsaved

/-! ### Behind the WAF: after the session is saved -/

/-- The property of the connection is kept. -/
def Keeps (P : ResponseWriter → Prop) (w w' : WafResponseWriter) : Prop := P w.rw → P w'.rw

instance (P : ResponseWriter → Prop) : Std.Refl (Keeps P) := ⟨fun _ h => h⟩

instance (P : ResponseWriter → Prop) : IsTrans WafResponseWriter (Keeps P) :=
  ⟨fun _ _ _ h h' hp => h' (h hp)⟩

theorem handlerSteps_misses (cookie : String) : HandlerSteps (Keeps (·.Misses cookie)) where
  tell _ _ h := h
  fields hrw _ h := hrw ▸ h
  writeHeader code hrw _ h := hrw ▸ h.writeHeader code
  write b hrw _ h := hrw ▸ h.write b
  contentType _ hrw _ h := hrw ▸ h.withHeader _
  flush hrw _ h := hrw ▸ h.flush
  hijack hrw _ h := hrw ▸ h.hijack
  setHeader _ _ hrw _ h := hrw ▸ h.withHeader _

theorem closureSteps_carries (cookie : String) : ClosureSteps (Keeps (·.Carries cookie)) where
  tell _ _ h := h
  fields hrw _ h := hrw ▸ h
  writeHeader code hrw _ h := hrw ▸ h.writeHeader code
  write b hrw _ h := hrw ▸ h.write b
  contentType v hrw _ h :=
    hrw ▸ h.withHeader (values_set_of_ne _ (k := "Content-Type") (by decide) v)

/-- The end of `serveInternal` does not bring a missed cookie back. -/
theorem relates_finishInternal (engine : Engine) (panics : Bool) (cookie c : String) :
    Relates (Keeps (·.Misses c)) (finishInternal engine panics cookie) := by
  have hC := (handlerSteps_misses c).toClosureSteps
  refine .ite ?_ ?_
  · refine .bind (.update fun _ h => h.withHeader _) fun _ => ?_
    refine .bind (.update fun _ h => h.withHeader _) fun _ => ?_
    exact (relates_writeHeader hC engine _).bind fun _ =>
      (relates_write hC engine errorText).bind fun _ => .pure _
  · refine .bind (.withLock (Relates.read.bind fun _ => .pure _)) fun _ => ?_
    exact .update fun _ h => h.withHeader _

/-- If nothing was sent before the session is saved, then the answer carries the cookie. -/
theorem run_finishInternal (engine : Engine) (panics : Bool) (cookie : String)
    (h : w.rw.Untouched) :
    ∃ w', (finishInternal engine panics cookie).run ⟨false, w⟩ = some ((), ⟨false, w'⟩) ∧
      w'.rw.Carries cookie := by
  have hsaved := h.carries_saveSession cookie
  cases panics with
  | false => exact ⟨{ w with rw := saveSession cookie w.rw }, rfl, hsaved⟩
  | true =>
    have hC := closureSteps_carries cookie
    set w₁ : WafResponseWriter := { w with rw := errorHeader (saveSession cookie w.rw) }
    have hw₁ : w₁.rw.Carries cookie := hsaved.withHeader (values_errorHeader _)
    set w₂ := w₁.writeHeaderLocked engine statusInternalServerError with hw₂
    have hc₂ : w₂.rw.Carries cookie := hC.writeHeaderLocked engine _ w₁ hw₁
    obtain ⟨r, hr⟩ := @run_write engine w₂ (wrote_writeHeaderLocked _) errorText
    refine ⟨w₂.afterWrite errorText, ?_, relates_write hC engine errorText _ _ _ hr hc₂⟩
    have hrest : (do
        writeHeader engine statusInternalServerError
        let _ ← write engine errorText : WafM Unit).run ⟨false, w₁⟩ =
          some ((), ⟨false, w₂.afterWrite errorText⟩) := by
      rw [StateT.run_bind, run_writeHeader]
      simp [← hw₂, hr]
    exact hrest

theorem flushToClient_returns (engine : Engine) (w : WafResponseWriter) :
    ∃ w', (do let _ ← flushToClient engine : WafM Unit).run ⟨false, w⟩ =
      some ((), ⟨false, w'⟩) := by
  unfold flushToClient
  cases hs : w.streaming with
  | true => simp [hs]
  | false =>
    cases hw : w.wrote with
    | true => simp [hs, hw]
    | false =>
      by_cases hb : w.body.length > 0
      · simp [hs, hw, hb, run_writeHeader]
      · simp [hs, hw, hb]

/-- The response phase always ends. -/
theorem inspectResponse_returns (engine : Engine) (w : WafResponseWriter) :
    ∃ w', (inspectResponse engine).run ⟨false, w⟩ = some ((), ⟨false, w'⟩) := by
  unfold inspectResponse
  simp only [StateT.run_bind, run_read, bind_eq_bind, bind_some]
  cases w.bufferLimitExceeded with
  | true => exact ⟨w, rfl⟩
  | false =>
    simp only [Bool.false_eq_true, if_false, StateT.run_bind, run_update, run_askInterruption,
      bind_eq_bind, bind_some]
    split
    · split
      · exact flushToClient_returns engine _
      · exact flushToClient_returns engine _
    · exact flushToClient_returns engine _

/-! ### Behind the WAF: the handler's calls after `WriteHeader` -/

/-- The header is written and the response is kept in the buffer. -/
structure HoldsBack (w : WafResponseWriter) : Prop where
  wrote : w.wrote = true
  streaming : w.streaming = false
  untouched : w.rw.Untouched
  limit : 0 < w.maxBufferSize
  fits : w.blocked = true ∨ (w.body.length : Int) ≤ w.maxBufferSize

/-- The writer takes the calls without sending anything. -/
structure Stays (w : WafResponseWriter) (calls : List WriterCall) : Prop where
  fits : w.blocked = true ∨ (w.body.length : Int) + bodySize calls ≤ w.maxBufferSize
  noFlush : (w.rw.flusher && calls.any isFlush) = false

theorem bodySize_cons (c : WriterCall) (calls : List WriterCall) :
    bodySize (c :: calls) = c.size + bodySize calls := by
  simp [bodySize]

/-- A call that leaves the writer as it is and writes nothing. -/
theorem stays_cons_iff (hsize : c.size = 0)
    (hflush : (w.rw.flusher && c.isFlush) = false) (calls : List WriterCall) :
    Stays w (c :: calls) ↔ Stays w calls := by
  have hany : (w.rw.flusher && (c :: calls).any isFlush) =
      (w.rw.flusher && calls.any isFlush) := by
    rw [List.any_cons, Bool.and_or_distrib_left, hflush, Bool.false_or]
  have hbody : bodySize (c :: calls) = bodySize calls := by rw [bodySize_cons, hsize, Nat.zero_add]
  constructor
  · rintro ⟨hfits, hno⟩
    exact ⟨hbody ▸ hfits, hany ▸ hno⟩
  · rintro ⟨hfits, hno⟩
    exact ⟨hbody.symm ▸ hfits, hany.symm ▸ hno⟩

/-- What one call can do to a response that is held back: the writer still holds it, or the
headers are sent. -/
theorem HoldsBack.step (engine : Engine) (h : HoldsBack w) (c : WriterCall) :
    ∃ w₁, ReturnsFree (c.run engine) w w₁ ∧
      ((HoldsBack w₁ ∧ (∀ calls, Stays w (c :: calls) ↔ Stays w₁ calls) ∧
          ∀ cookie calls, Unset cookie w.rw.header (c :: calls) → Unset cookie w₁.rw.header calls) ∨
        ((∀ calls, ¬ Stays w (c :: calls)) ∧
          ∀ cookie, cookie ∉ w.rw.header.values "Set-Cookie" → w₁.rw.Misses cookie)) := by
  have hsame : ∀ c : WriterCall, c.size = 0 → (w.rw.flusher && c.isFlush) = false →
      HoldsBack w ∧ (∀ calls, Stays w (c :: calls) ↔ Stays w calls) ∧
        ∀ cookie calls, Unset cookie w.rw.header (c :: calls) → Unset cookie w.rw.header calls :=
    fun c hsize hflush => ⟨h, stays_cons_iff hsize hflush, fun _ _ hu => hu.tail⟩
  cases c with
  | setHeader k v =>
    refine ⟨_, ⟨(), rfl⟩, .inl ⟨⟨h.wrote, h.streaming, h.untouched.withHeader _, h.limit, h.fits⟩,
      ?_, fun _ _ hu => hu.setHeader⟩⟩
    intro calls
    rw [stays_cons_iff rfl (by simp [isFlush])]
    exact ⟨fun hs => ⟨hs.fits, hs.noFlush⟩, fun hs => ⟨hs.fits, hs.noFlush⟩⟩
  | writeHeader code =>
    have hw : w.writeHeaderLocked engine code = w := by simp [writeHeaderLocked, h.wrote]
    exact ⟨w, ⟨(), by rw [run, run_writeHeader, hw]⟩, .inl (hsame _ rfl (by simp [isFlush]))⟩
  | write b =>
    obtain ⟨r, hr⟩ := @run_write engine w h.wrote b
    refine ⟨w.afterWrite b, ⟨(), by simp [run, hr]⟩, ?_⟩
    cases hb : w.blocked with
    | true =>
      have hw : w.afterWrite b = w := by simp [afterWrite, hb]
      rw [hw]
      refine .inl ⟨h, fun calls => ?_, fun _ _ hu => hu.tail⟩
      exact ⟨fun hs => ⟨.inl hb, hs.noFlush⟩, fun hs => ⟨.inl hb, hs.noFlush⟩⟩
    | false =>
      by_cases hover : (w.body.length : Int) + b.length > w.maxBufferSize
      · -- the limit is exceeded: the bytes go to the connection, and the headers with them
        have hw : w.afterWrite b =
            (send b { w with bufferLimitExceeded := true, streaming := true }).2 := by
          simp [afterWrite, hb, h.streaming, h.limit, hover]
        rw [hw]
        refine .inr ⟨fun calls hs => ?_, fun cookie hno => h.untouched.misses_write hno b⟩
        have hfits := hs.fits.resolve_left (by simp [hb])
        rw [bodySize_cons, size] at hfits
        push_cast at hfits
        omega
      · have hw : w.afterWrite b = { w with body := w.body ++ b } := by
          simp [afterWrite, hb, h.streaming, hover]
        rw [hw]
        have hle : ((w.body ++ b).length : Int) ≤ w.maxBufferSize := by
          rw [length_append]
          push_cast
          omega
        refine .inl ⟨⟨h.wrote, h.streaming, h.untouched, h.limit, .inr hle⟩, fun calls => ?_,
          fun _ _ hu => hu.tail⟩
        have hlen : ((w.body ++ b).length : Int) + bodySize calls =
            w.body.length + bodySize (.write b :: calls) := by
          rw [bodySize_cons, size, length_append]
          push_cast
          ring
        constructor
        · rintro ⟨hfits, hno⟩
          exact ⟨hfits.imp_right fun hle => hlen.trans_le hle, hno⟩
        · rintro ⟨hfits, hno⟩
          exact ⟨hfits.imp_right fun hle => hlen.symm.trans_le hle, hno⟩
  | flush =>
    refine ⟨w.afterFlush, ⟨(), run_flush h.wrote⟩, ?_⟩
    cases hf : w.rw.flusher with
    | false =>
      have hw : w.afterFlush = w := by simp [afterFlush, hf]
      rw [hw]
      exact .inl (hsame _ rfl (by simp [hf]))
    | true =>
      refine .inr ⟨fun calls hs => ?_, fun cookie hno => ?_⟩
      · exact absurd hs.noFlush (by simp [hf, isFlush])
      · have hsent := h.untouched.misses_writeHeader hno w.status
        simp only [afterFlush, hf, h.streaming, Bool.not_true, Bool.false_eq_true, if_false]
        split
        · exact (hsent.write _).flush
        · exact hsent.flush
  | hijack =>
    obtain ⟨r, hr⟩ := run_hijack (w := w)
    have hw : w.afterHijack = w := by simp [afterHijack, h.wrote]
    rw [hw] at hr
    exact ⟨w, ⟨(), by simp [run, hr]⟩, .inl (hsame _ rfl (by simp [isFlush]))⟩
  | written | statusCode => exact ⟨w, ⟨(), rfl⟩, .inl (hsame _ rfl (by simp [isFlush]))⟩

/-- Calls that are taken leave the connection untouched. -/
theorem HoldsBack.run_untouched (engine : Engine) (h : HoldsBack w) (hs : Stays w calls) :
    ∃ w', (runCalls engine calls).run ⟨false, w⟩ = some ((), ⟨false, w'⟩) ∧ w'.rw.Untouched := by
  induction calls generalizing w with
  | nil => exact ⟨w, rfl, h.untouched⟩
  | cons c calls ih =>
    obtain ⟨w₁, hr, ⟨h₁, hstays, -⟩ | ⟨hno, -⟩⟩ := h.step engine c
    · obtain ⟨w', hrun, hw'⟩ := ih h₁ ((hstays calls).mp hs)
      exact ⟨w', (run_seq_cons_of_returnsFree hr).trans hrun, hw'⟩
    · exact absurd hs (hno calls)

/-- Other calls send the headers before the session is saved. -/
theorem HoldsBack.run_misses (engine : Engine) (h : HoldsBack w)
    (hs : ¬ Stays w calls) (hu : Unset cookie w.rw.header calls)
    (hrun : (runCalls engine calls).run ⟨false, w⟩ = some ((), s)) : s.val.rw.Misses cookie := by
  induction calls generalizing w with
  | nil => exact absurd ⟨by simpa [bodySize] using h.fits, by simp⟩ hs
  | cons c calls ih =>
    obtain ⟨w₁, hr, hcases⟩ := h.step engine c
    have hrest := (run_seq_cons_of_returnsFree hr).symm.trans hrun
    obtain ⟨h₁, hstays, hunset⟩ | ⟨-, hmiss⟩ := hcases
    · exact ih h₁ (fun hs₁ => hs ((hstays calls).mpr hs₁)) (hunset cookie calls hu) hrest
    · exact relates_runCalls (handlerSteps_misses cookie) engine calls _ _ _ hrest
        (hmiss cookie hu.1)

/-! ### Behind the WAF: the handler's calls before `WriteHeader` -/

/-- The writer as the handler gets it, with the calls `log` on its transaction. -/
structure Blank (log : List TxCall) (w : WafResponseWriter) : Prop where
  wrote : w.wrote = false
  streaming : w.streaming = false
  blocked : w.blocked = false
  body : w.body = []
  tx : w.tx = some log
  untouched : w.rw.Untouched
  limit : 0 < w.maxBufferSize

section Blank

variable (engine : Engine)

/-- What the first `WriteHeader` does. -/
theorem Blank.writeHeaderLocked_eq (h : Blank log w) (code : Int) :
    w.writeHeaderLocked engine code =
      let judged := log ++ responseCalls w.rw.header code
      match engine judged with
      | some it =>
        { w with
          tx := some (judged ++ [.interruption]), body := blockNotice, status := it.status,
          wrote := true, blocked := true,
          rw := { w.rw with header := w.rw.header.set "Content-Type" "text/plain" } }
      | none =>
        if isBinaryContent (w.rw.header.get "Content-Type") then
          { w with
            tx := some (judged ++ [.interruption]), rw := w.rw.writeHeader code, wrote := true,
            streaming := true }
        else { w with tx := some (judged ++ [.interruption]), status := code, wrote := true } := by
  unfold writeHeaderLocked processHeaders interruption
  simp only [h.wrote, h.tx, WafResponseWriter.tell, map_some, responseCalls,
    Bool.false_eq_true, if_false, isNone_some, bind_some, append_assoc]
  cases engine (log ++ (_ ++ [_])) with
  | some it => simp
  | none => cases isBinaryContent (w.rw.header.get "Content-Type") <;> simp

/-- Whether the rest of the handler is held back, on the writer as it is. -/
def HeldBack (log : List TxCall) (w : WafResponseWriter)
    (calls : List WriterCall) : Prop :=
  heldBack engine w.maxBufferSize w.rw.flusher w.rw.hijacker log w.rw.header calls = true

/-- After the first `WriteHeader` the writer holds the response, or the headers are sent. -/
theorem Blank.step_writeHeader (h : Blank log w) (code : Int) :
    let w₁ := w.writeHeaderLocked engine code
    (HoldsBack w₁ ∧ (∀ calls, HeldBack engine log w (.writeHeader code :: calls) ↔ Stays w₁ calls) ∧
        ∀ cookie calls, Unset cookie w.rw.header (.writeHeader code :: calls) →
          Unset cookie w₁.rw.header calls) ∨
      ((∀ calls, ¬ HeldBack engine log w (.writeHeader code :: calls)) ∧
        ∀ cookie, cookie ∉ w.rw.header.values "Set-Cookie" → w₁.rw.Misses cookie) := by
  dsimp only
  rw [h.writeHeaderLocked_eq engine]
  dsimp only
  cases hit : engine (log ++ responseCalls w.rw.header code) with
  | some it =>
    refine .inl ⟨⟨rfl, h.streaming, h.untouched.withHeader _, h.limit, .inl rfl⟩, fun calls => ?_,
      fun cookie calls hu => ⟨?_, hu.tail.2⟩⟩
    · have hheld : HeldBack engine log w (.writeHeader code :: calls) ↔
          (w.rw.flusher && calls.any isFlush) = false := by
        simp only [HeldBack, heldBack, hit, isSome_some, Bool.true_or, Bool.true_and,
          Bool.not_eq_true']
      rw [hheld]
      exact ⟨fun hno => ⟨.inl rfl, hno⟩, fun hs => hs.noFlush⟩
    · rw [values_set_of_ne _ (by decide)]
      exact hu.1
  | none =>
    cases hbin : isBinaryContent (w.rw.header.get "Content-Type") with
    | true =>
      refine .inr ⟨fun calls => ?_, fun cookie hno => ?_⟩
      · simp [HeldBack, heldBack, hit, hbin]
      · exact h.untouched.misses_writeHeader hno code
    | false =>
      refine .inl ⟨⟨rfl, h.streaming, h.untouched, h.limit, .inr ?_⟩, fun calls => ?_,
        fun cookie calls hu => hu.tail⟩
      · simpa [h.body] using h.limit.le
      · have hheld : HeldBack engine log w (.writeHeader code :: calls) ↔
            (bodySize calls : Int) ≤ w.maxBufferSize ∧
              (w.rw.flusher && calls.any isFlush) = false := by
          simp only [HeldBack, heldBack, hit, hbin, isSome_none, Bool.false_or,
            Bool.not_false, Bool.true_and, Bool.and_eq_true, decide_eq_true_eq, Bool.not_eq_true']
        rw [hheld]
        constructor
        · rintro ⟨hle, hno⟩
          exact ⟨.inr (by simpa [h.body] using hle), hno⟩
        · rintro ⟨hfits, hno⟩
          have hle := hfits.resolve_left (by simp [h.blocked])
          exact ⟨by simpa [h.body] using hle, hno⟩

/-- What any other call can do: the writer is as new, or the call never returns or takes the
connection over. -/
theorem Blank.step (h : Blank log w) (hc : ∀ code, c ≠ .writeHeader code) :
    (∃ w₁, ReturnsFree (c.run engine) w w₁ ∧ Blank log w₁ ∧
        (∀ calls, HeldBack engine log w (c :: calls) ↔ HeldBack engine log w₁ calls) ∧
        ∀ cookie calls, Unset cookie w.rw.header (c :: calls) → Unset cookie w₁.rw.header calls) ∨
      ((∀ calls, ¬ HeldBack engine log w (c :: calls)) ∧
        ((c.run engine).run ⟨false, w⟩ = none ∨
          ∃ w₁, ReturnsFree (c.run engine) w w₁ ∧ ∀ cookie, w₁.rw.Misses cookie)) := by
  cases c with
  | setHeader k v =>
    refine .inl ⟨_, ⟨(), rfl⟩, ?_, fun calls => Iff.rfl, fun _ _ hu => hu.setHeader⟩
    exact ⟨h.wrote, h.streaming, h.blocked, h.body, h.tx, h.untouched.withHeader _, h.limit⟩
  | writeHeader code => exact absurd rfl (hc code)
  | write b =>
    refine .inr ⟨fun calls => by simp [HeldBack, heldBack, quiet], .inl ?_⟩
    simp [run, run_write_unwritten h.wrote b]
  | flush =>
    cases hf : w.rw.flusher with
    | true =>
      refine .inr ⟨fun calls => by simp [HeldBack, heldBack, quiet, hf], .inl ?_⟩
      exact run_flush_unwritten h.wrote hf
    | false =>
      refine .inl ⟨w, ⟨(), run_flush_of_not_flusher hf⟩, h, fun calls => ?_, fun _ _ hu => hu.tail⟩
      simp [HeldBack, heldBack, quiet, hf]
  | hijack =>
    obtain ⟨r, hr⟩ := run_hijack (w := w)
    have hrun : ReturnsFree (hijack.run engine) w w.afterHijack := ⟨(), by simp [run, hr]⟩
    cases hj : w.rw.hijacker with
    | true =>
      refine .inr ⟨fun calls => by simp [HeldBack, heldBack, quiet, hj],
        .inr ⟨_, hrun, fun cookie => ?_⟩⟩
      simp only [afterHijack, h.streaming, h.wrote, hj, Bool.or_self, Bool.false_eq_true,
        if_false, if_true]
      exact h.untouched.misses_hijack
    | false =>
      have hw : w.afterHijack = w := by simp [afterHijack, hj]
      rw [hw] at hrun
      refine .inl ⟨w, hrun, h, fun calls => ?_, fun _ _ hu => hu.tail⟩
      simp [HeldBack, heldBack, quiet, hj]
  | written | statusCode =>
    refine .inl ⟨w, ⟨(), rfl⟩, h, fun calls => ?_, fun _ _ hu => hu.tail⟩
    simp [HeldBack, heldBack, quiet]

/-- A handler that is held back leaves the connection untouched. -/
theorem Blank.run_untouched (h : Blank log w) (hh : HeldBack engine log w calls) :
    ∃ w', (runCalls engine calls).run ⟨false, w⟩ = some ((), ⟨false, w'⟩) ∧ w'.rw.Untouched := by
  induction calls generalizing w with
  | nil => exact ⟨w, rfl, h.untouched⟩
  | cons c calls ih =>
    by_cases hc : ∀ code, c ≠ .writeHeader code
    · obtain ⟨w₁, hr, h₁, hheld, -⟩ | ⟨hno, -⟩ := h.step engine hc
      · obtain ⟨w', hrun, hw'⟩ := ih h₁ ((hheld calls).mp hh)
        exact ⟨w', (run_seq_cons_of_returnsFree hr).trans hrun, hw'⟩
      · exact absurd hh (hno calls)
    · push Not at hc
      obtain ⟨code, rfl⟩ := hc
      obtain ⟨h₁, hstays, -⟩ | ⟨hno, -⟩ := h.step_writeHeader engine code
      · obtain ⟨w', hrun, hw'⟩ := h₁.run_untouched engine ((hstays calls).mp hh)
        exact ⟨w', (run_seq_cons_of_returnsFree ⟨(), run_writeHeader code⟩).trans hrun, hw'⟩
      · exact absurd hh (hno calls)

/-- Any other handler never returns, or sends the headers before the session is saved. -/
theorem Blank.run_misses (h : Blank log w) (hh : ¬ HeldBack engine log w calls)
    (hu : Unset cookie w.rw.header calls)
    (hrun : (runCalls engine calls).run ⟨false, w⟩ = some ((), s)) : s.val.rw.Misses cookie := by
  have hlost : ∀ {c calls w w₁}, ReturnsFree (c.run engine) w w₁ → w₁.rw.Misses cookie →
      (runCalls engine (c :: calls)).run ⟨false, w⟩ = some ((), s) → s.val.rw.Misses cookie :=
    fun hr hmiss hrun => relates_runCalls (handlerSteps_misses cookie) engine _ _ _ _
      ((run_seq_cons_of_returnsFree hr).symm.trans hrun) hmiss
  induction calls generalizing w with
  | nil => exact absurd rfl hh
  | cons c calls ih =>
    by_cases hc : ∀ code, c ≠ .writeHeader code
    · obtain ⟨w₁, hr, h₁, hheld, hunset⟩ | ⟨-, hnone | ⟨w₁, hr, hmiss⟩⟩ := h.step engine hc
      · exact ih h₁ (fun hh₁ => hh ((hheld calls).mpr hh₁)) (hunset cookie calls hu)
          ((run_seq_cons_of_returnsFree hr).symm.trans hrun)
      · rw [runCalls, map_cons, run_seq_cons, hnone] at hrun
        exact absurd hrun (by simp)
      · exact hlost hr (hmiss cookie) hrun
    · push Not at hc
      obtain ⟨code, rfl⟩ := hc
      have hr : ReturnsFree (run engine (.writeHeader code)) w _ := ⟨(), run_writeHeader code⟩
      obtain ⟨h₁, hstays, hunset⟩ | ⟨-, hmiss⟩ := h.step_writeHeader engine code
      · exact h₁.run_misses engine (fun hs => hh ((hstays calls).mpr hs)) (hunset cookie calls hu)
          ((run_seq_cons_of_returnsFree hr).symm.trans hrun)
      · exact hlost hr (hmiss cookie hu.1) hrun

end Blank

/-! ### All paths -/

/-- `admitted` tells what the request phases do. -/
theorem run_inspectRequest_admitted (engine : Engine) (maxBufferSize : Int) (req : Request)
    (htx : w.tx = some []) :
    match admitted engine maxBufferSize req with
    | none => ∃ s, (inspectRequest engine maxBufferSize req).run ⟨false, w⟩ = some (none, s)
    | some log => ∃ fwd, (inspectRequest engine maxBufferSize req).run ⟨false, w⟩ =
        some (some fwd, ⟨false, { w with tx := some log }⟩) := by
  have hask : ∀ calls, (w.tell calls).tx.bind engine = engine calls := by
    intro calls
    simp [WafResponseWriter.tell, htx]
  unfold inspectRequest admitted
  simp only [StateT.run_bind, run_update, run_askInterruption, bind_eq_bind,
    bind_some, tell_tell, hask]
  cases engine (requestCalls req) with
  | some it => exact ⟨_, rfl⟩
  | none =>
    cases readRequestBody maxBufferSize req with
    | none => exact ⟨_, rfl⟩
    | some r =>
      simp only [StateT.run_bind, run_update, run_askInterruption, bind_eq_bind,
        bind_some, tell_tell, hask, append_assoc, cons_append, nil_append,
        isSome_none, Bool.false_eq_true, if_false]
      cases engine (requestCalls req ++ [.interruption, .writeRequestBody r.2,
        .processRequestBody]) with
      | some it => exact ⟨_, rfl⟩
      | none =>
        refine ⟨r.1, ?_⟩
        simp [WafResponseWriter.tell, htx, forwardedCalls]

/-- What follows the handler's calls behind the WAF. -/
def afterCalls (engine : Engine) (panics : Bool) (cookie : String) : WafM Unit := do
  finishInternal engine panics cookie
  inspectResponse engine
  update (tell [.close])

theorem relates_afterCalls (engine : Engine) (panics : Bool) (cookie c : String) :
    Relates (Keeps (·.Misses c)) (afterCalls engine panics cookie) := by
  have hC := (handlerSteps_misses c).toClosureSteps
  refine (relates_finishInternal engine panics cookie c).bind fun _ => ?_
  exact (relates_inspectResponse hC engine).bind fun _ => .update (hC.tell _)

theorem run_afterCalls (engine : Engine) (panics : Bool) (cookie : String) (h : w.rw.Untouched) :
    ∃ s, (afterCalls engine panics cookie).run ⟨false, w⟩ = some ((), s) ∧
      s.val.rw.Carries cookie := by
  obtain ⟨w₁, h₁, hc₁⟩ := run_finishInternal engine panics cookie h
  obtain ⟨w₂, h₂⟩ := inspectResponse_returns engine w₁
  have hc₂ := relates_inspectResponse (closureSteps_carries cookie) engine _ _ _ h₂ hc₁
  refine ⟨⟨false, w₂.tell [.close]⟩, ?_, hc₂⟩
  simp [afterCalls, h₁, h₂]

/-- The writer of a forwarded request when the handler starts. -/
def handlerWriter (limit : Int) (log : List TxCall) (setup : Header → Header)
    (rw : ResponseWriter) : WafResponseWriter :=
  { newWriter limit rw with tx := some log, rw := { rw with header := setup rw.header } }

/-- Serving a request that the WAF forwards. -/
theorem createRootHandler_of_admitted (hengine : cfg.engineFor path = some engine)
    (hlog : admitted engine (bufferLimit cfg.maxWAFBufferSize) req = some log) (ex : Exchange)
    (cookie : String) (rw : ResponseWriter) :
    createRootHandler cfg path ex cookie rw req =
      ((do runCalls engine ex.calls; afterCalls engine ex.panics cookie : WafM Unit).run
        ⟨false, handlerWriter (bufferLimit cfg.maxWAFBufferSize) log ex.setup rw⟩).map
          fun r => (true, r.2.val.rw) := by
  have hreq := run_inspectRequest_admitted engine (bufferLimit cfg.maxWAFBufferSize) req
    (w := newWriter (bufferLimit cfg.maxWAFBufferSize) rw) rfl
  rw [hlog] at hreq
  obtain ⟨fwd, hfwd⟩ := hreq
  simp only [createRootHandler, hengine, serveNext, StateT.run_bind, hfwd, serveInternal,
    afterCalls, onConnection, handlerWriter, run_update, bind_eq_bind, bind_some]
  dsimp only [newWriter]
  rcases (runCalls engine ex.calls).run _ with _ | ⟨⟨⟩, s₁⟩
  · rfl
  simp only [bind_some]
  rcases (finishInternal engine ex.panics cookie).run s₁ with _ | ⟨⟨⟩, s₂⟩
  · rfl
  simp only [bind_some]
  rcases (inspectResponse engine).run s₂ with _ | ⟨⟨⟩, s₃⟩
  · rfl
  · rfl

/-- A connection as the server hands it to the router. -/
def newConnection (flusher hijacker : Bool) : ResponseWriter :=
  { flusher := flusher, hijacker := hijacker }

theorem untouched_newConnection (flusher hijacker : Bool) :
    (newConnection flusher hijacker).Untouched := ⟨rfl, rfl, rfl⟩

theorem bufferLimit_pos (maxBufferSize : Int) : 0 < bufferLimit maxBufferSize := by
  unfold bufferLimit
  split
  · decide
  · omega

/-- Behind the WAF the cookie is received exactly if the handler is held back. -/
theorem cookieReceived_waf_iff (hengine : cfg.engineFor path = some engine) (ex : Exchange)
    (flusher hijacker : Bool)
    (hlog : admitted engine (bufferLimit cfg.maxWAFBufferSize) req = some log) :
    (∀ cookie, CookieReceived cfg path ex cookie (newConnection flusher hijacker) req) ↔
      heldBack engine (bufferLimit cfg.maxWAFBufferSize) flusher hijacker log (ex.setup [])
        ex.calls = true := by
  set start := handlerWriter (bufferLimit cfg.maxWAFBufferSize) log ex.setup
    (newConnection flusher hijacker)
  have hblank : Blank log start := ⟨rfl, rfl, rfl, rfl, rfl,
    (untouched_newConnection flusher hijacker).withHeader _, bufferLimit_pos _⟩
  change _ ↔ HeldBack engine log start ex.calls
  constructor
  · intro hall
    by_contra hheld
    obtain ⟨cookie, hu⟩ := exists_unset start.rw.header ex.calls
    obtain ⟨ran, rw', hrun, hcarries⟩ := hall cookie
    rw [createRootHandler_of_admitted hengine hlog, map_eq_some_iff] at hrun
    obtain ⟨⟨⟨⟩, s'⟩, hrun, hr⟩ := hrun
    obtain ⟨rfl, rfl⟩ : true = ran ∧ s'.val.rw = rw' := by simpa using hr
    rw [StateT.run_bind, bind_eq_bind, bind_eq_some_iff] at hrun
    obtain ⟨⟨⟨⟩, s⟩, hcalls, hafter⟩ := hrun
    have hmiss := hblank.run_misses engine hheld hu hcalls
    have hmiss' := relates_afterCalls engine ex.panics cookie cookie _ _ _ hafter hmiss
    exact hmiss'.not_carries (hcarries rfl)
  · intro hheld cookie
    obtain ⟨w₁, hcalls, huntouched⟩ := hblank.run_untouched engine hheld
    obtain ⟨s, hafter, hcarries⟩ := run_afterCalls engine ex.panics cookie huntouched
    refine ⟨true, s.val.rw, ?_, fun _ => hcarries⟩
    rw [createRootHandler_of_admitted hengine hlog, StateT.run_bind, hcalls]
    simp [hafter]

/-- **The session cookie is received exactly if nothing was sent before it was saved.** Whatever
cookie the deferred `Save` writes, the client receives it if and only if the request is one
that the WAF answers itself, or the handler's response is held back behind the WAF until the
handler has returned, or the handler sends no response. -/
theorem cookie_received_iff (cfg : RootConfig) (path : String) (ex : Exchange)
    (flusher hijacker : Bool) (req : Request) :
    (∀ cookie, CookieReceived cfg path ex cookie (newConnection flusher hijacker) req) ↔
      SavedInTime cfg path ex flusher hijacker req := by
  unfold SavedInTime
  cases hengine : cfg.engineFor path with
  | none =>
    have hroot : ∀ cookie, createRootHandler cfg path ex cookie (newConnection flusher hijacker)
        req = some (true, serveDirect ex cookie (newConnection flusher hijacker)) := by
      intro cookie
      rw [createRootHandler, hengine]
    refine Iff.trans (forall_congr' fun cookie => ?_)
      (serveDirect_carries_iff ex (untouched_newConnection flusher hijacker))
    constructor
    · rintro ⟨ran, rw', hrun, hcarries⟩
      rw [hroot] at hrun
      obtain ⟨rfl, rfl⟩ : true = ran ∧ _ = rw' := by simpa using hrun
      exact hcarries rfl
    · intro hcarries
      exact ⟨true, _, hroot cookie, fun _ => hcarries⟩
  | some engine =>
    dsimp only
    cases hlog : admitted engine (bufferLimit cfg.maxWAFBufferSize) req with
    | none =>
      -- the WAF answers the request itself, so there is no session to save
      refine iff_of_true (fun cookie => ?_) (by simp)
      have hreq := run_inspectRequest_admitted engine (bufferLimit cfg.maxWAFBufferSize) req
        (w := newWriter (bufferLimit cfg.maxWAFBufferSize) (newConnection flusher hijacker)) rfl
      rw [hlog] at hreq
      obtain ⟨s, hs⟩ := hreq
      refine ⟨false, (s.val.tell [.close]).rw, ?_, by simp⟩
      simp [createRootHandler, hengine, serveNext, hs]
    | some log =>
      simpa using cookieReceived_waf_iff hengine ex flusher hijacker hlog

/-- A handler that answers with a short body. -/
def textExchange (contentType : String) : Exchange where
  calls := [.setHeader "Content-Type" contentType, .writeHeader 200,
    .write (goBytes "manage_ok")]

/-- A login on an exempt path, and a download behind the WAF, lose the cookie. -/
theorem cookie_lost :
    ¬ CookieReceived { waf := some fun _ => none, wafExemptPaths := ["/api/"] } "/api/login"
        (textExchange "text/plain; charset=utf-8") "manage_session=abc; Path=/manage"
        (newConnection true true) { method := "POST" } ∧
      ¬ CookieReceived { waf := some fun _ => none } "/manage/report"
        (textExchange "application/pdf") "manage_session=abc; Path=/manage"
        (newConnection true true) { method := "GET" } := by
  have hlost : ∀ {cfg path ex cookie rw req}, (createRootHandler cfg path ex cookie rw req).map
        (fun r => (r.1, decide (cookie ∈ r.2.clientHeader.values "Set-Cookie"))) =
        some (true, false) → ¬ CookieReceived cfg path ex cookie rw req := by
    rintro cfg path ex cookie rw req hmap ⟨ran, rw', hrun, hcarries⟩
    rw [hrun] at hmap
    obtain ⟨rfl, hno⟩ : ran = true ∧ cookie ∉ rw'.clientHeader.values "Set-Cookie" := by
      simpa using hmap
    exact hno (hcarries rfl).2
  exact ⟨hlost (by decide), hlost (by decide)⟩

end Kiya
