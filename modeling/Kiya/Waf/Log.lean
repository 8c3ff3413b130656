import Kiya.Waf.Wrap

/-!
# What the computations can do to the writer

Every method of the writer, every handler and every phase of the closure is built from a few
changes of the writer, which `ClosureSteps` and `HandlerSteps` list. A reflexive and transitive
relation that holds across each of them holds across every computation, by the rules for
`Relates`.

The first such relation is `Continues`: no computation takes back a call made on the
transaction, each one only continues the log.

It follows that the log of a forwarded request starts with the calls of the request phases
(`wrapWithWAF_forwarded`), and that an interruption, once reported, stays reported
(`ReportedIn`). `processHeaders_cases` and `run_inspectResponse` say all that the two response
phases can do.
-/

namespace Kiya

open GuardedM WafResponseWriter Option

/-! ### What the computations can do to the writer -/

/-- `R` relates the writer before and after each change that the closure itself makes: calls
on the transaction, `WriteHeader` and `Write` on the embedded writer, a new `Content-Type`,
and changes of the other fields. -/
structure ClosureSteps (R : WafResponseWriter → WafResponseWriter → Prop) : Prop where
  tell : ∀ calls w, R w (w.tell calls)
  fields : ∀ {w w' : WafResponseWriter}, w'.rw = w.rw → w'.tx = w.tx → R w w'
  writeHeader : ∀ {w w' : WafResponseWriter} (code), w'.rw = w.rw.writeHeader code →
    w'.tx = w.tx → R w w'
  write : ∀ {w w' : WafResponseWriter} (b), w'.rw = (w.rw.write b).2 → w'.tx = w.tx → R w w'
  contentType : ∀ {w w' : WafResponseWriter} (v),
    w'.rw = { w.rw with header := w.rw.header.set "Content-Type" v } → w'.tx = w.tx → R w w'

/-- `R` also relates the changes that only a handler's calls make. -/
structure HandlerSteps (R : WafResponseWriter → WafResponseWriter → Prop) : Prop
    extends ClosureSteps R where
  flush : ∀ {w w' : WafResponseWriter}, w'.rw = w.rw.flush → w'.tx = w.tx → R w w'
  hijack : ∀ {w w' : WafResponseWriter}, w'.rw = w.rw.hijack.2 → w'.tx = w.tx → R w w'
  setHeader : ∀ {w w' : WafResponseWriter} (k v),
    w'.rw = { w.rw with header := w.rw.header.set k v } → w'.tx = w.tx → R w w'

theorem tell_nil (w : WafResponseWriter) : w.tell [] = w := by
  simp [WafResponseWriter.tell]

theorem tell_tell (calls calls' : List TxCall) (w : WafResponseWriter) :
    (w.tell calls).tell calls' = w.tell (calls ++ calls') := by
  simp only [WafResponseWriter.tell, map_map]
  congr 2
  funext log
  simp

section Relates

variable {R : WafResponseWriter → WafResponseWriter → Prop} [Std.Refl R]
  [IsTrans WafResponseWriter R]

theorem ClosureSteps.processHeaders (hR : ClosureSteps R) (engine : Engine) (code : Int)
    (w : WafResponseWriter) : R w (w.processHeaders engine code).2 := by
  unfold WafResponseWriter.processHeaders
  split
  · exact Std.Refl.refl _
  · simp only [interruption, tell_tell]
    split
    · rename_i heq
      obtain ⟨-, rfl⟩ := Prod.mk.inj heq
      exact IsTrans.trans _ _ _ (hR.tell _ w) (hR.contentType "text/plain" rfl rfl)
    · rename_i heq
      obtain ⟨-, rfl⟩ := Prod.mk.inj heq
      exact hR.tell _ w

theorem ClosureSteps.writeHeaderLocked (hR : ClosureSteps R) (engine : Engine) (code : Int)
    (w : WafResponseWriter) : R w (w.writeHeaderLocked engine code) := by
  unfold WafResponseWriter.writeHeaderLocked
  split
  · exact Std.Refl.refl _
  · refine IsTrans.trans _ _ _ (hR.processHeaders engine code w) ?_
    dsimp only
    split <;> split <;> first
      | exact hR.writeHeader _ rfl rfl
      | exact hR.fields rfl rfl

theorem relates_writeHeader (hR : ClosureSteps R) (engine : Engine) (code : Int) :
    Relates R (writeHeader engine code) :=
  (Relates.update (hR.writeHeaderLocked engine code)).withLock

theorem relates_forward (hR : ClosureSteps R) (b : Bytes) : Relates R (forward b) :=
  Relates.read.bind fun _ =>
    .bind (.update fun _ => hR.write b rfl rfl) fun _ => .pure _

theorem relates_flushToClient (hR : ClosureSteps R) (engine : Engine) :
    Relates R (flushToClient engine) := by
  refine Relates.read.bind fun w => .ite (.pure _) (.ite ?_ (.pure _))
  refine .when (relates_writeHeader hR engine statusOK) ?_
  exact .bind (.update fun w => hR.writeHeader w.status rfl rfl) fun _ =>
    Relates.read.bind fun w => (relates_forward hR w.body).bind fun _ => .pure _

theorem relates_write (hR : ClosureSteps R) (engine : Engine) (b : Bytes) :
    Relates R (write engine b) := by
  refine Relates.withLock (Relates.read.bind fun w => ?_)
  refine .when (relates_writeHeader hR engine statusOK) ?_
  refine Relates.read.bind fun w => .ite (.pure _) (.ite (relates_forward hR b) (.ite ?_ ?_))
  · exact .bind (.update fun _ => hR.fields rfl rfl) fun _ =>
      (relates_flushToClient hR engine).bind fun _ => relates_forward hR b
  · exact .bind (.update fun _ => hR.fields rfl rfl) fun _ => .pure _

theorem relates_flush (hR : HandlerSteps R) (engine : Engine) : Relates R (flush engine) := by
  have hC := hR.toClosureSteps
  refine Relates.withLock (Relates.read.bind fun w => .ite ?_ (.pure _))
  refine .when (relates_writeHeader hC engine w.status) ?_
  refine Relates.read.bind fun w => .ite (.update fun _ => hR.flush rfl rfl) ?_
  refine .bind (.update fun w => hC.writeHeader w.status rfl rfl) fun _ => ?_
  exact .when (.update fun w => hC.write w.body rfl rfl) (.update fun _ => hR.flush rfl rfl)

theorem relates_hijack (hR : HandlerSteps R) : Relates R hijack := by
  refine Relates.withLock (Relates.read.bind fun w => .ite (.pure _) (.ite ?_ (.pure _)))
  exact .bind (.update fun _ => hR.hijack rfl rfl) fun _ => .pure _

theorem relates_run (hR : HandlerSteps R) (engine : Engine) (c : WriterCall) :
    Relates R (c.run engine) := by
  have hC := hR.toClosureSteps
  cases c with
  | setHeader k v =>
    rw [WriterCall.run]
    exact .update fun _ => hR.setHeader k v rfl rfl
  | writeHeader code => exact relates_writeHeader hC engine code
  | write b => exact (relates_write hC engine b).bind fun _ => .pure _
  | flush => exact relates_flush hR engine
  | hijack => exact (relates_hijack hR).bind fun _ => .pure _
  | written => exact (Relates.withLock (Relates.read.bind fun _ => .pure _)).bind fun _ => .pure _
  | statusCode =>
    exact (Relates.withLock (Relates.read.bind fun _ => .pure _)).bind fun _ => .pure _

/-- What holds of every change holds of a handler, whatever it calls. -/
theorem relates_runCalls (hR : HandlerSteps R) (engine : Engine) (calls : List WriterCall) :
    Relates R (runCalls engine calls) := by
  refine .seq fun m hm => ?_
  obtain ⟨c, -, rfl⟩ := List.mem_map.mp hm
  exact relates_run hR engine c

theorem relates_askInterruption (hR : ClosureSteps R) (engine : Engine) :
    Relates R (askInterruption engine) :=
  Relates.read.bind fun _ => (Relates.update fun w => hR.tell _ w).bind fun _ => .pure _

theorem relates_inspectResponse (hR : ClosureSteps R) (engine : Engine) :
    Relates R (inspectResponse engine) := by
  refine Relates.read.bind fun w => .ite (.pure _) ?_
  refine (Relates.update (hR.tell _)).bind fun _ => ?_
  refine (relates_askInterruption hR engine).bind fun it => ?_
  cases it with
  | none =>
    exact (Relates.pure ()).bind fun _ => (relates_flushToClient hR engine).bind fun _ => .pure _
  | some it =>
    exact .when (.update fun _ => hR.contentType "text/plain" rfl rfl)
      ((relates_flushToClient hR engine).bind fun _ => .pure _)

theorem relates_recoverPanic (hR : ClosureSteps R) (engine : Engine) :
    Relates R (recoverPanic engine) :=
  .bind (.withLock (.update fun _ => hR.contentType _ rfl rfl)) fun _ =>
    (relates_flushToClient hR engine).bind fun _ => .pure _

theorem relates_serveHandler (hR : HandlerSteps R) (engine : Engine) (h : Handler) :
    Relates R (serveHandler engine h) := by
  have hC := hR.toClosureSteps
  exact (relates_runCalls hR engine h.calls).bind fun _ => .ite
    ((Relates.update (hC.tell _)).bind fun _ => relates_recoverPanic hC engine)
    ((relates_inspectResponse hC engine).bind fun _ => .update (hC.tell _))

end Relates

/-! ### Continued transactions -/

/-- The transaction of `w'` continues that of `w`. -/
def Continues (w w' : WafResponseWriter) : Prop := ∃ calls, w'.tx = w.tx.map (· ++ calls)

/-- A writer with the same transaction. -/
theorem Continues.of_eq {w w' : WafResponseWriter} (h : w'.tx = w.tx) : Continues w w' :=
  ⟨[], by simp [h]⟩

theorem continues_tell (calls : List TxCall) (w : WafResponseWriter) :
    Continues w (w.tell calls) := ⟨calls, rfl⟩

instance : Std.Refl Continues := ⟨fun _ => .of_eq rfl⟩

instance : IsTrans WafResponseWriter Continues where
  trans := by
    rintro w w' w'' ⟨calls, h⟩ ⟨calls', h'⟩
    refine ⟨calls ++ calls', ?_⟩
    rw [h', h, map_map]
    congr 1
    funext log
    simp

/-- No change of the writer takes back a call on the transaction. -/
theorem handlerSteps_continues : HandlerSteps Continues where
  tell := continues_tell
  fields _ htx := .of_eq htx
  writeHeader _ _ htx := .of_eq htx
  write _ _ htx := .of_eq htx
  contentType _ _ htx := .of_eq htx
  flush _ htx := .of_eq htx
  hijack _ htx := .of_eq htx
  setHeader _ _ _ htx := .of_eq htx

/-- A log of the first writer is the beginning of a log of the second. -/
theorem Continues.exists_log {w w' : WafResponseWriter} {log : List TxCall}
    (h : Continues w w') (hw : w.tx = some log) : ∃ calls, w'.tx = some (log ++ calls) := by
  obtain ⟨calls, hc⟩ := h
  exact ⟨calls, by rw [hc, hw]; rfl⟩

/-! ### Forwarded requests -/

@[simp] theorem run_askInterruption (engine : Engine) (s : Guarded WafResponseWriter) :
    (askInterruption engine).run s =
      some (s.val.tx.bind engine, ⟨s.held, s.val.tell [.interruption]⟩) := rfl

/-- The calls of the request phases on the transaction of a forwarded request. -/
def forwardedCalls (req : Request) (b : Bytes) : List TxCall :=
  requestCalls req ++ [.interruption, .writeRequestBody b, .processRequestBody, .interruption]

variable {engine : Engine} {maxBufferSize : Int} {req fwd : Request} {w : WafResponseWriter}
  {s s' : Guarded WafResponseWriter} {next : Request → Handler}

/-- By the time a request is forwarded the writer is as new but for its transaction. -/
theorem run_inspectRequest_forwarded
    (h : (inspectRequest engine maxBufferSize req).run s = some (some fwd, s')) :
    ∃ b, readRequestBody maxBufferSize req = some (fwd, b) ∧
      s' = ⟨s.held, s.val.tell (forwardedCalls req b)⟩ := by
  unfold inspectRequest at h
  simp only [StateT.run_bind, run_update, run_askInterruption, bind_eq_bind, bind_some] at h
  split at h
  · simp at h
  · split at h
    · simp at h
    · rename_i req' b hread
      simp only [StateT.run_bind, run_update, run_askInterruption, bind_eq_bind, bind_some] at h
      split at h
      · simp at h
      · obtain ⟨rfl, rfl⟩ : req' = fwd ∧ _ = s' := by simpa using h
        refine ⟨b, hread, ?_⟩
        simp [tell_tell, forwardedCalls]

/-- A silent engine forwards every request whose body is within the limit. -/
theorem run_inspectRequest_of_silent (hs : engine.Silent) {b : Bytes}
    (hread : readRequestBody maxBufferSize req = some (fwd, b)) (s : Guarded WafResponseWriter) :
    (inspectRequest engine maxBufferSize req).run s =
      some (some fwd, ⟨s.held, s.val.tell (forwardedCalls req b)⟩) := by
  unfold inspectRequest
  simp [hs.bind_eq_none, hread, tell_tell, forwardedCalls]

/-- A closure that forwards its request has run the request phases and then the handler. -/
theorem run_serveHTTP_eq_some_iff :
    (serveHTTP engine maxBufferSize next req).run s = some (some fwd, s') ↔
      ∃ s₁, (inspectRequest engine maxBufferSize req).run s = some (some fwd, s₁) ∧
        (serveHandler engine (next fwd)).run s₁ = some ((), s') := by
  unfold serveHTTP
  rw [StateT.run_bind]
  rcases hi : (inspectRequest engine maxBufferSize req).run s with _ | ⟨_ | req', s₁⟩
  · simp
  · simp
  · simp only [bind_eq_bind, bind_some, StateT.run_bind, StateT.run_pure]
    rcases hh : (serveHandler engine (next req')).run s₁ with _ | ⟨_, s₂⟩
    · simp only [bind_none, reduceCtorEq, Option.some.injEq, Prod.mk.injEq, false_iff]
      rintro ⟨s₁', ⟨rfl, rfl⟩, h⟩
      rw [hh] at h
      exact absurd h (by simp)
    · simp only [bind_some, pure_def, Option.some.injEq, Prod.mk.injEq]
      constructor
      · rintro ⟨rfl, rfl⟩
        exact ⟨s₁, ⟨rfl, rfl⟩, hh⟩
      · rintro ⟨s₁', ⟨rfl, rfl⟩, h⟩
        rw [hh] at h
        simpa using h

/-- **The log of a forwarded request** starts with the calls of the request phases. -/
theorem wrapWithWAF_forwarded {rw : ResponseWriter}
    (h : wrapWithWAF engine maxBufferSize next rw req = some (some fwd, w)) :
    ∃ b later, readRequestBody (bufferLimit maxBufferSize) req = some (fwd, b) ∧
      w.tx = some (forwardedCalls req b ++ later) := by
  obtain ⟨⟨fwd', s'⟩, hs, hw⟩ := map_eq_some_iff.mp h
  obtain ⟨rfl, rfl⟩ : fwd' = some fwd ∧ s'.val = w := by simpa using hw
  obtain ⟨s₁, hi, hh⟩ := run_serveHTTP_eq_some_iff.mp hs
  obtain ⟨b, hread, rfl⟩ := run_inspectRequest_forwarded hi
  have htx : ((newWriter (bufferLimit maxBufferSize) rw).tell (forwardedCalls req b)).tx =
      some (forwardedCalls req b) := rfl
  obtain ⟨later, hl⟩ :=
    (relates_serveHandler handlerSteps_continues engine _ _ _ _ hh).exists_log htx
  exact ⟨b, later, hread, hl⟩

/-! ### Reported interruptions -/

/-- The interruption is one that the engine reported in the writer's transaction. -/
def ReportedIn (engine : Engine) (w : WafResponseWriter) (it : Interruption) : Prop :=
  ∃ log, w.tx = some log ∧ engine.Reported log it

variable {it : Interruption}

/-- What has been reported stays reported. -/
theorem ReportedIn.continues {w w' : WafResponseWriter} (h : ReportedIn engine w it)
    (hc : Continues w w') : ReportedIn engine w' it := by
  obtain ⟨log, htx, hr⟩ := h
  obtain ⟨calls, htx'⟩ := hc.exists_log htx
  exact ⟨_, htx', hr.mono (List.prefix_append log calls)⟩

/-- An answer of the engine is reported. -/
theorem reportedIn_interruption (h : w.tx.bind engine = some it) :
    ReportedIn engine (w.tell [.interruption]) it := by
  obtain ⟨log, htx, hlog⟩ := bind_eq_some_iff.mp h
  exact ⟨log ++ [.interruption], by simp [WafResponseWriter.tell, htx], log, List.prefix_rfl, hlog⟩

/-- A silent engine reports nothing. -/
theorem Engine.Silent.not_reportedIn (hs : engine.Silent) : ¬ ReportedIn engine w it := by
  rintro ⟨log, -, before, -, hit⟩
  rw [hs before] at hit
  exact absurd hit (by simp)

/-! ### What the response phases can do -/

/-- The header phase makes calls on the transaction, and either finds an interruption and
puts the notice in place of the body, or changes nothing else. -/
theorem processHeaders_cases (engine : Engine) (code : Int) (w : WafResponseWriter) :
    (∃ it calls, ReportedIn engine (w.tell calls) it ∧
      w.processHeaders engine code =
        ((true, it.status),
          { w.tell calls with
            body := blockNotice
            rw := { w.rw with header := w.rw.header.set "Content-Type" "text/plain" } })) ∨
    ∃ calls, w.processHeaders engine code = ((false, code), w.tell calls) := by
  unfold processHeaders
  split
  · exact .inr ⟨[], by rw [tell_nil]⟩
  · simp only [interruption, tell_tell]
    generalize ((w.rw.header.flatMap _) ++ [_] : List TxCall) = calls
    cases hit : (w.tell calls).tx.bind engine with
    | none => exact .inr ⟨calls ++ [.interruption], rfl⟩
    | some it =>
      refine .inl ⟨it, calls ++ [.interruption], ?_, rfl⟩
      rw [← tell_tell]
      exact reportedIn_interruption hit

/-- The body phase, when the limit was not exceeded: the engine is asked; if it interrupts
and nothing has been streamed the notice replaces the response; then the buffer is flushed. -/
theorem run_inspectResponse (engine : Engine) (hw : w.wrote = true)
    (hex : w.bufferLimitExceeded = false) :
    ∃ calls,
      (w.streaming = false ∧ ∃ it, ReportedIn engine (w.tell calls) it ∧
        (inspectResponse engine).run ⟨false, w⟩ =
          some ((), ⟨false, (blockBody it (w.tell calls)).afterFlushToClient⟩)) ∨
      (inspectResponse engine).run ⟨false, w⟩ =
        some ((), ⟨false, (w.tell calls).afterFlushToClient⟩) := by
  unfold inspectResponse
  simp only [StateT.run_bind, run_read, bind_eq_bind, bind_some, hex,
    Bool.false_eq_true, if_false, run_update, run_askInterruption, tell_tell]
  generalize ([_, _] : List TxCall) = calls
  refine ⟨calls ++ [.interruption], ?_⟩
  obtain ⟨r, hr⟩ := @run_flushToClient engine (w.tell (calls ++ [.interruption])) hw false
  cases hit : (w.tell calls).tx.bind engine with
  | none =>
    right
    simp [hr]
  | some it =>
    cases hst : w.streaming with
    | true =>
      right
      simp [hr]
    | false =>
      left
      have hrep := reportedIn_interruption hit
      rw [tell_tell] at hrep
      obtain ⟨r', hr'⟩ := @run_flushToClient engine
        (blockBody it (w.tell (calls ++ [.interruption]))) hw false
      refine ⟨rfl, it, hrep, ?_⟩
      simp [hr']

end Kiya
