import Kiya.Waf.Writer

/-!
# Which handlers deadlock the WAF writer

`WriteHeader`, `Write` and `Flush` all take the writer's mutex, and `Write` and `Flush` call
`WriteHeader` when no header has been written yet. The mutex is not reentrant, so such a call
never returns. After the first `WriteHeader` no method calls another locked one, whatever the
handler does. Hence a handler runs to its end exactly when it calls `WriteHeader` before its
first `Write` and, on a connection that can flush, before its first `Flush`.
-/

namespace Kiya

open GuardedM WafResponseWriter WriterCall

/-- What the writer promises a handler: every call returns with the mutex free, and a `Write`
that comes before any `WriteHeader` behaves as `WriteHeader(200)` followed by it. -/
structure NoSelfDeadlock (engine : Engine) (w : WafResponseWriter) (calls : List WriterCall) :
    Prop where
  returns : AllReturnFree (calls.map (run engine)) w
  implicitHeader : ∀ before b after, calls = before ++ .write b :: after →
    (∀ code, .writeHeader code ∉ before) →
    (runCalls engine (before ++ [.write b])).run ⟨false, w⟩ =
      (runCalls engine (before ++ [.writeHeader statusOK, .write b])).run ⟨false, w⟩

/-- No `Write`, and on a connection that can flush no `Flush`, comes before the first
`WriteHeader`. -/
def headerFirst (flusher : Bool) : List WriterCall → Bool
  | [] => true
  | .writeHeader _ :: _ => true
  | .write _ :: _ => false
  | .flush :: calls => !flusher && headerFirst flusher calls
  | .setHeader _ _ :: calls | .hijack :: calls | .written :: calls | .statusCode :: calls =>
    headerFirst flusher calls

/-! ### One call -/

variable {w : WafResponseWriter} {c : WriterCall} (engine : Engine)

/-- Once the header is written, every call returns and leaves it written. -/
theorem returnsFree_of_wrote (hw : w.wrote = true)
    (c : WriterCall) : ∃ w', ReturnsFree (c.run engine) w w' ∧ w'.wrote = true := by
  cases c with
  | setHeader k v => exact ⟨_, ⟨(), rfl⟩, hw⟩
  | writeHeader code => exact ⟨_, ⟨(), run_writeHeader code⟩, wrote_writeHeaderLocked code⟩
  | write b =>
    obtain ⟨r, hr⟩ := @run_write engine w hw b
    exact ⟨w.afterWrite b, ⟨(), by simp [run, hr]⟩, by rw [wrote_afterWrite, hw]⟩
  | flush => exact ⟨w.afterFlush, ⟨(), run_flush hw⟩, by rw [wrote_afterFlush, hw]⟩
  | hijack =>
    obtain ⟨r, hr⟩ := run_hijack (w := w)
    exact ⟨w.afterHijack, ⟨(), by simp [run, hr]⟩, by rw [wrote_afterHijack, hw]⟩
  | written | statusCode => exact ⟨w, ⟨(), rfl⟩, hw⟩

/-- A handler that starts with the header written runs to its end. -/
theorem allReturnFree_of_wrote (hw : w.wrote = true)
    (calls : List WriterCall) : AllReturnFree (calls.map (run engine)) w := by
  induction calls generalizing w with
  | nil => trivial
  | cons c calls ih =>
    obtain ⟨w', hr, hw'⟩ := returnsFree_of_wrote engine hw c
    exact ⟨w', hr, ih hw'⟩

/-- The calls that neither need nor write the header return, and leave it unwritten. -/
theorem returnsFree_of_unwritten (hw : w.wrote = false)
    (hc : headerFirst w.rw.flusher [c] = true) (hn : ∀ code, c ≠ .writeHeader code) :
    ∃ w', ReturnsFree (c.run engine) w w' ∧ w'.wrote = false ∧
      w'.rw.flusher = w.rw.flusher := by
  cases c with
  | setHeader k v => exact ⟨_, ⟨(), rfl⟩, hw, rfl⟩
  | writeHeader code => exact absurd rfl (hn code)
  | write b => simp [headerFirst] at hc
  | flush =>
    have hf : w.rw.flusher = false := by simpa [headerFirst] using hc
    exact ⟨w, ⟨(), run_flush_of_not_flusher hf⟩, hw, rfl⟩
  | hijack =>
    obtain ⟨r, hr⟩ := run_hijack (w := w)
    exact ⟨w.afterHijack, ⟨(), by simp [run, hr]⟩,
      by rw [wrote_afterHijack, hw], flusher_afterHijack⟩
  | written | statusCode => exact ⟨w, ⟨(), rfl⟩, hw, rfl⟩

/-- A call that is not allowed before `WriteHeader` never returns. -/
theorem run_eq_none_of_unwritten (hw : w.wrote = false)
    (hc : headerFirst w.rw.flusher [c] = false) : (c.run engine).run ⟨false, w⟩ = none := by
  cases c with
  | write b => simp [run, run_write_unwritten hw b]
  | flush => exact run_flush_unwritten hw (by simpa [headerFirst] using hc)
  | setHeader | writeHeader | hijack | written | statusCode => simp [headerFirst] at hc

/-- The condition on a handler, one call at a time. -/
theorem headerFirst_cons (flusher : Bool) (hn : ∀ code, c ≠ .writeHeader code)
    (calls : List WriterCall) : headerFirst flusher (c :: calls) =
      (headerFirst flusher [c] && headerFirst flusher calls) := by
  cases c with
  | writeHeader code => exact absurd rfl (hn code)
  | setHeader | write | flush | hijack | written | statusCode => simp [headerFirst]

/-! ### Whole handlers -/

/-- Before the first `WriteHeader`, a handler runs to its end exactly when `headerFirst`
accepts it. -/
theorem allReturnFree_iff_headerFirst (hw : w.wrote = false) (calls : List WriterCall) :
    AllReturnFree (calls.map (run engine)) w ↔
      headerFirst w.rw.flusher calls = true := by
  induction calls generalizing w with
  | nil => exact ⟨fun _ => rfl, fun _ => trivial⟩
  | cons c calls ih =>
    by_cases hn : ∀ code, c ≠ .writeHeader code
    · rw [headerFirst_cons _ hn]
      cases hc : headerFirst w.rw.flusher [c] with
      | false =>
        refine iff_of_false ?_ (by simp)
        exact not_allReturnFree_cons_of_none (run_eq_none_of_unwritten engine hw hc)
      | true =>
        obtain ⟨w', ⟨a, ha⟩, hw', hf'⟩ := returnsFree_of_unwritten engine hw hc hn
        rw [Bool.true_and, ← hf', ← ih hw']
        constructor
        · -- the state after the first call is the one it returned with
          rintro ⟨w'', ⟨a', ha'⟩, hrest⟩
          obtain rfl : w'' = w' := by
            rw [ha] at ha'
            simpa using ha'.symm
          exact hrest
        · exact fun hrest => ⟨w', ⟨a, ha⟩, hrest⟩
    · push Not at hn
      obtain ⟨code, rfl⟩ := hn
      refine iff_of_true ?_ rfl
      exact ⟨_, ⟨(), run_writeHeader code⟩,
        allReturnFree_of_wrote engine (wrote_writeHeaderLocked code) calls⟩

/-- In an accepted handler every `Write` has a `WriteHeader` before it. -/
theorem exists_writeHeader_of_headerFirst {flusher : Bool} {before after : List WriterCall}
    {b : Bytes} (h : headerFirst flusher (before ++ .write b :: after) = true) :
    ∃ code, .writeHeader code ∈ before := by
  induction before with
  | nil => simp [headerFirst] at h
  | cons c before ih =>
    by_cases hn : ∀ code, c ≠ .writeHeader code
    · rw [List.cons_append, headerFirst_cons _ hn, Bool.and_eq_true] at h
      obtain ⟨code, hmem⟩ := ih h.2
      exact ⟨code, List.mem_cons_of_mem _ hmem⟩
    · push Not at hn
      obtain ⟨code, rfl⟩ := hn
      exact ⟨code, List.mem_cons_self⟩

/-- **Exactly the handlers that write the header first are safe.** On a fresh writer, a
finite sequence of calls keeps the writer's promise if and only if no `Write`, and on a
connection that can flush no `Flush`, precedes the first `WriteHeader`. -/
theorem noSelfDeadlock_iff (engine : Engine) (rw : ResponseWriter) (maxBufferSize : Int)
    (tx : Option (List TxCall)) (calls : List WriterCall) :
    NoSelfDeadlock engine { rw := rw, maxBufferSize := maxBufferSize, tx := tx } calls ↔
      headerFirst rw.flusher calls = true := by
  constructor
  · intro h
    exact (allReturnFree_iff_headerFirst engine rfl calls).mp h.returns
  · intro h
    refine ⟨(allReturnFree_iff_headerFirst engine rfl calls).mpr h, ?_⟩
    rintro before b after rfl hnone
    obtain ⟨code, hmem⟩ := exists_writeHeader_of_headerFirst h
    exact absurd hmem (hnone code)

/-- The `/metrics` handler sets its content type and writes, with no `WriteHeader`: it never
returns from the `Write`. -/
theorem metrics_handler_deadlocks :
    ¬ NoSelfDeadlock (fun _ => none) { rw := {}, maxBufferSize := 1024, tx := some [] }
      [.setHeader "Content-Type" "text/plain; version=0.0.4; charset=utf-8",
        .write (goBytes "kiya_http_requests_in_flight 0")] := by
  intro h
  have hfirst := (allReturnFree_iff_headerFirst _ rfl _).mp h.returns
  exact absurd hfirst (by decide)

end Kiya
