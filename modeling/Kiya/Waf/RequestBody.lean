import Kiya.Waf.Log

/-!
# What the engine sees of a request body, and what the handler reads

For `POST`, `PUT` and `PATCH` the bytes given to `tx.WriteRequestBody` and the bytes the
handler can read agree when the body was read to its end, and a body over the limit is never
forwarded. For every other method the body is not read at all: the engine is given no bytes
and the handler gets the reader as it came in, so a `DELETE` with a body reaches the handler
uninspected.
-/

namespace Kiya

open List

/-! ### Reading the body -/

/-- The outcome of reading the body under the limit is a clean end of the body. -/
def ReadToEnd (maxBufferSize : Int) (req : Request) : Prop :=
  (req.body.maxBytesReader maxBufferSize).err = none

/-- The body is longer than the limit. -/
def OverLimit (maxBufferSize : Int) (req : Request) : Prop :=
  maxBufferSize < req.body.data.length

theorem contains_tooLarge : contains Body.tooLarge Body.tooLarge = true := by decide

variable {maxBufferSize : Int} {req : Request}

/-- A body over the limit stops the request. -/
theorem readRequestBody_of_overLimit (hm : inspectsBody req.method = true)
    (ho : OverLimit maxBufferSize req) : readRequestBody maxBufferSize req = none := by
  have hlen : ¬ (req.body.data.length : Int) ≤ maxBufferSize := Int.not_le.mpr ho
  simp [readRequestBody, hm, Body.maxBytesReader, hlen, Body.readAll, contains_tooLarge]

/-- A body read to its end is forwarded and inspected alike. -/
theorem readRequestBody_of_readToEnd (hm : inspectsBody req.method = true)
    (he : ReadToEnd maxBufferSize req) : readRequestBody maxBufferSize req =
      some ({ req with body := .ofBytes (req.body.maxBytesReader maxBufferSize).data },
        (req.body.maxBytesReader maxBufferSize).data) := by
  have herr : (req.body.maxBytesReader maxBufferSize).err = none := he
  simp [readRequestBody, hm, Body.readAll, herr]

/-- The other methods do not read the body. -/
theorem readRequestBody_of_not_inspectsBody (hm : inspectsBody req.method = false) :
    readRequestBody maxBufferSize req = some (req, []) := by
  simp [readRequestBody, hm]

/-! ### Reading the log -/

/-- The calls that carry the request body to the engine or have it judged. -/
def TxCall.onRequestBody : TxCall → Bool
  | .writeRequestBody _ | .processRequestBody => true
  | _ => false

/-- Calls that have nothing to do with the request body can be skipped. -/
theorem inspected_append {calls : List TxCall} (hc : ∀ c ∈ calls, c.onRequestBody = false)
    (log : List TxCall) : inspected (calls ++ log) = inspected log := by
  induction calls with
  | nil => rfl
  | cons c calls ih =>
    have ih' := ih fun c' hc' => hc c' (mem_cons_of_mem _ hc')
    have hc' := hc c mem_cons_self
    cases c <;> first | exact ih' | simp [TxCall.onRequestBody] at hc'

theorem onRequestBody_of_mem_requestCalls {c : TxCall}
    (hc : c ∈ requestCalls req) : c.onRequestBody = false := by
  simp only [requestCalls, mem_append, mem_cons, mem_flatMap, mem_map, not_mem_nil, or_false] at hc
  rcases hc with ((((rfl | rfl) | hhost) | ⟨e, -, v, -, rfl⟩) | rfl)
  · rfl
  · rfl
  · split at hhost
    · obtain rfl := mem_singleton.mp hhost
      rfl
    · exact absurd hhost (not_mem_nil)
  · rfl
  · rfl

/-- What the log of a forwarded request says the engine was given. -/
theorem inspected_forwardedCalls (req : Request) (b : Bytes) (later : List TxCall) :
    inspected (forwardedCalls req b ++ later) = b := by
  rw [forwardedCalls, append_assoc,
    inspected_append fun c hc => onRequestBody_of_mem_requestCalls hc]
  simp [inspected]

/-! ### Forwarded bodies -/

/-- **Inspected and forwarded bodies.** If a request is forwarded, then: for `POST`, `PUT`
and `PATCH` with a body read to its end, the bytes the handler can read are exactly those
the engine was given; a body over the limit was not forwarded; and for every other method
the engine was given no bytes and the handler has the body reader as it came in. -/
theorem forwarded_body {engine : Engine} {maxBufferSize : Int} {next : Request → Handler}
    {rw : ResponseWriter} {req fwd : Request} {w : WafResponseWriter}
    (h : wrapWithWAF engine maxBufferSize next rw req = some (some fwd, w)) :
    ∃ log, w.tx = some log ∧
      (inspectsBody req.method = true → ReadToEnd (bufferLimit maxBufferSize) req →
        fwd.body.readAll.1 = inspected log) ∧
      (inspectsBody req.method = true → ¬ OverLimit (bufferLimit maxBufferSize) req) ∧
      (inspectsBody req.method = false → inspected log = [] ∧ fwd.body = req.body) := by
  obtain ⟨b, later, hread, htx⟩ := wrapWithWAF_forwarded h
  refine ⟨_, htx, ?_, ?_, ?_⟩
  · intro hm he
    rw [inspected_forwardedCalls]
    rw [readRequestBody_of_readToEnd hm he] at hread
    obtain ⟨rfl, rfl⟩ : _ = fwd ∧ _ = b := by simpa using hread
    rfl
  · intro hm ho
    rw [readRequestBody_of_overLimit hm ho] at hread
    exact absurd hread (by simp)
  · intro hm
    rw [inspected_forwardedCalls]
    rw [readRequestBody_of_not_inspectsBody hm] at hread
    obtain ⟨rfl, rfl⟩ : req = fwd ∧ [] = b := by simpa using hread
    exact ⟨rfl, rfl⟩

/-- A `POST` whose two-byte body is read to its end: the handler reads what was inspected. -/
theorem forwarded_body_post :
    ∃ fwd w, wrapWithWAF (fun _ => none) 1024 (fun _ => { calls := [.writeHeader 200] }) {}
        { method := "POST", body := { data := [104, 105] } } = some (some fwd, w) ∧
      ∃ log, w.tx = some log ∧ fwd.body.readAll.1 = inspected log := by
  have hrun : ∃ fwd w, wrapWithWAF (fun _ => none) 1024
      (fun _ => { calls := [.writeHeader 200] }) {}
      { method := "POST", body := { data := [104, 105] } } = some (some fwd, w) := ⟨_, _, rfl⟩
  obtain ⟨fwd, w, h⟩ := hrun
  obtain ⟨log, htx, hbody, -⟩ := forwarded_body h
  exact ⟨fwd, w, h, log, htx, hbody rfl rfl⟩

/-- A `DELETE` with a body is forwarded with bytes the engine was never given. -/
theorem delete_body_not_inspected :
    ∃ fwd w log, wrapWithWAF (fun _ => none) 1024 (fun _ => { calls := [.writeHeader 200] }) {}
        { method := "DELETE", body := { data := [120] } } = some (some fwd, w) ∧
      w.tx = some log ∧ fwd.body.readAll.1 ≠ inspected log :=
  ⟨_, _, _, rfl, rfl, by decide⟩

end Kiya
