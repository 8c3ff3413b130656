import Mathlib

/-!
# Chains of middleware

`router.go`, `chain`: a handler behind a list of middlewares. Every middleware gets as its `next`
what comes behind it, and its own call is guarded: once `Abort` has been called on the context it is
not entered. The handler at the end is not guarded, so that it depends on the last middleware
whether it still runs.

What a body does in one call is a list of steps, chosen by the circumstances `ω` that it finds: the
request, the session, the database. The context carries the circumstances of all calls to come, so
that an execution is a function of them, and it records which bodies are entered and what they do.
-/

namespace Kiya.Router

open List

/-- What a body does by itself: call `Abort`, or something else. -/
inductive Act
  | other
  | abort
deriving DecidableEq, Repr

/-- A step of the body of a middleware. -/
inductive Step
  | act (a : Act)
  | next
deriving DecidableEq, Repr

/-- What happens in an execution: the body of the middleware at a position is entered, the handler
is entered, or one of them does something, the handler having no position. -/
inductive Event
  | entered (i : ℕ) (name : String)
  | handled (name : String)
  | did (who : Option ℕ) (a : Act)
deriving DecidableEq, Repr

/-- `Context`, with what the bodies to be called will find and with a record of the execution. -/
structure Context (ω : Type) where
  aborted : Bool
  fate : ℕ → ω
  calls : ℕ
  trace : List Event

/-- A handler function, with the error it returns. -/
abbrev HandlerFunc (ω : Type) := Context ω → Context ω × Option String

/-- What a middleware does in one call: its steps, and what it returns, given the error of its last
call of `next`. -/
structure Script where
  steps : List Step
  result : Option String → Option String

/-- `Middleware`. -/
structure Middleware (ω : Type) where
  name : String
  body : ω → Script

/-- A handler as the application writes it. -/
structure Handler (ω : Type) where
  name : String
  body : ω → List Act × Option String

variable {ω : Type}

namespace Context

/-- A context at the start of a request. -/
def new (fate : ℕ → ω) : Context ω := ⟨false, fate, 0, []⟩

/-- A body is entered. -/
def enter (c : Context ω) (e : Event) : Context ω :=
  { c with calls := c.calls + 1, trace := c.trace ++ [e] }

/-- An act of a body; `Abort` sets the flag. -/
def act (who : Option ℕ) (c : Context ω) (a : Act) : Context ω :=
  { c with aborted := c.aborted || a = .abort, trace := c.trace ++ [.did who a] }

end Context

open Context

/-- `adapterFunc`, for a context that is one. -/
def adapterFunc (h : Handler ω) : HandlerFunc ω := fun c =>
  let did := h.body (c.fate c.calls)
  (did.1.foldl (act none) (c.enter (.handled h.name)), did.2)

/-- One step of the body at position `i`. -/
def doStep (i : ℕ) (next : HandlerFunc ω) (s : Context ω × Option String) :
    Step → Context ω × Option String
  | .act a => (s.1.act (some i) a, s.2)
  | .next => next s.1

/-- `adapterMiddleware`, for the middleware at position `i`. -/
def adapterMiddleware (i : ℕ) (m : Middleware ω) (next : HandlerFunc ω) : HandlerFunc ω := fun c =>
  let script := m.body (c.fate c.calls)
  let after := script.steps.foldl (doStep i next) (c.enter (.entered i m.name), none)
  (after.1, script.result after.2)

/-- The guard that `chain` puts around every middleware. -/
def guarded (wrapped : HandlerFunc ω) : HandlerFunc ω := fun c =>
  if c.aborted then (c, none) else wrapped c

/-- What the loop of `chain` has built when it has come down to position `i`. -/
def chainFrom (h : Handler ω) : ℕ → List (Middleware ω) → HandlerFunc ω
  | _, [] => adapterFunc h
  | i, m :: ms => guarded (adapterMiddleware i m (chainFrom h (i + 1) ms))

/-- `chain`. -/
def chain (h : Option (Handler ω)) (ms : List (Middleware ω)) : Option (HandlerFunc ω) :=
  h.map fun h => chainFrom h 0 ms

/-! ### The record of an execution -/

/-- One context comes after another in an execution. -/
structure Extends (c c' : Context ω) (t : List Event) : Prop where
  trace : c'.trace = c.trace ++ t
  fate : c'.fate = c.fate
  aborted : c.aborted = true → c'.aborted = true

namespace Extends

variable {c c₁ c₂ : Context ω} {t t₁ : List Event}

theorem refl (c : Context ω) : Extends c c [] := ⟨(append_nil _).symm, rfl, id⟩

theorem trans (h : Extends c c₁ t) (h₁ : Extends c₁ c₂ t₁) : Extends c c₂ (t ++ t₁) :=
  ⟨by rw [h₁.trace, h.trace, append_assoc], h₁.fate.trans h.fate,
    fun hc => h₁.aborted (h.aborted hc)⟩

theorem enter (c : Context ω) (e : Event) : Extends c (c.enter e) [e] := ⟨rfl, rfl, id⟩

theorem act (who : Option ℕ) (c : Context ω) (a : Act) : Extends c (c.act who a) [.did who a] :=
  ⟨rfl, rfl, fun hc => by rw [Context.act, hc, Bool.true_or]⟩

end Extends

/-- A handler function only adds to the record. -/
def Adds (f : HandlerFunc ω) : Prop := ∀ c, ∃ t, Extends c (f c).1 t

/-- The acts of a handler. -/
theorem extends_acts (acts : List Act) (who : Option ℕ) (c : Context ω) :
    Extends c (acts.foldl (act who) c) (acts.map (.did who)) := by
  induction acts generalizing c with
  | nil => exact .refl c
  | cons a acts ih => exact (Extends.act who c a).trans (ih (c.act who a))

theorem extends_adapterFunc (h : Handler ω) (c : Context ω) : Extends c (adapterFunc h c).1
      (.handled h.name :: (h.body (c.fate c.calls)).1.map (.did none)) :=
  (Extends.enter c _).trans (extends_acts _ none _)

variable {i : ℕ} {next : HandlerFunc ω} {t : List Event} {steps : List Step}

theorem exists_extends_steps (hnext : Adds next) (steps : List Step)
    (s : Context ω × Option String) : ∃ t, Extends s.1 (steps.foldl (doStep i next) s).1 t := by
  induction steps generalizing s with
  | nil => exact ⟨[], .refl _⟩
  | cons step steps ih =>
    obtain ⟨t₁, h₁⟩ := ih (doStep i next s step)
    cases step with
    | act a => exact ⟨_, (Extends.act (some i) s.1 a).trans h₁⟩
    | next =>
      obtain ⟨t, ht⟩ := hnext s.1
      exact ⟨t ++ t₁, ht.trans h₁⟩

theorem adds_chainFrom (h : Handler ω) (i : ℕ) (ms : List (Middleware ω)) :
    Adds (chainFrom h i ms) := by
  induction ms generalizing i with
  | nil => exact fun c => ⟨_, extends_adapterFunc h c⟩
  | cons m ms ih =>
    intro c
    rw [chainFrom, guarded]
    split_ifs with hc
    · exact ⟨[], .refl c⟩
    · obtain ⟨t, ht⟩ := exists_extends_steps (i := i) (ih (i + 1)) (m.body (c.fate c.calls)).steps
        (c.enter (.entered i m.name), none)
      exact ⟨_, (Extends.enter c _).trans ht⟩

/-! ### What happens after `Abort` -/

/-- The body calls `next` without having called `Abort` before. -/
def Script.PassesOn (script : Script) : Prop :=
  ∃ before after, script.steps = before ++ .next :: after ∧ ∀ s ∈ before, s = .act .other

/-- The body calls `next` although it has called `Abort`. -/
def Script.Defies (script : Script) : Prop :=
  ∃ before after, script.steps = before ++ .act .abort :: after ∧ .next ∈ after

/-- There are circumstances in which the middleware lets the request pass. -/
def Middleware.MayPassOn (m : Middleware ω) : Prop := ∃ w, (m.body w).PassesOn

/-- There are circumstances in which the middleware aborts and calls `next` all the same. -/
def Middleware.MayDefy (m : Middleware ω) : Prop := ∃ w, (m.body w).Defies

/-- Once a middleware has called `Abort`, neither the body of a later middleware nor the handler is
entered. -/
def StopsAtAbort (trace : List Event) : Prop :=
  ∀ before i after, trace = before ++ .did (some i) .abort :: after →
    (∀ j name, .entered j name ∈ after → j ≤ i) ∧ ∀ name, .handled name ∉ after

/-- No middleware has called `Abort`. -/
def Calm (t : List Event) : Prop := ∀ i, .did (some i) .abort ∉ t

/-- No body is entered. -/
def Quiet (t : List Event) : Prop := ∀ e ∈ t, ∃ who a, e = .did who a

/-- From one context to the other no body is entered after a middleware has called `Abort`, and the
flag is set if one has. -/
def Settles (c c' : Context ω) : Prop :=
  ∃ loud quiet, Extends c c' (loud ++ quiet) ∧ Calm loud ∧ Quiet quiet ∧
    (c'.aborted = true ∨ Calm quiet)

variable {ms : List (Middleware ω)} {script : Script} {m : Middleware ω} {c : Context ω}

section Settles

variable {c₁ c₂ : Context ω}

theorem Calm.nil : Calm [] := fun _ => not_mem_nil

theorem Calm.append {t t₁ : List Event} (h : Calm t) (h₁ : Calm t₁) : Calm (t ++ t₁) := by
  intro i hi
  exact (mem_append.mp hi).elim (h i) (h₁ i)

theorem Settles.refl (c : Context ω) : Settles c c :=
  ⟨[], [], .refl c, .nil, nofun, .inr .nil⟩

/-- Acts are allowed at any time. -/
theorem Settles.act (h : Settles c c₁) (who : Option ℕ) (a : Act) : Settles c (c₁.act who a) := by
  obtain ⟨loud, quiet, hext, hloud, hquiet, hflag⟩ := h
  refine ⟨loud, quiet ++ [.did who a], ?_, hloud, ?_, ?_⟩
  · rw [← append_assoc]
    exact hext.trans (.act who c₁ a)
  · exact forall_mem_append.mpr ⟨hquiet, forall_mem_singleton.mpr ⟨who, a, rfl⟩⟩
  · cases a with
    | abort => exact .inl (by simp [Context.act])
    | other =>
      rcases hflag with hflag | hcalm
      · exact .inl (by simp [Context.act, hflag])
      · exact .inr (hcalm.append fun i hi => by simp at hi)

/-- As long as the flag is not set, bodies may be entered. -/
theorem Settles.trans (h : Settles c c₁) (hc₁ : c₁.aborted = false) (h₁ : Settles c₁ c₂) :
    Settles c c₂ := by
  obtain ⟨loud, quiet, hext, hloud, -, hflag⟩ := h
  obtain ⟨loud₁, quiet₁, hext₁, hloud₁, hquiet₁, hflag₁⟩ := h₁
  have hcalm : Calm quiet := by
    rcases hflag with hflag | hcalm
    · rw [hc₁] at hflag
      cases hflag
    · exact hcalm
  refine ⟨(loud ++ quiet) ++ loud₁, quiet₁, ?_, (hloud.append hcalm).append hloud₁, hquiet₁, hflag₁⟩
  rw [append_assoc]
  exact hext.trans hext₁

theorem Settles.enter (c : Context ω) (e : Event) (he : Calm [e]) : Settles c (c.enter e) :=
  ⟨[e], [], .enter c e, he, nofun, .inr .nil⟩

variable {s : Context ω × Option String}

/-- A middleware in front of another one: a call of `next` does something only before `Abort`. -/
theorem settles_steps (hguard : ∀ c : Context ω, c.aborted = true → next c = (c, none))
    (hs : Settles c s.1)
    (hnext : s.1.aborted = true ∨ ((∃ before after, steps = before ++ .next :: after ∧
      ∀ x ∈ before, x = .act .other) → ∀ c, Settles c (next c).1)) :
    Settles c (steps.foldl (doStep i next) s).1 := by
  induction steps generalizing s with
  | nil => exact hs
  | cons step steps ih =>
    cases step with
    | act a =>
      refine ih (s := (s.1.act (some i) a, s.2)) (hs.act (some i) a) ?_
      cases a with
      | abort => exact .inl (by simp [act])
      | other =>
        refine hnext.imp (fun hc => by simp [act, hc]) fun h => ?_
        rintro ⟨before, after, rfl, hbefore⟩
        exact h ⟨.act .other :: before, after, rfl, forall_mem_cons.mpr ⟨rfl, hbefore⟩⟩
    | next =>
      cases hc : s.1.aborted with
      | true =>
        have hsame : doStep i next s .next = (s.1, none) := hguard s.1 hc
        rw [foldl_cons, hsame]
        exact ih (s := (s.1, none)) hs (.inl hc)
      | false =>
        have hall : ∀ c, Settles c (next c).1 := by
          rcases hnext with htrue | h
          · rw [hc] at htrue
            cases htrue
          · exact h ⟨[], steps, rfl, nofun⟩
        exact ih (s := next s.1) (hs.trans hc (hall s.1)) (.inr fun _ => hall)

theorem guarded_of_aborted {f : HandlerFunc ω} (hc : c.aborted = true) : guarded f c = (c, none) :=
  if_pos hc

variable {h : Handler ω}

/-- Steps without `Abort` in front of the handler. -/
theorem calm_steps (hsteps : .act .abort ∉ steps) (s : Context ω × Option String) :
    ∃ t, Extends s.1 (steps.foldl (doStep i (adapterFunc h)) s).1 t ∧ Calm t := by
  induction steps generalizing s with
  | nil => exact ⟨[], .refl _, .nil⟩
  | cons step steps ih =>
    rw [mem_cons, not_or] at hsteps
    obtain ⟨t₁, h₁, hcalm₁⟩ := ih hsteps.2 (doStep i (adapterFunc h) s step)
    cases step with
    | act a =>
      refine ⟨_, (Extends.act (some i) s.1 a).trans h₁, Calm.append (fun j hj => ?_) hcalm₁⟩
      simp only [mem_singleton, Event.did.injEq] at hj
      exact hsteps.1 (by rw [hj.2])
    | next =>
      refine ⟨_, (extends_adapterFunc h s.1).trans h₁, Calm.append (fun j hj => ?_) hcalm₁⟩
      -- the handler's own `Abort` is not one of a middleware
      simp at hj

/-- Steps without a call of `next`. -/
theorem settles_acts (hsteps : .next ∉ steps) (hs : Settles c s.1) :
    Settles c (steps.foldl (doStep i next) s).1 := by
  induction steps generalizing s with
  | nil => exact hs
  | cons step steps ih =>
    rw [mem_cons, not_or] at hsteps
    cases step with
    | act a => exact ih hsteps.2 (s := (s.1.act (some i) a, s.2)) (hs.act (some i) a)
    | next => exact absurd rfl hsteps.1

/-- The last middleware, if it does not call `next` after `Abort`. -/
theorem settles_last (hscript : ¬ script.Defies) (s : Context ω × Option String) :
    Settles s.1 (script.steps.foldl (doStep i (adapterFunc h)) s).1 := by
  by_cases habort : .act .abort ∈ script.steps
  · obtain ⟨before, after, hsplit, hbefore⟩ := eq_append_cons_of_mem habort
    have hafter : .next ∉ after := fun hnext => hscript ⟨before, after, hsplit, hnext⟩
    obtain ⟨t, hext, hcalm⟩ := calm_steps (i := i) (h := h) hbefore s
    have hstart : Settles s.1 (before.foldl (doStep i (adapterFunc h)) s).1 :=
      ⟨t, [], by rwa [append_nil], hcalm, nofun, .inr .nil⟩
    rw [hsplit, foldl_append, foldl_cons]
    exact settles_acts hafter (hstart.act (some i) .abort)
  · obtain ⟨t, hext, hcalm⟩ := calm_steps (i := i) (h := h) habort s
    exact ⟨t, [], by rwa [append_nil], hcalm, nofun, .inr .nil⟩

/-- A chain in which the last middleware is not reached, or does not call `next` after `Abort`. -/
theorem settles_chainFrom (hchain : (∀ mw ∈ ms, mw.MayPassOn) → ¬ m.MayDefy) (i : ℕ)
    (c : Context ω) : Settles c (chainFrom h i (ms ++ [m]) c).1 := by
  induction ms generalizing i c with
  | nil =>
    have hm : ¬ m.MayDefy := hchain nofun
    rw [nil_append, chainFrom, guarded]
    split_ifs with hc
    · exact .refl c
    · have hscript : ¬ (m.body (c.fate c.calls)).Defies := fun hdefies => hm ⟨_, hdefies⟩
      have hbody := settles_last (i := i) (h := h) hscript (c.enter (.entered i m.name), none)
      exact (Settles.enter c _ fun j hj => by simp at hj).trans (Bool.eq_false_iff.mpr hc) hbody
  | cons m₀ ms ih =>
    rw [cons_append, chainFrom, guarded]
    split_ifs with hc
    · exact .refl c
    · refine (Settles.enter c (.entered i m₀.name) fun j hj => by simp at hj).trans
        (Bool.eq_false_iff.mpr hc) ?_
      refine settles_steps ?_ (.refl _) (.inr fun hpasses => ?_)
      · intro c hc
        cases ms <;> exact guarded_of_aborted hc
      · refine ih (fun hms => hchain (forall_mem_cons.mpr ⟨⟨_, hpasses⟩, hms⟩)) (i + 1)

/-- Nothing is entered after `Abort` if the execution settles. -/
theorem stopsAtAbort_of_settles (h : Settles c c₁) (hc : c.trace = [])
    (ht : c₁.trace = t) : StopsAtAbort t := by
  obtain ⟨loud, quiet, hext, hloud, hquiet, -⟩ := h
  rw [hext.trace, hc, nil_append] at ht
  intro before i after hsplit
  rw [← ht] at hsplit
  -- the call of `Abort` is behind the calm part, so that what follows is quiet
  have hafter : ∀ e ∈ after, e ∈ quiet := by
    rcases append_eq_append_iff.mp hsplit with ⟨r, rfl, hr⟩ | ⟨r, rfl, hr⟩
    · intro e he
      rw [hr]
      exact mem_append_right _ (mem_cons_of_mem _ he)
    · obtain _ | ⟨x, r⟩ := r
      · intro e he
        have hquiet_eq : .did (some i) .abort :: after = quiet := hr
        rw [← hquiet_eq]
        exact mem_cons_of_mem _ he
      · obtain ⟨rfl, -⟩ := List.cons.inj hr
        exact absurd (mem_append_right _ mem_cons_self) (hloud i)
  refine ⟨fun j name hj => ?_, fun name hname => ?_⟩
  · obtain ⟨who, a, heq⟩ := hquiet _ (hafter _ hj)
    cases heq
  · obtain ⟨who, a, heq⟩ := hquiet _ (hafter _ hname)
    cases heq

end Settles

/-! ### An execution that goes on -/

/-- The handler is entered after a middleware has called `Abort`. -/
def GoesOn (t : List Event) : Prop :=
  ∃ before i between name after,
    t = before ++ .did (some i) .abort :: (between ++ .handled name :: after)

theorem GoesOn.append (h : GoesOn t) (x y : List Event) : GoesOn (x ++ (t ++ y)) := by
  obtain ⟨before, i, between, name, after, rfl⟩ := h
  exact ⟨x ++ before, i, between, name, after ++ y, by simp⟩

theorem GoesOn.not_stopsAtAbort (h : GoesOn t) : ¬ StopsAtAbort t := by
  obtain ⟨before, i, between, name, after, rfl⟩ := h
  intro hstops
  exact (hstops before i _ rfl).2 name (mem_append_right _ mem_cons_self)

section GoesOn

variable {h : Handler ω}

/-- Acts other than `Abort` leave the flag and the circumstances to come. -/
theorem foldl_doStep_other (hsteps : ∀ s ∈ steps, s = .act .other) (s : Context ω × Option String) :
    ∃ t, Extends s.1 (steps.foldl (doStep i next) s).1 t ∧ (∀ e ∈ t, e = .did (some i) .other) ∧
      (steps.foldl (doStep i next) s).1.aborted = s.1.aborted ∧
      (steps.foldl (doStep i next) s).1.calls = s.1.calls := by
  induction steps generalizing s with
  | nil => exact ⟨[], .refl _, nofun, rfl, rfl⟩
  | cons step steps ih =>
    obtain ⟨rfl, hrest⟩ := forall_mem_cons.mp hsteps
    obtain ⟨t, hext, ht, haborted, hcalls⟩ := ih hrest (s.1.act (some i) .other, s.2)
    refine ⟨_, (Extends.act (some i) s.1 .other).trans hext,
      forall_mem_cons.mpr ⟨rfl, ht⟩, haborted.trans ?_, hcalls⟩
    simp [act]

/-- The circumstances that the calls to come find. -/
def Finds (c : Context ω) (ws : List ω) : Prop :=
  ∀ k w, ws[k]? = some w → c.fate (c.calls + k) = w

variable {w : ω} {ws : List ω}

theorem Finds.head (h : Finds c (w :: ws)) : c.fate c.calls = w := h 0 w rfl

/-- What is left for the calls behind the one that is entered. -/
theorem Finds.tail {c c₁ : Context ω} (h : Finds c (w :: ws))
    (hfate : c₁.fate = c.fate) (hcalls : c₁.calls = c.calls + 1) : Finds c₁ ws := by
  intro k w₁ hk
  rw [hfate, hcalls, Nat.add_assoc, Nat.add_comm 1 k]
  exact h (k + 1) w₁ hk

/-- The last middleware calls `next` after `Abort`. -/
theorem goesOn_last (hscript : script.Defies) (s : Context ω × Option String) :
    ∃ t, Extends s.1 (script.steps.foldl (doStep i (adapterFunc h)) s).1 t ∧ GoesOn t := by
  obtain ⟨before, after, hsplit, hnext⟩ := hscript
  obtain ⟨between, after, rfl⟩ := append_of_mem hnext
  have hadds : Adds (adapterFunc h) := fun c => ⟨_, extends_adapterFunc h c⟩
  rw [hsplit, foldl_append, foldl_cons, foldl_append, foldl_cons]
  obtain ⟨t₁, h₁⟩ := exists_extends_steps (i := i) hadds before s
  obtain ⟨t₂, h₂⟩ := exists_extends_steps (i := i) hadds between
    (doStep i (adapterFunc h) (before.foldl (doStep i (adapterFunc h)) s) (.act .abort))
  obtain ⟨t₃, h₃⟩ := exists_extends_steps (i := i) hadds after (doStep i (adapterFunc h)
    (between.foldl (doStep i (adapterFunc h)) (doStep i (adapterFunc h)
      (before.foldl (doStep i (adapterFunc h)) s) (.act .abort))) .next)
  refine ⟨_, h₁.trans ((Extends.act (some i) _ .abort).trans
    (h₂.trans ((extends_adapterFunc h _).trans h₃))), t₁, i, t₂, h.name, _, rfl⟩

/-- If every middleware may let the request pass and the last one may call `next` after `Abort`,
there are circumstances in which the handler runs after `Abort`. -/
theorem exists_goesOn (hms : ∀ mw ∈ ms, mw.MayPassOn) (hm : m.MayDefy) :
    ∃ ws : List ω, ws ≠ [] ∧ ∀ i c, c.aborted = false → Finds c ws →
      ∃ t, Extends c (chainFrom h i (ms ++ [m]) c).1 t ∧ GoesOn t := by
  induction ms with
  | nil =>
    obtain ⟨w, hw⟩ := hm
    refine ⟨[w], cons_ne_nil _ _, fun i c hc hws => ?_⟩
    rw [← hws.head] at hw
    obtain ⟨t, hext, ht⟩ := goesOn_last (i := i) (h := h) hw (c.enter (.entered i m.name), none)
    rw [nil_append, chainFrom, guarded, if_neg (Bool.eq_false_iff.mp hc)]
    refine ⟨_, (Extends.enter c (.entered i m.name)).trans hext, ?_⟩
    simpa using ht.append [.entered i m.name] []
  | cons m₀ ms ih =>
    obtain ⟨⟨w, hw⟩, hms⟩ := forall_mem_cons.mp hms
    obtain ⟨ws, -, hws⟩ := ih hms
    refine ⟨w :: ws, cons_ne_nil _ _, fun i c hc hfinds => ?_⟩
    rw [← hfinds.head] at hw
    obtain ⟨before, after, hsplit, hbefore⟩ := hw
    have hadds := adds_chainFrom h (i + 1) (ms ++ [m])
    -- the acts before the call of `next`, the call, and the rest of the body
    obtain ⟨t₁, h₁, -, haborted, hcalls⟩ := @foldl_doStep_other _ i
      (chainFrom h (i + 1) (ms ++ [m])) _ hbefore (c.enter (.entered i m₀.name), none)
    obtain ⟨t₂, h₂, ht₂⟩ := hws (i + 1) _ (haborted.trans hc) (hfinds.tail h₁.fate hcalls)
    obtain ⟨t₃, h₃⟩ := exists_extends_steps (i := i) hadds after (chainFrom h (i + 1) (ms ++ [m])
      (before.foldl (doStep i (chainFrom h (i + 1) (ms ++ [m])))
        (c.enter (.entered i m₀.name), none)).1)
    rw [cons_append, chainFrom, guarded, if_neg (Bool.eq_false_iff.mp hc)]
    simp only [adapterMiddleware, hsplit, foldl_append, foldl_cons]
    refine ⟨_, (Extends.enter c (.entered i m₀.name)).trans (h₁.trans (h₂.trans h₃)), ?_⟩
    simpa using ht₂.append (.entered i m₀.name :: t₁) t₃

end GoesOn

/-- **When `Abort` stops the chain.** In every execution of a chain nothing behind is entered once a
middleware has called `Abort`, if and only if the last middleware cannot be reached or never calls
`next` after its own `Abort`: the guard is around the middlewares, and not around the handler. -/
theorem abort_stops_iff (h : Handler ω) (ms : List (Middleware ω)) (m : Middleware ω) :
    (∀ F ∈ chain (some h) (ms ++ [m]), ∀ fate, StopsAtAbort (F (.new fate)).1.trace) ↔
      ((∀ mw ∈ ms, mw.MayPassOn) → ¬ m.MayDefy) := by
  constructor
  · intro hstops hms hm
    obtain ⟨ws, hne, hws⟩ := exists_goesOn (h := h) hms hm
    obtain ⟨w, ws, rfl⟩ := exists_cons_of_ne_nil hne
    have hfinds : Finds (new fun k => ((w :: ws)[k]?).getD w) (w :: ws) := by
      intro k w₁ hk
      simp only [new, Nat.zero_add, hk, Option.getD_some]
    obtain ⟨t, hext, ht⟩ := hws 0 _ rfl hfinds
    have htrace := hstops _ rfl fun k => ((w :: ws)[k]?).getD w
    rw [hext.trace] at htrace
    exact ht.not_stopsAtAbort htrace
  · intro hchain F hF fate
    obtain rfl := Option.some_inj.mp hF
    exact stopsAtAbort_of_settles (settles_chainFrom hchain 0 (.new fate)) rfl rfl

/-- A middleware that answers by itself and calls `next` all the same. -/
def careless : Middleware Unit := ⟨"auth", fun _ => ⟨[.act .abort, .next], id⟩⟩

/-- The handler of a page. -/
def secret : Handler Unit := ⟨"secret", fun _ => ([.other], none)⟩

/-- One middleware that aborts and goes on: the handler runs. -/
theorem careless_goes_on :
    (chainFrom secret 0 [careless] (.new fun _ => ())).1.trace =
      [.entered 0 "auth", .did (some 0) .abort, .handled "secret", .did none .other] ∧
    ¬ ∀ F ∈ chain (some secret) [careless], ∀ fate, StopsAtAbort (F (.new fate)).1.trace := by
  have htrace : (chainFrom secret 0 [careless] (.new fun _ => ())).1.trace =
      [.entered 0 "auth", .did (some 0) .abort, .handled "secret", .did none .other] := rfl
  refine ⟨htrace, fun hstops => ?_⟩
  have h := hstops _ rfl fun _ => ()
  exact (h [.entered 0 "auth"] 0 _ htrace).2 "secret" mem_cons_self

/-! ### Executions in which everything passes -/

/-- The body calls `next` once and does not call `Abort`. -/
def Script.Once (script : Script) : Prop :=
  ∃ before after, script.steps = before ++ .next :: after ∧ (∀ s ∈ before, s = .act .other) ∧
    ∀ s ∈ after, s = .act .other

/-- A body is entered. -/
def Event.isEntry : Event → Bool
  | .did _ _ => false
  | _ => true

theorem filter_isEntry_did (h : ∀ e ∈ t, ∃ who a, e = .did who a) :
    t.filter Event.isEntry = [] := by
  rw [filter_eq_nil_iff]
  intro e he
  obtain ⟨who, a, rfl⟩ := h e he
  exact Bool.false_ne_true

/-- Where every middleware calls `next` once, all bodies are entered in their order, and the handler
after them. -/
theorem entries_chainFrom (h : Handler ω) (hc : c.aborted = false)
    (honce : ∀ (k : ℕ) (m : Middleware ω), ms[k]? = some m → (m.body (c.fate (c.calls + k))).Once) :
    ∃ t, Extends c (chainFrom h i ms c).1 t ∧
      t.filter Event.isEntry =
        (ms.mapIdx fun k m => .entered (i + k) m.name) ++ [.handled h.name] := by
  induction ms generalizing i c with
  | nil =>
    refine ⟨_, extends_adapterFunc h c, ?_⟩
    rw [filter_cons_of_pos rfl, filter_isEntry_did]
    · rfl
    · intro e he
      obtain ⟨a, -, rfl⟩ := mem_map.mp he
      exact ⟨none, a, rfl⟩
  | cons m ms ih =>
    obtain ⟨before, after, hsplit, hbefore, hafter⟩ := honce 0 m rfl
    obtain ⟨t₁, h₁, ht₁, haborted, hcalls⟩ := @foldl_doStep_other _ i
      (chainFrom h (i + 1) ms) _ hbefore (c.enter (.entered i m.name), none)
    obtain ⟨t₂, h₂, ht₂⟩ := ih (i := i + 1) (haborted.trans hc) (fun k m' hk => by
      rw [h₁.fate, hcalls]
      have hm' := honce (k + 1) m' hk
      rwa [← Nat.add_assoc, Nat.add_right_comm] at hm')
    obtain ⟨t₃, h₃, ht₃, -⟩ := @foldl_doStep_other _ i (chainFrom h (i + 1) ms) _ hafter
      (chainFrom h (i + 1) ms (before.foldl (doStep i (chainFrom h (i + 1) ms))
        (c.enter (.entered i m.name), none)).1)
    rw [chainFrom, guarded, if_neg (Bool.eq_false_iff.mp hc)]
    rw [Nat.add_zero] at hsplit
    simp only [adapterMiddleware, hsplit, foldl_append, foldl_cons]
    refine ⟨_, (Extends.enter c (.entered i m.name)).trans (h₁.trans (h₂.trans h₃)), ?_⟩
    rw [singleton_append, filter_cons_of_pos rfl, filter_append, filter_append,
      filter_isEntry_did fun e he => ⟨_, _, ht₁ e he⟩,
      filter_isEntry_did fun e he => ⟨_, _, ht₃ e he⟩, ht₂, nil_append, append_nil,
      mapIdx_cons, cons_append]
    simp only [Nat.add_assoc, Nat.add_comm 1, Nat.add_zero]

end Kiya.Router
