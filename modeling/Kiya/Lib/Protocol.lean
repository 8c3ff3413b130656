import Mathlib.Logic.Function.Basic
import Mathlib.Logic.Relation
import Kiya.Lib.Prog

/-!
# Clients that obey a protocol

Several programs that issue requests run against one shared state, a request at a time, in any
order. `Step` is one request of one client; the answers and their effect are given by a relation, so
that a request which has to wait has no answer, and one that may fail has several.

A `Protocol` is what one client has to respect: the requests that are allowed in each phase, and
the phases that an answer leads to. `Obeys` says that a program respects it whatever the answers
are, and is proved by rules that follow the program, without regard to other clients. A
`Simulation` ties the phases to the shared state and says that a request of one client leaves the
phases of the others true; it is proved request by request, without regard to the programs.
`Simulation.invariant` puts the two together for every interleaving.
-/

/-- The requests a client may issue in each phase, and what an answer tells it. -/
structure Protocol (C : Type) (R : C → Type) (Φ : Type) where
  allowed : C → Φ → Prop
  step : (c : C) → Φ → R c → Φ → Prop

namespace Prog

variable {C : Type} {R : C → Type} {Φ α β ε : Type} {P : Protocol C R Φ}

/-- From phase `φ` on, every request is allowed, and the result satisfies `Q` with the last
phase. -/
def Obeys (P : Protocol C R Φ) : Prog C R α → Φ → (α → Φ → Prop) → Prop
  | .ret a, φ, Q => Q a φ
  | .call c k, φ, Q => P.allowed c φ ∧ ∀ r φ', P.step c φ r φ' → (k r).Obeys P φ' Q

variable {p : Prog C R α} {φ : Φ}

theorem Obeys.mono {Q Q' : α → Φ → Prop} (h : p.Obeys P φ Q)
    (hQ : ∀ a φ', Q a φ' → Q' a φ') : p.Obeys P φ Q' := by
  induction p generalizing φ with
  | ret a => exact hQ a φ h
  | call c k ih => exact ⟨h.1, fun r φ' hstep => ih r (h.2 r φ' hstep)⟩

theorem Obeys.bind {f : α → Prog C R β} {Q : β → Φ → Prop}
    (h : p.Obeys P φ fun a φ' => (f a).Obeys P φ' Q) : (p >>= f).Obeys P φ Q := by
  induction p generalizing φ with
  | ret a => exact h
  | call c k ih => exact ⟨h.1, fun r φ' hstep => ih r (h.2 r φ' hstep)⟩

variable {f : α → ExceptT ε (Prog C R) β} {Q : Except ε β → Φ → Prop}

/-- The rule of sequence for programs that can fail. -/
theorem Obeys.bindExcept {m : ExceptT ε (Prog C R) α} (h : m.run.Obeys P φ fun res φ' =>
      match res with
      | .ok a => (f a).run.Obeys P φ' Q
      | .error e => Q (.error e) φ') : (m >>= f).run.Obeys P φ Q := by
  refine Obeys.bind (h.mono fun res φ' hres => ?_)
  cases res with
  | ok | error => exact hres

/-- A part whose failure is not that of the whole program. -/
theorem Obeys.liftBind (h : p.Obeys P φ fun a φ' => (f a).run.Obeys P φ' Q) :
    (ExceptT.lift p >>= f).run.Obeys P φ Q := by
  have hrun : (ExceptT.lift p >>= f).run = p >>= fun a => (f a).run := by
    simp [ExceptT.run_bind, ExceptT.run_lift]
  rw [hrun]
  exact Obeys.bind h

end Prog

namespace Interleaving

variable {ι C : Type} {R : C → Type} {Φ α σ : Type} [DecidableEq ι]

/-- What is left to do for each client, and the shared state. -/
structure Config (ι C : Type) (R : C → Type) (α σ : Type) where
  progs : ι → Prog C R α
  shared : σ

/-- One request of one client is answered. -/
inductive Step (answers : ι → (c : C) → σ → R c → σ → Prop) :
    Config ι C R α σ → Config ι C R α σ → Prop
  | call {cfg : Config ι C R α σ} {i : ι} {c : C} {k : R c → Prog C R α} {r : R c} {s' : σ}
      (hprog : cfg.progs i = .call c k) (hanswer : answers i c cfg.shared r s') :
      Step answers cfg ⟨Function.update cfg.progs i (k r), s'⟩

/-- The configurations that a run from `cfg` can reach. -/
def Reaches (answers : ι → (c : C) → σ → R c → σ → Prop) :
    Config ι C R α σ → Config ι C R α σ → Prop :=
  Relation.ReflTransGen (Step answers)

/-- Let one client go on, if it has a request and the request is answered. -/
def Config.advance (serve : ι → (c : C) → σ → Option (R c × σ)) (cfg : Config ι C R α σ) (i : ι) :
    Config ι C R α σ :=
  match cfg.progs i with
  | .ret _ => cfg
  | .call c k =>
    match serve i c cfg.shared with
    | none => cfg
    | some (r, s') => ⟨Function.update cfg.progs i (k r), s'⟩

/-- Runs by a schedule of clients are among those that can be reached. -/
theorem reaches_foldl_advance {answers : ι → (c : C) → σ → R c → σ → Prop}
    {serve : ι → (c : C) → σ → Option (R c × σ)}
    (hserve : ∀ {i c s r s'}, serve i c s = some (r, s') → answers i c s r s')
    (schedule : List ι) (cfg : Config ι C R α σ) :
    Reaches answers cfg (schedule.foldl (Config.advance serve) cfg) := by
  induction schedule generalizing cfg with
  | nil => exact .refl
  | cons i schedule ih =>
    have hstep : Reaches answers cfg (cfg.advance serve i) := by
      unfold Config.advance
      split
      · exact .refl
      · rename_i c k hprog
        split
        · exact .refl
        · rename_i r s' hanswer
          exact .single (.call hprog (hserve hanswer))
    exact hstep.trans (ih _)

/-- What phases say about the shared state (`Holds`), next to a property `G` of the shared state, is
kept by every request that is allowed: the client itself goes on to a next phase, and the phases
of the others stay true. -/
structure Simulation (answers : ι → (c : C) → σ → R c → σ → Prop) (P : ι → Protocol C R Φ)
    (G : σ → Prop) (Holds : ι → Φ → σ → Prop) : Prop where
  self : ∀ {i c s r s' φ}, G s → Holds i φ s → (P i).allowed c φ → answers i c s r s' →
    G s' ∧ ∃ φ', (P i).step c φ r φ' ∧ Holds i φ' s'
  others : ∀ {i c s r s' φ}, G s → Holds i φ s → (P i).allowed c φ → answers i c s r s' →
    ∀ {j ψ}, j ≠ i → Holds j ψ s → Holds j ψ s'

variable {answers : ι → (c : C) → σ → R c → σ → Prop} {P : ι → Protocol C R Φ} {G : σ → Prop}
  {Holds : ι → Φ → σ → Prop}

/-- `G` holds, and every client is in a phase from which it obeys its protocol. -/
def Inv (P : ι → Protocol C R Φ) (G : σ → Prop) (Holds : ι → Φ → σ → Prop)
    (Q : ι → α → Φ → Prop) (cfg : Config ι C R α σ) : Prop :=
  G cfg.shared ∧ ∀ i, ∃ φ, Holds i φ cfg.shared ∧ (cfg.progs i).Obeys (P i) φ (Q i)

variable {cfg cfg' : Config ι C R α σ}

theorem Simulation.inv_step (h : Simulation answers P G Holds) {Q : ι → α → Φ → Prop}
    (hinv : Inv P G Holds Q cfg) (hstep : Step answers cfg cfg') : Inv P G Holds Q cfg' := by
  obtain ⟨hG, hclients⟩ := hinv
  cases hstep with
  | @call i c k r s' hprog hanswer =>
    obtain ⟨φ, hφ, hobeys⟩ := hclients i
    rw [hprog] at hobeys
    obtain ⟨hallowed, hnext⟩ := hobeys
    obtain ⟨hG', φ', hφstep, hφ'⟩ := h.self hG hφ hallowed hanswer
    refine ⟨hG', fun j => ?_⟩
    by_cases hj : j = i
    · subst hj
      refine ⟨φ', hφ', ?_⟩
      simp only [Function.update_self]
      exact hnext r φ' hφstep
    · obtain ⟨ψ, hψ, hobeysj⟩ := hclients j
      refine ⟨ψ, h.others hG hφ hallowed hanswer hj hψ, ?_⟩
      simp only [Function.update_of_ne hj]
      exact hobeysj

/-- **Every interleaving.** What holds at the beginning, and of the protocols, holds whenever a run
stops. -/
theorem Simulation.invariant (h : Simulation answers P G Holds) {Q : ι → α → Φ → Prop}
    (hinit : Inv P G Holds Q cfg) (hreach : Reaches answers cfg cfg') : Inv P G Holds Q cfg' := by
  induction hreach with
  | refl => exact hinit
  | tail _ hstep ih => exact h.inv_step ih hstep

end Interleaving
