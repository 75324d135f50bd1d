import Mathlib.Logic.Function.Basic
import Bnfs.TheoryRuns

/-! Atomic objects. A request is called, does what its operation means in one moment, and returns the reply it got
then; it may also be lost, before that moment or after. A system is linearizable if its runs are runs of such an
object, with the same calls and returns in the same order. States, requests and operations are arbitrary types. -/

namespace Atomic

open Runs

variable {State Proc Op Reply : Type}

/-- Where a request stands. -/
inductive Phase (Reply : Type) where
  | idle
  | called
  | done (reply : Reply)
  | returned (reply : Reply)
  | lost

structure Object (State Proc Reply : Type) where
  state : State
  phase : Proc → Phase Reply

/-- What happens. An operation that is no request of its own is called, done and returned at once. -/
inductive Label (Proc Op Reply : Type) where
  | call (p : Proc)
  | perform (p : Proc)
  | returns (p : Proc)
  | loses (p : Proc)
  | once (o : Op) (reply : Reply)

variable [DecidableEq Proc]

def Object.enter (s : Object State Proc Reply) (p : Proc) (phase : Phase Reply) : Object State Proc Reply :=
  { s with phase := Function.update s.phase p phase }

theorem Object.enter_phase_self (s : Object State Proc Reply) (p : Proc) (phase : Phase Reply) :
    (s.enter p phase).phase p = phase := by simp only [enter, Function.update_self]

theorem Object.enter_phase_of_ne (s : Object State Proc Reply) {p q : Proc} (phase : Phase Reply) (h : q ≠ p) :
    (s.enter p phase).phase q = s.phase q := by simp only [enter, Function.update_of_ne h]

theorem Object.enter_of_phase (s : Object State Proc Reply) {p : Proc} {phase : Phase Reply} (h : s.phase p = phase) :
    s.enter p phase = s := by rw [enter, ← h, Function.update_eq_self]

section Steps

variable (op : Proc → Op) (sem : Op → State → State → Reply → Prop)

inductive Step : Object State Proc Reply → Label Proc Op Reply → Object State Proc Reply → Prop
  | call {s p} (h : s.phase p = .idle) : Step s (.call p) (s.enter p .called)
  | perform {s p state reply} (h : s.phase p = .called) (hsem : sem (op p) s.state state reply) :
      Step s (.perform p) { s.enter p (.done reply) with state := state }
  | returns {s p reply} (h : s.phase p = .done reply) : Step s (.returns p) (s.enter p (.returned reply))
  | loses {s p} (h : s.phase p = .called ∨ ∃ reply, s.phase p = .done reply) : Step s (.loses p) (s.enter p .lost)
  | once {s o state reply} (hsem : sem o s.state state reply) : Step s (.once o reply) { s with state := state }

variable {op sem} in
/-- A request that has its moment and returns at once. -/
theorem perform_returns {s : Object State Proc Reply} {p : Proc} {state : State} {reply : Reply}
    (h : s.phase p = .called) (hsem : sem (op p) s.state state reply) :
    ∃ trace, Run (Step op sem) s trace { s.enter p (.returned reply) with state := state } ∧
      trace.map Prod.snd = [.returns p, .perform p] := by
  have hdone : ({ s.enter p (.done reply) with state := state } : Object State Proc Reply).phase p = .done reply :=
    Object.enter_phase_self s p _
  have htwice : (({ s.enter p (.done reply) with state := state } : Object State Proc Reply).enter p (.returned reply)) =
      { s.enter p (.returned reply) with state := state } := by
    simp only [Object.enter, Function.update_idem]
  have hrun := Run.cons (Run.cons .nil (Step.perform h hsem)) (Step.returns hdone)
  rw [htwice] at hrun
  exact ⟨_, hrun, rfl⟩

/-- The moment of a request: after its call, and the only one of the run, its operation gave this reply. -/
def Moment (p : Proc) (reply : Reply) (trace : List (Object State Proc Reply × Label Proc Op Reply)) : Prop :=
  ∃ after s state before, trace = after ++ (s, .perform p) :: before ∧ sem (op p) s.state state reply ∧
    (∃ entry ∈ before, entry.2 = .call p) ∧ ∀ entry ∈ after ++ before, entry.2 ≠ .perform p

/-- What a run has done for a request, by where that stands. -/
def Served (p : Proc) (trace : List (Object State Proc Reply × Label Proc Op Reply)) : Phase Reply → Prop
  | .idle => ∀ entry ∈ trace, entry.2 ≠ .perform p
  | .called => (∃ entry ∈ trace, entry.2 = .call p) ∧ ∀ entry ∈ trace, entry.2 ≠ .perform p
  | .done reply => Moment op sem p reply trace
  | .returned reply => Moment op sem p reply trace
  | .lost => True

variable {op sem} {p : Proc} {s t : Object State Proc Reply} {label : Label Proc Op Reply}
  {trace : List (Object State Proc Reply × Label Proc Op Reply)}

omit [DecidableEq Proc] in
theorem Moment.cons {reply : Reply} (h : Moment op sem p reply trace)
    {entry : Object State Proc Reply × Label Proc Op Reply} (hentry : entry.2 ≠ .perform p) :
    Moment op sem p reply (entry :: trace) := by
  obtain ⟨after, s, state, before, rfl, hsem, hcall, hnot⟩ := h
  refine ⟨entry :: after, s, state, before, rfl, hsem, hcall, fun other hmem => ?_⟩
  rcases List.mem_cons.mp hmem with rfl | hmem
  · exact hentry
  · exact hnot other hmem

omit [DecidableEq Proc] in
/-- What is done for another request, or for none, does not count. -/
theorem Served.cons {phase : Phase Reply} (h : Served op sem p trace phase)
    {entry : Object State Proc Reply × Label Proc Op Reply} (hentry : entry.2 ≠ .perform p) :
    Served op sem p (entry :: trace) phase := by
  have hnone : (∀ other ∈ trace, other.2 ≠ .perform p) → ∀ other ∈ entry :: trace, other.2 ≠ .perform p := by
    intro hnot other hmem
    rcases List.mem_cons.mp hmem with rfl | hmem
    · exact hentry
    · exact hnot other hmem
  cases phase with
  | idle => exact hnone h
  | called =>
      obtain ⟨⟨call, hmem, hcall⟩, hnot⟩ := h
      exact ⟨⟨call, List.mem_cons_of_mem _ hmem, hcall⟩, hnone hnot⟩
  | done reply => exact Moment.cons h hentry
  | returned reply => exact Moment.cons h hentry
  | lost => trivial

theorem Served.step (h : Served op sem p trace (s.phase p)) (hstep : Step op sem s label t) :
    Served op sem p ((s, label) :: trace) (t.phase p) := by
  cases hstep with
  | @call q hq =>
      by_cases hp : p = q
      · subst hp
        rw [hq] at h
        rw [Object.enter_phase_self]
        refine ⟨⟨_, List.mem_cons_self, rfl⟩, fun entry hmem => ?_⟩
        rcases List.mem_cons.mp hmem with rfl | hmem
        · exact fun heq => by cases heq
        · exact h entry hmem
      · rw [Object.enter_phase_of_ne _ _ hp]
        exact h.cons fun heq => by cases heq
  | @perform q state reply hq hsem =>
      by_cases hp : p = q
      · subst hp
        rw [hq] at h
        have hphase : (s.enter p (.done reply)).phase p = .done reply := Object.enter_phase_self s p _
        show Served op sem p _ ((s.enter p (.done reply)).phase p)
        rw [hphase]
        exact ⟨[], s, state, trace, rfl, hsem, h.1, h.2⟩
      · have hphase : (s.enter q (.done reply)).phase p = s.phase p := Object.enter_phase_of_ne s _ hp
        show Served op sem p _ ((s.enter q (.done reply)).phase p)
        rw [hphase]
        exact h.cons fun heq => hp (Label.perform.inj heq).symm
  | @returns q reply hq =>
      by_cases hp : p = q
      · subst hp
        rw [hq] at h
        rw [Object.enter_phase_self]
        exact Moment.cons h fun heq => by cases heq
      · rw [Object.enter_phase_of_ne _ _ hp]
        exact h.cons fun heq => by cases heq
  | @loses q hq =>
      by_cases hp : p = q
      · subst hp
        rw [Object.enter_phase_self]
        trivial
      · rw [Object.enter_phase_of_ne _ _ hp]
        exact h.cons fun heq => by cases heq
  | once => exact h.cons fun heq => by cases heq

/-- A reply that was returned was given at one moment after the call, by the state there was then. -/
theorem moment_of_returned {start : Object State Proc Reply} (hrun : Run (Step op sem) start trace t)
    (hstart : start.phase p = .idle) {reply : Reply} (hreply : t.phase p = .returned reply) :
    Moment op sem p reply trace := by
  have hserved : ∀ {trace t}, Run (Step op sem) start trace t → Served op sem p trace (t.phase p) := by
    intro trace t hrun
    induction hrun with
    | nil =>
        rw [hstart]
        exact fun entry hmem => by cases hmem
    | cons _ hstep ih => exact ih.step hstep
  have h := hserved hrun
  rwa [hreply] at h

end Steps

end Atomic
