import Mathlib.Logic.Basic

/-! Runs of a labelled transition system, with what was done and from where kept in a trace. An
invariant is carried along a run by its step lemma; a guarded run is one whose every step was taken
from a state that met the guard. Nothing here depends on a particular system. -/

namespace Runs

variable {State Label : Type}

/-- A run from `start`. The trace lists the steps newest first, each as the state it was taken from
and its label. -/
inductive Run (step : State → Label → State → Prop) (start : State) :
    List (State × Label) → State → Prop
  | nil : Run step start [] start
  | cons {trace s label t} : Run step start trace s → step s label t →
      Run step start ((s, label) :: trace) t

/-- Every step of the trace was taken from a state that met the guard. -/
def Guarded (guard : State → Label → Prop) (trace : List (State × Label)) : Prop :=
  ∀ entry ∈ trace, guard entry.1 entry.2

instance (guard : State → Label → Prop) (trace : List (State × Label))
    [∀ s label, Decidable (guard s label)] : Decidable (Guarded guard trace) :=
  inferInstanceAs (Decidable (∀ entry ∈ trace, guard entry.1 entry.2))

/-- The states a run went through, its last one included. -/
def Visits (trace : List (State × Label)) (last : State) (s : State) : Prop :=
  s = last ∨ ∃ label, (s, label) ∈ trace

variable {step : State → Label → State → Prop} {start : State}

theorem guarded_nil (guard : State → Label → Prop) : Guarded guard [] := fun _ h => nomatch h

theorem Guarded.cons {guard : State → Label → Prop} {s : State} {label : Label}
    {trace : List (State × Label)} (h : guard s label) (htrace : Guarded guard trace) :
    Guarded guard ((s, label) :: trace) := by
  intro entry hmem
  rcases List.mem_cons.mp hmem with rfl | hmem
  · exact h
  · exact htrace entry hmem

theorem Guarded.tail {guard : State → Label → Prop} {entry : State × Label}
    {trace : List (State × Label)} (h : Guarded guard (entry :: trace)) : Guarded guard trace :=
  fun e he => h e (List.mem_cons_of_mem _ he)

theorem Guarded.head {guard : State → Label → Prop} {s : State} {label : Label}
    {trace : List (State × Label)} (h : Guarded guard ((s, label) :: trace)) : guard s label :=
  h (s, label) List.mem_cons_self

theorem Guarded.append {guard : State → Label → Prop} {trace trace' : List (State × Label)} (h : Guarded guard trace)
    (h' : Guarded guard trace') : Guarded guard (trace ++ trace') := fun entry hmem =>
  (List.mem_append.mp hmem).elim (h entry) (h' entry)

/-- What holds at the start and is kept by every guarded step holds at the end of a guarded run. -/
theorem Run.guarded_invariant (inv : State → Prop) {guard : State → Label → Prop}
    (hstart : inv start) (hstep : ∀ s label t, inv s → guard s label → step s label t → inv t)
    {trace : List (State × Label)} {t : State} (hrun : Run step start trace t)
    (hguard : Guarded guard trace) : inv t := by
  induction hrun with
  | nil => exact hstart
  | cons _ hs ih => exact hstep _ _ _ (ih hguard.tail) hguard.head hs

theorem Run.invariant (inv : State → Prop) (hstart : inv start)
    (hstep : ∀ s label t, inv s → step s label t → inv t)
    {trace : List (State × Label)} {t : State} (hrun : Run step start trace t) : inv t := by
  have hguard : Guarded (fun _ _ => True) trace := fun _ _ => trivial
  exact hrun.guarded_invariant inv hstart (fun s label t hi _ hs => hstep s label t hi hs) hguard

theorem visits_nil {last s : State} : Visits ([] : List (State × Label)) last s ↔ s = last := by
  rw [Visits]
  exact or_iff_left fun ⟨_, hmem⟩ => nomatch hmem

theorem visits_cons {trace : List (State × Label)} {s last u : State} {label : Label} :
    Visits ((s, label) :: trace) last u ↔ u = last ∨ Visits trace s u := by
  refine or_congr_right ⟨fun ⟨l, hmem⟩ => ?_, fun h => ?_⟩
  · rcases List.mem_cons.mp hmem with heq | hmem
    · exact Or.inl (congrArg Prod.fst heq)
    · exact Or.inr ⟨l, hmem⟩
  · rcases h with rfl | ⟨l, hmem⟩
    · exact ⟨label, List.mem_cons_self⟩
    · exact ⟨l, List.mem_cons_of_mem _ hmem⟩

/-- An entry of the trace is a step of the run: what came before it is a run of its own. -/
theorem Run.of_mem {trace : List (State × Label)} {t : State} (hrun : Run step start trace t)
    {s : State} {label : Label} (hmem : (s, label) ∈ trace) :
    ∃ before next, Run step start before s ∧ step s label next ∧
      Visits trace t next ∧ ∀ entry ∈ before, entry ∈ trace := by
  induction hrun with
  | nil => cases hmem
  | @cons trace s' label' t' hrun hs ih =>
      rcases List.mem_cons.mp hmem with heq | hmem
      · cases heq
        exact ⟨trace, t', hrun, hs, Or.inl rfl, fun e he => List.mem_cons_of_mem _ he⟩
      · obtain ⟨before, next, hbefore, hnext, hvisit, hsub⟩ := ih hmem
        refine ⟨before, next, hbefore, hnext, Or.inr ?_, fun e he => List.mem_cons_of_mem _ (hsub e he)⟩
        rcases hvisit with rfl | ⟨l, hl⟩
        · exact ⟨label', List.mem_cons_self⟩
        · exact ⟨l, List.mem_cons_of_mem _ hl⟩

/-- A property of every state at the end of a guarded run holds of every state such a run visits. -/
theorem Run.visits (P : State → Prop) {guard : State → Label → Prop}
    (hend : ∀ trace t, Run step start trace t → Guarded guard trace → P t)
    {trace : List (State × Label)} {t : State} (hrun : Run step start trace t)
    (hguard : Guarded guard trace) {s : State} (hvisit : Visits trace t s) : P s := by
  rcases hvisit with rfl | ⟨label, hmem⟩
  · exact hend _ _ hrun hguard
  · obtain ⟨before, _, hbefore, _, _, hsub⟩ := hrun.of_mem hmem
    exact hend _ _ hbefore fun e he => hguard e (hsub e he)

/-- One run after another. -/
theorem Run.trans {trace trace' : List (State × Label)} {s t : State} (h : Run step start trace s)
    (h' : Run step s trace' t) : Run step start (trace' ++ trace) t := by
  induction h' with
  | nil => exact h
  | cons _ hs ih => exact ih.cons hs

section Map

variable {State' Label' : Type} {step' : State' → Label' → State' → Prop} (f : State → State') (g : Label → Label')

theorem Run.map (hstep : ∀ s label t, step s label t → step' (f s) (g label) (f t))
    {trace : List (State × Label)} {t : State} (hrun : Run step start trace t) :
    Run step' (f start) (trace.map (Prod.map f g)) (f t) := by
  induction hrun with
  | nil => exact .nil
  | cons _ hs ih => exact ih.cons (hstep _ _ _ hs)

/-- The same where only guarded steps, from states of an invariant, are steps of the other system. -/
theorem Run.map_guarded (inv : State → Prop) {guard : State → Label → Prop} (hstart : inv start)
    (hinv : ∀ s label t, inv s → guard s label → step s label t → inv t)
    (hstep : ∀ s label t, inv s → guard s label → step s label t → step' (f s) (g label) (f t))
    {trace : List (State × Label)} {t : State} (hrun : Run step start trace t)
    (hguard : Guarded guard trace) : Run step' (f start) (trace.map (Prod.map f g)) (f t) := by
  induction hrun with
  | nil => exact .nil
  | cons hrun hs ih =>
      have hhere := hrun.guarded_invariant inv hstart hinv hguard.tail
      exact (ih hguard.tail).cons (hstep _ _ _ hhere hguard.head hs)

/-- The same where a step may be none of the other system, which then stays where it is. -/
theorem Run.stutter {g : State × Label → Option Label'}
    (hstep : ∀ s label t label', step s label t → g (s, label) = some label' → step' (f s) label' (f t))
    (hstay : ∀ s label t, step s label t → g (s, label) = none → f t = f s)
    {trace : List (State × Label)} {t : State} (hrun : Run step start trace t) :
    Run step' (f start) (trace.filterMap fun entry => (g entry).map (Prod.mk (f entry.1))) (f t) := by
  induction hrun with
  | nil => exact .nil
  | @cons trace s label t _ hs ih =>
      rw [List.filterMap_cons]
      cases hg : g (s, label) with
      | none => rwa [hstay s label t hs hg]
      | some label' => exact ih.cons (hstep s label t label' hs hg)

/-- The same where a step is any number of steps of the other system. -/
theorem Run.expand {g : State × Label → List Label'} (inv : State → Prop) {guard : State → Label → Prop}
    (hstart : inv start) (hinv : ∀ s label t, inv s → guard s label → step s label t → inv t)
    (hstep : ∀ s label t, inv s → guard s label → step s label t →
      ∃ trace', Run step' (f s) trace' (f t) ∧ trace'.map Prod.snd = g (s, label))
    {trace : List (State × Label)} {t : State} (hrun : Run step start trace t) (hguard : Guarded guard trace) :
    ∃ trace', Run step' (f start) trace' (f t) ∧ trace'.map Prod.snd = trace.flatMap g := by
  induction hrun with
  | nil => exact ⟨[], .nil, rfl⟩
  | @cons trace s label t hrun hs ih =>
      obtain ⟨before, hbefore, hlabels⟩ := ih hguard.tail
      have hhere := hrun.guarded_invariant inv hstart hinv hguard.tail
      obtain ⟨after, hafter, hlabels'⟩ := hstep s label t hhere hguard.head hs
      refine ⟨after ++ before, hbefore.trans hafter, ?_⟩
      rw [List.map_append, hlabels, hlabels', List.flatMap_cons]

theorem Visits.map {trace : List (State × Label)} {last s : State} (h : Visits trace last s) :
    Visits (trace.map (Prod.map f g)) (f last) (f s) := by
  rcases h with rfl | ⟨label, hmem⟩
  · exact Or.inl rfl
  · exact Or.inr ⟨g label, List.mem_map_of_mem hmem⟩

end Map

/-- Take the steps with the given labels one after the other, as long as there are such steps. -/
def advance (next : State → Label → Option State) :
    List Label → List (State × Label) × State → Option (List (State × Label) × State)
  | [], reached => some reached
  | label :: labels, (trace, s) =>
      match next s label with
      | none => none
      | some t => advance next labels ((s, label) :: trace, t)

theorem Run.of_advance {next : State → Label → Option State} (labels : List Label)
    {trace trace' : List (State × Label)} {s t : State}
    (hrun : Run (fun s label t => next s label = some t) start trace s)
    (h : advance next labels (trace, s) = some (trace', t)) :
    Run (fun s label t => next s label = some t) start trace' t := by
  induction labels generalizing trace s with
  | nil =>
      cases h
      exact hrun
  | cons label labels ih =>
      rw [advance] at h
      split at h
      · cases h
      · exact ih (hrun.cons ‹_›) h

/-- Where every state has a step with every label, all the labels are gone through. -/
theorem exists_advance {next : State → Label → Option State} (h : ∀ s label, ∃ t, next s label = some t)
    (labels : List Label) (trace : List (State × Label)) (s : State) :
    ∃ trace' t, advance next labels (trace, s) = some (trace', t) := by
  induction labels generalizing trace s with
  | nil => exact ⟨trace, s, rfl⟩
  | cons label labels ih =>
      obtain ⟨t, ht⟩ := h s label
      rw [advance, ht]
      exact ih ((s, label) :: trace) t

/-- What holds of the labels that were given holds of those of the run. -/
theorem Guarded.of_advance {P : Label → Prop} {next : State → Label → Option State}
    (labels : List Label) (hlabels : ∀ label ∈ labels, P label) {trace trace' : List (State × Label)}
    {s t : State} (htrace : Guarded (fun _ label => P label) trace)
    (h : advance next labels (trace, s) = some (trace', t)) :
    Guarded (fun _ label => P label) trace' := by
  induction labels generalizing trace s with
  | nil =>
      cases h
      exact htrace
  | cons label labels ih =>
      rw [advance] at h
      split at h
      · cases h
      · exact ih (fun l hl => hlabels l (List.mem_cons_of_mem _ hl))
          (.cons (hlabels label List.mem_cons_self) htrace) h

end Runs
