import Bnfs.TheoryPrograms
import Bnfs.TheoryRuns
import Mathlib.Logic.Function.Basic

/-! Callers that share a state behind one lock. Each call takes the lock, runs a program command by command and lets the
lock go; between two commands any other caller may do something. As seen from outside the calls happen one after another,
in the order in which they finish. -/

namespace Locked

open Commands Function Runs

variable {C : Type} {R : C → Type} {T Call Reply σ : Type} [DecidableEq T]

/-- Where a caller is. -/
inductive Phase (R : C → Type) (Call Reply : Type) where
  | idle
  | waiting (call : Call)
  | inside (call : Call) (rest : Prog R Reply)

structure State (R : C → Type) (T Call Reply σ : Type) where
  shared : σ
  holder : Option T
  phase : T → Phase R Call Reply
  /-- The calls that are over, with who made them and what they returned. -/
  finished : List (T × Call × Reply)

/-- Nobody is calling yet. -/
def start (shared : σ) : State R T Call Reply σ := ⟨shared, none, fun _ => .idle, []⟩

inductive Move (T Call : Type) where
  | call (t : T) (call : Call)
  | lock (t : T)
  | command (t : T)
  | unlock (t : T)

section Steps

variable (exec : Exec R σ) (program : Call → Prog R Reply)

/-- `none` where the caller is not at that point or the lock is taken, and for a command that faults. -/
def next (s : State R T Call Reply σ) : Move T Call → Option (State R T Call Reply σ)
  | .call t call =>
      match s.phase t with
      | .idle => some { s with phase := update s.phase t (.waiting call) }
      | _ => none
  | .lock t =>
      match s.holder, s.phase t with
      | none, .waiting call =>
          some { s with holder := some t, phase := update s.phase t (.inside call (program call)) }
      | _, _ => none
  | .command t =>
      match s.phase t with
      | .inside call (.command c rest) =>
          (exec c s.shared).map fun r =>
            { s with shared := r.2, phase := update s.phase t (.inside call (rest r.1)) }
      | _ => none
  | .unlock t =>
      match s.phase t with
      | .inside call (.done reply) =>
          some { s with
            holder := none, phase := update s.phase t .idle, finished := s.finished ++ [(t, call, reply)] }
      | _ => none

/-- Any order of steps. -/
abbrev Interleaving := Run (fun s (move : Move T Call) s' => next exec program s move = some s')

/-- The next command of this caller faults, or it is past one that did. -/
def Faults (s : State R T Call Reply σ) (t : T) : Prop :=
  ∃ call rest, s.phase t = .inside call rest ∧
    (rest = .fault ∨ ∃ c k, rest = .command c k ∧ exec c s.shared = none)

/-- The calls one after another, each as a whole. -/
def serial (s : σ) : List Call → Option (List Reply × σ)
  | [] => some ([], s)
  | call :: rest =>
      ((program call).run exec s).bind fun r => (serial r.2 rest).map fun q => (r.1 :: q.1, q.2)

variable {exec program}

theorem serial_concat {s s' s'' : σ} {calls : List Call} {replies : List Reply} {call : Call} {reply : Reply}
    (h : serial exec program s calls = some (replies, s')) (hrun : (program call).run exec s' = some (reply, s'')) :
    serial exec program s (calls ++ [call]) = some (replies ++ [reply], s'') := by
  induction calls generalizing s replies with
  | nil =>
      cases h
      simp [serial, hrun]
  | cons first rest ih =>
      obtain ⟨r, hfirst, hrest⟩ := Option.bind_eq_some_iff.mp h
      obtain ⟨q, hq, heq⟩ := Option.map_eq_some_iff.mp hrest
      obtain ⟨rfl, rfl⟩ := Prod.ext_iff.mp heq
      rw [List.cons_append, serial, hfirst, Option.bind_some, ih hq]
      rfl

/-- The state is what the finished calls made of the first one, run whole, and after them what the holder has done so far
of its own. -/
structure Serial (exec : Exec R σ) (program : Call → Prog R Reply) (first before : σ) (s : State R T Call Reply σ) :
    Prop where
  finished : serial exec program first (s.finished.map (·.2.1)) = some (s.finished.map (·.2.2), before)
  free : s.holder = none → s.shared = before
  taken : ∀ t, s.holder = some t → ∃ call rest, s.phase t = .inside call rest ∧
    rest.run exec s.shared = (program call).run exec before
  outside : ∀ t call rest, s.phase t = .inside call rest → s.holder = some t

omit [DecidableEq T] in
theorem serial_start (first : σ) : Serial exec program first first (start first : State R T Call Reply σ) where
  finished := rfl
  free _ := rfl
  taken _ h := nomatch h
  outside _ _ _ h := nomatch h

/-- What a move can be, and what it does. -/
theorem next_cases {s s' : State R T Call Reply σ} {move : Move T Call} (h : next exec program s move = some s') :
    (∃ t call, s.phase t = .idle ∧ s' = { s with phase := update s.phase t (.waiting call) }) ∨
    (∃ t call, s.holder = none ∧ s.phase t = .waiting call ∧
      s' = { s with holder := some t, phase := update s.phase t (.inside call (program call)) }) ∨
    (∃ t call c rest r, s.phase t = .inside call (.command c rest) ∧ exec c s.shared = some r ∧
      s' = { s with shared := r.2, phase := update s.phase t (.inside call (rest r.1)) }) ∨
    (∃ t call reply, s.phase t = .inside call (.done reply) ∧
      s' = { s with
        holder := none, phase := update s.phase t .idle, finished := s.finished ++ [(t, call, reply)] }) := by
  cases move with
  | call t call =>
      cases hphase : s.phase t with
      | idle => exact Or.inl ⟨t, call, hphase, by simpa [next, hphase] using h.symm⟩
      | waiting _ => simp [next, hphase] at h
      | inside _ _ => simp [next, hphase] at h
  | lock t =>
      cases hholder : s.holder with
      | some _ => simp [next, hholder] at h
      | none =>
          cases hphase : s.phase t with
          | waiting call =>
              exact Or.inr (Or.inl ⟨t, call, rfl, hphase, by simpa [next, hholder, hphase] using h.symm⟩)
          | idle => simp [next, hholder, hphase] at h
          | inside _ _ => simp [next, hholder, hphase] at h
  | command t =>
      cases hphase : s.phase t with
      | idle => simp [next, hphase] at h
      | waiting _ => simp [next, hphase] at h
      | inside call rest =>
          cases rest with
          | done _ => simp [next, hphase] at h
          | fault => simp [next, hphase] at h
          | command c rest =>
              simp only [next, hphase] at h
              obtain ⟨r, hr, rfl⟩ := Option.map_eq_some_iff.mp h
              exact Or.inr (Or.inr (Or.inl ⟨t, call, c, rest, r, hphase, hr, rfl⟩))
  | unlock t =>
      cases hphase : s.phase t with
      | idle => simp [next, hphase] at h
      | waiting _ => simp [next, hphase] at h
      | inside call rest =>
          cases rest with
          | done reply =>
              exact Or.inr (Or.inr (Or.inr ⟨t, call, reply, hphase, by simpa [next, hphase] using h.symm⟩))
          | fault => simp [next, hphase] at h
          | command _ _ => simp [next, hphase] at h

theorem update_inside {phase : T → Phase R Call Reply} {t u : T} {p : Phase R Call Reply} {call : Call}
    {rest : Prog R Reply} (h : update phase t p u = .inside call rest) :
    u = t ∧ p = .inside call rest ∨ u ≠ t ∧ phase u = .inside call rest := by
  by_cases hne : u = t
  · rw [hne, update_self] at h
    exact Or.inl ⟨hne, h⟩
  · exact Or.inr ⟨hne, (update_of_ne hne _ _).symm.trans h⟩

variable {first before : σ} {s s' : State R T Call Reply σ}

omit [DecidableEq T] in
/-- What is left of a call that is inside does what the rest of the whole call would do. -/
theorem Serial.rest (h : Serial exec program first before s) {t : T} {call : Call} {rest : Prog R Reply}
    (hphase : s.phase t = .inside call rest) : rest.run exec s.shared = (program call).run exec before := by
  obtain ⟨call', rest', hinside, hrest⟩ := h.taken t (h.outside t call rest hphase)
  rw [hphase] at hinside
  cases hinside
  exact hrest

/-- One step. -/
theorem Serial.step (h : Serial exec program first before s) {move : Move T Call}
    (hstep : next exec program s move = some s') : ∃ before', Serial exec program first before' s' := by
  obtain ⟨t, call, hphase, rfl⟩ | ⟨t, call, hholder, hphase, rfl⟩ | ⟨t, call, c, rest, r, hphase, hr, rfl⟩ |
    ⟨t, call, reply, hphase, rfl⟩ := next_cases hstep
  · refine ⟨before, h.finished, h.free, fun u hu => ?_, fun u call' rest hu => ?_⟩
    · obtain ⟨call', rest, hinside, hrest⟩ := h.taken u hu
      have hne : u ≠ t := fun heq => by rw [heq, hphase] at hinside; cases hinside
      exact ⟨call', rest, (update_of_ne hne _ _).trans hinside, hrest⟩
    · obtain ⟨_, heq⟩ | ⟨_, hinside⟩ := update_inside hu
      · cases heq
      · exact h.outside u call' rest hinside
  · refine ⟨before, h.finished, fun hnone => (by cases hnone), fun u hu => ?_, fun u call' rest hu => ?_⟩
    · obtain rfl : t = u := Option.some.inj hu
      exact ⟨call, program call, update_self .., by rw [h.free hholder]⟩
    · obtain ⟨heq, _⟩ | ⟨_, hinside⟩ := update_inside hu
      · rw [heq]
      · have htaken := h.outside u call' rest hinside
        rw [hholder] at htaken
        cases htaken
  · have hholder := h.outside t call _ hphase
    have hrest := h.rest hphase
    rw [Prog.run, hr, Option.bind_some] at hrest
    refine ⟨before, h.finished, fun hnone => ?_, fun u hu => ?_, fun u call' rest' hu => ?_⟩
    · cases hholder.symm.trans hnone
    · obtain rfl : t = u := Option.some.inj (hholder.symm.trans hu)
      exact ⟨call, rest r.1, update_self .., hrest⟩
    · obtain ⟨heq, _⟩ | ⟨_, hinside⟩ := update_inside hu
      · rw [heq]
        exact hholder
      · exact h.outside u call' rest' hinside
  · have hholder := h.outside t call _ hphase
    refine ⟨s.shared, ?_, fun _ => rfl, fun _ hu => (by cases hu), fun u call' rest' hu => ?_⟩
    · rw [List.map_append, List.map_append]
      exact serial_concat h.finished (h.rest hphase).symm
    · obtain ⟨_, heq⟩ | ⟨hne, hinside⟩ := update_inside hu
      · cases heq
      · exact absurd (Option.some.inj (hholder.symm.trans (h.outside u call' rest' hinside))).symm hne

theorem Interleaving.serial {trace : List (State R T Call Reply σ × Move T Call)} (hrun : Interleaving exec program (start first) trace s) :
    ∃ before, Serial exec program first before s :=
  Run.invariant (fun s => ∃ before, Serial exec program first before s) ⟨first, serial_start first⟩
    (fun _ _ _ ⟨_, h⟩ hstep => h.step hstep) hrun

omit [DecidableEq T] in
theorem Serial.inside (h : Serial exec program first before s) {t : T} (hholder : s.holder = some t) :
    ∃ call rest, s.phase t = .inside call rest :=
  let ⟨call, rest, hphase, _⟩ := h.taken t hholder
  ⟨call, rest, hphase⟩

/-- The move goes on with a call that was made. -/
def Move.GoesOn : Move T Call → Prop
  | .call _ _ => False
  | _ => True

/-- Where nothing faults there is no deadlock: as long as a call is not over, some call can go on. -/
theorem Serial.goes_on (h : Serial exec program first before s) (hfaults : ∀ t, ¬ Faults exec s t) {t : T}
    (ht : s.phase t ≠ .idle) : ∃ move s', Move.GoesOn move ∧ next exec program s move = some s' := by
  have hgo : ∀ u call rest, s.phase u = .inside call rest →
      ∃ move s', Move.GoesOn move ∧ next exec program s move = some s' := by
    intro u call rest hphase
    cases rest with
    | done reply => exact ⟨.unlock u, _, trivial, by rw [next, hphase]⟩
    | fault => exact absurd ⟨call, _, hphase, Or.inl rfl⟩ (hfaults u)
    | command c rest =>
        cases hexec : exec c s.shared with
        | none => exact absurd ⟨call, _, hphase, Or.inr ⟨c, rest, rfl, hexec⟩⟩ (hfaults u)
        | some r => exact ⟨.command u, _, trivial, by rw [next, hphase]; exact Option.map_eq_some_iff.mpr ⟨r, hexec, rfl⟩⟩
  cases hholder : s.holder with
  | some u =>
      obtain ⟨call, rest, hphase⟩ := h.inside hholder
      exact hgo u call rest hphase
  | none =>
      cases hphase : s.phase t with
      | idle => exact absurd hphase ht
      | inside call rest => exact hgo t call rest hphase
      | waiting call => exact ⟨.lock t, _, trivial, by rw [next, hholder, hphase]⟩

/-- From a state that keeps the invariant a call runs to its end, and keeps it. -/
def Safe (exec : Exec R σ) (program : Call → Prog R Reply) (inv : σ → Prop) : Prop :=
  ∀ call s, inv s → ∃ reply s', (program call).run exec s = some (reply, s') ∧ inv s'

theorem Safe.serial {inv : σ → Prop} (h : Safe exec program inv) {s s' : σ} {calls : List Call} {replies : List Reply}
    (hs : inv s) (hserial : Locked.serial exec program s calls = some (replies, s')) : inv s' := by
  induction calls generalizing s replies with
  | nil =>
      cases hserial
      exact hs
  | cons call rest ih =>
      obtain ⟨r, hr, hrest⟩ := Option.bind_eq_some_iff.mp hserial
      obtain ⟨q, hq, heq⟩ := Option.map_eq_some_iff.mp hrest
      obtain ⟨rfl, rfl⟩ := Prod.ext_iff.mp heq
      obtain ⟨reply, s', hrun, hinv⟩ := h call s hs
      obtain rfl : (reply, s') = r := Option.some.inj (hrun.symm.trans hr)
      exact ih hinv hq

omit [DecidableEq T] in
theorem Serial.not_faults {inv : σ → Prop} (hsafe : Safe exec program inv) (h : Serial exec program first before s)
    (hbefore : inv before) (t : T) : ¬ Faults exec s t := by
  rintro ⟨call, rest, hphase, hrest⟩
  have hrun := h.rest hphase
  obtain ⟨reply, s', hsome, _⟩ := hsafe call before hbefore
  rw [hsome] at hrun
  rcases hrest with rfl | ⟨c, k, rfl, hnone⟩
  · cases hrun
  · rw [Prog.run, hnone] at hrun
    cases hrun

end Steps

end Locked
