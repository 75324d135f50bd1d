import Bnfs.UploadHandlers

/-! Who has the mutex of the server. `PutFile` gives it back after the chmod, but a rename that fails
makes it return before that line; nobody then gives the mutex back, and no later upload gets past
`pthread_mutex_lock`. -/

namespace Bnfs.Handlers

variable {ι : Type} [DecidableEq ι]

/-- A handler that has returned does not have the mutex, and whoever has it is still running. -/
structure Released (s : Handlers ι) : Prop where
  returned : ∀ i reply, s.pc i = .returned reply → s.lock ≠ some i
  holder : ∀ i, s.lock = some i → (s.pc i).running

/-- The turn is a rename, and the rename fails: by itself, because the temporary file is missing, or
because no message has named a path. -/
def RenameFails (calls : ι → PutCall) (s : Handlers ι) (turn : Turn ι) : Prop :=
  s.pc turn.who = .closed ∧
    (turn.fails.isSome ∨ s.files.names (calls turn.who).temp = none ∨ (calls turn.who).target = [])

/-- The mutex is with somebody in the critical section, if it is taken at all. -/
def Held (s : Handlers ι) : Prop := ∀ i, s.lock = some i → (s.pc i).critical

omit [DecidableEq ι] in
theorem Held.released {s : Handlers ι} (h : s.Held) : s.Released where
  returned i reply hpc hlock := by
    have hcritical := h i hlock
    rw [hpc] at hcritical
    cases hcritical
  holder i hlock := by
    have hcritical := h i hlock
    cases hpc : s.pc i <;> simp_all [PutPc.critical, PutPc.running]

/-- A turn that leaves the mutex alone and keeps its handler in the critical section, or whose
handler did not have the mutex, keeps it with somebody in the critical section. -/
theorem Held.of_lock_eq {s t : Handlers ι} {i : ι} (hs : s.Held) (hlock : t.lock = s.lock)
    (hother : ∀ j, j ≠ i → t.pc j = s.pc j) (hself : (s.pc i).critical → (t.pc i).critical) :
    t.Held := by
  intro j hj
  have hcritical := hs j (hlock ▸ hj)
  by_cases hji : j = i
  · subst hji
    exact hself hcritical
  · rw [hother j hji]
    exact hcritical

theorem Held.step {calls : ι → PutCall} {s t : Handlers ι} {turn : Turn ι} (hs : s.Held)
    (hguard : ¬ RenameFails calls s turn) (h : Moves calls s turn t) : t.Held := by
  have hother : ∀ j, j ≠ turn.who → t.pc j = s.pc j := fun j hj => h.pc_of_ne hj
  cases h with
  | acquire hpc hfree =>
      intro j hj
      cases Option.some.inj hj
      simp [PutPc.critical]
  | release hpc =>
      intro j hj
      cases hj
  | renameFails hpc hfails => exact absurd ⟨hpc, hfails⟩ hguard
  | read hpc => exact hs.of_lock_eq rfl hother (by simp [hpc, PutPc.critical])
  | openTemp out hpc hout => exact hs.of_lock_eq rfl hother (by simp [PutPc.critical])
  | close hpc => exact hs.of_lock_eq rfl hother (by simp [PutPc.critical])
  | write out hpc hout => exact hs.of_lock_eq rfl hother (by simp [PutPc.critical])
  | rename files hpc => exact hs.of_lock_eq rfl hother (by simp [PutPc.critical])
  | chmod hpc => exact hs.of_lock_eq rfl hother (by simp [PutPc.critical])
  | lstat reply hpc hreply => exact hs.of_lock_eq rfl hother (by simp [hpc, PutPc.critical])

/-- After a rename that fails the handler is gone and the mutex is still its own. -/
theorem Moves.leak {calls : ι → PutCall} {s t : Handlers ι} {turn : Turn ι} (hs : s.Exclusive)
    (hfails : RenameFails calls s turn) (h : Moves calls s turn t) :
    t.pc turn.who = .returned none ∧ t.lock = some turn.who := by
  obtain ⟨hclosed, hbad⟩ := hfails
  have hlock := hs turn.who (by rw [hclosed]; rfl)
  cases h with
  | renameFails hpc _ => exact ⟨goto_pc_self s _ _, hlock⟩
  | rename files hpc hok htemp htarget => simp_all
  | read hpc => simp [hclosed] at hpc
  | acquire hpc => simp [hclosed] at hpc
  | openTemp out hpc => simp [hclosed] at hpc
  | close hpc => simp [hclosed] at hpc
  | write out hpc => simp [hclosed] at hpc
  | chmod hpc => simp [hclosed] at hpc
  | release hpc => simp [hclosed] at hpc
  | lstat reply hpc => simp [hclosed] at hpc

/-- The mutex is with a handler that has returned. -/
def Leaked (s : Handlers ι) : Prop := ∃ i reply, s.pc i = .returned reply ∧ s.lock = some i

/-- A leaked mutex stays leaked, whatever anybody does. -/
theorem Leaked.step {calls : ι → PutCall} {s t : Handlers ι} {turn : Turn ι} (hexcl : s.Exclusive)
    (hs : s.Leaked) (h : Moves calls s turn t) : t.Leaked := by
  obtain ⟨i, reply, hpc, hlock⟩ := hs
  have hne : i ≠ turn.who := by
    rintro rfl
    cases h <;> simp_all
  refine ⟨i, reply, (h.pc_of_ne hne).trans hpc, ?_⟩
  cases h with
  | acquire _ hfree => simp [hlock] at hfree
  | release hturn =>
      have hmine := hexcl turn.who (by rw [hturn]; rfl)
      exact absurd (Option.some.inj (hlock.symm.trans hmine)) hne
  | _ => exact hlock

omit [DecidableEq ι] in
theorem Idle.held {s : Handlers ι} (h : s.Idle) : s.Held := by
  intro i hi
  rw [h.lock] at hi
  cases hi

/-- In every state of a run the mutex is only with a running handler if and only if no rename of the
run fails. -/
theorem released_iff_no_rename_fails {calls : ι → PutCall} {start t : Handlers ι}
    {trace : List (Handlers ι × Turn ι)} (hstart : start.Idle)
    (hrun : Interleaving calls start trace t) :
    (∀ s, Runs.Visits trace t s → s.Released) ↔
      Runs.Guarded (fun s turn => ¬ RenameFails calls s turn) trace := by
  constructor
  · intro hreleased entry hentry hfails
    obtain ⟨before, next, hbefore, hstep, hvisit, _⟩ := hrun.of_mem hentry
    have hexcl := Interleaving.exclusive hstart hbefore
    obtain ⟨hpc, hlock⟩ := (step_moves hstep).leak hexcl hfails
    exact (hreleased next hvisit).returned _ _ hpc hlock
  · intro hguard s hvisit
    refine Runs.Run.visits Released ?_ hrun hguard hvisit
    intro trace t hrun hguard
    have hheld : t.Held := Runs.Run.guarded_invariant Held hstart.held
      (fun _ _ _ hs hguard hstep => hs.step hguard (step_moves hstep)) hrun hguard
    exact hheld.released

/-- Two uploads: the stream of the first breaks before its first message, the second is whole. -/
def emptyThenWhole (second : Bool) : PutCall :=
  ⟨if second then [⟨ascii "/f", []⟩, ⟨ascii "/f", ascii "data"⟩] else [], fun _ => 0⟩

theorem released_iff_no_rename_fails_whole :
    ∃ trace t, Interleaving emptyThenWhole emptyServer trace t ∧
      t.pc true = .returned (some ⟨0, 0⟩) ∧
      ((∀ s, Runs.Visits trace t s → s.Released) ↔
        Runs.Guarded (fun s turn => ¬ RenameFails emptyThenWhole s turn) trace) := by
  refine ⟨_, _, .of_advance (List.replicate 9 (turnAt true 0)) .nil rfl, rfl, ?_⟩
  exact released_iff_no_rename_fails emptyServer_idle
    (.of_advance (List.replicate 9 (turnAt true 0)) .nil rfl)

/-- The first upload has returned and has the mutex; the second cannot take a step, now or later. -/
theorem empty_upload_leaks :
    ∃ trace t, Interleaving emptyThenWhole emptyServer trace t ∧
      t.pc false = .returned none ∧ t.lock = some false ∧ ¬ t.Released ∧
      t.pc true = .waiting ∧ ∀ turn, turn.who = true → step emptyThenWhole t turn = none := by
  refine ⟨_, _, .of_advance ([true, false, false, false, false, false].map (turnAt · 0)) .nil rfl,
    rfl, rfl, fun h => h.returned false none rfl rfl, rfl, ?_⟩
  rintro ⟨who, fails, now, attr⟩ rfl
  rfl

end Bnfs.Handlers
