import Bnfs.ClientReturns
import Bnfs.ClientQueue

/-! The mounted file system under its configuration. Whatever the entries of the configuration, the draws and
the times at which the file is read anew, a run leaves the mount as the same run does with the injected calls
left out of it, those put off only queued, and nothing injected into the others. -/

namespace Bnfs

open FileSystem Programs Runs

namespace FuseCall

variable [Sha256] {E : Env} {w : World} {c : FuseCall}

/-- The entry that is queued if the call is put off. Only these two handlers look for the marker. -/
def queued : FuseCall → Option QueueEntry
  | .write path buf offset fi => some ⟨2, path, fi, buf, buf.length, offset⟩
  | .flush path fi => some ⟨1, path, some fi, [], 0, 0⟩
  | _ => none

/-- A call that was injected into and is not put off does nothing. -/
theorem effect_of_injected (hop : c.op ≠ none) (h : E.injected ≠ 0)
    (hstays : c.queued = none ∨ E.injected ≠ -ERR_INSERT_TO_QUEUE) : c.effect E w = w := by
  have hunless : ∀ body : Prog Int, (unlessInjected E body w).2 = w := fun body => unlessInjected_of_ne h body w
  cases c with
  | init => exact absurd rfl hop
  | destroy => exact absurd rfl hop
  | write path buf offset fi =>
      have hmarker := hstays.resolve_left (Option.some_ne_none _)
      simp only [effect, unreliableWrite, if_neg hmarker, if_pos h]
      split_ifs <;> rfl
  | flush path fi =>
      have hmarker := hstays.resolve_left (Option.some_ne_none _)
      simp only [effect, unreliableFlush, if_neg hmarker, if_pos h]
      split_ifs <;> rfl
  | getattr path buf =>
      simp only [effect, unreliableGetattr, if_pos h]
      split_ifs <;> rfl
  | read path size offset fi =>
      simp only [effect, unreliableRead, if_pos h]
      split_ifs <;> rfl
  | getxattr path name size =>
      simp only [effect, unreliableGetxattr, if_pos h]
      split_ifs <;> rfl
  | listxattr path size =>
      simp only [effect, unreliableListxattr, if_pos h]
      split_ifs <;> rfl
  | readdir path =>
      simp only [effect, unreliableReaddir, if_pos h]
      split_ifs <;> rfl
  | openFile path fi =>
      simp only [effect, unreliableOpen, openHandle, if_pos h]
      split_ifs <;> rfl
  | create path fi =>
      simp only [effect, unreliableCreate, openHandle, if_pos h]
      split_ifs <;> rfl
  | fgetattr buf fi =>
      simp only [effect, unreliableFgetattr, if_pos h]
      split_ifs <;> rfl
  | _ => exact hunless _

/-- A call that is put off is queued, and the queue shuffled. -/
theorem effect_of_queued {entry : QueueEntry} (hentry : c.queued = some entry)
    (h : E.injected = -ERR_INSERT_TO_QUEUE) :
    c.effect E w = w.setQueue (E.shuffle (w.cl.op_queue ++ [entry])) := by
  cases c with
  | write path buf offset fi =>
      cases hentry
      rw [effect, Queued.unreliableWrite_deferred h]
      rfl
  | flush path fi =>
      cases hentry
      rw [effect, Queued.unreliableFlush_deferred h]
      rfl
  | _ => cases hentry

/-- It returns what FUSE takes for a success. -/
theorem result_of_queued {entry : QueueEntry} (hentry : c.queued = some entry)
    (h : E.injected = -ERR_INSERT_TO_QUEUE) : c.result E w = entry.buf.length := by
  cases c with
  | write path buf offset fi =>
      cases hentry
      rw [result, Queued.unreliableWrite_deferred h]
  | flush path fi =>
      cases hentry
      rw [result, Queued.unreliableFlush_deferred h]
      rfl
  | _ => cases hentry

/-- What a handler makes of a value that does not put it off. -/
theorem result_of_dropped (hop : c.op ≠ none) (h : E.injected ≠ 0)
    (hstays : c.queued = none ∨ E.injected ≠ -ERR_INSERT_TO_QUEUE) :
    c.result E w = if E.injected = -ERRNO_NOOP then 0 else E.injected := by
  have hpassed : c.passed E.injected = E.injected := by
    cases c with
    | write path buf offset fi => exact if_neg (hstays.resolve_left (Option.some_ne_none _))
    | flush path fi => exact if_neg (hstays.resolve_left (Option.some_ne_none _))
    | _ => rfl
  rw [result_of_injected hop h, hpassed]

end FuseCall

/-- The mount, and the configuration in force. -/
structure Configured where
  mount : Mount
  conf : UnreliablefsConfig

/-- What is asked for and how its calls turn out, the path and the draws `error_inject` has, and the entries
the configuration file holds when it is read. -/
structure InjectedTurn where
  op : MountOp
  E : Env
  path : Bytes
  draws : Draws
  reread : Option (List ErrinjConf)

/-- An operation into which nothing is injected, or an entry that is queued. -/
inductive PlainTurn where
  | made (turn : MountTurn)
  | queued (entry : QueueEntry) (E : Env)

namespace MountOp

/-- The operation the handler gives to `error_inject`; what takes the head of the queue asks for nothing. -/
def asks : MountOp → Option FuseOp
  | .call c => c.op
  | .queueHead => none

def queued : MountOp → Option QueueEntry
  | .call c => c.queued
  | .queueHead => none

variable [Sha256] (E : Env) (w : World)

def result : MountOp → Int
  | .call c => c.result E w
  | .queueHead => (executeQueueHead E w).1

variable {E} {w} {op : MountOp}

theorem effect_of_injected (hop : op.asks ≠ none) (h : E.injected ≠ 0)
    (hstays : op.queued = none ∨ E.injected ≠ -ERR_INSERT_TO_QUEUE) : op.effect E w = w := by
  cases op with
  | call c => exact FuseCall.effect_of_injected hop h hstays
  | queueHead => exact absurd rfl hop

theorem effect_of_queued {entry : QueueEntry} (hentry : op.queued = some entry)
    (h : E.injected = -ERR_INSERT_TO_QUEUE) :
    op.effect E w = w.setQueue (E.shuffle (w.cl.op_queue ++ [entry])) := by
  cases op with
  | call c => exact FuseCall.effect_of_queued hentry h
  | queueHead => cases hentry

theorem result_of_queued {entry : QueueEntry} (hentry : op.queued = some entry)
    (h : E.injected = -ERR_INSERT_TO_QUEUE) : op.result E w = entry.buf.length := by
  cases op with
  | call c => exact FuseCall.result_of_queued hentry h
  | queueHead => cases hentry

theorem result_of_dropped (hop : op.asks ≠ none) (h : E.injected ≠ 0)
    (hstays : op.queued = none ∨ E.injected ≠ -ERR_INSERT_TO_QUEUE) :
    op.result E w = if E.injected = -ERRNO_NOOP then 0 else E.injected := by
  cases op with
  | call c => exact FuseCall.result_of_dropped hop h hstays
  | queueHead => exact absurd rfl hop

theorem given_of_injected (h : E.injected ≠ 0) : op.given E w = none := by
  have hopened : ∀ result : Int × FuseFileInfo, opened E result = none :=
    fun result => if_neg fun hplain => h hplain.1
  cases op with
  | call c =>
      cases c with
      | openFile path fi => exact hopened _
      | create path fi => exact hopened _
      | _ => rfl
  | queueHead => rfl

end MountOp

namespace PlainTurn

variable [Sha256]

/-- Nothing is injected: an operation of the mount, or an entry is queued and the queue shuffled. -/
inductive Step : Mount → PlainTurn → Mount → Prop
  | made {s t : Mount} {turn : MountTurn} (hplain : turn.E.injected = 0) (h : Mount.Step s turn t) :
      Step s (.made turn) t
  | queued {s : Mount} {entry : QueueEntry} {E : Env} :
      Step s (.queued entry E) { s with w := s.w.setQueue (E.shuffle (s.w.cl.op_queue ++ [entry])) }

/-- What the caller is told: an entry that is queued counts as carried out in full. -/
def result (w : World) : PlainTurn → Int
  | .made turn => turn.op.result turn.E w
  | .queued entry _ => entry.buf.length

end PlainTurn

namespace InjectedTurn

variable [PosixRegex] (conf : UnreliablefsConfig) (turn : InjectedTurn)

/-- The value of `error_inject`, and the configuration as it leaves it. -/
def injection : Int × UnreliablefsConfig :=
  match turn.op.asks with
  | none => (0, conf)
  | some op => errorInject turn.reread conf turn.draws turn.path op

/-- The environment of the operation. -/
def env : Env := { turn.E with injected := (turn.injection conf).1 }

/-- The operation reads the configuration file anew. -/
def Rereads : Prop := turn.op.asks ≠ none ∧ turn.path = conf.configPath

instance : Decidable (turn.Rereads conf) := inferInstanceAs (Decidable (_ ∧ _))

/-- What is left of the operation: it is made, an entry is queued in its place, or it is dropped. -/
def plain : Option PlainTurn :=
  if (turn.injection conf).1 = 0 then some (.made ⟨turn.op, { turn.E with injected := 0 }⟩)
  else if (turn.injection conf).1 = -ERR_INSERT_TO_QUEUE then
    turn.op.queued.map fun entry => .queued entry turn.E
  else none

variable {conf} {turn}

theorem asks_of_injection (h : (turn.injection conf).1 ≠ 0) : turn.op.asks ≠ none := by
  intro hop
  apply h
  rw [injection, hop]

/-- A call of which nothing is left was injected into, and is not put off. -/
theorem injected_of_plain_none (h : turn.plain conf = none) : (turn.injection conf).1 ≠ 0 ∧
    (turn.op.queued = none ∨ (turn.injection conf).1 ≠ -ERR_INSERT_TO_QUEUE) := by
  unfold plain at h
  split_ifs at h with hzero hmarker
  · exact ⟨hzero, Or.inl (Option.map_eq_none_iff.mp h)⟩
  · exact ⟨hzero, Or.inr hmarker⟩

theorem injection_snd :
    (turn.injection conf).2 = if turn.Rereads conf then { conf with errors := turn.reread } else conf := by
  cases hop : turn.op.asks with
  | none => simp [injection, Rereads, hop]
  | some op =>
      by_cases hpath : turn.path = conf.configPath
      · simp [injection, Rereads, errorInject, hop, hpath]
      · simp only [injection, Rereads, errorInject, hop, hpath, if_false, and_false]
        cases conf.errors <;> rfl

/-- A call on the configuration file is never injected into. -/
theorem injection_of_rereads (h : turn.Rereads conf) : (turn.injection conf).1 = 0 := by
  unfold injection
  cases turn.op.asks with
  | none => rfl
  | some op => simp [errorInject, h.2]

/-- Entries that only signal the caller or sleep inject nothing. -/
theorem injection_of_unset
    (h : ∀ errors, conf.errors = some errors → ∀ err ∈ errors, err.type.sets = false) :
    (turn.injection conf).1 = 0 := by
  unfold injection
  cases turn.op.asks with
  | none => rfl
  | some op =>
      have hnone : decisive conf turn.draws turn.path op = none := by
        cases hdecisive : decisive conf turn.draws turn.path op with
        | none => rfl
        | some entry =>
            have hsets := decisive_sets hdecisive
            unfold decisive at hdecisive
            split_ifs at hdecisive
            obtain ⟨errors, herrors, hlast⟩ := Option.bind_eq_some_iff.mp hdecisive
            have hmem := (List.mem_filter.mp (List.mem_of_getLast? hlast)).1
            obtain ⟨_, _, hget⟩ := List.mem_zipIdx hmem
            rw [h errors herrors entry.1 (hget ▸ List.getElem_mem _)] at hsets
            cases hsets
      simp only [errorInject_eq, hnone]

end InjectedTurn

namespace Configured

variable [Sha256] [PosixRegex]

/-- The operation is asked for, and `error_inject` decides under the configuration in force. -/
structure Step (s : Configured) (turn : InjectedTurn) (t : Configured) : Prop where
  mount : Mount.Step s.mount ⟨turn.op, turn.env s.conf⟩ t.mount
  conf : t.conf = (turn.injection s.conf).2

/-- What is left of a step. -/
def carriedOut (entry : Configured × InjectedTurn) : Option PlainTurn := entry.2.plain entry.1.conf

/-- What the operation of a step returns. -/
def returned (entry : Configured × InjectedTurn) : Int :=
  entry.2.op.result (entry.2.env entry.1.conf) entry.1.mount.w

/-- The run with the injected operations left out. -/
def plainTrace (trace : List (Configured × InjectedTurn)) : List (Mount × PlainTurn) :=
  trace.filterMap fun entry => (carriedOut entry).map (Prod.mk entry.1.mount)

/-- The entries in force at the end of a run: those the last call on the configuration file read. -/
def inForce (start : UnreliablefsConfig) :
    List (Configured × InjectedTurn) → Option (List ErrinjConf)
  | [] => start.errors
  | (_, turn) :: trace => if turn.Rereads start then turn.reread else inForce start trace

variable {s t : Configured} {turn : InjectedTurn} {act : PlainTurn}

/-- An operation that was injected into gives out no handle. -/
theorem Step.mount_eq (hstep : Step s turn t) (h : (turn.injection s.conf).1 ≠ 0) :
    t.mount = { s.mount with w := turn.op.effect (turn.env s.conf) s.mount.w } := by
  have hworld := hstep.mount.world
  have hhandles := hstep.mount.handles
  have hgiven : turn.op.given (turn.env s.conf) s.mount.w = none := MountOp.given_of_injected h
  cases hmount : t.mount with
  | mk w handles =>
      rw [hmount] at hworld hhandles
      simp only at hworld hhandles
      rw [hworld, hhandles, hgiven]
      simp

/-- A step of which something is left is this step of the mount. -/
theorem Step.plain (hstep : Step s turn t) (hact : turn.plain s.conf = some act) :
    PlainTurn.Step s.mount act t.mount := by
  unfold InjectedTurn.plain at hact
  split_ifs at hact with hzero hmarker
  · cases hact
    have henv : turn.env s.conf = { turn.E with injected := 0 } := by rw [InjectedTurn.env, hzero]
    exact .made rfl (henv ▸ hstep.mount)
  · obtain ⟨entry, hentry, rfl⟩ := Option.map_eq_some_iff.mp hact
    have heffect : turn.op.effect (turn.env s.conf) s.mount.w =
        s.mount.w.setQueue (turn.E.shuffle (s.mount.w.cl.op_queue ++ [entry])) :=
      MountOp.effect_of_queued (E := turn.env s.conf) hentry hmarker
    rw [hstep.mount_eq hzero, heffect]
    exact .queued

/-- A step of which nothing is left changes nothing. -/
theorem Step.stays (hstep : Step s turn t) (hact : turn.plain s.conf = none) : t.mount = s.mount := by
  obtain ⟨hinjected, hstays⟩ := InjectedTurn.injected_of_plain_none hact
  rw [hstep.mount_eq hinjected]
  have heffect : turn.op.effect (turn.env s.conf) s.mount.w = s.mount.w :=
    MountOp.effect_of_injected (InjectedTurn.asks_of_injection hinjected) hinjected hstays
  rw [heffect]

/-- What an operation returns is what is left of it returns; one that is dropped returns 0 or the value that
was injected. -/
def Answers (entry : Configured × InjectedTurn) : Prop :=
  returned entry = match carriedOut entry with
    | some act => act.result entry.1.mount.w
    | none =>
        if (entry.2.injection entry.1.conf).1 = -ERRNO_NOOP then 0 else (entry.2.injection entry.1.conf).1

theorem answers (entry : Configured × InjectedTurn) : Answers entry := by
  obtain ⟨s, turn⟩ := entry
  unfold Answers returned
  cases hact : carriedOut (s, turn) with
  | none =>
      obtain ⟨hinjected, hstays⟩ := InjectedTurn.injected_of_plain_none hact
      exact MountOp.result_of_dropped (InjectedTurn.asks_of_injection hinjected) hinjected hstays
  | some act =>
      unfold carriedOut InjectedTurn.plain at hact
      split_ifs at hact with hzero hmarker
      · cases hact
        simp only [InjectedTurn.env, hzero]
        rfl
      · obtain ⟨entry, hentry, rfl⟩ := Option.map_eq_some_iff.mp hact
        exact MountOp.result_of_queued (E := turn.env s.conf) hentry hmarker

/-- No step changes where the configuration is read from. -/
theorem inForce_of_run {trace : List (Configured × InjectedTurn)} (hrun : Run Step s trace t) :
    t.conf = { s.conf with errors := inForce s.conf trace } := by
  induction hrun with
  | nil => rfl
  | @cons trace s' turn t _ hstep ih =>
      rw [hstep.conf, InjectedTurn.injection_snd, inForce]
      have hsame : turn.Rereads s'.conf ↔ turn.Rereads s.conf := by
        rw [InjectedTurn.Rereads, InjectedTurn.Rereads, ih]
      by_cases hrereads : turn.Rereads s.conf
      · rw [if_pos (hsame.mpr hrereads), if_pos hrereads, ih]
      · rw [if_neg fun h => hrereads (hsame.mp h), if_neg hrereads, ih]

/-- No entry sets the result of a call. -/
def Harmless (conf : UnreliablefsConfig) : Prop :=
  ∀ errors, conf.errors = some errors → ∀ err ∈ errors, err.type.sets = false

/-- An operation is made. -/
def Made (entry : Configured × InjectedTurn) : Prop :=
  carriedOut entry = some (.made ⟨entry.2.op, { entry.2.E with injected := 0 }⟩)

/-- **Injection leaves a plain run.** However injected calls are mixed into a run, the mount ends as it does if
those that are dropped are left out, those put off are queued, and nothing is injected into the others. Each
call returns what is left of it returns, or what was injected. The entries in force are those read last; the
call that reads them is made, and so are all if no entry in force sets a result. -/
theorem injection_left_out {trace : List (Configured × InjectedTurn)} (hrun : Run Step s trace t) :
    Run PlainTurn.Step s.mount (plainTrace trace) t.mount ∧
    (∀ entry ∈ trace, Answers entry) ∧
    t.conf = { s.conf with errors := inForce s.conf trace } ∧
    ∀ entry ∈ trace, entry.2.Rereads entry.1.conf ∨ Harmless entry.1.conf → Made entry := by
  refine ⟨?_, fun entry _ => answers entry, inForce_of_run hrun, fun entry _ hplain => ?_⟩
  · exact hrun.stutter Configured.mount (fun s turn t act => Step.plain) (fun s turn t => Step.stays)
  · have hzero : (entry.2.injection entry.1.conf).1 = 0 :=
      hplain.elim InjectedTurn.injection_of_rereads InjectedTurn.injection_of_unset
    exact if_pos hzero

/-- Where a turn leads. -/
def after (s : Configured) (turn : InjectedTurn) : Configured :=
  ⟨s.mount.after ⟨turn.op, turn.env s.conf⟩, (turn.injection s.conf).2⟩

/-- An operation on no handle can be asked for in every state. -/
theorem step_after (s : Configured) (hhandle : turn.op.handle = none) : Step s turn (s.after turn) := by
  refine ⟨⟨fun fi hfi => ?_, rfl, rfl⟩, rfl⟩
  rw [hhandle] at hfi
  cases hfi

end Configured

/-! ### An errno, the file read anew, and a write put off -/

namespace Configured

section Sample

def sampleStart : Configured := ⟨Mount.sampleMount, FuseCall.sampleConf .errno⟩

def sampleDropped : InjectedTurn :=
  ⟨.call (.mkdir sampleF 0o755), .smooth 5, sampleF.bytes, FuseCall.sampleDraws, none⟩

def sampleReads : InjectedTurn :=
  ⟨.call (.access sampleF), .smooth 6, (FuseCall.sampleConf .errno).configPath, FuseCall.sampleDraws,
    (FuseCall.sampleConf .aliceDelay).errors⟩

def samplePutOff : InjectedTurn :=
  ⟨.call (.write sampleF (ascii "new") 0 none), .smooth 7, sampleF.bytes, FuseCall.sampleDraws, none⟩

/-- The `mkdir` is dropped, and the `write` is queued under the configuration read in between. -/
theorem injection_left_out_sample :
    letI := sampleSha256
    letI : PosixRegex := ⟨fun _ _ => 0⟩
    let s₁ := sampleStart.after sampleDropped
    let s₂ := s₁.after sampleReads
    let t := s₂.after samplePutOff
    Run PlainTurn.Step sampleStart.mount
      [(s₂.mount, .queued ⟨2, sampleF, none, ascii "new", 3, 0⟩ (.smooth 7)),
        (s₁.mount, .made ⟨.call (.access sampleF), .smooth 6⟩)] t.mount ∧
      Answers (s₂, samplePutOff) := by
  let _ := sampleSha256
  let _ : PosixRegex := ⟨fun _ _ => 0⟩
  intro s₁ s₂ t
  have hrun : Run Step sampleStart [(s₂, samplePutOff), (s₁, sampleReads), (sampleStart, sampleDropped)] t :=
    ((Run.nil.cons (step_after _ rfl)).cons (step_after _ rfl)).cons (step_after _ rfl)
  have hleft := injection_left_out hrun
  exact ⟨hleft.1, hleft.2.1 _ List.mem_cons_self⟩

end Sample

end Configured

end Bnfs
