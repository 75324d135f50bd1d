import Bnfs.ClientQueue
import Bnfs.ModelQueue
import Bnfs.TheoryLine

/-! The entries of the operation queue under any mixture of `addToQueue`, `shuffleQueue` and `executeQueueHead`. With its
history the queue is a waiting line, and each call is one move of it; two calls at once, which nothing in the code rules
out, are not considered. -/

namespace Bnfs

namespace Conserved

open Runs WaitingLine

/-- The world, the entries ever added in their order, and what `executeQueueHead` has logged. -/
structure State where
  w : World
  added : List QueueEntry
  events : List HeadEvent

/-- The entries popped for execution. -/
def State.popped (s : State) : List QueueEntry := poppedOf s.events

/-- The entries with which `executeEntry` was called. -/
def State.executed (s : State) : List QueueEntry := executedOf s.events

/-- The calls that touch the queue, and whatever else may happen to the world. -/
inductive Label where
  | add (operation_id : Int) (path : CString) (fi : Option FuseFileInfo) (buf : Bytes) (size offset : Nat)
  | shuffle (E : Env)
  | execute (E : Env)
  | elsewhere (change : World → World)

/-- `op_queue` is static, and empty when the process starts. -/
def start (w : World) : State := ⟨w.setQueue [], [], []⟩

/-- One call; none if it is undefined. -/
def next (s : State) : Label → Option State
  | .add operation_id path fi buf size offset =>
      some ⟨(addToQueue operation_id path fi buf size offset s.w).2,
        s.added ++ [⟨operation_id, path, fi, buf, size, offset⟩], s.events⟩
  | .shuffle E => (shuffleQueueLoops E s.w).map fun w => ⟨w, s.added, s.events⟩
  | .execute E =>
      let ran := executeQueueHeadLogged E s.w
      some ⟨ran.2.2, s.added, s.events ++ ran.1⟩
  | .elsewhere change => some ⟨(change s.w).setQueue s.w.cl.op_queue, s.added, s.events⟩

/-- The queue with its history, as a waiting line. -/
def State.line (s : State) : Line QueueEntry := ⟨s.added, s.executed, s.w.cl.op_queue⟩

def Label.move : Label → Move
  | .add .. => .join
  | .shuffle _ => .reorder
  | .execute _ => .serve
  | .elsewhere _ => .stay

theorem next_shuffle (s : State) (E : Env) :
    next s (.shuffle E) = some ⟨s.w.setQueue (E.shuffle s.w.cl.op_queue), s.added, s.events⟩ := by
  rw [next, shuffleQueueLoops_eq]
  rfl

/-- Each call is a move of the waiting line. -/
theorem line_step {s t : State} {label : Label} (h : next s label = some t) :
    Step s.line label.move t.line := by
  cases label with
  | add operation_id path fi buf size offset =>
      cases h
      exact .join _
  | shuffle E =>
      rw [next_shuffle] at h
      cases h
      exact .reorder (E.shuffle_perm s.w.cl.op_queue)
  | execute E =>
      cases h
      change Step s.line .serve ⟨s.added, executedOf (s.events ++ (executeQueueHeadLogged E s.w).1),
        (executeQueueHeadLogged E s.w).2.2.cl.op_queue⟩
      rw [executedOf_append, (executeQueueHeadLogged_log E s.w).2, executeQueueHeadLogged_erases,
        (Queued.executeQueueHead_kept s.w).2]
      exact .serve
  | elsewhere change =>
      cases h
      exact .stay

/-- No call is undefined. -/
theorem exists_next (s : State) (label : Label) : ∃ t, next s label = some t := by
  cases label with
  | shuffle E => exact ⟨_, next_shuffle s E⟩
  | add | execute | elsewhere => exact ⟨_, rfl⟩

theorem line_run {w : World} {trace : List (State × Label)} {t : State}
    (hrun : Run (fun s label t => next s label = some t) (start w) trace t) :
    Run Step ⟨[], [], []⟩ (trace.map (Prod.map State.line Label.move)) t.line :=
  hrun.map State.line Label.move fun _ _ _ => line_step

/-- What was popped is what was executed. -/
theorem executed_eq_popped {w : World} {trace : List (State × Label)} {t : State}
    (hrun : Run (fun s label t => next s label = some t) (start w) trace t) : t.executed = t.popped := by
  refine hrun.invariant (fun s => s.executed = s.popped) rfl fun s label t hs hstep => ?_
  cases label with
  | execute E =>
      cases hstep
      obtain ⟨hpopped, hexecuted⟩ := executeQueueHeadLogged_log E s.w
      rw [State.executed, State.popped, executedOf_append, poppedOf_append, hpopped, hexecuted]
      exact congrArg (· ++ s.w.cl.op_queue.take 1) hs
  | shuffle E =>
      rw [next_shuffle] at hstep
      cases hstep
      exact hs
  | add =>
      cases hstep
      exact hs
  | elsewhere =>
      cases hstep
      exact hs

/-- Whatever calls are made, in whatever order, none of them is undefined. In every state on the way what was added is what
was popped and what is queued, and a shuffle would change the order only. Every execution is of an entry of its own, which
was added before it, and popped. -/
theorem queue_conserves_entries (w : World) (calls : List Label) :
    ∃ trace t, advance next calls ([], start w) = some (trace, t) ∧
      (∀ s, Visits trace t s →
        (s.added : Multiset QueueEntry) = (s.popped : Multiset QueueEntry) + (s.w.cl.op_queue : Multiset QueueEntry) ∧
        s.executed = s.popped ∧
        ∀ E, ∃ w', shuffleQueueLoops E s.w = some w' ∧ w'.cl.op_queue.Perm s.w.cl.op_queue) ∧
      ∃ tickets : List Nat, tickets.Nodup ∧ tickets.map (t.added[·]?) = t.executed.map some ∧
        ∀ s, Visits trace t s → Before tickets s.line t.line := by
  obtain ⟨trace, t, hadvance⟩ := exists_advance exists_next calls [] (start w)
  have hrun := Run.of_advance calls .nil hadvance
  have hline := line_run hrun
  obtain ⟨tickets, hnodup, hserves, hbefore⟩ := served_once hline
  refine ⟨trace, t, hadvance, fun s hvisit => ?_, tickets, hnodup, hserves, fun s hvisit => ?_⟩
  · have hguard : Guarded (fun _ _ => True) trace := fun _ _ => trivial
    have hexecuted : s.executed = s.popped := hrun.visits (fun s => s.executed = s.popped)
      (fun _ _ hrun _ => executed_eq_popped hrun) hguard hvisit
    refine ⟨?_, hexecuted, fun E => ⟨_, shuffleQueueLoops_eq E s.w, E.shuffle_perm s.w.cl.op_queue⟩⟩
    rw [← hexecuted]
    exact conserved_of_run hline (hvisit.map State.line Label.move)
  · exact hbefore s.line (hvisit.map State.line Label.move)

end Conserved

end Bnfs
