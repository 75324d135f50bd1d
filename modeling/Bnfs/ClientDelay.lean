import Bnfs.InjectDraws
import Bnfs.ClientQueue
import Bnfs.ModelQueue

/-! Runs in which `errinj_alice_delay` is the only injection that is configured. It leaves the same marker as
`errinj_alice_reorder`, and the handlers shuffle the queue whenever they see the marker; so what is put off keeps its
order only as long as the shuffles happen to keep it. -/

namespace Bnfs

open Runs

variable [PosixRegex]

/-- Whatever is configured is a delay. -/
def OnlyDelay (conf : UnreliablefsConfig) : Prop :=
  ∀ errors, conf.errors = some errors → ∀ err ∈ errors, err.type = .aliceDelay

/-- The same configuration with the entries of one type turned into another. -/
def UnreliablefsConfig.retype (conf : UnreliablefsConfig) (old new : ErrinjType) : UnreliablefsConfig :=
  { conf with errors := conf.errors.map fun errors => errors.map fun err =>
      if err.type = old then { err with type := new } else err }

omit [PosixRegex] in
theorem apply_delay_eq_reorder (errno rc : Int) :
    ErrinjType.aliceDelay.apply errno rc = ErrinjType.aliceReorder.apply errno rc := rfl

theorem injectAll_retype (draws : Draws) (path : Bytes) (op : FuseOp) (errors : List ErrinjConf) (k : Nat) (rc : Int) :
    injectAll draws path op k (errors.map fun err =>
        if err.type = .aliceDelay then { err with type := .aliceReorder } else err) rc =
      injectAll draws path op k errors rc := by
  induction errors generalizing k rc with
  | nil => rfl
  | cons err rest ih =>
      rw [List.map_cons, injectAll, injectAll, ih]
      by_cases htype : err.type = .aliceDelay
      · rw [if_pos htype, htype, ← apply_delay_eq_reorder]
        rfl
      · rw [if_neg htype]

/-- A delay and a reordering cannot be told apart by what `error_inject` returns. -/
theorem errorInject_retype (reread : Option (List ErrinjConf)) (conf : UnreliablefsConfig) (draws : Draws)
    (path : Bytes) (operation : FuseOp) :
    (errorInject reread (conf.retype .aliceDelay .aliceReorder) draws path operation).1 =
      (errorInject reread conf draws path operation).1 := by
  unfold errorInject UnreliablefsConfig.retype
  dsimp only
  split_ifs
  · rfl
  · cases conf.errors with
    | none => rfl
    | some errors => exact injectAll_retype draws path operation errors 0 0

namespace Delayed

/-- The world, the entries queued so far, and those with which `executeEntry` was called, both in their order. -/
structure State where
  w : World
  queued : List QueueEntry
  executed : List QueueEntry

inductive Label where
  | write (E : Env) (path : CString) (buf : Bytes) (offset : Nat) (fi : Option FuseFileInfo)
  | flush (E : Env) (path : CString) (fi : FuseFileInfo)
  | execute (E : Env)

/-- The entry of a write that is put off. -/
def writeEntry (path : CString) (buf : Bytes) (offset : Nat) (fi : Option FuseFileInfo) : QueueEntry :=
  ⟨2, path, fi, buf, buf.length, offset⟩

/-- The entry of a flush that is put off. -/
def flushEntry (path : CString) (fi : FuseFileInfo) : QueueEntry := ⟨1, path, some fi, [], 0, 0⟩

/-- The call injects under delays alone, and has the operation put off. -/
structure PutOff (E : Env) (path : CString) (operation : FuseOp) : Prop where
  injected : ∃ reread conf draws, OnlyDelay conf ∧
    E.injected = (errorInject reread conf draws path.bytes operation).1
  marker : E.injected = -ERR_INSERT_TO_QUEUE

variable [Sha256]

/-- Writes and flushes that are put off, and calls of `executeQueueHead`. -/
inductive Step : State → Label → State → Prop
  | write {s E path buf offset fi} (h : PutOff E path .write) :
      Step s (.write E path buf offset fi) ⟨(unreliableWrite E path buf offset fi s.w).2,
        s.queued ++ [writeEntry path buf offset fi], s.executed⟩
  | flush {s E path fi} (h : PutOff E path .flush) :
      Step s (.flush E path fi) ⟨(unreliableFlush E path fi s.w).2, s.queued ++ [flushEntry path fi], s.executed⟩
  | execute {s E} : Step s (.execute E) ⟨(executeQueueHeadLogged E s.w).2.2, s.queued,
      s.executed ++ executedOf (executeQueueHeadLogged E s.w).1⟩

/-- What was executed is what was queued, as far as it goes. -/
def InOrder (s : State) : Prop := s.executed <+: s.queued

/-- The permutation drawn for an operation that is put off leaves the queue with it as it is. -/
def Unshuffled (s : State) : Label → Prop
  | .write E path buf offset fi => E.shuffle (s.w.cl.op_queue ++ [writeEntry path buf offset fi]) =
      s.w.cl.op_queue ++ [writeEntry path buf offset fi]
  | .flush E path fi => E.shuffle (s.w.cl.op_queue ++ [flushEntry path fi]) = s.w.cl.op_queue ++ [flushEntry path fi]
  | .execute _ => True

/-- What was executed and what is still queued make up what was queued. -/
theorem pending_step {s t : State} {label : Label} (hinv : s.executed ++ s.w.cl.op_queue = s.queued)
    (hguard : Unshuffled s label) (hstep : Step s label t) : t.executed ++ t.w.cl.op_queue = t.queued := by
  cases hstep with
  | @write E path buf offset fi h =>
      have hqueue : (unreliableWrite E path buf offset fi s.w).2.cl.op_queue =
          E.shuffle (s.w.cl.op_queue ++ [writeEntry path buf offset fi]) := by
        rw [Queued.unreliableWrite_deferred h.marker]
        rfl
      calc s.executed ++ (unreliableWrite E path buf offset fi s.w).2.cl.op_queue
          = s.executed ++ (s.w.cl.op_queue ++ [writeEntry path buf offset fi]) := by rw [hqueue, hguard]
        _ = s.queued ++ [writeEntry path buf offset fi] := by rw [← List.append_assoc, hinv]
  | @flush E path fi h =>
      have hqueue : (unreliableFlush E path fi s.w).2.cl.op_queue =
          E.shuffle (s.w.cl.op_queue ++ [flushEntry path fi]) := by
        rw [Queued.unreliableFlush_deferred h.marker]
        rfl
      calc s.executed ++ (unreliableFlush E path fi s.w).2.cl.op_queue
          = s.executed ++ (s.w.cl.op_queue ++ [flushEntry path fi]) := by rw [hqueue, hguard]
        _ = s.queued ++ [flushEntry path fi] := by rw [← List.append_assoc, hinv]
  | @execute E =>
      calc s.executed ++ executedOf (executeQueueHeadLogged E s.w).1 ++
            (executeQueueHeadLogged E s.w).2.2.cl.op_queue
          = s.executed ++ (s.w.cl.op_queue.take 1 ++ s.w.cl.op_queue.drop 1) := by
            rw [(executeQueueHeadLogged_log E s.w).2, executeQueueHeadLogged_erases,
              (Queued.executeQueueHead_kept s.w).2, List.append_assoc, List.drop_one]
        _ = s.queued := by rw [List.take_append_drop, hinv]

theorem delayed_in_order {start : World} (hqueue : start.cl.op_queue = []) {trace : List (State × Label)}
    {t : State} (hrun : Run Step ⟨start, [], []⟩ trace t) (hguard : Guarded Unshuffled trace) {s : State}
    (hvisit : Visits trace t s) : InOrder s := by
  refine hrun.visits InOrder (fun trace t hrun hguard => ?_) hguard hvisit
  have hpending := hrun.guarded_invariant (fun s => s.executed ++ s.w.cl.op_queue = s.queued)
    (by simp only [hqueue, List.append_nil]) (fun _ _ _ h hg hstep => pending_step h hg hstep) hguard
  exact ⟨_, hpending⟩

section Sample

omit [PosixRegex] [Sha256]

/-- An operation that is put off, with the order the shuffle gives. -/
def sampleShuffled (shuffle : List QueueEntry → List QueueEntry) (h : ∀ queue, (shuffle queue).Perm queue) : Env :=
  { Env.smooth 5 with injected := -ERR_INSERT_TO_QUEUE, shuffle, shuffle_perm := h }

theorem sampleShuffled_putOff (shuffle : List QueueEntry → List QueueEntry)
    (h : ∀ queue, (shuffle queue).Perm queue) :
    letI := sampleRegex
    PutOff (sampleShuffled shuffle h) sampleF .write := by
  let _ := sampleRegex
  refine ⟨⟨none, sampleConf .aliceDelay 100, sampleDraws 0 0, ?_, ?_⟩, rfl⟩
  · intro errors herrors err hmem
    cases herrors
    rw [List.mem_singleton.mp hmem]
  · show -ERR_INSERT_TO_QUEUE = _
    decide

/-- The write of some bytes to `/f`. -/
def sampleWrite (E : Env) (buf : Bytes) : Label := .write E sampleF buf 0 (some ⟨O_RDWR, 0⟩)

theorem sampleWrite_step (shuffle : List QueueEntry → List QueueEntry) (h : ∀ queue, (shuffle queue).Perm queue)
    (s : State) (buf : Bytes) :
    letI := sampleRegex
    letI := sampleSha256
    Step s (sampleWrite (sampleShuffled shuffle h) buf)
      ⟨(unreliableWrite (sampleShuffled shuffle h) sampleF buf 0 (some ⟨O_RDWR, 0⟩) s.w).2,
        s.queued ++ [writeEntry sampleF buf 0 (some ⟨O_RDWR, 0⟩)], s.executed⟩ := by
  let _ := sampleRegex
  let _ := sampleSha256
  exact .write (sampleShuffled_putOff shuffle h)

theorem delayed_in_order_sample :
    letI := sampleRegex
    letI := sampleSha256
    InOrder ⟨(executeQueueHead (.smooth 6) (unreliableWrite (sampleShuffled id fun _ => .refl _) sampleF
      (ascii "data") 0 (some ⟨O_RDWR, 0⟩) Queued.sampleOpened).2).2,
      [writeEntry sampleF (ascii "data") 0 (some ⟨O_RDWR, 0⟩)],
      [writeEntry sampleF (ascii "data") 0 (some ⟨O_RDWR, 0⟩)]⟩ := by
  let _ := sampleRegex
  let _ := sampleSha256
  have hrun : Run Step ⟨Queued.sampleOpened, [], []⟩ _ _ :=
    (Run.nil.cons (sampleWrite_step id (fun _ => .refl _) _ (ascii "data"))).cons (.execute (E := .smooth 6))
  have hwrite : Unshuffled ⟨Queued.sampleOpened, [], []⟩
      (sampleWrite (sampleShuffled id fun _ => .refl _) (ascii "data")) := rfl
  exact delayed_in_order rfl hrun (((guarded_nil Unshuffled).cons hwrite).cons trivial) (Or.inl rfl)

/-- Two writes are put off, and the second shuffle turns the queue around: the second write is executed first. -/
theorem delayed_out_of_order :
    letI := sampleRegex
    letI := sampleSha256
    ∃ trace t, Run Step ⟨Queued.sampleOpened, [], []⟩ trace t ∧
      t.queued = [writeEntry sampleF [1] 0 (some ⟨O_RDWR, 0⟩), writeEntry sampleF [2] 0 (some ⟨O_RDWR, 0⟩)] ∧
      t.executed = [writeEntry sampleF [2] 0 (some ⟨O_RDWR, 0⟩)] ∧ ¬ InOrder t := by
  let _ := sampleRegex
  let _ := sampleSha256
  have hwrite := sampleWrite_step List.reverse fun _ => List.reverse_perm _
  have hrun : Run Step ⟨Queued.sampleOpened, [], []⟩ _ _ :=
    ((Run.nil.cons (hwrite _ [1])).cons (hwrite _ [2])).cons (.execute (E := .smooth 6))
  refine ⟨_, _, hrun, rfl, by decide, ?_⟩
  unfold InOrder
  decide

end Sample

end Delayed

end Bnfs
