import Bnfs.ClientMounted
import Bnfs.ClientDirtySet

/-! Writes in the queued mode, directly executed or put off, with the queue shuffled and its head executed in
any order. An entry is built with 2 for a write and 1 for a flush, and executed with 1 for a write and 2 for
a close: a write that was put off closes a copy of its descriptor, and a flush writes nothing to the path as
it is. Only the writes that were executed directly ever reach a temporary copy. -/

namespace Bnfs

open FileSystem Programs Runs

namespace Queued

/-- The arguments of `unreliable_write`, with a handle. -/
structure WriteCall where
  path : CString
  buf : Bytes
  offset : Nat
  fi : FuseFileInfo
  deriving DecidableEq

/-- A write that was acknowledged with its full size: the flags its handle was opened with, and whether it
was put off. -/
structure Acked where
  call : WriteCall
  flags : OpenFlags
  deferred : Bool
  deriving DecidableEq

/-- What the write makes of a file; `pwrite` of no bytes changes nothing. -/
def Acked.apply (a : Acked) (content : Bytes) : Bytes :=
  if a.call.buf = [] then content else written a.flags content a.call.offset a.call.buf

/-- The world, and the writes acknowledged so far, newest first. -/
structure State where
  w : World
  acked : List Acked

inductive Label where
  | write (E : Env) (call : WriteCall)
  | deferWrite (call : WriteCall)
  | deferFlush (path : CString) (fi : FuseFileInfo)
  | shuffle (E : Env)
  | execute (E : Env)

/-- The write is executed at once, and its system call succeeds. -/
structure Succeeds (E : Env) : Prop where
  plain : E.injected = 0
  pwrite : E.fails .pwrite = none
  whole : E.taken = none

variable [Sha256]

/-- The handle of the write is open for writing on the temporary copy of its path. -/
structure OnTemp (w : World) (call : WriteCall) (d : Descriptor) : Prop where
  opened : w.cl.fds.get call.fi.fh = some d
  temp : w.files.names (getTempPath call.path) = some d.ino
  writable : d.flags &&& O_ACCMODE ≠ O_RDONLY

inductive Step : State → Label → State → Prop
  | write {s E call d} (hE : Succeeds E) (h : OnTemp s.w call d) :
      Step s (.write E call)
        ⟨(unreliableWrite E call.path call.buf call.offset (some call.fi) s.w).2,
          if (unreliableWrite E call.path call.buf call.offset (some call.fi) s.w).1 =
            call.buf.length then ⟨call, d.flags, false⟩ :: s.acked else s.acked⟩
  | deferWrite {s call d} (h : OnTemp s.w call d) :
      Step s (.deferWrite call)
        ⟨(addToQueue 2 call.path (some call.fi) call.buf call.buf.length call.offset s.w).2,
          ⟨call, d.flags, true⟩ :: s.acked⟩
  | deferFlush {s path fi} :
      Step s (.deferFlush path fi) ⟨(addToQueue 1 path (some fi) [] 0 0 s.w).2, s.acked⟩
  | shuffle {s E} : Step s (.shuffle E) ⟨(shuffleQueue E s.w).2, s.acked⟩
  | execute {s E} : Step s (.execute E) ⟨(executeQueueHead E s.w).2, s.acked⟩

/-- A write with the marker injected is put off, and the queue shuffled after that. -/
theorem unreliableWrite_deferred {E : Env} (h : E.injected = -ERR_INSERT_TO_QUEUE) (path : CString)
    (buf : Bytes) (offset : Nat) (fi : Option FuseFileInfo) (w : World) :
    unreliableWrite E path buf offset fi w =
      ((buf.length : Int), (shuffleQueue E (addToQueue 2 path fi buf buf.length offset w).2).2) := by
  unfold unreliableWrite
  rw [if_neg (by rw [h]; decide), if_pos h]
  rfl

theorem unreliableFlush_deferred {E : Env} (h : E.injected = -ERR_INSERT_TO_QUEUE) (path : CString)
    (fi : FuseFileInfo) (w : World) : unreliableFlush E path fi w =
      (0, (shuffleQueue E (addToQueue 1 path (some fi) [] 0 0 w).2).2) := by
  unfold unreliableFlush
  rw [if_neg (by rw [h]; decide), if_pos h]
  rfl

/-- The acknowledged writes of the temporary copy of a path. -/
def State.writesTo (s : State) (path : CString) : List Acked :=
  s.acked.filter fun a =>
    s.w.files.names (getTempPath a.call.path) = s.w.files.names (getTempPath path)

/-- The temporary copy of every path is what it was at the start with every acknowledged write applied
once, in some order, and the paths of these writes are dirty. -/
structure AllApplied (start : World) (s : State) : Prop where
  temp : ∀ path, ∃ order : List Acked, order.Perm (s.writesTo path) ∧
    tempAt s.w.files path = (tempAt start.files path).map fun content => order.foldr Acked.apply content
  dirty : ∀ a ∈ s.acked, getHashedPath a.call.path ∈ s.w.cl.dirty_files

/-- No write is put off. -/
def Direct (_ : State) (label : Label) : Prop := ∀ call, label ≠ .deferWrite call

/-- An entry that executes without touching a file. -/
def Idle (entry : QueueEntry) : Prop :=
  entry.operation_id = 2 ∨ (entry.operation_id = 1 ∧ entry.buf = [])

/-- The names are those of the start, and each temporary copy is what the direct writes made of it. -/
structure Inv (start : World) (s : State) : Prop where
  temp : ∀ path, tempAt s.w.files path = (tempAt start.files path).map fun content =>
    ((s.writesTo path).filter fun a => !a.deferred).foldr Acked.apply content
  dirty : ∀ a ∈ s.acked, a.deferred = false → getHashedPath a.call.path ∈ s.w.cl.dirty_files
  idle : ∀ entry ∈ s.w.cl.op_queue, Idle entry

theorem Inv.start {w : World} (hqueue : w.cl.op_queue = []) : Inv w ⟨w, []⟩ where
  temp path := (Option.map_id_apply (x := tempAt w.files path)).symm
  dirty _ h := nomatch h
  idle entry h := by
    rw [hqueue] at h
    cases h

/-- A step that leaves the files and the marks as they are, and acknowledges nothing but a write that is put
off. -/
theorem Inv.aside {start : World} {s t : State} (h : Inv start s) (hfiles : t.w.files = s.w.files)
    (hdirty : t.w.cl.dirty_files = s.w.cl.dirty_files)
    (hacked : t.acked = s.acked ∨ ∃ a : Acked, a.deferred = true ∧ t.acked = a :: s.acked)
    (hidle : ∀ entry ∈ t.w.cl.op_queue, Idle entry) : Inv start t where
  temp path := by
    have hdirect : (t.writesTo path).filter (fun a => !a.deferred) =
        (s.writesTo path).filter fun a => !a.deferred := by
      unfold State.writesTo
      rw [hfiles]
      rcases hacked with heq | ⟨a, hdeferred, heq⟩
      · rw [heq]
      · rw [heq, List.filter_cons]
        split_ifs
        · rw [List.filter_cons, hdeferred]
          rfl
        · rfl
    rw [hdirect, tempAt, hfiles]
    exact h.temp path
  dirty a ha hdirect := by
    rw [hdirty]
    rcases hacked with heq | ⟨b, hdeferred, heq⟩
    · exact h.dirty a (heq ▸ ha) hdirect
    · rw [heq] at ha
      rcases List.mem_cons.mp ha with rfl | hmem
      · rw [hdeferred] at hdirect
        cases hdirect
      · exact h.dirty a hmem hdirect
  idle := hidle

omit [Sha256] in
/-- A `pwrite` that succeeds takes all of the bytes. -/
theorem posixPwrite_whole {E : Env} (hE : Succeeds E) {fd : Int} {d : Descriptor} {w : World}
    (hget : w.cl.fds.get fd = some d) (haccess : d.flags &&& O_ACCMODE ≠ O_RDONLY) (buf : Bytes)
    (offset : Nat) : posixPwrite E .pwrite fd buf offset w =
      ((buf.length : Int), if buf = [] then w else w.setFiles (w.files.put d.ino
        (written d.flags (w.files.inode d.ino).content offset buf) (E.now .pwrite))) := by
  have htakes : E.takes buf = buf := by
    unfold Env.takes
    rw [hE.whole]
  simp only [posixPwrite, attempt, hE.pwrite, hget, if_neg haccess, htakes]
  split_ifs with hnil
  · rw [hnil]
    rfl
  · rfl

/-- A direct write acknowledges all of the bytes, applies them and marks the path. -/
theorem unreliableWrite_whole {E : Env} (hE : Succeeds E) {call : WriteCall} {d : Descriptor} {w : World}
    (h : OnTemp w call d) :
    unreliableWrite E call.path call.buf call.offset (some call.fi) w =
      ((call.buf.length : Int), (markFileDirty call.path
        (if call.buf = [] then w else w.setFiles (w.files.put d.ino (written d.flags
          (w.files.inode d.ino).content call.offset call.buf) (E.now .pwrite)))).2) := by
  have hpwrite := posixPwrite_whole hE h.opened h.writable call.buf call.offset
  have hhandle : handleFd E .writeOpen call.path (some call.fi) O_WRONLY = pure (call.fi.fh : Int) := rfl
  have hfh : ¬ (call.fi.fh : Int) = -1 := by omega
  have hret : ¬ (call.buf.length : Int) = -1 := by omega
  unfold unreliableWrite
  rw [if_neg (by rw [hE.plain]; decide), if_neg (by rw [hE.plain]; decide),
    if_neg (not_not.mpr hE.plain)]
  unfold writeThrough
  rw [hhandle, bind_run, pure_run, if_neg hfh]
  simp only [bind_run, hpwrite, if_neg hret]
  rfl

/-- The files once a direct write is done. -/
def wholeFiles (E : Env) (call : WriteCall) (d : Descriptor) (files : Files) : Files :=
  if call.buf = [] then files
  else files.put d.ino (written d.flags (files.inode d.ino).content call.offset call.buf) (E.now .pwrite)

theorem tempAt_wholeFiles (E : Env) {call : WriteCall} {d : Descriptor} {w : World}
    (h : OnTemp w call d) (path : CString) :
    tempAt (wholeFiles E call d w.files) path =
      if w.files.names (getTempPath call.path) = w.files.names (getTempPath path) then
        (tempAt w.files path).map (Acked.apply ⟨call, d.flags, false⟩)
      else tempAt w.files path := by
  unfold wholeFiles Acked.apply
  by_cases hbuf : call.buf = []
  · simp only [if_pos hbuf, Option.map_id', ite_self]
  · simp only [if_neg hbuf]
    split_ifs with hsame
    · have hname : w.files.names (getTempPath path) = some d.ino := hsame ▸ h.temp
      have hput : (w.files.put d.ino (written d.flags (w.files.inode d.ino).content call.offset call.buf)
          (E.now .pwrite)).names (getTempPath path) = some d.ino := hname
      rw [tempAt, Fs.find_of_names hput, Fs.put_self, tempAt, Fs.find_of_names hname]
      rfl
    · have hne : w.files.names (getTempPath path) ≠ some d.ino := fun hname =>
        hsame (h.temp.trans hname.symm)
      rw [tempAt, Fs.find_put_of_ne _ _ _ hne, tempAt]

theorem Inv.write {start : World} {s : State} {E : Env} {call : WriteCall} {d : Descriptor}
    (h : Inv start s) (hE : Succeeds E) (hon : OnTemp s.w call d) : Inv start
      ⟨(unreliableWrite E call.path call.buf call.offset (some call.fi) s.w).2,
        ⟨call, d.flags, false⟩ :: s.acked⟩ := by
  have hwhole := unreliableWrite_whole hE hon
  have hfiles : (unreliableWrite E call.path call.buf call.offset (some call.fi) s.w).2.files =
      wholeFiles E call d s.w.files := by
    rw [hwhole, wholeFiles]
    split_ifs <;> rfl
  have hnames : (wholeFiles E call d s.w.files).names = s.w.files.names := by
    unfold wholeFiles
    split_ifs <;> rfl
  have hdirty : (unreliableWrite E call.path call.buf call.offset (some call.fi) s.w).2.cl.dirty_files =
      insert (getHashedPath call.path) s.w.cl.dirty_files := by
    rw [hwhole]
    split_ifs <;> rfl
  have hqueue : (unreliableWrite E call.path call.buf call.offset (some call.fi) s.w).2.cl.op_queue =
      s.w.cl.op_queue := by
    rw [hwhole]
    split_ifs <;> rfl
  refine ⟨fun path => ?_, fun a ha hdirect => ?_, fun entry hentry => ?_⟩
  · have htemp := h.temp path
    unfold State.writesTo at htemp ⊢
    simp only [hfiles, hnames, tempAt_wholeFiles E hon]
    rw [List.filter_cons]
    by_cases hsame : s.w.files.names (getTempPath call.path) = s.w.files.names (getTempPath path)
    · rw [if_pos hsame, if_pos (by simpa using hsame), htemp, Option.map_map]
      rfl
    · rw [if_neg hsame, if_neg (by simpa using hsame), htemp]
  · rw [hdirty]
    rcases List.mem_cons.mp ha with rfl | hmem
    · exact Finset.mem_insert_self _ _
    · exact Finset.mem_insert_of_mem (h.dirty a hmem hdirect)
  · rw [hqueue] at hentry
    exact h.idle entry hentry

/-- The marks and the queue are as they were. -/
def Kept (w w' : World) : Prop :=
  w'.cl.dirty_files = w.cl.dirty_files ∧ w'.cl.op_queue = w.cl.op_queue

instance : IsPreorder World Kept where
  refl _ := ⟨rfl, rfl⟩
  trans _ _ _ h h' := ⟨h'.1.trans h.1, h'.2.trans h.2⟩

section Kept

variable {E : Env} {site : Site}

omit [Sha256] in
theorem kept_attempt {call : Prog Int} (h : Keeps Kept call) : Keeps Kept (attempt E site call) :=
  attempt_keeps (fun _ _ => ⟨rfl, rfl⟩) h

omit [Sha256] in
theorem kept_posixOpen (name : Bytes) (flags : OpenFlags) :
    Keeps Kept (posixOpen E site name flags) := fun w => by
  rcases posixOpen_opens E site w name flags with ⟨_, _, _, _, heq⟩ | ⟨e, _, heq⟩ <;> (rw [heq]; exact ⟨rfl, rfl⟩)

omit [Sha256] in
theorem kept_posixPwrite (fd : Int) (data : Bytes) (offset : Nat) :
    Keeps Kept (posixPwrite E site fd data offset) := fun w => by
  rcases posixPwrite_run E site w fd data offset with ⟨_, _, heq⟩ | ⟨_, _, heq⟩
  · rw [heq]
    split_ifs <;> exact ⟨rfl, rfl⟩
  · rw [heq]
    exact ⟨rfl, rfl⟩

omit [Sha256] in
theorem kept_posixClose (fd : Int) : Keeps Kept (posixClose fd) := fun w => by
  unfold posixClose
  cases w.cl.fds.get fd with
  | none => exact ⟨rfl, rfl⟩
  | some d => exact ⟨rfl, rfl⟩

omit [Sha256] in
theorem kept_posixDup (fd : Int) : Keeps Kept (posixDup E fd) := by
  refine kept_attempt fun w => ?_
  cases w.cl.fds.get fd with
  | none => exact ⟨rfl, rfl⟩
  | some d => exact ⟨rfl, rfl⟩

omit [Sha256] in
theorem kept_executeEntry (headVal : QueueEntry) : Keeps Kept (executeEntry E headVal) :=
  executeEntry_keeps (kept_posixOpen _ _) (fun fd => kept_posixPwrite fd _ _) kept_posixClose kept_posixDup

omit [Sha256] in
/-- The head is taken off the queue, whatever becomes of its execution. -/
theorem executeQueueHead_kept (w : World) : (executeQueueHead E w).2.cl.dirty_files = w.cl.dirty_files ∧
    (executeQueueHead E w).2.cl.op_queue = w.cl.op_queue.tail := by
  unfold executeQueueHead
  cases hqueue : w.cl.op_queue with
  | nil => exact ⟨rfl, hqueue⟩
  | cons headVal rest => exact kept_executeEntry headVal (w.setQueue rest)

end Kept

omit [Sha256] in
/-- Writing no bytes changes no file. -/
theorem rawWritten_nil (E : Env) (openSite site : Site) (name : Bytes) (offset : Nat) (files : Files) :
    rawWritten E openSite site name [] offset files = files := by
  have htakes : E.takes [] = [] := by
    unfold Env.takes
    cases E.taken with
    | none => rfl
    | some k => exact List.take_nil
  unfold rawWritten
  split
  · exact if_pos htakes
  · rfl

omit [Sha256] in
/-- An idle entry that is executed changes no file. -/
theorem queueFiles_of_idle {E : Env} {w : World} (h : ∀ entry ∈ w.cl.op_queue, Idle entry) :
    queueFiles E w = w.files := by
  unfold queueFiles
  cases hqueue : w.cl.op_queue with
  | nil => rfl
  | cons headVal rest =>
      simp only
      rcases h headVal (hqueue ▸ List.mem_cons_self) with htwo | ⟨_, hnil⟩
      · exact if_neg (by rw [htwo]; decide)
      · rw [hnil, List.take_nil, rawWritten_nil, ite_self]

theorem Inv.execute {start : World} {s : State} (h : Inv start s) (E : Env) :
    Inv start ⟨(executeQueueHead E s.w).2, s.acked⟩ := by
  have hfiles : (executeQueueHead E s.w).2.files = s.w.files :=
    (leaves_executeQueueHead E s.w).files.trans (queueFiles_of_idle h.idle)
  have hrest : (executeQueueHead E s.w).2.cl.dirty_files = s.w.cl.dirty_files ∧
      (executeQueueHead E s.w).2.cl.op_queue = s.w.cl.op_queue.tail := executeQueueHead_kept s.w
  refine h.aside hfiles hrest.1 (Or.inl rfl) fun entry hentry => ?_
  rw [hrest.2] at hentry
  exact h.idle entry (List.mem_of_mem_tail hentry)

theorem Inv.step {start : World} {s t : State} {label : Label} (h : Inv start s)
    (hstep : Step s label t) : Inv start t := by
  cases hstep with
  | write hE hon =>
      rw [if_pos (congrArg Prod.fst (unreliableWrite_whole hE hon))]
      exact h.write hE hon
  | @deferWrite call d hon =>
      refine h.aside rfl rfl (Or.inr ⟨⟨call, d.flags, true⟩, rfl, rfl⟩) fun entry hentry => ?_
      rcases List.mem_append.mp hentry with hold | hnew
      · exact h.idle entry hold
      · rw [List.mem_singleton.mp hnew]
        exact Or.inl rfl
  | deferFlush =>
      refine h.aside rfl rfl (Or.inl rfl) fun entry hentry => ?_
      rcases List.mem_append.mp hentry with hold | hnew
      · exact h.idle entry hold
      · rw [List.mem_singleton.mp hnew]
        exact Or.inr ⟨rfl, rfl⟩
  | @shuffle E =>
      refine h.aside rfl rfl (Or.inl rfl) fun entry hentry => ?_
      exact h.idle entry ((E.shuffle_perm s.w.cl.op_queue).mem_iff.mp hentry)
  | execute => exact h.execute _

/-- In every run, whatever was put off, a temporary copy is what the direct writes made of it in their
order. -/
theorem direct_writes_applied {start : World} (hqueue : start.cl.op_queue = [])
    {trace : List (State × Label)} {t : State} (hrun : Run Step ⟨start, []⟩ trace t) (path : CString) :
    tempAt t.w.files path = (tempAt start.files path).map fun content =>
      ((t.writesTo path).filter fun a => !a.deferred).foldr Acked.apply content :=
  (hrun.invariant (Inv start) (.start hqueue) fun _ _ _ h hstep => h.step hstep).temp path

/-- Where no write is put off, every acknowledged write is applied once and marked, whether or not the queue
is empty. -/
theorem acknowledged_applied {start : World} (hqueue : start.cl.op_queue = [])
    {trace : List (State × Label)} {t : State} (hrun : Run Step ⟨start, []⟩ trace t)
    (hdirect : Guarded Direct trace) : AllApplied start t := by
  have hinv := hrun.invariant (Inv start) (.start hqueue) fun _ _ _ h hstep => h.step hstep
  have hnone : ∀ a ∈ t.acked, a.deferred = false := by
    refine hrun.guarded_invariant (fun s => ∀ a ∈ s.acked, a.deferred = false) (List.forall_mem_nil _)
      (fun s label t h hguard hstep => ?_) hdirect
    cases hstep with
    | write hE hon =>
        rw [if_pos (congrArg Prod.fst (unreliableWrite_whole hE hon))]
        exact List.forall_mem_cons.mpr ⟨rfl, h⟩
    | deferWrite => exact absurd rfl (hguard _)
    | deferFlush => exact h
    | shuffle => exact h
    | execute => exact h
  refine ⟨fun path => ⟨t.writesTo path, .refl _, ?_⟩, fun a ha => hinv.dirty a ha (hnone a ha)⟩
  have hall : (t.writesTo path).filter (fun a => !a.deferred) = t.writesTo path :=
    List.filter_eq_self.mpr fun a ha => by
      rw [hnone a (List.mem_filter.mp ha).1]
      rfl
  rw [← hall]
  exact hinv.temp path

/-! ### A write of four bytes -/

section Sample

/-- The client has an empty temporary copy of `/f` open as descriptor 0. -/
def sampleOpened : World where
  srv := ⟨.empty ⟨[], default, default⟩, []⟩
  cl := ⟨(Fs.empty ⟨[], default, default⟩).create (getTempPath sampleF) ⟨[], default, default⟩,
    [some ⟨0, O_RDWR⟩], ∅, []⟩
  errno := 0

def sampleCall : WriteCall := ⟨sampleF, ascii "data", 0, ⟨O_RDWR, 0⟩⟩

/-- The queue is reversed. -/
def sampleReversing : Env :=
  { Env.smooth 7 with shuffle := List.reverse, shuffle_perm := fun queue => List.reverse_perm queue }

omit [Sha256] in
/-- A direct write, two flushes that are put off, a shuffle, and the head of the queue executed: one entry is left, and
the write is in the temporary copy. -/
theorem acknowledged_applied_sample :
    letI := sampleSha256
    let written := (unreliableWrite (.smooth 5) sampleF (ascii "data") 0 (some ⟨O_RDWR, 0⟩) sampleOpened).2
    let flushed := (addToQueue 1 sampleF (some ⟨O_RDWR, 0⟩) [] 0 0 written).2
    let flushedTwice := (addToQueue 1 sampleF (some ⟨O_RDWR, 1⟩) [] 0 0 flushed).2
    let t : State :=
      ⟨(executeQueueHead (.smooth 8) (shuffleQueue sampleReversing flushedTwice).2).2, [⟨sampleCall, O_RDWR, false⟩]⟩
    t.w.cl.op_queue.length = 1 ∧ tempAt t.w.files sampleF = some (ascii "data") ∧ AllApplied sampleOpened t := by
  let _ := sampleSha256
  intro written flushed flushedTwice t
  have hon : OnTemp sampleOpened sampleCall ⟨0, O_RDWR⟩ := ⟨rfl, by decide, by decide⟩
  have hsucceeds : Succeeds (.smooth 5) := ⟨rfl, rfl, rfl⟩
  have hwrite : Step ⟨sampleOpened, []⟩ (.write (.smooth 5) sampleCall) ⟨written, [⟨sampleCall, O_RDWR, false⟩]⟩ := by
    have hstep := @Step.write _ ⟨sampleOpened, []⟩ (.smooth 5) sampleCall ⟨0, O_RDWR⟩ hsucceeds hon
    rwa [if_pos (congrArg Prod.fst (unreliableWrite_whole hsucceeds hon))] at hstep
  have hrun : Run Step ⟨sampleOpened, []⟩ _ t :=
    ((((Run.nil.cons hwrite).cons (@Step.deferFlush _ _ sampleF ⟨O_RDWR, 0⟩)).cons
      (@Step.deferFlush _ _ sampleF ⟨O_RDWR, 1⟩)).cons (.shuffle (E := sampleReversing))).cons
      (.execute (E := .smooth 8))
  refine ⟨by decide, by decide, acknowledged_applied rfl hrun (.cons ?_ (.cons ?_ (.cons ?_ (.cons ?_ (.cons ?_
    (guarded_nil _))))))⟩
  all_goals exact fun _ h => by cases h

omit [Sha256] in
/-- A write of four bytes is put off and acknowledged; it is executed, and the queue is empty: the temporary
copy has no bytes, and the path is not dirty. -/
theorem deferred_write_lost :
    letI := sampleSha256
    let E : Env := { Env.smooth 5 with injected := -ERR_INSERT_TO_QUEUE }
    let told := unreliableWrite E sampleF (ascii "data") 0 (some ⟨O_RDWR, 0⟩) sampleOpened
    let t : State := ⟨(executeQueueHead (.smooth 6) told.2).2, [⟨sampleCall, O_RDWR, true⟩]⟩
    told.1 = 4 ∧ (∃ trace, Run Step ⟨sampleOpened, []⟩ trace t) ∧ t.w.cl.op_queue = [] ∧
      tempAt t.w.files sampleF = some [] ∧ t.w.cl.dirty_files = ∅ ∧ ¬ AllApplied sampleOpened t := by
  let _ := sampleSha256
  have hon : OnTemp sampleOpened sampleCall ⟨0, O_RDWR⟩ := ⟨rfl, by decide, by decide⟩
  intro E told t
  have hrun : Run Step ⟨sampleOpened, []⟩ _ t :=
    ((Run.nil.cons (.deferWrite hon)).cons (.shuffle (E := E))).cons (.execute (E := .smooth 6))
  refine ⟨rfl, ⟨_, hrun⟩, by decide, by decide, by decide, fun h => ?_⟩
  have hdirty := h.dirty ⟨sampleCall, O_RDWR, true⟩ List.mem_cons_self
  exact absurd hdirty (by decide)

end Sample

end Queued

end Bnfs
