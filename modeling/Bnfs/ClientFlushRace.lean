import Bnfs.ClientOperations
import Bnfs.TheoryRuns
import Mathlib.Data.Fintype.Defs
import Mathlib.Data.Fintype.Basic

/-! Writes and flushes of one path at the same time. FUSE serves them on threads of their own. A flush
reads the temporary copy and takes the mark away only when the upload and the commit are done; what is
written in between is not in the upload, and if it is marked in between too, the mark that is taken away
was its own. -/

namespace Bnfs

open FileSystem Programs Runs FileServer

/-- Where a thread stands: nowhere in the path's affairs; in a write, after `pwrite` and before the mark,
with whether a flush was sending when it wrote; or in a flush, after the opening of the temporary copy,
while it reads (with the chunks it has), once it has read all, and once it has the server's reply, the
copy, and the times. -/
inductive ThreadPc where
  | idle
  | wrote (overlapped : Bool)
  | opened (ino : Nat)
  | reading (ino : Nat) (chunks : List Bytes)
  | sending (chunks : List Bytes)
  | replied (time : Int)
  | copied (time : Int)
  | stamped
  deriving DecidableEq

/-- The flush has read something, and its mark is still to be taken away. -/
def ThreadPc.underWay : ThreadPc → Bool
  | .reading _ chunks => !chunks.isEmpty
  | .sending _ | .replied _ | .copied _ | .stamped => true
  | _ => false

/-- The threads that serve one path, and what they share. -/
structure Threads (ι : Type) where
  w : World
  pc : ι → ThreadPc

/-- What a thread does when it is its turn. -/
inductive ThreadAct where
  | write (fi : FuseFileInfo) (buf : Bytes) (offset : Nat)
  | flush
  | proceed

/-- The turn of a thread, and how its calls turn out. -/
structure ThreadTurn (ι : Type) where
  who : ι
  act : ThreadAct
  E : Env

namespace Threads

section Model

variable {ι : Type} [DecidableEq ι]

/-- The thread moves on, with the world as it leaves it. -/
def goto (s : Threads ι) (i : ι) (pc : ThreadPc) (w : World) : Threads ι :=
  ⟨w, Function.update s.pc i pc⟩

/-- The next read of a flush: a whole buffer as long as there is one, then what is left. -/
def readPiece (content : Bytes) (ino : Nat) (chunks : List Bytes) : ThreadPc :=
  let rest := content.drop chunks.flatten.length
  if BUFSIZE ≤ rest.length then .reading ino (chunks ++ [rest.take BUFSIZE])
  else .sending (chunks ++ [rest])

variable [Fintype ι] [Sha256] (path : CString)

/-- A handle on the temporary copy of the path. -/
def onTemp (w : World) (fi : FuseFileInfo) : Bool :=
  match w.cl.fds.get fi.fh with
  | none => false
  | some d => w.files.names (getTempPath path) = some d.ino

/-- Where a thread gets to from where it stands, and the world after that. -/
def proceed (E : Env) (w : World) : ThreadPc → Option (ThreadPc × World)
  | .idle => none
  | .wrote _ => some (.idle, (markFileDirty path w).2)
  | .opened ino => if (isFileDirty path w).1 then some (.reading ino [], w) else some (.idle, w)
  | .reading ino chunks => some (readPiece (w.files.inode ino).content ino chunks, w)
  | .sending chunks =>
      let sent := AFSClient.putFileStream E (uploadRequests path.bytes chunks) w
      match sent.1 with
      | none => some (.idle, sent.2)
      | some reply => some (.replied (toInt reply.lastModifiedTime), sent.2)
  | .replied time =>
      let copied := copyTemp E path w
      some (if copied.1 then .copied time else .idle, copied.2)
  | .copied time => some (.stamped, (stampCopies E path time w).2)
  | .stamped => some (.idle, (eraseDirty path w).2)

def next (s : Threads ι) (turn : ThreadTurn ι) : Option (Threads ι) :=
  match turn.act with
  | .write fi buf offset =>
      if s.pc turn.who = .idle ∧ onTemp path s.w fi then
        some (s.goto turn.who (.wrote (decide (∃ j, (s.pc j).underWay)))
          (posixPwrite turn.E .pwrite fi.fh buf offset s.w).2)
      else none
  | .flush =>
      if s.pc turn.who = .idle then
        match s.w.files.names (getTempPath path) with
        | none => some s
        | some ino => some (s.goto turn.who (.opened ino) s.w)
      else none
  | .proceed =>
      (proceed path turn.E s.w (s.pc turn.who)).map fun after => s.goto turn.who after.1 after.2

/-- One turn of some thread. -/
def step (s : Threads ι) (turn : ThreadTurn ι) (t : Threads ι) : Prop := next path s turn = some t

end Model

/-- No operation is in progress; the path is clean, and its temporary copy is what the server has. -/
structure Start [Sha256] (path : CString) {ι : Type} (s : Threads ι) : Prop where
  idle : ∀ i, s.pc i = .idle
  clean : getHashedPath path ∉ s.w.cl.dirty_files
  sole : s.w.files.Sole (getTempPath path)
  present : s.w.files.names (getTempPath path) ≠ none
  same : contentAt s.w.srv path.bytes = tempAt s.w.files path

/-- The server has the bytes of the temporary copy. -/
def Uploaded [Sha256] (path : CString) (w : World) : Prop := contentAt w.srv path.bytes = tempAt w.files path

/-- A write that overlapped with a flush is marked when no flush is under way. -/
def MarksApart {ι : Type} (s : Threads ι) (turn : ThreadTurn ι) : Prop :=
  s.pc turn.who = .wrote true → ∀ j, (s.pc j).underWay = false

instance {ι : Type} [Fintype ι] (s : Threads ι) (turn : ThreadTurn ι) :
    Decidable (MarksApart s turn) :=
  inferInstanceAs (Decidable (s.pc turn.who = .wrote true → ∀ j, (s.pc j).underWay = false))

section Moves

variable {ι : Type} [DecidableEq ι] [Fintype ι] [Sha256] {path : CString} {s t : Threads ι}
  {turn : ThreadTurn ι}

/-- The turns, one by one. -/
inductive Moves (path : CString) (s : Threads ι) (turn : ThreadTurn ι) : Threads ι → Prop
  | writes (fi : FuseFileInfo) (buf : Bytes) (offset : Nat) (hpc : s.pc turn.who = .idle)
      (hfi : onTemp path s.w fi = true) :
      Moves path s turn (s.goto turn.who (.wrote (decide (∃ j, (s.pc j).underWay)))
        (posixPwrite turn.E .pwrite fi.fh buf offset s.w).2)
  | marks (overlapped : Bool) (hpc : s.pc turn.who = .wrote overlapped) :
      Moves path s turn (s.goto turn.who .idle (markFileDirty path s.w).2)
  | misses (hpc : s.pc turn.who = .idle) : Moves path s turn s
  | opens (ino : Nat) (hpc : s.pc turn.who = .idle)
      (hname : s.w.files.names (getTempPath path) = some ino) :
      Moves path s turn (s.goto turn.who (.opened ino) s.w)
  | skips (ino : Nat) (hpc : s.pc turn.who = .opened ino) :
      Moves path s turn (s.goto turn.who .idle s.w)
  | begins (ino : Nat) (hpc : s.pc turn.who = .opened ino) :
      Moves path s turn (s.goto turn.who (.reading ino []) s.w)
  | reads (ino : Nat) (chunks : List Bytes) (hpc : s.pc turn.who = .reading ino chunks) :
      Moves path s turn
        (s.goto turn.who (readPiece (s.w.files.inode ino).content ino chunks) s.w)
  | puts (chunks : List Bytes) (hpc : s.pc turn.who = .sending chunks) (pc : ThreadPc)
      (hnext : pc = .idle ∨ ∃ time, pc = .replied time) :
      Moves path s turn (s.goto turn.who pc
        (AFSClient.putFileStream turn.E (uploadRequests path.bytes chunks) s.w).2)
  | copies (time : Int) (hpc : s.pc turn.who = .replied time) (pc : ThreadPc)
      (hnext : pc = .idle ∨ pc = .copied time) :
      Moves path s turn (s.goto turn.who pc (copyTemp turn.E path s.w).2)
  | stamps (time : Int) (hpc : s.pc turn.who = .copied time) :
      Moves path s turn (s.goto turn.who .stamped (stampCopies turn.E path time s.w).2)
  | erases (hpc : s.pc turn.who = .stamped) :
      Moves path s turn (s.goto turn.who .idle (eraseDirty path s.w).2)

theorem step_moves (h : step path s turn t) : Moves path s turn t := by
  unfold step next at h
  split at h
  · rename_i fi buf offset _
    split_ifs at h with hwrite
    cases h
    exact .writes fi buf offset hwrite.1 hwrite.2
  · split_ifs at h with hidle
    split at h
    · cases h
      exact .misses hidle
    · cases h
      exact .opens _ hidle ‹_›
  · obtain ⟨after, hafter, rfl⟩ := Option.map_eq_some_iff.mp h
    cases hpc : s.pc turn.who with
    | idle =>
        rw [hpc] at hafter
        cases hafter
    | wrote overlapped =>
        rw [hpc] at hafter
        cases hafter
        exact .marks overlapped hpc
    | opened ino =>
        rw [hpc, proceed] at hafter
        split_ifs at hafter
        · cases hafter
          exact .begins ino hpc
        · cases hafter
          exact .skips ino hpc
    | reading ino chunks =>
        rw [hpc] at hafter
        cases hafter
        exact .reads ino chunks hpc
    | sending chunks =>
        rw [hpc, proceed] at hafter
        split at hafter
        · cases hafter
          exact .puts chunks hpc _ (Or.inl rfl)
        · cases hafter
          exact .puts chunks hpc _ (Or.inr ⟨_, rfl⟩)
    | replied time =>
        rw [hpc] at hafter
        cases hafter
        refine .copies time hpc _ ?_
        split_ifs
        · exact Or.inr rfl
        · exact Or.inl rfl
    | copied time =>
        rw [hpc] at hafter
        cases hafter
        exact .stamps time hpc
    | stamped =>
        rw [hpc] at hafter
        cases hafter
        exact .erases hpc

end Moves

variable {ι : Type} {s t : Threads ι}

/-- What the flush has read is what the file has now. -/
def Current (content : Bytes) : ThreadPc → Prop
  | .reading _ chunks => chunks.flatten = content.take chunks.flatten.length
  | .sending chunks => chunks.flatten = content
  | _ => True

/-- The flush reads from this inode. -/
def ReadsFrom (ino : Nat) : ThreadPc → Prop
  | .opened ino' => ino' = ino
  | .reading ino' _ => ino' = ino
  | _ => True

/-- The flush has its reply, and the mark is still to be taken away. -/
def Replied : ThreadPc → Bool
  | .replied _ | .copied _ | .stamped => true
  | _ => false

/-- Some write that overlapped with a flush is still to be marked. -/
def Pending (s : Threads ι) : Prop := ∃ j, s.pc j = .wrote true

theorem current_of_not_underWay {content : Bytes} {pc : ThreadPc} (h : pc.underWay = false) :
    Current content pc := by
  cases pc with
  | reading ino chunks =>
      cases chunks with
      | nil => rfl
      | cons chunk rest => cases h
  | sending chunks => cases h
  | _ => trivial

theorem not_replied_of_not_underWay {pc : ThreadPc} (h : pc.underWay = false) :
    Replied pc = false := by
  cases pc <;> first | rfl | cases h

/-- The next read keeps up with a file that has not changed. -/
theorem current_readPiece {content : Bytes} {ino : Nat} {chunks : List Bytes}
    (h : Current content (.reading ino chunks)) : Current content (readPiece content ino chunks) := by
  have hread : chunks.flatten = content.take chunks.flatten.length := h
  have hlen : chunks.flatten.length ≤ content.length := by
    rw [hread, List.length_take]
    omega
  unfold readPiece
  dsimp only
  split_ifs with hfull
  · rw [List.length_drop] at hfull
    show (chunks ++ [(content.drop chunks.flatten.length).take BUFSIZE]).flatten = _
    rw [List.flatten_append, List.flatten_singleton, List.length_append, List.length_take,
      List.length_drop, Nat.min_eq_left hfull, List.take_add, ← hread]
  · show (chunks ++ [content.drop chunks.flatten.length]).flatten = content
    rw [List.flatten_append, List.flatten_singleton]
    conv_lhs => rw [hread]
    rw [List.length_take, Nat.min_eq_left hlen, List.take_append_drop]

section Goto

variable [DecidableEq ι] {i : ι} {pc : ThreadPc} {w : World}

@[simp] theorem goto_pc_self (s : Threads ι) (i : ι) (pc : ThreadPc) (w : World) :
    (s.goto i pc w).pc i = pc := by
  simp only [goto, Function.update_self]

theorem goto_pc_of_ne (s : Threads ι) {i j : ι} (pc : ThreadPc) (w : World) (h : j ≠ i) :
    (s.goto i pc w).pc j = s.pc j := by
  simp only [goto, Function.update_of_ne h]

/-- What every thread does, after one of them has moved on. -/
theorem forall_goto (P : ThreadPc → Prop) (hpc : P pc) (hs : ∀ j, P (s.pc j)) :
    ∀ j, P ((s.goto i pc w).pc j) := by
  intro j
  by_cases hj : j = i
  · rw [hj, goto_pc_self]
    exact hpc
  · rw [goto_pc_of_ne s pc w hj]
    exact hs j

/-- A write that is still to be marked stays so while another thread moves on. -/
theorem wrote_goto (pc : ThreadPc) (w : World) {overlapped : Bool}
    (hs : ∃ j, s.pc j = .wrote overlapped) (hpc : s.pc i ≠ .wrote overlapped) : ∃ j, (s.goto i pc w).pc j = .wrote overlapped := by
  obtain ⟨j, hj⟩ := hs
  have hne : j ≠ i := by
    rintro rfl
    exact hpc hj
  exact ⟨j, (goto_pc_of_ne s pc w hne).trans hj⟩

end Goto

variable [Sha256] {path : CString} {ino : Nat}

/-- As long as a write is still to be marked that overlapped with a flush, nothing is promised. Otherwise
every flush has read what is there, and once one of them has the reply the server has it too. -/
structure Safe (path : CString) (ino : Nat) (s : Threads ι) : Prop where
  holds : s.w.Holds (getTempPath path) ino
  readsFrom : ∀ i, ReadsFrom ino (s.pc i)
  current : ∀ i, Current (s.w.files.inode ino).content (s.pc i) ∨ s.Pending
  replied : ∀ i, Replied (s.pc i) = true → Uploaded path s.w ∨ s.Pending
  uploaded : Uploaded path s.w ∨ getHashedPath path ∈ s.w.cl.dirty_files ∨
    ∃ j overlapped, s.pc j = .wrote overlapped

/-- The shared parts that count are as they were. -/
structure Quiet (path : CString) (ino : Nat) (w w' : World) : Prop where
  holds : w.Holds (getTempPath path) ino → w'.Holds (getTempPath path) ino
  content : w.Holds (getTempPath path) ino → (w'.files.inode ino).content = (w.files.inode ino).content
  srv : w'.srv = w.srv
  dirty : w'.cl.dirty_files = w.cl.dirty_files

theorem Quiet.refl (path : CString) (ino : Nat) (w : World) : Quiet path ino w w :=
  ⟨id, fun _ => rfl, rfl, rfl⟩

theorem tempAt_of_holds {w : World} (h : w.Holds (getTempPath path) ino) :
    tempAt w.files path = some (w.files.inode ino).content := by
  rw [tempAt, Fs.find_of_names h.names, Option.map_some]

theorem Quiet.uploaded_iff {w w' : World} (h : Quiet path ino w w')
    (hw : w.Holds (getTempPath path) ino) : Uploaded path w' ↔ Uploaded path w := by
  rw [Uploaded, Uploaded, tempAt_of_holds hw, tempAt_of_holds (h.holds hw), h.content hw, h.srv]

theorem quiet_of_frame {w w' : World} (h : World.Frame {getCachePath path} w w') :
    Quiet path ino w w' :=
  ⟨fun hw => (h.holds (getTempPath_ne_cache path) hw).1,
    fun hw => congrArg (·.content) (h.holds (getTempPath_ne_cache path) hw).2, h.srv, h.dirty⟩

theorem quiet_copyTemp (E : Env) (w : World) : Quiet path ino w (copyTemp E path w).2 :=
  quiet_of_frame (keeps_copyTemp E path w)

theorem quiet_stampCopies (E : Env) (time : Int) {w : World} (hw : w.Holds (getTempPath path) ino) :
    Quiet path ino w (stampCopies E path time w).2 := by
  obtain ⟨hframe, hholds, hcontent, _⟩ := commitToCache_stamped E path time hw
  exact ⟨fun _ => hholds, fun _ => hcontent, hframe.srv, hframe.dirty⟩

theorem holds_posixPwrite (E : Env) (fd : Int) (buf : Bytes) (offset : Nat) {w : World}
    (hw : w.Holds (getTempPath path) ino) :
    (posixPwrite E .pwrite fd buf offset w).2.Holds (getTempPath path) ino := by
  have hnames : (posixPwrite E .pwrite fd buf offset w).2.files.names = w.files.names := by
    rcases posixPwrite_run E .pwrite w fd buf offset with ⟨_, _, heq⟩ | ⟨_, _, heq⟩
    · rw [heq]
      split_ifs <;> rfl
    · rw [heq]
      rfl
  exact ⟨hnames ▸ hw.names, hw.sole.of_names_eq hnames⟩

/-- While no flush is under way, every flush has read what is there, and none has a reply. -/
theorem Safe.of_none_underWay (hw : s.w.Holds (getTempPath path) ino)
    (hpc : ∀ j, ReadsFrom ino (s.pc j)) (hnone : ∀ j, (s.pc j).underWay = false)
    (huploaded : Uploaded path s.w ∨ getHashedPath path ∈ s.w.cl.dirty_files ∨
      ∃ j overlapped, s.pc j = .wrote overlapped) : Safe path ino s :=
  have hnot : ∀ j, Replied (s.pc j) = true → Uploaded path s.w ∨ s.Pending := by
    intro j hj
    rw [not_replied_of_not_underWay (hnone j)] at hj
    cases hj
  ⟨hw, hpc, fun j => Or.inl (current_of_not_underWay (hnone j)), hnot, huploaded⟩

/-- While a write that overlapped is still to be marked, nothing is promised. -/
theorem Safe.of_pending (hw : s.w.Holds (getTempPath path) ino)
    (hpc : ∀ j, ReadsFrom ino (s.pc j)) (hpending : s.Pending) : Safe path ino s :=
  ⟨hw, hpc, fun _ => Or.inr hpending, fun _ _ => Or.inr hpending,
    Or.inr (Or.inr (hpending.imp fun _ hj => ⟨true, hj⟩))⟩

variable [DecidableEq ι]

/-- A turn that changes nothing that counts, of a thread that is in no write. -/
theorem Safe.quiet (hs : Safe path ino s) {i : ι} {pc : ThreadPc} {w : World}
    (hpc : ∀ overlapped, s.pc i ≠ .wrote overlapped) (hw : Quiet path ino s.w w)
    (hreads : ReadsFrom ino pc)
    (hcurrent : Current (s.w.files.inode ino).content pc ∨ s.Pending)
    (hreplied : Replied pc = true → Replied (s.pc i) = true) : Safe path ino (s.goto i pc w) := by
  have hpending : s.Pending → (s.goto i pc w).Pending := fun h => wrote_goto _ _ h (hpc true)
  have huploaded := hw.uploaded_iff hs.holds
  refine ⟨hw.holds hs.holds, forall_goto (ReadsFrom ino) hreads hs.readsFrom, ?_, ?_, ?_⟩
  · show ∀ j, Current (w.files.inode ino).content ((s.goto i pc w).pc j) ∨ _
    rw [hw.content hs.holds]
    exact fun j => (forall_goto (fun pc => Current (s.w.files.inode ino).content pc ∨ s.Pending)
      hcurrent hs.current j).imp_right hpending
  · intro j hj
    have hold : ∃ k, Replied (s.pc k) = true := by
      by_cases hji : j = i
      · rw [hji, goto_pc_self] at hj
        exact ⟨i, hreplied hj⟩
      · rw [goto_pc_of_ne s pc w hji] at hj
        exact ⟨j, hj⟩
    obtain ⟨k, hk⟩ := hold
    exact (hs.replied k hk).imp huploaded.mpr hpending
  · rcases hs.uploaded with hup | hdirty | ⟨j, overlapped, hj⟩
    · exact Or.inl (huploaded.mpr hup)
    · exact Or.inr (Or.inl (hw.dirty ▸ hdirty))
    · obtain ⟨k, hk⟩ := wrote_goto pc w ⟨j, hj⟩ (hpc overlapped)
      exact Or.inr (Or.inr ⟨k, overlapped, hk⟩)

/-- A thread moves on to where it has read nothing, or all there is. -/
theorem Safe.current_goto (hs : Safe path ino s) {i : ι} {pc : ThreadPc} {w : World}
    (hpc : Current (s.w.files.inode ino).content pc) :
    ∀ j, Current (s.w.files.inode ino).content ((s.goto i pc w).pc j) ∨ s.Pending :=
  forall_goto (fun pc => Current (s.w.files.inode ino).content pc ∨ s.Pending) (Or.inl hpc) hs.current

theorem Safe.marks (hs : Safe path ino s) {i : ι} {overlapped : Bool}
    (hpc : s.pc i = .wrote overlapped)
    (hapart : overlapped = true → ∀ j, (s.pc j).underWay = false) :
    Safe path ino (s.goto i .idle (markFileDirty path s.w).2) := by
  have hw : (markFileDirty path s.w).2.Holds (getTempPath path) ino := ⟨hs.holds.names, hs.holds.sole⟩
  have hdirty : getHashedPath path ∈ (markFileDirty path s.w).2.cl.dirty_files :=
    Finset.mem_insert_self _ _
  cases overlapped with
  | true =>
      exact .of_none_underWay hw (forall_goto (ReadsFrom ino) (by trivial) hs.readsFrom) (forall_goto (·.underWay = false) rfl (hapart rfl))
        (Or.inr (Or.inl hdirty))
  | false =>
      have hpending : s.Pending → (s.goto i .idle (markFileDirty path s.w).2).Pending :=
        fun h => wrote_goto _ _ h (by rw [hpc]; exact fun heq => nomatch heq)
      refine ⟨hw, forall_goto (ReadsFrom ino) trivial hs.readsFrom, ?_, ?_, Or.inr (Or.inl hdirty)⟩
      · exact fun j => (hs.current_goto (by trivial) j).imp_right hpending
      · intro j hj
        have hold : Replied (s.pc j) = true := by
          by_cases hji : j = i
          · rw [hji, goto_pc_self] at hj
            cases hj
          · rwa [goto_pc_of_ne s _ _ hji] at hj
        exact (hs.replied j hold).imp id hpending

/-- The reply of the server settles every flush: what was sent is there, or a write is to be marked. -/
theorem Safe.puts (hs : Safe path ino s) {i : ι} {chunks : List Bytes} {pc : ThreadPc} {E : Env}
    (hrel : E.Reliable) (hpc : s.pc i = .sending chunks)
    (hnext : pc = .idle ∨ ∃ time, pc = .replied time) :
    Safe path ino (s.goto i pc
      (AFSClient.putFileStream E (uploadRequests path.bytes chunks) s.w).2) := by
  rw [putFileStream_reliable hrel]
  have hcurrent : Current (s.w.files.inode ino).content pc := by
    rcases hnext with rfl | ⟨time, rfl⟩ <;> trivial
  have hreads : ReadsFrom ino pc := by
    rcases hnext with rfl | ⟨time, rfl⟩ <;> trivial
  have hpending : s.Pending → (s.goto i pc { s.w with
      srv := (putFile E (uploadRequests path.bytes chunks) s.w.srv).2 }).Pending :=
    fun h => wrote_goto _ _ h (by rw [hpc]; exact fun heq => nomatch heq)
  have huploaded : Uploaded path { s.w with
      srv := (putFile E (uploadRequests path.bytes chunks) s.w.srv).2 } ∨ s.Pending := by
    refine (hs.current i).imp_left fun hsent => ?_
    rw [hpc] at hsent
    rw [Uploaded, putFile_contentAt path.bytes hrel, hsent]
    exact (tempAt_of_holds hs.holds).symm
  refine ⟨⟨hs.holds.names, hs.holds.sole⟩, forall_goto (ReadsFrom ino) hreads hs.readsFrom, ?_, ?_, ?_⟩
  · exact fun j => (hs.current_goto hcurrent j).imp_right hpending
  · exact fun j _ => huploaded.imp id hpending
  · rcases huploaded with hup | hwaits
    · exact Or.inl hup
    · exact Or.inr (Or.inr ((hpending hwaits).imp fun _ hj => ⟨true, hj⟩))

theorem Safe.erases (hs : Safe path ino s) {i : ι} (hpc : s.pc i = .stamped) :
    Safe path ino (s.goto i .idle (eraseDirty path s.w).2) := by
  have hpending : s.Pending → (s.goto i .idle (eraseDirty path s.w).2).Pending :=
    fun h => wrote_goto _ _ h (by rw [hpc]; exact fun heq => nomatch heq)
  have huploaded : Uploaded path s.w ∨ s.Pending := hs.replied i (by rw [hpc]; rfl)
  refine ⟨⟨hs.holds.names, hs.holds.sole⟩, forall_goto (ReadsFrom ino) trivial hs.readsFrom, ?_, ?_, ?_⟩
  · exact fun j => (hs.current_goto (by trivial) j).imp_right hpending
  · exact fun j _ => huploaded.imp id hpending
  · rcases huploaded with hup | hwaits
    · exact Or.inl hup
    · exact Or.inr (Or.inr ((hpending hwaits).imp fun _ hj => ⟨true, hj⟩))

variable [Fintype ι]

theorem Safe.writes (hs : Safe path ino s) {i : ι} {w : World}
    (hw : w.Holds (getTempPath path) ino) :
    Safe path ino (s.goto i (.wrote (decide (∃ j, (s.pc j).underWay))) w) := by
  have hreads : ∀ j, ReadsFrom ino ((s.goto i (.wrote (decide (∃ j, (s.pc j).underWay))) w).pc j) :=
    forall_goto (ReadsFrom ino) trivial hs.readsFrom
  have hself := goto_pc_self s i (.wrote (decide (∃ j, (s.pc j).underWay))) w
  by_cases hover : ∃ j, (s.pc j).underWay
  · exact .of_pending hw hreads ⟨i, by rw [hself, decide_eq_true hover]⟩
  · have hnone : ∀ j, (s.pc j).underWay = false := fun j => by
      simpa using fun h => hover ⟨j, h⟩
    exact .of_none_underWay hw hreads (forall_goto (·.underWay = false) rfl hnone) (Or.inr (Or.inr ⟨i, _, hself⟩))

/-- Whatever thread moves, and whatever it does. -/
theorem Safe.step {turn : ThreadTurn ι} (hs : Safe path ino s) (hrel : turn.E.Reliable) (hapart : s.MarksApart turn)
    (hstep : Threads.step path s turn t) : Safe path ino t := by
  have hmoves := step_moves hstep
  have hreads := hs.readsFrom turn.who
  cases hmoves with
  | writes fi buf offset hpc hfi => exact hs.writes (holds_posixPwrite _ _ _ _ hs.holds)
  | marks overlapped hpc =>
      refine hs.marks hpc fun hover => hapart ?_
      rw [hpc, hover]
  | misses hpc => exact hs
  | opens ino' hpc hname =>
      refine hs.quiet (by rw [hpc]; exact fun _ heq => nomatch heq) (.refl path ino s.w) ?_
        (Or.inl trivial) fun h => nomatch h
      exact Option.some.inj (hname.symm.trans hs.holds.names)
  | skips ino' hpc =>
      exact hs.quiet (by rw [hpc]; exact fun _ heq => nomatch heq) (.refl path ino s.w) trivial
        (Or.inl trivial) fun h => nomatch h
  | begins ino' hpc =>
      rw [hpc] at hreads
      exact hs.quiet (by rw [hpc]; exact fun _ heq => nomatch heq) (.refl path ino s.w) hreads
        (Or.inl rfl) fun h => nomatch h
  | reads ino' chunks hpc =>
      have hcurrent := hs.current turn.who
      rw [hpc] at hreads hcurrent
      have hino : ino' = ino := hreads
      subst hino
      have hpiece : ReadsFrom ino' (readPiece (s.w.files.inode ino').content ino' chunks) ∧
          Replied (readPiece (s.w.files.inode ino').content ino' chunks) = false := by
        unfold readPiece
        dsimp only
        split_ifs
        · exact ⟨rfl, rfl⟩
        · exact ⟨trivial, rfl⟩
      refine hs.quiet (by rw [hpc]; exact fun _ heq => nomatch heq) (.refl path ino' s.w) hpiece.1
        (hcurrent.imp_left current_readPiece) fun h => ?_
      rw [hpiece.2] at h
      cases h
  | puts chunks hpc pc hnext => exact hs.puts hrel hpc hnext
  | copies time hpc pc hnext =>
      have hafter : ReadsFrom ino pc ∧ ∀ content, Current content pc := by
        rcases hnext with rfl | rfl <;> exact ⟨trivial, fun _ => trivial⟩
      exact hs.quiet (by rw [hpc]; exact fun _ heq => nomatch heq) (quiet_copyTemp _ _) hafter.1
        (Or.inl (hafter.2 _)) fun _ => by rw [hpc]; rfl
  | stamps time hpc =>
      exact hs.quiet (by rw [hpc]; exact fun _ heq => nomatch heq)
        (quiet_stampCopies _ _ hs.holds) trivial (Or.inl trivial) fun _ => by rw [hpc]; rfl
  | erases hpc => exact hs.erases hpc

/-! ### One thread alone -/

section Alone

variable {i : ι} {E : Env}

omit [Fintype ι] [Sha256] in
theorem goto_goto (s : Threads ι) (i : ι) (pc pc' : ThreadPc) (w w' : World) :
    (s.goto i pc w).goto i pc' w' = s.goto i pc' w' := by
  simp only [goto, Function.update_idem]

/-- The thread can go on to a place alone, leaving the world so. -/
def Reaches (path : CString) (i : ι) (s : Threads ι) (pc : ThreadPc) (w : World) : Prop :=
  ∃ trace, Run (step path) s trace (s.goto i pc w)

theorem Reaches.of_step {act : ThreadAct} {pc : ThreadPc} {w : World}
    (h : next path s ⟨i, act, E⟩ = some (s.goto i pc w)) : Reaches path i s pc w :=
  ⟨_, Run.nil.cons h⟩

theorem Reaches.of_proceed (E : Env) {pc pc' : ThreadPc} {w : World} (hpc : s.pc i = pc)
    (h : proceed path E s.w pc = some (pc', w)) : Reaches path i s pc' w := by
  have hnext : next path s ⟨i, .proceed, E⟩ = some (s.goto i pc' w) := by
    simp only [next, hpc, h, Option.map_some]
  exact .of_step hnext

theorem Reaches.trans {pc pc' : ThreadPc} {w w' : World} (h : Reaches path i s pc w)
    (h' : Reaches path i (s.goto i pc w) pc' w') : Reaches path i s pc' w' := by
  obtain ⟨trace, hrun⟩ := h
  obtain ⟨trace', hrun'⟩ := h'
  rw [goto_goto] at hrun'
  exact ⟨_, hrun.trans hrun'⟩

/-- A write alone is `unreliable_write` through its handle. -/
theorem alone_write (E : Env) (hidle : s.pc i = .idle) {fi : FuseFileInfo}
    (hfi : onTemp path s.w fi = true) (buf : Bytes) (offset : Nat) :
    Reaches path i s .idle (writeThrough E path buf offset (some fi) s.w).2 := by
  have hwrite : next path s ⟨i, .write fi buf offset, E⟩ = some (s.goto i
      (.wrote (decide (∃ j, (s.pc j).underWay))) (posixPwrite E .pwrite fi.fh buf offset s.w).2) := by
    exact if_pos ⟨hidle, hfi⟩
  rw [writeThrough_handle]
  exact .trans (.of_step hwrite) (.of_proceed E (goto_pc_self _ _ _ _) rfl)

/-- The reads of a flush that nothing disturbs are the pieces of the file. -/
theorem alone_reads (E : Env) {ino : Nat} {content : Bytes} (fuel : Nat)
    (hcontent : (s.w.files.inode ino).content = content) {chunks : List Bytes}
    (hpc : s.pc i = .reading ino chunks)
    (hfuel : (content.drop chunks.flatten.length).length ≤ fuel) :
    Reaches path i s (.sending (chunks ++
      Chunks.piecesFrom BUFSIZE fuel (content.drop chunks.flatten.length))) s.w := by
  induction fuel generalizing s chunks with
  | zero =>
      have hlast : ¬ BUFSIZE ≤ (content.drop chunks.flatten.length).length := by
        rw [BUFSIZE]
        omega
      refine .of_proceed E hpc ?_
      simp only [proceed, hcontent, readPiece, if_neg hlast, Chunks.piecesFrom]
  | succ fuel ih =>
      rw [Chunks.piecesFrom]
      split_ifs with hfull
      · have hnext : Reaches path i s (.reading ino (chunks ++
            [(content.drop chunks.flatten.length).take BUFSIZE])) s.w := by
          refine .of_proceed E hpc ?_
          simp only [proceed, hcontent, readPiece, if_pos hfull]
        have hread : (chunks ++ [(content.drop chunks.flatten.length).take BUFSIZE]).flatten.length =
            chunks.flatten.length + BUFSIZE := by
          rw [List.flatten_append, List.flatten_singleton, List.length_append, List.length_take,
            Nat.min_eq_left hfull]
        have hless : (content.drop (chunks ++
            [(content.drop chunks.flatten.length).take BUFSIZE]).flatten.length).length ≤ fuel := by
          have hpos : 0 < BUFSIZE := by decide
          rw [hread, ← List.drop_drop, List.length_drop]
          omega
        have hrest := ih (s := s.goto i _ s.w) hcontent (goto_pc_self _ _ _ _) hless
        rw [hread, ← List.drop_drop, List.append_assoc] at hrest
        exact hnext.trans hrest
      · refine .of_proceed E hpc ?_
        simp only [proceed, hcontent, readPiece, if_neg hfull]

/-- From the reply on a flush alone is `commitToCache`. -/
theorem alone_commit (E : Env) {time : Int} (hpc : s.pc i = .replied time) :
    Reaches path i s .idle (commitToCache E path time s.w).2 := by
  have hcopy : Reaches path i s (if (copyTemp E path s.w).1 then .copied time else .idle)
      (copyTemp E path s.w).2 := .of_proceed E hpc rfl
  rw [commitToCache_world]
  cases hcopied : (copyTemp E path s.w).1 with
  | false =>
      rw [hcopied] at hcopy
      exact hcopy
  | true =>
      rw [hcopied] at hcopy
      have hstamp : Reaches path i (s.goto i (.copied time) (copyTemp E path s.w).2) .stamped
          (stampCopies E path time (copyTemp E path s.w).2).2 :=
        .of_proceed E (goto_pc_self _ _ _ _) rfl
      exact hcopy.trans (hstamp.trans (.of_proceed E (goto_pc_self _ _ _ _) rfl))

/-- A flush alone is `Flush`. -/
theorem alone_flush (hrel : E.Reliable) (hidle : s.pc i = .idle) {ino : Nat}
    (hname : s.w.files.names (getTempPath path) = some ino) :
    Reaches path i s .idle (AFSClient.flush E path s.w).2 := by
  have htemp : tempAt s.w.files path = some (s.w.files.inode ino).content := by
    rw [tempAt, Fs.find_of_names hname, Option.map_some]
  have hopen : Reaches path i s (.opened ino) s.w := by
    have hnext : next path s ⟨i, .flush, E⟩ = some (s.goto i (.opened ino) s.w) := by
      simp only [next, if_pos hidle, hname]
    exact .of_step hnext
  by_cases hdirty : getHashedPath path ∈ s.w.cl.dirty_files
  · rw [flush_dirty hrel hdirty htemp]
    have hbegin : Reaches path i (s.goto i (.opened ino) s.w) (.reading ino []) s.w := by
      refine .of_proceed E (goto_pc_self _ _ _ _) ?_
      simp only [proceed, isFileDirty]
      exact if_pos (decide_eq_true hdirty)
    have hreads : Reaches path i (s.goto i (.reading ino []) s.w)
        (.sending (Chunks.pieces BUFSIZE (s.w.files.inode ino).content)) s.w :=
      alone_reads E _ rfl (goto_pc_self _ _ _ _) (le_refl _)
    have hsent := putFileStream_reliable hrel
      (uploadRequests path.bytes (Chunks.pieces BUFSIZE (s.w.files.inode ino).content)) s.w
    refine ((hopen.trans hbegin).trans hreads).trans ?_
    cases hreply : (putFile E (uploadRequests path.bytes
        (Chunks.pieces BUFSIZE (s.w.files.inode ino).content)) s.w.srv).1 with
    | none =>
        refine .of_proceed E (goto_pc_self _ _ _ _) ?_
        simp only [proceed, goto, hsent, hreply]
    | some reply =>
        simp only [hreply]
        have hput : Reaches path i (s.goto i (.sending (Chunks.pieces BUFSIZE
            (s.w.files.inode ino).content)) s.w) (.replied (toInt reply.lastModifiedTime))
            { s.w with srv := (putFile E (uploadRequests path.bytes
              (Chunks.pieces BUFSIZE (s.w.files.inode ino).content)) s.w.srv).2 } := by
          refine .of_proceed E (goto_pc_self _ _ _ _) ?_
          simp only [proceed, goto, hsent, hreply]
        exact hput.trans (alone_commit E (goto_pc_self _ _ _ _))
  · have hclean : (AFSClient.flush E path s.w).2 = s.w := by
      unfold AFSClient.flush
      rw [bind_run, ifstreamRead_reliable hrel htemp]
      simp only [bind_run, isFileDirty, hdirty, decide_false]
      rfl
    rw [hclean]
    refine hopen.trans (.of_proceed E (goto_pc_self _ _ _ _) ?_)
    simp only [proceed, isFileDirty]
    exact if_neg (of_decide_eq_false (decide_eq_false hdirty) <| of_decide_eq_true ·)

end Alone

omit [DecidableEq ι] [Fintype ι] in
theorem Start.safe {start : Threads ι} (hstart : Start path start) : ∃ ino, Safe path ino start := by
  obtain ⟨ino, hname⟩ := Option.ne_none_iff_exists'.mp hstart.present
  have hidle : ∀ i, (start.pc i).underWay = false := by
    intro i
    rw [hstart.idle i]
    rfl
  refine ⟨ino, .of_none_underWay ⟨hname, hstart.sole⟩ ?_ hidle (Or.inl hstart.same)⟩
  intro i
  rw [hstart.idle i]
  trivial

/-- As long as no write that overlapped with a flush is marked while a flush is under way, no update is
lost: with no operation in progress, a path that is not dirty has its bytes on the server. -/
theorem clean_uploaded_of_marks_apart {start : Threads ι} (hstart : Start path start)
    {trace : List (Threads ι × ThreadTurn ι)} (hrun : Run (step path) start trace s)
    (hreliable : Guarded (fun _ turn => turn.E.Reliable) trace) (hapart : Guarded MarksApart trace) :
    ∀ u, Visits trace s u → (∀ i, u.pc i = .idle) → getHashedPath path ∉ u.w.cl.dirty_files →
      contentAt u.w.srv path.bytes = tempAt u.w.files path := by
  obtain ⟨ino, hsafe⟩ := hstart.safe
  have hguard : Guarded (fun s turn => turn.E.Reliable ∧ s.MarksApart turn) trace :=
    fun entry hmem => ⟨hreliable entry hmem, hapart entry hmem⟩
  intro u hvisit hidle hclean
  have hu : Safe path ino u := by
    refine hrun.visits (Safe path ino) (fun trace t hrun hguard => ?_) hguard hvisit
    refine hrun.guarded_invariant (Safe path ino) hsafe ?_ hguard
    intro s turn t hs hg hstep
    exact hs.step hg.1 hg.2 hstep
  rcases hu.uploaded with hup | hdirty | ⟨j, overlapped, hj⟩
  · exact hup
  · exact absurd hdirty hclean
  · rw [hidle j] at hj
    cases hj

section Sample

/-- `/f` has the same bytes on the server and in the temporary copy, which is open for writing. -/
def sampleShared : Threads Bool where
  w := {
    srv := ⟨(Fs.empty ⟨[], default, default⟩).create (getServerPath (ascii "/f"))
      ⟨ascii "aa", ⟨1, 0⟩, default⟩, []⟩
    cl := ⟨(Fs.empty ⟨[], default, default⟩).create (getTempPath sampleF)
      ⟨ascii "aa", ⟨1, 0⟩, default⟩, [some ⟨0, O_RDWR⟩], ∅, []⟩
    errno := 0 }
  pc _ := .idle

omit [Sha256] in
def sampleTurns (turns : List (Bool × ThreadAct)) : List (ThreadTurn Bool) :=
  turns.map fun turn => ⟨turn.1, turn.2, .smooth 5⟩

omit [Sha256] in
def sampleWrite (s : String) : ThreadAct := .write ⟨O_RDWR, 0⟩ (ascii s) 0

theorem sampleShared_start : Start sampleF sampleShared where
  idle _ := rfl
  clean := Finset.notMem_empty _
  sole := Fs.create_sole _ _ _
  present := by simp [sampleShared, World.files]
  same := by simp [sampleShared, World.files, contentAt, tempAt, Fs.find, sampleF]

omit [Sha256] in
theorem sampleTurns_reliable (turns : List (Bool × ThreadAct)) :
    ∀ turn ∈ sampleTurns turns, turn.E.Reliable := by
  intro turn hmem
  obtain ⟨_, _, rfl⟩ := List.mem_map.mp hmem
  exact Env.smooth_reliable 5

/-- Between the writing and the sending of one thread the other one writes, and marks: the flush reads
both. -/
def sampleApart : List (ThreadTurn Bool) :=
  sampleTurns [(false, sampleWrite "bb"), (false, .proceed), (false, .flush), (false, .proceed),
    (true, sampleWrite "cc"), (true, .proceed), (false, .proceed), (false, .proceed),
    (false, .proceed), (false, .proceed), (false, .proceed)]

omit [Sha256] in
theorem marked_apart :
    letI := sampleSha256
    ∃ trace s, Run (step sampleF) sampleShared trace s ∧
      Guarded (fun _ turn => turn.E.Reliable) trace ∧ Guarded MarksApart trace ∧
      (∀ i, s.pc i = .idle) ∧ getHashedPath sampleF ∉ s.w.cl.dirty_files := by
  have hrun : Run (@step Bool _ _ sampleSha256 sampleF) (@sampleShared sampleSha256) _ _ :=
    .of_advance sampleApart .nil rfl
  have hreliable : Guarded (fun _ (turn : ThreadTurn Bool) => turn.E.Reliable) _ :=
    .of_advance sampleApart (sampleTurns_reliable _) (guarded_nil _)
      (rfl : advance (@next Bool _ _ sampleSha256 sampleF) sampleApart
        ([], @sampleShared sampleSha256) = some _)
  exact ⟨_, _, hrun, hreliable, by decide, by decide, by decide⟩

omit [Sha256] in
theorem clean_uploaded_of_marks_apart_sample :
    letI := sampleSha256
    ∃ trace s, Run (step sampleF) sampleShared trace s ∧
      contentAt s.w.srv sampleF.bytes = tempAt s.w.files sampleF := by
  let _ := sampleSha256
  obtain ⟨trace, s, hrun, hreliable, hapart, hidle, hclean⟩ := marked_apart
  exact ⟨trace, s, hrun, clean_uploaded_of_marks_apart sampleShared_start hrun hreliable hapart s (Or.inl rfl)
    hidle hclean⟩

/-- The other thread writes and marks between the reading and the sending. -/
def sampleOverlapped : List (ThreadTurn Bool) :=
  sampleTurns [(false, sampleWrite "bb"), (false, .proceed), (false, .flush), (false, .proceed),
    (false, .proceed), (true, sampleWrite "cc"), (true, .proceed), (false, .proceed),
    (false, .proceed), (false, .proceed), (false, .proceed)]

omit [Sha256] in
/-- The other thread writes once the flush has read, and its mark is taken away with the first one: the
path is clean, and what was written is in the temporary copy only. -/
theorem marked_write_lost :
    letI := sampleSha256
    ∃ trace s, Run (step sampleF) sampleShared trace s ∧ Start sampleF sampleShared ∧
      Guarded (fun _ turn => turn.E.Reliable) trace ∧ (∀ i, s.pc i = .idle) ∧
      getHashedPath sampleF ∉ s.w.cl.dirty_files ∧
      tempAt s.w.files sampleF = some (ascii "cc") ∧
      contentAt s.w.srv sampleF.bytes = some (ascii "bb") := by
  have hrun : Run (@step Bool _ _ sampleSha256 sampleF) (@sampleShared sampleSha256) _ _ :=
    .of_advance sampleOverlapped .nil rfl
  have hreliable : Guarded (fun _ (turn : ThreadTurn Bool) => turn.E.Reliable) _ :=
    .of_advance sampleOverlapped (sampleTurns_reliable _) (guarded_nil _)
      (rfl : advance (@next Bool _ _ sampleSha256 sampleF) sampleOverlapped
        ([], @sampleShared sampleSha256) = some _)
  exact ⟨_, _, hrun, @sampleShared_start sampleSha256, hreliable, by decide, by decide, by decide,
    by decide⟩

end Sample

end Threads

end Bnfs
