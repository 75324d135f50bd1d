import Bnfs.ClientLogged
import Bnfs.ClientOpenCopies

/-! Which operations of the client give back the descriptors they open. The presence of the persistent copy is tested by
opening it, and the test of the result leaves descriptor 0 out: an open and a rename that get it there do not close it.
A rename whose local part fails returns with the descriptor open. Everything else is closed once. -/

namespace Bnfs

open FileSystem Programs Handles

namespace WithLog

theorem descriptorOf_of_nonneg {fd : Int} (h : 0 ≤ fd) : descriptorOf fd = some fd := if_pos h

theorem descriptorOf_of_neg {fd : Int} (h : fd < 0) : descriptorOf fd = none := if_neg (by omega)

theorem closes_close {fd : Int} (h : 0 ≤ fd) : Closes fd (close fd) := by
  rw [close, descriptorOf_of_nonneg h]
  exact .closing fd _

theorem neutral_close {fd : Int} (h : fd < 0) : Neutral (close fd) := by
  rw [close, descriptorOf_of_neg h]
  exact .closing_none _

section Parts

variable {E : Env}

/-- What follows an opening closes the descriptor, if there is one. -/
theorem neutral_openFile_bind {site : Site} {name : Bytes} {flags : OpenFlags} {α : Type} {f : Int → LogProg α}
    (hopened : ∀ fd, 0 ≤ fd → Closes fd (f fd)) (hfailed : ∀ fd, fd < 0 → Neutral (f fd)) :
    Neutral (openFile E site name flags >>= f) := by
  refine .opening_bind (fun fd handle hfd => ?_) fun fd hfd => ?_
  · by_cases hneg : fd < 0
    · rw [descriptorOf_of_neg hneg] at hfd
      cases hfd
    · rw [descriptorOf_of_nonneg (not_lt.mp hneg)] at hfd
      obtain rfl := Option.some.inj hfd
      exact hopened fd (not_lt.mp hneg)
  · by_cases hneg : fd < 0
    · exact hfailed fd hneg
    · rw [descriptorOf_of_nonneg (not_lt.mp hneg)] at hfd
      cases hfd

/-- What is opened and given to `close` at once. -/
theorem neutral_openClose {site : Site} {name : Bytes} {flags : OpenFlags} {α : Type} {rest : LogProg α}
    (h : Neutral rest) : Neutral (do
      let fd ← openFile E site name flags
      let _ ← close fd
      rest) :=
  neutral_openFile_bind (fun _ hfd => (closes_close hfd).bind fun _ => h)
    fun _ hfd => (neutral_close hfd).bind fun _ => h

theorem closes_closeChecked {fd : Int} (h : 0 ≤ fd) : Closes fd (closeChecked fd true) := by
  unfold closeChecked
  rw [if_pos h, if_pos rfl]
  exact (closes_close h).bind fun _ => .pure _

theorem neutral_closeChecked {fd : Int} (h : fd < 0) : Neutral (closeChecked fd true) := by
  unfold closeChecked
  rw [if_neg (by omega)]
  exact .pure _

variable [Sha256]

theorem neutral_getCheckInCache (path : CString) (open_mode : OpenFlags) :
    Neutral (getCheckInCache E path true open_mode) :=
  neutral_openFile_bind (fun _ hfd => closes_closeChecked hfd) fun _ hfd => neutral_closeChecked hfd

theorem neutral_getCheckInTemp (path : CString) (open_mode : OpenFlags) (create_new : Bool) :
    Neutral (getCheckInTemp E path true open_mode create_new) := by
  refine neutral_openFile_bind (fun fd hfd => ?_) fun fd hfd => .ite (fun _ => ?_) fun _ => neutral_closeChecked hfd
  · have hnot : ¬ (fd = -1 && create_new) = true := by
      rw [decide_eq_false (by omega), Bool.false_and]
      exact Bool.false_ne_true
    rw [if_neg hnot]
    exact closes_closeChecked hfd
  · have hcopied : ∀ status : WaitStatus, Neutral
        (if status.isFailure then Pure.pure (false, fd) else do
          let fd ← openFile E .getCheckInTempCreate (getTempPath path) (O_CREAT ||| open_mode)
          closeChecked fd true : LogProg (Bool × Int)) := fun status =>
      .ite (fun _ => .pure _) fun _ =>
        neutral_openFile_bind (fun _ hfd => closes_closeChecked hfd) fun _ hfd => neutral_closeChecked hfd
    refine (neutral_getCheckInCache path O_RDONLY).bind fun is_cached => .ite (fun _ => ?_) fun _ => ?_
    · exact (Neutral.silent _).bind hcopied
    · exact (Neutral.pure (.exited 0)).bind hcopied

theorem neutral_prepareTemp (path : CString) (fi : FuseFileInfo) (o_fl : Int) :
    Neutral (prepareTemp E path fi o_fl) := by
  refine .ite (fun _ => ?_) fun _ => .ite (fun _ => ?_) fun _ => .ite (fun _ => ?_) fun _ => .pure _
  · exact (Neutral.silent _).bind fun _ => .pure _
  · refine neutral_openClose (neutral_openClose ?_)
    exact (Neutral.silent _).bind fun _ => (Neutral.silent _).bind fun _ => .pure _
  · exact (neutral_getCheckInTemp path O_RDONLY true).bind fun _ => .pure _

theorem neutral_commitToCache (path : CString) (t : Int) : Neutral (commitToCache E path t) := by
  refine neutral_openFile_bind (fun fd hfd => ?_) fun fd hfd => ?_
  · rw [if_neg (by omega)]
    refine (closes_close hfd).bind fun _ => (Neutral.silent _).bind fun status => .ite (fun _ => .pure _) fun _ => ?_
    exact (Neutral.silent _).bind fun _ => (Neutral.silent _).bind fun _ => (Neutral.silent _).bind fun _ => .pure _
  · rw [if_pos hfd]
    exact (Neutral.silent _).bind fun _ => .pure _

theorem neutral_flush (path : CString) : Neutral (flush E path) := by
  refine (Neutral.silent _).bind fun file => ?_
  cases file with
  | none => exact .pure _
  | some content =>
      refine (Neutral.silent _).bind fun dirty => .ite (fun _ => .pure _) fun _ => .ite (fun _ => ?_) fun _ => ?_
      · exact (Neutral.silent _).bind fun _ => (Neutral.silent _).bind fun _ => .pure _
      · refine (Neutral.silent _).bind fun reply => ?_
        cases reply with
        | none => exact .pure _
        | some reply => exact (neutral_commitToCache path _).bind fun _ => .pure _

end Parts

/-- The persistent copy is closed under a descriptor above 0. -/
theorem replay_closeCache {cache_fd : Int} {α : Type} {last : LogProg α} (hlast : Neutral last) (held : List Int)
    (w : World) : replay ((descriptorOf cache_fd).toList ++ held)
        ((if cache_fd > 0 then do
            let _ ← close cache_fd
            last
          else last) w).1 = some (if cache_fd = 0 then 0 :: held else held) := by
  rcases lt_trichotomy cache_fd 0 with hneg | hzero | hpos
  · rw [if_neg (by omega), if_neg (by omega), descriptorOf_of_neg hneg]
    exact hlast held w
  · rw [if_neg (by omega), if_pos hzero, hzero]
    exact hlast (0 :: held) w
  · rw [if_pos hpos, if_neg (by omega), descriptorOf_of_nonneg hpos.le]
    exact ((closes_close hpos.le).bind fun _ => hlast) held w

/-- The end of `getOpenFlags` closes what it was given, but for a persistent copy under descriptor 0. -/
theorem replay_chooseCopy {cache_fd temp_fd : Int} {outOfDate : Bool} (h : temp_fd ≤ 0 → outOfDate = true)
    (held : List Int) (w : World) :
    replay ((descriptorOf temp_fd).toList ++ ((descriptorOf cache_fd).toList ++ held))
        (chooseCopy cache_fd temp_fd outOfDate w).1 = some (if cache_fd = 0 then 0 :: held else held) := by
  have hlast : Neutral (if outOfDate then Pure.pure 1 else Pure.pure 2 : LogProg Int) :=
    .ite (fun _ => .pure _) fun _ => .pure _
  unfold chooseCopy
  by_cases hneither : temp_fd < 0 ∧ cache_fd < 0
  · rw [if_pos hneither, descriptorOf_of_neg hneither.1, descriptorOf_of_neg hneither.2, if_neg (by omega)]
    rfl
  have hnever : ¬ (temp_fd < 0 ∧ cache_fd ≥ 0 ∧ outOfDate = false) := fun hfresh => by
    rw [h hfresh.1.le] at hfresh
    exact Bool.noConfusion hfresh.2.2
  rw [if_neg hneither, if_neg hnever]
  by_cases htemp : temp_fd < 0
  · rw [descriptorOf_of_neg htemp]
    exact ((neutral_close htemp).replay_bind _ _ w).trans (replay_closeCache hlast held _)
  · rw [descriptorOf_of_nonneg (not_lt.mp htemp)]
    exact ((closes_close (not_lt.mp htemp)).replay_bind _ _ w).trans (replay_closeCache hlast held _)

section Opens

variable [Sha256] {E : Env} {path : CString} {is_create : Bool}

/-- The persistent copy can be opened. -/
def CacheReadable (E : Env) (path : CString) (w : World) : Prop :=
  E.fails .isPresentInCache = none ∧ w.files.names (getCachePath path) ≠ none

/-- It is tested under the lowest free descriptor, if it can be opened. -/
theorem isPresentInCache_cases (E : Env) (path : CString) (w : World) :
    CacheReadable E path w ∧ (Bnfs.isPresentInCache E path w).1 = (w.cl.fds.lowestFree : Int) ∨
    ¬ CacheReadable E path w ∧ (Bnfs.isPresentInCache E path w).1 = -1 := by
  rcases posixOpen_rdonly E .isPresentInCache (getCachePath path) w with
    ⟨ino, ⟨hok, hname⟩, heq⟩ | ⟨hmissing, e, _, heq⟩
  · exact Or.inl ⟨⟨hok, hname ▸ Option.some_ne_none ino⟩, congrArg Prod.fst heq⟩
  · exact Or.inr ⟨fun h => h.2 (hmissing h.1), congrArg Prod.fst heq⟩

theorem isPresentInCache_zero_iff (E : Env) (path : CString) (w : World) :
    (Bnfs.isPresentInCache E path w).1 = 0 ↔ CacheReadable E path w ∧ w.cl.fds.get 0 = none := by
  rcases isPresentInCache_cases E path w with ⟨hreadable, hfd⟩ | ⟨hunreadable, hfd⟩
  · rw [hfd, and_iff_right hreadable, ← Descriptors.lowestFree_eq_zero_iff]
    exact Int.natCast_eq_zero
  · rw [hfd]
    exact iff_of_false (by decide) fun h => hunreadable h.1

theorem isPresentInCache_nonneg_iff (E : Env) (path : CString) (w : World) :
    0 ≤ (Bnfs.isPresentInCache E path w).1 ↔ CacheReadable E path w := by
  rcases isPresentInCache_cases E path w with ⟨hreadable, hfd⟩ | ⟨hunreadable, hfd⟩
  · rw [hfd]
    exact iff_of_true (Int.natCast_nonneg _) hreadable
  · rw [hfd]
    exact iff_of_false (by decide) hunreadable

omit [Sha256] in
/-- After the two tests the temporary copy is compared, if its descriptor is above 0, and one of the copies chosen. -/
theorem replay_compareCopies (server_time cache_fd temp_fd : Int) (held : List Int) (w : World) :
    replay ((descriptorOf temp_fd).toList ++ ((descriptorOf cache_fd).toList ++ held)) ((do
        let outOfDate ← if temp_fd > 0 then silent (isOutOfDate E server_time temp_fd) else Pure.pure true
        chooseCopy cache_fd temp_fd outOfDate : LogProg Int) w).1 =
      some (if cache_fd = 0 then 0 :: held else held) := by
  by_cases hpos : temp_fd > 0
  · rw [if_pos hpos, replay_silent_bind]
    exact replay_chooseCopy (fun hle => absurd hpos (not_lt.mpr hle)) held _
  · rw [if_neg hpos]
    exact replay_chooseCopy (fun _ => rfl) held w

theorem replay_checkCopies (server_time : Int) (held : List Int) (w : World) :
    replay held ((do
        let cache_fd ← isPresentInCache E path
        let temp_fd ← isPresentInTemp E path
        let outOfDate ← if temp_fd > 0 then silent (isOutOfDate E server_time temp_fd) else Pure.pure true
        chooseCopy cache_fd temp_fd outOfDate : LogProg Int) w).1 =
      some (if (Bnfs.isPresentInCache E path w).1 = 0 then 0 :: held else held) := by
  refine (replay_opening_bind descriptorOf _ _ held w).trans ?_
  refine (replay_opening_bind descriptorOf _ _ _ _).trans ?_
  exact replay_compareCopies server_time _ _ held _

/-- The tests of `getOpenFlags` leave the persistent copy open under descriptor 0, unless the file is made anew. -/
theorem replay_getOpenFlags (flags : OpenFlags) (held : List Int) (w : World) :
    replay held (getOpenFlags E is_create flags path w).1 = some
      (if ¬ CreatesLocally E path flags is_create w ∧ (Bnfs.isPresentInCache E path w).1 = 0 then 0 :: held
        else held) := by
  unfold getOpenFlags
  rw [replay_silent_bind, getAttr_world]
  by_cases hcreates : (AFSClient.getAttr E path E.clientStack w).1.1 = -ENOENT ∧
      (is_create || AFSClient.isOpenWithCreate flags) = true
  · rw [if_pos hcreates, if_neg fun h => h.1 hcreates]
    rfl
  · rw [if_neg hcreates]
    refine (replay_checkCopies _ held w).trans ?_
    simp only [CreatesLocally, hcreates, not_false_eq_true, true_and]

/-- The result of an open is a descriptor if the call at its end gives one, and then that one. -/
theorem descriptorOf_openTemp (fi : FuseFileInfo) (w : World) : descriptorOf (openTemp E path fi w).1 =
    descriptorOf (posixOpen E .clientOpenOpen (getTempPath path) (AFSClient.localFlags fi.flags) w).1 := by
  by_cases hopened : (posixOpen E .clientOpenOpen (getTempPath path) (AFSClient.localFlags fi.flags) w).1 > -1
  · unfold openTemp
    rw [bind_run, if_pos hopened]
    rfl
  · have hfailed : (posixOpen E .clientOpenOpen (getTempPath path) (AFSClient.localFlags fi.flags) w).1 < 0 := by
      omega
    have herrno : 0 < (deleteFromTemp E path
        (posixOpen E .clientOpenOpen (getTempPath path) (AFSClient.localFlags fi.flags) w).2).2.errno :=
      posixRemove_errno (posixOpen_errno hfailed)
    rw [descriptorOf_of_neg hfailed]
    unfold openTemp
    rw [bind_run, if_neg hopened]
    exact descriptorOf_of_neg (Int.neg_neg_of_pos herrno)

/-- What an open leaves open: the descriptor it returns, if any, and descriptor 0 if the persistent copy was tested
there. -/
theorem replay_Open (fi : FuseFileInfo) (w : World) : replay [] (Open E path fi is_create w).1 = some
    ((descriptorOf (AFSClient.Open E path fi is_create w).1).toList ++
      if ¬ CreatesLocally E path fi.flags is_create w ∧ (Bnfs.isPresentInCache E path w).1 = 0 then [0] else []) := by
  have hflags := (logs_getOpenFlags E is_create fi.flags path).erases w
  have hprepared := (logs_prepareTemp E path fi (AFSClient.getOpenFlags E is_create fi.flags path w).1).erases
    (AFSClient.getOpenFlags E is_create fi.flags path w).2
  unfold Open
  rw [Handles.replay_bind, replay_getOpenFlags, Option.bind_some, (neutral_prepareTemp path fi _).replay_bind, hflags,
    hprepared]
  refine (replay_opening_bind descriptorOf _ _ _ _).trans ?_
  rw [Open_eq, descriptorOf_openTemp]
  have hrest : ∀ temp_fd : Int, Neutral (if temp_fd > -1 then Pure.pure temp_fd else do
      silent (deleteFromTemp E path)
      let errno ← silent getErrno
      Pure.pure (-errno) : LogProg Int) := fun temp_fd =>
    .ite (fun _ => .pure _) fun _ => (Neutral.silent _).bind fun _ => (Neutral.silent _).bind fun _ => .pure _
  exact hrest _ _ _

end Opens

section Renames

variable [Sha256] {E : Env} {old : CString} (new : CString) {w : World}

/-- Once the temporary copy has moved the persistent one is closed. -/
theorem closes_carried {fd : Int} (h : 0 ≤ fd) : Closes fd (do
    let dirty ← silent (isFileDirty old)
    if dirty then
      silent (unmarkFileDirty E old)
      silent (markFileDirty new)
    let _ ← close fd
    silent (AFSClient.renameOnServer E old new) : LogProg Int) := by
  have hlast : Closes fd (do
      let _ ← close fd
      silent (AFSClient.renameOnServer E old new) : LogProg Int) :=
    (closes_close h).bind fun _ => .silent _
  intro held w
  rw [replay_silent_bind]
  split_ifs
  · rw [replay_silent_bind, replay_silent_bind]
    exact hlast held _
  · exact hlast held _

theorem posixRename_failed_iff (E : Env) (old new : CString) (w : World) :
    (posixRename E .clientRenameRename (getTempPath old) (getTempPath new) (Bnfs.isPresentInCache E old w).2).1 = -1 ↔
      ¬ (E.fails .clientRenameRename = none ∧ w.files.names (getTempPath old) ≠ none) := by
  rw [← (isPresentInCache_same E old w).files]
  rcases posixRename_run E .clientRenameRename (getTempPath old) (getTempPath new)
    (Bnfs.isPresentInCache E old w).2 with ⟨hgoes, heq⟩ | ⟨hfails, heq⟩
  · rw [heq]
    exact iff_of_false (by decide : (0 : Int) ≠ -1) (not_not_intro hgoes)
  · rw [heq]
    exact iff_of_true rfl hfails

/-- The persistent copy is given back if it was not opened or the temporary one moves. -/
theorem replay_rename_closed (h : (Bnfs.isPresentInCache E old w).1 < 0 ∨ Moves E old w) (held : List Int) :
    replay held (rename E old new w).1 = some held := by
  refine (replay_opening_bind descriptorOf (Bnfs.isPresentInCache E old) _ held w).trans ?_
  rcases h with hneg | ⟨hpos, hgoes⟩
  · rw [descriptorOf_of_neg hneg, if_neg (by omega)]
    rfl
  · have hmoved := fun hfailed => (posixRename_failed_iff E old new w).mp hfailed hgoes
    rw [descriptorOf_of_nonneg hpos.le, if_pos hpos, replay_silent_bind, if_neg hmoved]
    exact closes_carried new hpos.le held _

/-- Otherwise it stays open. -/
theorem replay_rename_open (hopened : 0 ≤ (Bnfs.isPresentInCache E old w).1) (hstays : ¬ Moves E old w)
    (held : List Int) :
    replay held (rename E old new w).1 = some ((Bnfs.isPresentInCache E old w).1 :: held) := by
  refine (replay_opening_bind descriptorOf (Bnfs.isPresentInCache E old) _ held w).trans ?_
  rw [descriptorOf_of_nonneg hopened]
  by_cases hpos : 0 < (Bnfs.isPresentInCache E old w).1
  · have hfailed := (posixRename_failed_iff E old new w).mpr fun hgoes => hstays ⟨hpos, hgoes⟩
    rw [if_pos hpos, replay_silent_bind, if_pos hfailed]
    rfl
  · rw [if_neg hpos]
    rfl

end Renames

end WithLog

/-- The operations that open files. -/
inductive ClientOp where
  | openFile (path : CString) (fi : FuseFileInfo) (is_create : Bool)
  | rename (old_path new_path : CString)
  | unlink (file_path : CString)
  | flush (path : CString)

namespace ClientOp

variable [Sha256]

def run (E : Env) : ClientOp → Prog Int
  | .openFile path fi is_create => AFSClient.Open E path fi is_create
  | .rename old_path new_path => AFSClient.rename E old_path new_path
  | .unlink file_path => AFSClient.unlink E file_path
  | .flush path => AFSClient.flush E path

/-- With its log. -/
def logged (E : Env) : ClientOp → WithLog.LogProg Int
  | .openFile path fi is_create => WithLog.Open E path fi is_create
  | .rename old_path new_path => WithLog.rename E old_path new_path
  | .unlink file_path => WithLog.unlink E file_path
  | .flush path => WithLog.flush E path

theorem logs_run (E : Env) (op : ClientOp) : Logs World.openFds (op.run E) (op.logged E) := by
  cases op with
  | openFile path fi is_create => exact WithLog.logs_Open E path fi is_create
  | rename old_path new_path => exact WithLog.logs_rename E old_path new_path
  | unlink file_path => exact WithLog.logs_unlink E file_path
  | flush path => exact WithLog.logs_flush E path

/-- The descriptor that is left to the caller: the result of an open that succeeds. -/
def handedOut (op : ClientOp) (result : Int) : Option Int :=
  match op with
  | .openFile _ _ _ => descriptorOf result
  | _ => none

/-- Each descriptor that was opened is closed once, but for the one that is handed out, and no other is closed. -/
def Balanced (E : Env) (op : ClientOp) (w : World) : Prop :=
  replay [] (op.logged E w).1 = some (op.handedOut (op.run E w).1).toList

/-- A balanced operation leaves the descriptors that are open as they were, but for the one it hands out. -/
theorem Balanced.openFds {E : Env} {op : ClientOp} {w : World} (h : op.Balanced E w) :
    (op.run E w).2.openFds = w.openFds ∪ {fd | fd ∈ (op.handedOut (op.run E w).1).toList} :=
  (op.logs_run E).handles_of_replay h

/-- The persistent copy is not tested under descriptor 0 by an open; for a rename it is not there, or it is tested under
another descriptor and the temporary copy can be moved. -/
def GivesBack (E : Env) (op : ClientOp) (w : World) : Prop :=
  match op with
  | .openFile path fi is_create => MadeAnew E path fi.flags is_create w ∨
      ¬ (WithLog.CacheReadable E path w ∧ w.cl.fds.get 0 = none)
  | .rename old_path _ => WithLog.CacheReadable E old_path w →
      w.cl.fds.get 0 ≠ none ∧ E.fails .clientRenameRename = none ∧ w.files.names (getTempPath old_path) ≠ none
  | _ => True

/-- A rename goes well by its calls exactly if its descriptor is given back. -/
theorem givesBack_rename_iff (E : Env) (old new : CString) (w : World) :
    (ClientOp.rename old new).GivesBack E w ↔ (Bnfs.isPresentInCache E old w).1 < 0 ∨ Moves E old w := by
  rw [Moves, isPresentInCache_pos_iff, ← not_le, WithLog.isPresentInCache_nonneg_iff]
  show (WithLog.CacheReadable E old w → _) ↔ _
  unfold WithLog.CacheReadable
  tauto

/-- For every operation, every local state and every outcome of the calls. -/
theorem balanced_iff (E : Env) (op : ClientOp) (w : World) : op.Balanced E w ↔ op.GivesBack E w := by
  cases op with
  | openFile path fi is_create =>
      show replay [] (WithLog.Open E path fi is_create w).1 = some _ ↔ _ ∨ ¬ _
      rw [WithLog.replay_Open, ← createsLocally_iff_madeAnew, ← WithLog.isPresentInCache_zero_iff]
      split_ifs with hleft
      · refine iff_of_false (fun heq => ?_) (not_or.mpr ⟨hleft.1, not_not_intro hleft.2⟩)
        exact List.cons_ne_nil _ _ (List.append_right_eq_self.mp (Option.some.inj heq))
      · rw [List.append_nil]
        exact iff_of_true rfl (not_and_or.mp hleft |>.imp_left not_not.mp)
  | rename old_path new_path =>
      rw [givesBack_rename_iff]
      constructor
      · intro hbalanced
        by_contra hnot
        rw [not_or, not_lt] at hnot
        have hopen := WithLog.replay_rename_open new_path hnot.1 hnot.2 []
        exact List.cons_ne_nil _ _ (Option.some.inj (hopen.symm.trans hbalanced))
      · exact fun hgives => WithLog.replay_rename_closed new_path hgives []
  | unlink file_path => exact iff_of_true rfl trivial
  | flush path => exact iff_of_true (WithLog.neutral_flush path [] w) trivial

end ClientOp

/-- Server and client have `/f`, the client its persistent copy only. -/
def sampleCachedOnly [Sha256] (fds : Descriptors) : World where
  srv := ⟨(Fs.empty ⟨[], default, default⟩).create (getServerPath (ascii "/f")) ⟨ascii "data", default, default⟩, []⟩
  cl := {
    files := (Fs.empty ⟨[], default, default⟩).create (getCachePath sampleF) ⟨ascii "data", default, default⟩
    fds
    dirty_files := ∅
    op_queue := [] }
  errno := 0

/-- An open that gets descriptor 0 for the persistent copy returns another one and leaves 0 open. A rename of a path
without a temporary copy fails and leaves the persistent copy open. -/
theorem descriptor_left_open :
    letI := sampleSha256
    (AFSClient.Open (.smooth 5) sampleF ⟨O_RDONLY, 0⟩ false (sampleCachedOnly [])).1 = 1 ∧
      ¬ (ClientOp.openFile sampleF ⟨O_RDONLY, 0⟩ false).Balanced (.smooth 5) (sampleCachedOnly []) ∧
      (AFSClient.rename (.smooth 5) sampleF sampleG (sampleCachedOnly [some ⟨0, O_RDWR⟩])).1 = -ENOENT ∧
      ¬ (ClientOp.rename sampleF sampleG).Balanced (.smooth 5) (sampleCachedOnly [some ⟨0, O_RDWR⟩]) := by
  let _ := sampleSha256
  unfold ClientOp.Balanced
  decide +kernel

end Bnfs
