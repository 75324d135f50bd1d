import Bnfs.ClientMountRuns
import Bnfs.ClientBalanced

/-! The handles FUSE has of the mounted file system: those that `open` and `create` gave it and it has not released. As
long as no open is answered by an injection that does nothing, each of them is open on what it was given for, and no
other has its number. The descriptors that are open besides are those that an open, a rename or a release left. -/

namespace Bnfs

open FileSystem Programs Runs Handles

/-- The same numbers are open, on the same files. -/
def World.FdsAgree (w w' : World) : Prop := ∀ fd, w'.cl.fds.get fd = w.cl.fds.get fd

instance : IsPreorder World World.FdsAgree where
  refl _ _ := rfl
  trans _ _ _ h h' fd := (h' fd).trans (h fd)

namespace World

variable {w w' : World}

theorem FdsSame.agree (h : FdsSame w w') : FdsAgree w w' := fun fd => congrArg (Descriptors.get · fd) h

theorem FdsAgree.kept (h : FdsAgree w w') : FdsKept w w' := fun fd _ hget => (h fd).trans hget

theorem FdsAgree.openFds (h : FdsAgree w w') : w'.openFds = w.openFds := by
  ext fd
  simp only [World.openFds, Set.mem_ofPred_eq, h fd]

/-- What is kept and not more is the same. -/
theorem FdsKept.agree (h : FdsKept w w')
    (hback : ∀ fd d, w'.cl.fds.get fd = some d → w.cl.fds.get fd = some d) : FdsAgree w w' := fun fd => by
  cases hget : w.cl.fds.get fd with
  | some d => exact h fd d hget
  | none =>
      cases hget' : w'.cl.fds.get fd with
      | none => rfl
      | some d => exact absurd ((hback fd d hget').symm.trans hget) (Option.some_ne_none d)

theorem FdsKept.agree_of_openFds (h : FdsKept w w') (hopen : w'.openFds = w.openFds) : FdsAgree w w' := by
  refine h.agree fun fd d hget => ?_
  have hmem : fd ∈ w'.openFds := fun hnone => Option.some_ne_none d (hget.symm.trans hnone)
  rw [hopen] at hmem
  obtain ⟨d', hget'⟩ := Option.ne_none_iff_exists'.mp hmem
  rw [← hget, h fd d' hget', hget']

end World

section Same

variable {E : Env}

theorem fdsSame_failWith (e : Int) : Keeps World.FdsSame (failWith e) := fun _ => rfl

theorem fdsSame_orErrno (ret : Int) : Keeps World.FdsSame (orErrno ret) := fun w => by
  rw [World.FdsSame, orErrno_world]

/-- A call on the file of a name or of a descriptor. -/
theorem fdsSame_onFile (site : Site) (name : Bytes) (change : File → File) :
    Keeps World.FdsSame (onFile E site name change) :=
  WithLog.fdsSame_attempt E fun w => by
    cases w.files.names name <;> rfl

theorem fdsSame_onFd (site : Site) (fd : Int) {call : Descriptor → Prog Int}
    (h : ∀ d, Keeps World.FdsSame (call d)) : Keeps World.FdsSame (onFd E site fd call) :=
  WithLog.fdsSame_attempt E fun w => by
    cases w.cl.fds.get fd with
    | none => exact fdsSame_failWith EBADF w
    | some d => exact h d w

theorem fdsSame_newNode (site : Site) (name content : Bytes) (attr : Attr) :
    Keeps World.FdsSame (newNode E site name content attr) :=
  WithLog.fdsSame_attempt E fun w => by
    cases w.files.names name <;> rfl

theorem fdsSame_posixSymlink (target linkpath : Bytes) : Keeps World.FdsSame (posixSymlink E target linkpath) :=
  WithLog.fdsSame_attempt E fun w => by
    split_ifs <;> rfl

theorem fdsSame_posixTruncate (site : Site) (name : Bytes) (length : Int) :
    Keeps World.FdsSame (posixTruncate E site name length) :=
  .ite (fun _ => fdsSame_failWith EINVAL) fun _ => fdsSame_onFile site name _

theorem fdsSame_posixLink (oldpath newpath : Bytes) : Keeps World.FdsSame (posixLink E oldpath newpath) :=
  WithLog.fdsSame_attempt E fun w => by
    split_ifs <;> rfl

theorem fdsSame_getAttr (path : CString) (stbuf : Stat) : Keeps World.FdsSame (AFSClient.getAttr E path stbuf) :=
  (WithLog.fdsSame_unary E _ _).bind fun reply => by
    cases reply <;> exact .pure _

theorem fdsSame_readDir (path : CString) : Keeps World.FdsSame (AFSClient.readDir E path) :=
  (WithLog.fdsSame_unary E _ _).bind fun reply => by
    cases reply with
    | none => exact .pure _
    | some reply => exact .ite (fun _ => .pure _) fun _ => .ite (fun _ => .pure _) fun _ => .pure _

/-- `mkdir`, `rmdir` and `access`. -/
theorem fdsSame_base (r : Rpc) (handler : Server → Option Int × Server) : Keeps World.FdsSame (do
    let reply ← unary E r handler
    return AFSClient.baseResult reply) :=
  (WithLog.fdsSame_unary E r handler).bind fun _ => .pure _

theorem fdsSame_ifstreamRead (site : Site) (name : Bytes) :
    Keeps World.FdsSame (AFSClient.ifstreamRead E site name) := fun w => by
  unfold AFSClient.ifstreamRead
  split <;> rfl

theorem FdsSame.keeps_kept {α : Type} {x : Prog α} (h : Keeps World.FdsSame x) : Keeps World.FdsKept x :=
  h.mono fun _ _ hsame => hsame.agree.kept

end Same

section Operations

variable [Sha256] {E : Env}

theorem fdsKept_flush (path : CString) : Keeps World.FdsKept (AFSClient.flush E path) :=
  flush_keeps (FdsSame.keeps_kept (fdsSame_ifstreamRead _ _))
    (fun requests => FdsSame.keeps_kept (WithLog.fdsSame_putFileStream E requests))
    (FdsSame.keeps_kept (WithLog.fdsSame_deleteFromTemp E path)) (fdsKept_commitToCache path)

/-- A flush gives back what it opened. -/
theorem fdsAgree_flush (path : CString) : Keeps World.FdsAgree (AFSClient.flush E path) := fun w => by
  have hbalanced : (ClientOp.flush path).Balanced E w := (ClientOp.balanced_iff E _ w).mpr trivial
  refine (fdsKept_flush path w).agree_of_openFds (hbalanced.openFds.trans ?_)
  exact Set.union_eq_self_of_subset_right fun _ hmem => absurd hmem List.not_mem_nil

theorem fdsKept_rename (old new : CString) : Keeps World.FdsKept (AFSClient.rename E old new) := fun w => by
  have hopened : World.FdsKept w (isPresentInCache E old w).2 := posixOpen_fdsKept E _ _ _ w
  have hserver := FdsSame.keeps_kept (WithLog.fdsSame_renameOnServer E old new)
  rcases rename_cases E old new w with ⟨_, heq⟩ | ⟨_, _, heq⟩ | ⟨_, heq⟩
  · rw [heq]
    exact trans_of World.FdsKept hopened (hserver _)
  · rw [heq]
    exact hopened
  · rw [heq]
    exact trans_of World.FdsKept (carried_fdsKept E old new w) (hserver _)

theorem fdsKept_Open (path : CString) (fi : FuseFileInfo) (is_create : Bool) :
    Keeps World.FdsKept (AFSClient.Open E path fi is_create) := fun w => by
  have hrest : Keeps World.FdsKept (do
      deleteFromTemp E path
      let errno ← getErrno
      return -errno) :=
    FdsSame.keeps_kept ((WithLog.fdsSame_deleteFromTemp E path).bind fun _ =>
      WithLog.fdsSame_getErrno.bind fun _ => .pure _)
  have hopens : Keeps World.FdsKept (openTemp E path fi) :=
    Keeps.bind (posixOpen_fdsKept E _ _ _) fun _ => .ite (fun _ => .pure _) fun _ => hrest
  exact trans_of World.FdsKept (fdsKept_prepared fi is_create w) (hopens (prepared E path fi is_create w))

end Operations

section Handlers

variable {E : Env}

theorem fdsSame_readAttribute (site : Site) (name : Bytes) (size : Nat) (value : File → Option Bytes) :
    Keeps World.FdsSame (readAttribute E site name size value) := fun w => by
  unfold readAttribute
  split
  · rfl
  · rfl
  · split
    · rfl
    · split_ifs <;> rfl

theorem fdsSame_posixPwrite (site : Site) (fd : Int) (data : Bytes) (offset : Nat) :
    Keeps World.FdsSame (posixPwrite E site fd data offset) := fun w => by
  rcases posixPwrite_run E site w fd data offset with ⟨d, _, heq⟩ | ⟨e, _, heq⟩
  · rw [heq]
    dsimp only
    split_ifs <;> rfl
  · rw [heq]
    exact fdsSame_failWith e w

/-- What is opened and closed again leaves the table as it was. -/
theorem fdsAgree_openClose (E : Env) (site : Site) (name : Bytes) (flags : OpenFlags) {w w₂ : World}
    (h : w₂.cl.fds = (posixOpen E site name flags w).2.cl.fds) :
    World.FdsAgree w (posixClose (posixOpen E site name flags w).1 w₂).2 := by
  have hkept : World.FdsKept w w₂ := trans_of World.FdsKept (posixOpen_fdsKept E site name flags w) (.of_eq h)
  refine (hkept.close (posixOpen_fd_free E site name flags w)).agree ?_
  rcases posixOpen_cases E site name flags w with ⟨_, hcl⟩ | ⟨ino, hfd, _, hfds⟩
  · intro fd d hget
    have hbefore := (leaves_close _ w₂).fds fd d hget
    rwa [h, hcl] at hbefore
  · rw [hfd]
    exact (leaves_posixClose (h.trans hfds)).fds

theorem fdsSame_openFailed {site : Site} {name : Bytes} {flags : OpenFlags} {w : World}
    (h : (posixOpen E site name flags w).1 = -1) : World.FdsSame w (posixOpen E site name flags w).2 := by
  rcases posixOpen_cases E site name flags w with ⟨_, hcl⟩ | ⟨ino, hfd, _, _⟩
  · rw [World.FdsSame, hcl]
  · omega

/-- Without a handle the path is opened, and closed again. -/
theorem fdsAgree_read (path : CString) (size offset : Nat) (fi : Option FuseFileInfo) :
    Keeps World.FdsAgree (unreliableRead E path size offset fi) := by
  refine keeps_answer ?_
  cases fi with
  | some fi =>
      refine (Keeps.pure (fi.fh : Int)).bind fun fd =>
        .ite (fun _ w => refl_of World.FdsAgree w) fun _ w => ?_
      have hread : World.FdsAgree w (posixPread E fd size offset w).2 := fun other => by rw [posixPread_cl]
      simp only [bind_run]
      split_ifs <;> exact hread
  | none =>
      intro w
      have hhandle : handleFd E .readOpen path none O_RDONLY = posixOpen E .readOpen path.bytes O_RDONLY := rfl
      rw [hhandle, bind_run]
      by_cases hfd : (posixOpen E .readOpen path.bytes O_RDONLY w).1 = -1
      · rw [if_pos hfd]
        exact (fdsSame_openFailed hfd).agree
      · have hclosed := fdsAgree_openClose E .readOpen path.bytes O_RDONLY (w := w)
          (congrArg (·.fds) (posixPread_cl (E := E) (posixOpen E .readOpen path.bytes O_RDONLY w).1 size offset
            (posixOpen E .readOpen path.bytes O_RDONLY w).2))
        rw [if_neg hfd]
        simp only [bind_run]
        split_ifs <;> exact hclosed

theorem fdsAgree_dupClose (fd : Int) (w : World) :
    World.FdsAgree w (posixClose (posixDup E fd w).1 (posixDup E fd w).2).2 :=
  (dup_close_fdsKept E fd w).agree (leaves_dupClose fd w).fds

/-- The head of the queue opens its path, or duplicates its handle. -/
theorem fdsAgree_executeQueueHead : Keeps World.FdsAgree (executeQueueHead E) := fun w => by
  unfold executeQueueHead
  cases w.cl.op_queue with
  | nil => exact refl_of World.FdsAgree w
  | cons headVal rest =>
      have hqueue : World.FdsAgree w (w.setQueue rest) := fun _ => rfl
      refine trans_of World.FdsAgree hqueue ?_
      show World.FdsAgree _ (executeEntry E headVal (w.setQueue rest)).2
      generalize w.setQueue rest = w
      unfold executeEntry
      by_cases hwrite : headVal.operation_id = 1
      · rw [if_pos hwrite, bind_run]
        by_cases hfd : (posixOpen E .queueOpen headVal.path.bytes O_RDWR w).1 = -1
        · rw [if_pos hfd]
          exact (fdsSame_openFailed hfd).agree
        · have hclosed := fdsAgree_openClose E .queueOpen headVal.path.bytes O_RDWR (w := w)
            (fdsSame_posixPwrite (E := E) .queuePwrite (posixOpen E .queueOpen headVal.path.bytes O_RDWR w).1
              (headVal.buf.take headVal.size) headVal.offset _)
          rw [if_neg hfd]
          simp only [bind_run]
          split_ifs <;> exact hclosed
      · rw [if_neg hwrite]
        split_ifs
        · cases headVal.fi with
          | none => exact refl_of World.FdsAgree w
          | some fi => exact fdsAgree_dupClose fi.fh w
        · exact refl_of World.FdsAgree w

variable [Sha256]

theorem fdsAgree_writeThrough (path : CString) (buf : Bytes) (offset : Nat) (fi : Option FuseFileInfo) :
    Keeps World.FdsAgree (writeThrough E path buf offset fi) := by
  cases fi with
  | some fi =>
      intro w
      rw [writeThrough_handle]
      exact (trans_of World.FdsSame (fdsSame_posixPwrite _ _ _ _ w) (WithLog.fdsSame_markFileDirty path _)).agree
  | none =>
      intro w
      have hhandle : handleFd E .writeOpen path none O_WRONLY = posixOpen E .writeOpen path.bytes O_WRONLY := rfl
      unfold writeThrough
      rw [hhandle, bind_run]
      by_cases hfd : (posixOpen E .writeOpen path.bytes O_WRONLY w).1 = -1
      · rw [if_pos hfd]
        exact (fdsSame_openFailed hfd).agree
      · have hwrite := fdsSame_posixPwrite (E := E) .pwrite (posixOpen E .writeOpen path.bytes O_WRONLY w).1 buf
          offset (posixOpen E .writeOpen path.bytes O_WRONLY w).2
        have hclosed := fdsAgree_openClose E .writeOpen path.bytes O_WRONLY (w := w)
          (trans_of World.FdsSame hwrite (WithLog.fdsSame_markFileDirty path _))
        rw [if_neg hfd]
        simp only [bind_run]
        split_ifs <;> exact hclosed

theorem fdsAgree_write (path : CString) (buf : Bytes) (offset : Nat) (fi : Option FuseFileInfo) :
    Keeps World.FdsAgree (unreliableWrite E path buf offset fi) :=
  .ite (fun _ => .pure _) fun _ => .ite (fun _ _ _ => rfl) fun _ => .ite (fun _ => .pure _) fun _ =>
    fdsAgree_writeThrough path buf offset fi

theorem fdsAgree_unreliableFlush (path : CString) (fi : FuseFileInfo) :
    Keeps World.FdsAgree (unreliableFlush E path fi) := by
  refine .ite (fun _ => .pure _) fun _ => .ite (fun _ _ _ => rfl) fun _ => .ite (fun _ => .pure _) fun _ w => ?_
  refine trans_of World.FdsAgree (fdsAgree_dupClose fi.fh w) (Keeps.ite (fun _ => ?_) (fun _ => ?_) _)
  · exact fun w => refl_of World.FdsAgree w
  · exact (fdsAgree_flush path).bind fun _ => .pure _

end Handlers

/-- `fsyncdir` opens the directory, and `fsync` fails. -/
def LeavesDirOpen (E : Env) (w : World) (path : CString) : Prop :=
  E.injected = 0 ∧ E.fails .fsyncdirOpendir = none ∧ w.files.names path.bytes ≠ none ∧ E.fails .fsyncdirFsync ≠ none

section Fsyncdir

variable {E : Env} {site : Site} {name : Bytes} {w : World}

theorem posixOpen_rdonly_ne (hok : E.fails site = none) {ino : Nat} (hname : w.files.names name = some ino) :
    (posixOpen E site name O_RDONLY w).1 ≠ -1 := by
  rcases posixOpen_run E site w name (by decide : O_RDONLY.has O_CREAT = false) (by decide) with
    ⟨ino, _, heq⟩ | ⟨hmissing, _⟩
  · have hopened : 0 ≤ (newFd ino O_RDONLY w).1 := newFd_nonneg ino w
    rw [heq]
    omega
  · exact absurd (hname.symm.trans (hmissing hok)) (Option.some_ne_none ino)

theorem posixOpen_rdonly_opened (h : (posixOpen E site name O_RDONLY w).1 ≠ -1) :
    E.fails site = none ∧ (∃ ino, w.files.names name = some ino) ∧
      ∃ d, (posixOpen E site name O_RDONLY w).2.cl.fds = w.cl.fds.insert d ∧
        (posixOpen E site name O_RDONLY w).2.cl.fds.get (posixOpen E site name O_RDONLY w).1 = some d := by
  rcases posixOpen_run E site w name (by decide : O_RDONLY.has O_CREAT = false) (by decide) with
    ⟨ino, ⟨hok, hname⟩, heq⟩ | ⟨_, e, _, heq⟩
  · rw [heq]
    exact ⟨hok, ⟨ino, hname⟩, ⟨ino, O_RDONLY⟩, rfl, Descriptors.get_insert_self _ _⟩
  · rw [heq] at h
    exact absurd rfl h

/-- Then the descriptor of the directory stays open; otherwise it is closed, or there is none. -/
theorem unreliableFsyncdir_cases (E : Env) (w : World) (path : CString) :
    (LeavesDirOpen E w path ∧ ∃ d, (unreliableFsyncdir E path w).2.cl.fds = w.cl.fds.insert d) ∨
      ¬ LeavesDirOpen E w path ∧ World.FdsAgree w (unreliableFsyncdir E path w).2 := by
  by_cases hplain : E.injected = 0
  · rw [unreliableFsyncdir, unlessInjected_zero hplain, bind_run]
    by_cases hfd : (posixOpen E .fsyncdirOpendir path.bytes O_RDONLY w).1 = -1
    · right
      rw [if_pos hfd]
      refine ⟨fun h => ?_, (fdsSame_openFailed hfd).agree⟩
      obtain ⟨ino, hname⟩ := Option.ne_none_iff_exists'.mp h.2.2.1
      exact absurd hfd (posixOpen_rdonly_ne h.2.1 hname)
    · obtain ⟨hok, ⟨ino, hname⟩, d, hfds, hget⟩ := posixOpen_rdonly_opened hfd
      rw [if_neg hfd, bind_run]
      have hsync : World.FdsSame (posixOpen E .fsyncdirOpendir path.bytes O_RDONLY w).2
          (onFd E .fsyncdirFsync (posixOpen E .fsyncdirOpendir path.bytes O_RDONLY w).1 (fun _ => pure 0)
            (posixOpen E .fsyncdirOpendir path.bytes O_RDONLY w).2).2 := fdsSame_onFd _ _ (fun _ => .pure _) _
      rcases onFd_run E .fsyncdirFsync (posixOpen E .fsyncdirOpendir path.bytes O_RDONLY w).2
          (posixOpen E .fsyncdirOpendir path.bytes O_RDONLY w).1 (fun _ => pure 0) with
        ⟨_, ⟨hsynced, _⟩, hret⟩ | ⟨hmissing, e, _, hret⟩
      · right
        have hzero : ¬ (onFd E .fsyncdirFsync (posixOpen E .fsyncdirOpendir path.bytes O_RDONLY w).1
            (fun _ => pure 0) (posixOpen E .fsyncdirOpendir path.bytes O_RDONLY w).2).1 = -1 := by
          rw [hret]
          exact (by decide : ¬ (0 : Int) = -1)
        rw [if_neg hzero]
        exact ⟨fun h => h.2.2.2 hsynced, fdsAgree_openClose E .fsyncdirOpendir path.bytes O_RDONLY hsync⟩
      · left
        have hfailed : (onFd E .fsyncdirFsync (posixOpen E .fsyncdirOpendir path.bytes O_RDONLY w).1
            (fun _ => pure 0) (posixOpen E .fsyncdirOpendir path.bytes O_RDONLY w).2).1 = -1 := by
          rw [hret]
          rfl
        rw [if_pos hfailed]
        refine ⟨⟨hplain, hok, by rw [hname]; exact Option.some_ne_none ino, fun hsynced => ?_⟩, d, hsync.trans hfds⟩
        exact Option.some_ne_none _ (hget.symm.trans (hmissing hsynced))
  · right
    rw [unreliableFsyncdir, unlessInjected_of_ne hplain]
    exact ⟨fun h => hplain h.1, refl_of World.FdsAgree w⟩

end Fsyncdir

/-- The calls that give out a handle or take one back, and `rename` and `fsyncdir`, that may leave a descriptor
open. -/
def FuseCall.movesFds : FuseCall → Bool
  | .openFile .. | .create .. | .rename .. | .release .. | .fsyncdir .. => true
  | _ => false

/-- Every other call leaves the descriptors as they are. -/
theorem FuseCall.effect_fdsAgree [Sha256] (E : Env) (w : World) {call : FuseCall} (h : call.movesFds = false) :
    World.FdsAgree w (call.effect E w) := by
  have hsame : ∀ {α : Type} {x : Prog α}, Keeps World.FdsSame x → World.FdsAgree w (x w).2 :=
    fun hkeeps => (hkeeps w).agree
  have hret : ∀ {call : Prog Int}, Keeps World.FdsSame call → World.FdsAgree w (unlessInjected E (do
      let ret ← call
      orErrno ret) w).2 :=
    fun hcall => hsame (keeps_unlessInjected (hcall.bind fdsSame_orErrno))
  have hnone : ∀ {site : Site} (fd : Int), Keeps World.FdsSame (onFd E site fd fun _ => pure 0) :=
    fun fd => fdsSame_onFd _ fd fun _ => .pure _
  cases call with
  | getattr path buf => exact hsame (keeps_answer (fdsSame_getAttr path buf))
  | readlink path => exact hret (fdsSame_onFile _ _ _)
  | mknod path mode dev => exact hret (fdsSame_newNode _ _ _ _)
  | mkdir path mode => exact hsame (keeps_unlessInjected (fdsSame_base _ _))
  | unlink path =>
      exact hsame (keeps_unlessInjected ((WithLog.fdsSame_unlink E path).bind fun _ =>
        .ite (fun _ => .pure _) fun _ => .pure _))
  | rmdir path => exact hsame (keeps_unlessInjected (fdsSame_base _ _))
  | symlink target linkpath => exact hret (fdsSame_posixSymlink _ _)
  | rename oldpath newpath => cases h
  | link oldpath newpath => exact hsame (keeps_unlessInjected (fdsSame_posixLink _ _))
  | chmod path mode => exact hret (fdsSame_onFile _ _ _)
  | chown path owner group => exact hret (fdsSame_onFile _ _ _)
  | truncate path length => exact hret (fdsSame_posixTruncate _ _ _)
  | openFile path fi => cases h
  | read path size offset fi => exact fdsAgree_read path size offset fi w
  | write path buf offset fi => exact fdsAgree_write path buf offset fi w
  | statfs path => exact hret (fdsSame_onFile _ _ _)
  | flush path fi => exact fdsAgree_unreliableFlush path fi w
  | release fi => cases h
  | fsync fi => exact hret (hnone _)
  | setxattr path name value => exact hret (fdsSame_onFile _ _ _)
  | getxattr path name size =>
      exact hsame (keeps_answer ((fdsSame_readAttribute _ _ _ _).bind fun ret =>
        WithLog.fdsSame_getErrno.bind fun errno => .ite (fun _ => .pure _) fun _ => .pure _))
  | listxattr path size =>
      exact hsame (keeps_answer ((fdsSame_readAttribute _ _ _ _).bind fun ret =>
        WithLog.fdsSame_getErrno.bind fun errno => .ite (fun _ => .pure _) fun _ => .pure _))
  | removexattr path name => exact hret (fdsSame_onFile _ _ _)
  | opendir => exact hsame (keeps_unlessInjected (.pure _))
  | readdir path => exact hsame (keeps_answer (fdsSame_readDir path))
  | releasedir => exact hret (WithLog.fdsSame_attempt E (.pure _))
  | fsyncdir path => cases h
  | init => exact refl_of World.FdsAgree w
  | destroy => exact refl_of World.FdsAgree w
  | access path => exact hsame (keeps_unlessInjected (fdsSame_base _ _))
  | create path fi => cases h
  | ftruncate path length => exact hret (fdsSame_posixTruncate _ _ _)
  | fgetattr buf fi =>
      show World.FdsAgree w (unreliableFgetattr E buf fi w).2
      unfold unreliableFgetattr
      split_ifs
      · exact refl_of World.FdsAgree w
      · exact refl_of World.FdsAgree w
      · split <;> exact fun _ => rfl
  | lock fi => exact hret (hnone _)
  | ioctl fi =>
      refine hsame (keeps_unlessInjected (.bind (fdsSame_onFd _ _ fun d w => ?_) fun ret => ?_))
      · rfl
      · exact WithLog.fdsSame_getErrno.bind fun errno => .ite (fun _ => .pure _) fun _ => .pure _
  | flock fi => exact hret (hnone _)
  | fallocate mode offset len fi =>
      refine hsame (keeps_unlessInjected (.ite (fun _ => .pure _) fun _ =>
        (fdsSame_onFd _ _ fun d w => ?_).bind fdsSame_orErrno))
      dsimp only
      split_ifs <;> rfl
  | utimens path ts => exact hsame (keeps_unlessInjected (.pure _))

/-! ### What the operations of the client leave open -/

namespace ClientOp

variable [Sha256] (E : Env) (op : ClientOp) (w : World)

/-- What is left open besides the descriptor that is handed out. -/
theorem exists_left : ∃ left : List Int,
    replay [] (op.logged E w).1 = some ((op.handedOut (op.run E w).1).toList ++ left) := by
  have hbalanced : op.GivesBack E w → ∃ left : List Int,
      replay [] (op.logged E w).1 = some ((op.handedOut (op.run E w).1).toList ++ left) := fun hgives =>
    ⟨[], by rw [List.append_nil]; exact (balanced_iff E op w).mpr hgives⟩
  cases op with
  | openFile path fi is_create => exact ⟨_, WithLog.replay_Open fi w⟩
  | rename old_path new_path =>
      by_cases hgives : (ClientOp.rename old_path new_path).GivesBack E w
      · exact hbalanced hgives
      · rw [givesBack_rename_iff, not_or, not_lt] at hgives
        exact ⟨_, WithLog.replay_rename_open new_path hgives.1 hgives.2 []⟩
  | unlink file_path => exact hbalanced trivial
  | flush path => exact hbalanced trivial

/-- An operation adds what it hands out and what it leaves open to the table, all under numbers of their own. -/
theorem openFds_left : ∃ left : List Int, (op.GivesBack E w ↔ left = []) ∧
    ((op.handedOut (op.run E w).1).toList ++ left).Nodup ∧
    (∀ fd ∈ (op.handedOut (op.run E w).1).toList ++ left, fd ∉ w.openFds) ∧
    (op.run E w).2.openFds = w.openFds ∪ {fd | fd ∈ (op.handedOut (op.run E w).1).toList ++ left} := by
  obtain ⟨left, hreplay⟩ := exists_left E op w
  have hlogs := op.logs_run E
  obtain ⟨hnodup, hfresh⟩ := hlogs.fresh_of_replay hreplay
  refine ⟨left, ?_, hnodup, hfresh, hlogs.handles_of_replay hreplay⟩
  rw [← balanced_iff, Balanced, hreplay, Option.some_inj, List.append_right_eq_self]

end ClientOp

namespace MountOp

/-- An open that is answered with 0 gives FUSE the handle that is in `fi` then. -/
def taken (result : Int × FuseFileInfo) : Option Nat := if result.1 = 0 then some result.2.fh else none

/-- The handle FUSE has of the operation. -/
def gives [Sha256] (E : Env) (w : World) : MountOp → Option Nat
  | .call (.openFile path fi) => taken (unreliableOpen E path fi w).1
  | .call (.create path fi) => taken (unreliableCreate E path fi w).1
  | _ => none

/-- The handle FUSE has no more afterwards, whatever `release` returns. -/
def givesUp : MountOp → Option Nat
  | .call (.release fi) => some fi.fh
  | _ => none

/-- No open is answered as if it had succeeded, with the handle FUSE passed in. -/
def Plain (E : Env) : MountOp → Prop
  | .call (.openFile _ _) | .call (.create _ _) => E.injected ≠ -ERRNO_NOOP
  | _ => True

/-- The operation leaves no descriptor open but the one behind the handle that it gives out. -/
def GivesBack [Sha256] (E : Env) (w : World) : MountOp → Prop
  | .call (.openFile path fi) => E.injected = 0 → (ClientOp.openFile path fi false).GivesBack E w
  | .call (.create path fi) => E.injected = 0 → (ClientOp.openFile path fi true).GivesBack E w
  | .call (.rename oldpath newpath) => E.injected = 0 → (ClientOp.rename oldpath newpath).GivesBack E w
  | .call (.release _) => E.injected = 0
  | .call (.fsyncdir path) => ¬ LeavesDirOpen E w path
  | _ => True

end MountOp

section Opens

variable [Sha256] {E : Env} {path : CString} {fi : FuseFileInfo} {is_create : Bool} {w : World}

theorem taken_openHandle (hplain : E.injected = 0) : MountOp.taken (openHandle E path fi is_create w).1 =
    if 0 ≤ (AFSClient.Open E path fi is_create w).1 then some (AFSClient.Open E path fi is_create w).1.toNat
    else none := by
  by_cases hneg : (AFSClient.Open E path fi is_create w).1 < 0
  · rw [openHandle_plain path hplain, bind_run, if_pos hneg, if_neg (not_le.mpr hneg)]
    exact if_neg hneg.ne
  · rw [openHandle_of_nonneg hplain (not_lt.mp hneg), if_pos (not_lt.mp hneg)]
    exact if_pos rfl

theorem openHandle_injected (hinjected : E.injected ≠ 0) (hnoop : E.injected ≠ -ERRNO_NOOP) :
    openHandle E path fi is_create w = ((E.injected, fi), w) := by
  unfold openHandle
  rw [if_neg hnoop, if_pos hinjected]
  rfl

theorem fdsKept_openHandle (path : CString) (fi : FuseFileInfo) (is_create : Bool) :
    Keeps World.FdsKept (openHandle E path fi is_create) :=
  keeps_answer ((fdsKept_Open path fi is_create).bind fun _ => .ite (fun _ => .pure _) fun _ => .pure _)

/-- A handle FUSE got is open on the temporary copy of the path. -/
theorem opened_of_taken (hnoop : E.injected ≠ -ERRNO_NOOP) {fh : Nat}
    (h : MountOp.taken (openHandle E path fi is_create w).1 = some fh) :
    ∃ ino, (openHandle E path fi is_create w).2.files.names (getTempPath path) = some ino ∧
      (openHandle E path fi is_create w).2.cl.fds.get fh = some ⟨ino, AFSClient.localFlags fi.flags⟩ := by
  by_cases hplain : E.injected = 0
  · rw [taken_openHandle hplain] at h
    split_ifs at h with hopened
    obtain ⟨ino, hname, hget⟩ := Mount.Open_opened hopened
    rw [openHandle_world hplain]
    refine ⟨ino, hname, ?_⟩
    rw [← hget, ← Option.some.inj h, Int.toNat_of_nonneg hopened]
  · rw [openHandle_injected hplain hnoop, MountOp.taken, if_neg hplain] at h
    cases h

/-- An open adds the descriptor of the handle it gives out, and what it leaves open. -/
theorem openHandle_adds (hnoop : E.injected ≠ -ERRNO_NOOP) : ∃ left : List Int,
    ((E.injected = 0 → (ClientOp.openFile path fi is_create).GivesBack E w) ↔ left = []) ∧
    ((MountOp.taken (openHandle E path fi is_create w).1).toList.map Int.ofNat ++ left).Nodup ∧
    (∀ fd ∈ (MountOp.taken (openHandle E path fi is_create w).1).toList.map Int.ofNat ++ left, fd ∉ w.openFds) ∧
    (openHandle E path fi is_create w).2.openFds = w.openFds ∪
      {fd | fd ∈ (MountOp.taken (openHandle E path fi is_create w).1).toList.map Int.ofNat ++ left} := by
  by_cases hplain : E.injected = 0
  · obtain ⟨left, hgives, hnodup, hfresh, hopen⟩ := ClientOp.openFds_left E (.openFile path fi is_create) w
    have hsame : (MountOp.taken (openHandle E path fi is_create w).1).toList.map Int.ofNat =
        (ClientOp.handedOut (.openFile path fi is_create) (AFSClient.Open E path fi is_create w).1).toList := by
      rw [taken_openHandle hplain, ClientOp.handedOut, descriptorOf]
      split_ifs with hopened
      · exact congrArg (fun fd => [fd]) (Int.toNat_of_nonneg hopened)
      · rfl
    rw [hsame, openHandle_world hplain]
    exact ⟨left, ⟨fun h => hgives.mp (h hplain), fun h _ => hgives.mpr h⟩, hnodup, hfresh, hopen⟩
  · have hnone : MountOp.taken (openHandle E path fi is_create w).1 = none := by
      rw [openHandle_injected hplain hnoop]
      exact if_neg hplain
    rw [hnone, openHandle_injected hplain hnoop]
    refine ⟨[], iff_of_true (fun h => absurd h hplain) rfl, List.nodup_nil, fun _ h => absurd h List.not_mem_nil, ?_⟩
    exact (Set.union_eq_self_of_subset_right fun _ h => absurd h List.not_mem_nil).symm

end Opens

namespace MountOp

variable [Sha256] {E : Env} {op : MountOp} {w : World}

theorem effect_fdsKept (hkeeps : op.givesUp = none) : World.FdsKept w (op.effect E w) := by
  cases op with
  | queueHead => exact (fdsAgree_executeQueueHead w).kept
  | call c =>
      cases hmoves : c.movesFds with
      | false => exact (c.effect_fdsAgree E w hmoves).kept
      | true =>
          cases c with
          | openFile path fi => exact fdsKept_openHandle path fi false w
          | create path fi => exact fdsKept_openHandle path fi true w
          | rename oldpath newpath =>
              exact keeps_unlessInjected ((fdsKept_rename oldpath newpath).bind fun _ =>
                .ite (fun _ => .pure _) fun _ => .pure _) w
          | release fi => cases hkeeps
          | fsyncdir path =>
              rcases unreliableFsyncdir_cases E w path with ⟨_, ino, hfds⟩ | ⟨_, hagree⟩
              · exact fun fd d hget => (congrArg (·.get fd) hfds).trans (Descriptors.get_insert_of_some hget)
              · exact hagree.kept
          | _ => cases hmoves

/-- What the operation adds to the table: the descriptor of the handle it gives out, and those it leaves open. -/
theorem effect_adds (hplain : op.Plain E) (hkeeps : op.givesUp = none) : ∃ left : List Int,
    (op.GivesBack E w ↔ left = []) ∧
    ((op.gives E w).toList.map Int.ofNat ++ left).Nodup ∧
    (∀ fd ∈ (op.gives E w).toList.map Int.ofNat ++ left, fd ∉ w.openFds) ∧
    (op.effect E w).openFds = w.openFds ∪ {fd | fd ∈ (op.gives E w).toList.map Int.ofNat ++ left} := by
  have hnothing : ∀ {op : MountOp}, World.FdsAgree w (op.effect E w) → op.GivesBack E w → op.gives E w = none →
      ∃ left : List Int, (op.GivesBack E w ↔ left = []) ∧
        ((op.gives E w).toList.map Int.ofNat ++ left).Nodup ∧
        (∀ fd ∈ (op.gives E w).toList.map Int.ofNat ++ left, fd ∉ w.openFds) ∧
        (op.effect E w).openFds = w.openFds ∪ {fd | fd ∈ (op.gives E w).toList.map Int.ofNat ++ left} := by
    intro op hagree hgives hnone
    rw [hnone]
    refine ⟨[], iff_of_true hgives rfl, List.nodup_nil, fun _ h => absurd h List.not_mem_nil, ?_⟩
    exact hagree.openFds.trans (Set.union_eq_self_of_subset_right fun _ h => absurd h List.not_mem_nil).symm
  cases op with
  | queueHead => exact hnothing (fdsAgree_executeQueueHead w) trivial rfl
  | call c =>
      cases c with
      | openFile path fi => exact openHandle_adds hplain
      | create path fi => exact openHandle_adds hplain
      | release fi => cases hkeeps
      | rename oldpath newpath =>
          by_cases hinjected : E.injected = 0
          · obtain ⟨left, hgives, hnodup, hfresh, hopen⟩ := ClientOp.openFds_left E (.rename oldpath newpath) w
            have hworld : (unreliableRename E oldpath newpath w).2 = (AFSClient.rename E oldpath newpath w).2 := by
              rw [unreliableRename, unlessInjected_zero hinjected, bind_run]
              split_ifs <;> rfl
            refine ⟨left, ⟨fun h => hgives.mp (h hinjected), fun h _ => hgives.mpr h⟩, hnodup, hfresh, ?_⟩
            show (unreliableRename E oldpath newpath w).2.openFds = _
            rw [hworld]
            exact hopen
          · refine hnothing ?_ (fun h => absurd h hinjected) rfl
            show World.FdsAgree w (unreliableRename E oldpath newpath w).2
            rw [unreliableRename, unlessInjected_of_ne hinjected]
            exact refl_of World.FdsAgree w
      | fsyncdir path =>
          rcases unreliableFsyncdir_cases E w path with ⟨hleaves, ino, hfds⟩ | ⟨hcloses, hagree⟩
          · refine ⟨[(w.cl.fds.lowestFree : Int)], iff_of_false (not_not_intro hleaves) (List.cons_ne_nil _ _), ?_, ?_, ?_⟩
            · exact List.nodup_singleton _
            · exact fun fd hmem => List.mem_singleton.mp hmem ▸ not_not_intro (Descriptors.get_lowestFree _)
            · refine (World.openFds_insert hfds).trans ?_
              rw [Set.union_comm]
              exact congrArg (· ∪ w.openFds) (Set.ext fun fd => List.mem_singleton.symm)
          · exact hnothing hagree hcloses rfl
      | _ => exact hnothing (FuseCall.effect_fdsAgree E w rfl) trivial rfl

end MountOp

section Release

variable {E : Env} {fi : FuseFileInfo} {w : World}

theorem unreliableRelease_fds (h : E.injected = 0) :
    (unreliableRelease E fi w).2.cl.fds = (posixClose fi.fh w).2.cl.fds := by
  rw [unreliableRelease, unlessInjected_zero h, bind_run, orErrno_world, posixCloseChecked, posixClose, attempt]
  cases w.cl.fds.get fi.fh with
  | none => rfl
  | some d => cases E.fails .releaseClose <;> rfl

/-- A release that is answered by an injection closes nothing. -/
theorem unreliableRelease_same (h : E.injected ≠ 0) : World.FdsSame w (unreliableRelease E fi w).2 := by
  rw [unreliableRelease, unlessInjected_of_ne h]
  exact refl_of World.FdsSame w

/-- It closes the descriptor of its handle, and no other. -/
theorem unreliableRelease_get {fd : Int} {d : Descriptor} (hne : fd ≠ fi.fh) (hget : w.cl.fds.get fd = some d) :
    (unreliableRelease E fi w).2.cl.fds.get fd = some d := by
  by_cases h : E.injected = 0
  · rw [unreliableRelease_fds h]
    unfold posixClose
    split
    · exact hget
    · exact (Descriptors.get_release_of_ne (Int.natCast_nonneg fi.fh) hne).trans hget
  · exact (unreliableRelease_same h).agree.kept fd d hget

theorem unreliableRelease_openFds (h : E.injected = 0) :
    (unreliableRelease E fi w).2.openFds = w.openFds \ {(fi.fh : Int)} := by
  ext fd
  rw [World.openFds_of_fds (unreliableRelease_fds h)]
  simp only [World.openFds, Set.mem_ofPred_eq, Set.mem_sdiff, Set.mem_singleton_iff, posixClose_open_iff,
    Int.natCast_nonneg, and_true]

end Release

/-- The world, the handles FUSE has, and what was open behind each when it was given out. -/
structure Holding where
  w : World
  handles : Set Nat
  behind : Nat → Option Descriptor

namespace Holding

/-- The descriptors of the handles. -/
def fds (s : Holding) : Set Int := {fd | ∃ fh ∈ s.handles, fd = (fh : Nat)}

variable [Sha256]

/-- FUSE passes a handle that it has, or none. -/
structure Step (s : Holding) (turn : MountTurn) (t : Holding) : Prop where
  handle : ∀ fi, turn.op.handle = some fi → fi.fh ∈ s.handles
  world : t.w = turn.op.effect turn.E s.w
  handles : t.handles =
    {fh | (fh ∈ s.handles ∧ turn.op.givesUp ≠ some fh) ∨ turn.op.gives turn.E s.w = some fh}
  behind : t.behind = match turn.op.gives turn.E s.w with
    | some fh => Function.update s.behind fh (t.w.cl.fds.get fh)
    | none => s.behind

/-- Every handle is open on what it was given for. -/
def Intact (s : Holding) : Prop :=
  ∀ fh ∈ s.handles, ∃ d, s.behind fh = some d ∧ s.w.cl.fds.get fh = some d

end Holding

/-- The path and the flags of an open. -/
def MountOp.opens : MountOp → Option (CString × FuseFileInfo)
  | .call (.openFile path fi) | .call (.create path fi) => some (path, fi)
  | _ => none

section Gives

variable [Sha256] {E : Env} {op : MountOp} {w : World} {fh : Nat}

/-- A handle that is given out is open on the temporary copy of the path. -/
theorem MountOp.opened_of_gives (hplain : op.Plain E) (h : op.gives E w = some fh) :
    ∃ path fi ino, op.opens = some (path, fi) ∧ (op.effect E w).files.names (getTempPath path) = some ino ∧
      (op.effect E w).cl.fds.get fh = some ⟨ino, AFSClient.localFlags fi.flags⟩ := by
  unfold MountOp.gives at h
  split at h
  · rename_i path fi
    obtain ⟨ino, hopened⟩ := opened_of_taken hplain h
    exact ⟨path, fi, ino, rfl, hopened⟩
  · rename_i path fi
    obtain ⟨ino, hopened⟩ := opened_of_taken hplain h
    exact ⟨path, fi, ino, rfl, hopened⟩
  · cases h

theorem MountOp.givesUp_of_gives (h : op.gives E w = some fh) : op.givesUp = none := by
  unfold MountOp.gives at h
  split at h
  · rfl
  · rfl
  · cases h

/-- Its number was not open. -/
theorem MountOp.gives_free (hplain : op.Plain E) (h : op.gives E w = some fh) : w.cl.fds.get fh = none := by
  obtain ⟨left, _, _, hfresh, _⟩ := effect_adds (w := w) hplain (givesUp_of_gives h)
  rw [h] at hfresh
  exact not_not.mp (hfresh (fh : Int) (List.mem_append_left left List.mem_cons_self))

end Gives

namespace Holding

variable [Sha256] {s t : Holding} {turn : MountTurn}

theorem Step.kept (hstep : Step s turn t) {fd : Int} {d : Descriptor}
    (hup : ∀ fh, turn.op.givesUp = some fh → fd ≠ fh) (hget : s.w.cl.fds.get fd = some d) :
    t.w.cl.fds.get fd = some d := by
  rw [hstep.world]
  cases hgivesUp : turn.op.givesUp with
  | none => exact MountOp.effect_fdsKept hgivesUp fd d hget
  | some fh =>
      have hne := hup fh hgivesUp
      unfold MountOp.givesUp at hgivesUp
      split at hgivesUp
      · rename_i fi hop
        cases hgivesUp
        rw [hop]
        exact unreliableRelease_get hne hget
      · cases hgivesUp

/-- A handle that stays is behind what it was. -/
theorem Step.behind_of_ne (hstep : Step s turn t) {fh : Nat} (hne : turn.op.gives turn.E s.w ≠ some fh) :
    t.behind fh = s.behind fh := by
  rw [hstep.behind]
  cases hgives : turn.op.gives turn.E s.w with
  | none => rfl
  | some fh' =>
      rw [hgives] at hne
      exact Function.update_of_ne (fun heq => hne (congrArg some heq.symm)) _ _

theorem Intact.step (hs : Intact s) (hplain : turn.op.Plain turn.E) (hstep : Step s turn t) : Intact t := by
  intro fh hfh
  rw [hstep.handles] at hfh
  by_cases hgives : turn.op.gives turn.E s.w = some fh
  · obtain ⟨_, _, ino, _, _, hget⟩ := MountOp.opened_of_gives hplain hgives
    rw [← hstep.world] at hget
    refine ⟨_, ?_, hget⟩
    rw [hstep.behind, hgives]
    exact (Function.update_self _ _ _).trans hget
  · obtain ⟨hold, hstays⟩ := hfh.resolve_right hgives
    obtain ⟨d, hbehind, hget⟩ := hs fh hold
    refine ⟨d, (hstep.behind_of_ne hgives).trans hbehind, hstep.kept (fun fh' hup heq => ?_) hget⟩
    rw [Int.natCast_inj.mp heq] at hstays
    exact hstays hup

/-- In every run each handle that FUSE has is open on what it was given for, and a handle that it is given is one that
was not open, on the temporary copy of its path. -/
theorem handles_intact {start : Holding} (hstart : start.handles = ∅) {trace : List (Holding × MountTurn)}
    (hrun : Run Step start trace s) (hplain : Guarded (fun _ turn => turn.op.Plain turn.E) trace)
    (hstep : Step s turn t) (hnext : turn.op.Plain turn.E) :
    (∀ fh ∈ s.handles, ∃ d, s.behind fh = some d ∧ s.w.cl.fds.get fh = some d) ∧
      ∀ fh, turn.op.gives turn.E s.w = some fh → fh ∉ s.handles ∧ s.w.cl.fds.get fh = none ∧
        ∃ path fi ino, turn.op.opens = some (path, fi) ∧ t.w.files.names (getTempPath path) = some ino ∧
          t.behind fh = some ⟨ino, AFSClient.localFlags fi.flags⟩ := by
  have hs : Intact s := by
    refine hrun.guarded_invariant Intact (fun fh hfh => ?_) (fun s turn t hs hguard hstep => ?_) hplain
    · rw [hstart] at hfh
      exact hfh.elim
    · exact hs.step hguard hstep
  refine ⟨hs, fun fh hgives => ?_⟩
  have hfree := MountOp.gives_free hnext hgives
  refine ⟨fun hmem => ?_, hfree, ?_⟩
  · obtain ⟨d, _, hget⟩ := hs fh hmem
    exact Option.some_ne_none d (hget.symm.trans hfree)
  · obtain ⟨path, fi, ino, hopens, hname, hget⟩ := MountOp.opened_of_gives hnext hgives
    rw [← hstep.world] at hname hget
    refine ⟨path, fi, ino, hopens, hname, ?_⟩
    rw [hstep.behind, hgives]
    exact (Function.update_self _ _ _).trans hget

theorem Step.fds_given (hstep : Step s turn t) (hkeeps : turn.op.givesUp = none) :
    t.fds = s.fds ∪ {fd | fd ∈ (turn.op.gives turn.E s.w).toList.map Int.ofNat} := by
  ext fd
  simp only [fds, hstep.handles, hkeeps, Set.mem_ofPred_eq, Set.mem_union, ne_eq, reduceCtorEq, not_false_eq_true,
    and_true, List.mem_map, Option.mem_toList, or_and_right, exists_or]
  exact or_congr_right (exists_congr fun fh => and_congr Iff.rfl eq_comm)

theorem Step.fds_released (hstep : Step s turn t) {fh : Nat} (hup : turn.op.givesUp = some fh)
    (hnone : turn.op.gives turn.E s.w = none) : t.fds = s.fds \ {(fh : Int)} := by
  ext fd
  simp only [fds, hstep.handles, hup, hnone, Set.mem_ofPred_eq, Set.mem_sdiff, Set.mem_singleton_iff, ne_eq,
    Option.some.injEq, reduceCtorEq, or_false]
  constructor
  · rintro ⟨fh', ⟨hmem, hne⟩, rfl⟩
    exact ⟨⟨fh', hmem, rfl⟩, fun heq => hne (Int.natCast_inj.mp heq.symm)⟩
  · rintro ⟨⟨fh', hmem, rfl⟩, hne⟩
    exact ⟨fh', ⟨hmem, fun heq => hne (congrArg _ heq.symm)⟩, rfl⟩

/-- Where every descriptor is one of the start or of a handle, it stays so exactly if the operation gives back what it
opens. -/
theorem Step.accounted_iff {first : Set Int} (haccount : Accounted first s.w.openFds s.fds)
    (hplain : turn.op.Plain turn.E) (hstep : Step s turn t) :
    Accounted first t.w.openFds t.fds ↔ turn.op.GivesBack turn.E s.w := by
  cases hup : turn.op.givesUp with
  | none =>
      obtain ⟨left, hgives, hnodup, hfresh, hopen⟩ := MountOp.effect_adds (w := s.w) hplain hup
      rw [← hstep.world] at hopen
      rw [hgives, hopen, hstep.fds_given hup]
      constructor
      · intro hafter
        by_contra hleft
        obtain ⟨fd, hfd⟩ := List.exists_mem_of_ne_nil left hleft
        obtain ⟨hfirst, hheld⟩ := haccount.free (hfresh fd (List.mem_append_right _ hfd))
        have hstays : fd ∈ s.w.openFds ∪ {fd | fd ∈ (turn.op.gives turn.E s.w).toList.map Int.ofNat ++ left} :=
          Or.inr (List.mem_append_right _ hfd)
        refine Accounted.not_of_left hstays hfirst ?_ hafter
        rintro (hold | hgiven)
        · exact hheld hold
        · exact List.disjoint_of_nodup_append hnodup hgiven hfd
      · rintro rfl
        rw [List.append_nil] at hfresh ⊢
        cases hgiven : turn.op.gives turn.E s.w with
        | none =>
            have hnothing : ∀ set : Set Int, set ∪ {fd | fd ∈ (none : Option Nat).toList.map Int.ofNat} = set :=
              fun set => Set.union_eq_self_of_subset_right fun _ h => absurd h List.not_mem_nil
            rw [hnothing, hnothing]
            exact haccount
        | some fh =>
            rw [hgiven] at hfresh
            have hmore : ∀ set : Set Int,
                set ∪ {fd | fd ∈ (some fh).toList.map Int.ofNat} = insert (fh : Int) set := fun set => by
              ext fd
              simp only [Option.toList_some, List.map_cons, List.map_nil, List.mem_singleton, Set.mem_union,
                Set.mem_ofPred_eq, Set.mem_insert_iff]
              exact or_comm
            rw [hmore, hmore]
            exact haccount.give (hfresh fh List.mem_cons_self)
  | some fh =>
      unfold MountOp.givesUp at hup
      split at hup
      · rename_i fi hop
        obtain rfl := Option.some.inj hup
        have hheld : (fi.fh : Int) ∈ s.fds := ⟨fi.fh, hstep.handle fi (by rw [hop]; rfl), rfl⟩
        have hfds : t.fds = s.fds \ {(fi.fh : Int)} :=
          hstep.fds_released (by rw [hop]; rfl) (by rw [hop]; rfl)
        have hworld : t.w = (unreliableRelease turn.E fi s.w).2 := by rw [hstep.world, hop]; rfl
        rw [hfds, hworld, hop]
        by_cases hcloses : turn.E.injected = 0
        · rw [unreliableRelease_openFds hcloses]
          exact iff_of_true (haccount.giveBack hheld) hcloses
        · rw [(unreliableRelease_same hcloses).agree.openFds]
          have hopen : (fi.fh : Int) ∈ s.w.openFds := by
            rw [haccount.opened]
            exact Or.inr hheld
          exact iff_of_false (Accounted.not_of_left hopen (haccount.apart _ hheld) fun h => h.2 rfl) hcloses
      · cases hup

/-- In a run whose operations give back what they open, the descriptors that are open are those of the start and those
of the handles that FUSE has, each for one of the two. The next operation keeps it so exactly if it gives back, too. -/
theorem descriptors_accounted {start : Holding} (hstart : start.handles = ∅) {trace : List (Holding × MountTurn)}
    (hrun : Run Step start trace s)
    (hguard : Guarded (fun s turn => turn.op.Plain turn.E ∧ turn.op.GivesBack turn.E s.w) trace)
    (hstep : Step s turn t) (hnext : turn.op.Plain turn.E) :
    Accounted start.w.openFds s.w.openFds s.fds ∧
      (Accounted start.w.openFds t.w.openFds t.fds ↔ turn.op.GivesBack turn.E s.w) := by
  have hs : Accounted start.w.openFds s.w.openFds s.fds := by
    refine hrun.guarded_invariant (fun s => Accounted start.w.openFds s.w.openFds s.fds) ?_ ?_ hguard
    · have hnone : start.fds = ∅ := by
        ext fd
        simp only [fds, hstart, Set.mem_empty_iff_false, false_and, exists_false, Set.mem_ofPred_eq]
      rw [hnone]
      exact .start _
    · intro s turn t hs hgives hstep
      exact (Step.accounted_iff hs hgives.1 hstep).mpr hgives.2
  exact ⟨hs, Step.accounted_iff hs hnext hstep⟩

/-- Where a turn leads. -/
def after (s : Holding) (turn : MountTurn) : Holding where
  w := turn.op.effect turn.E s.w
  handles := {fh | (fh ∈ s.handles ∧ turn.op.givesUp ≠ some fh) ∨ turn.op.gives turn.E s.w = some fh}
  behind := match turn.op.gives turn.E s.w with
    | some fh => Function.update s.behind fh ((turn.op.effect turn.E s.w).cl.fds.get fh)
    | none => s.behind

theorem step_after (s : Holding) (turn : MountTurn) (h : ∀ fi, turn.op.handle = some fi → fi.fh ∈ s.handles) :
    Step s turn (s.after turn) :=
  ⟨h, rfl, rfl, rfl⟩

end Holding

/-! ### A run -/

namespace Holding

/-- No handle yet, and the standard descriptors open. -/
def sampleHolding : Holding where
  w := Mount.sampleMount.w.setFds [some ⟨0, O_RDWR⟩, some ⟨0, O_RDWR⟩, some ⟨0, O_RDWR⟩]
  handles := ∅
  behind := fun _ => none

def sampleCreateF : MountTurn := ⟨.call (.create sampleF ⟨O_RDWR, 0⟩), .smooth 5⟩

def sampleCreateG : MountTurn := ⟨.call (.create sampleG ⟨O_RDWR, 0⟩), .smooth 6⟩

def sampleReleaseF : MountTurn := ⟨.call (.release ⟨O_RDWR, 3⟩), .smooth 7⟩

theorem sample_plain (t : Int) : (Env.smooth t).injected ≠ -ERRNO_NOOP := (by decide : (0 : Int) ≠ -ERRNO_NOOP)

/-- `/f` is created. -/
def sampleCreatedF : Holding :=
  letI := sampleSha256
  sampleHolding.after sampleCreateF

/-- And `/g`. -/
def sampleCreated : Holding :=
  letI := sampleSha256
  sampleCreatedF.after sampleCreateG

/-- The handle of `/f` is released. -/
def sampleReleased : Holding :=
  letI := sampleSha256
  sampleCreated.after sampleReleaseF

theorem sampleCreated_run :
    letI := sampleSha256
    Run Step sampleHolding [(sampleCreatedF, sampleCreateG), (sampleHolding, sampleCreateF)] sampleCreated := by
  let _ := sampleSha256
  refine .cons (.cons .nil (step_after _ _ ?_)) (step_after _ _ ?_)
  · exact fun fi hfi => by cases hfi
  · exact fun fi hfi => by cases hfi

/-- Descriptor 0 stays open, so an open leaves no other one. -/
theorem sampleCreated_givesBack :
    letI := sampleSha256
    Guarded (fun (s : Holding) (turn : MountTurn) => turn.op.Plain turn.E ∧ turn.op.GivesBack turn.E s.w)
      [(sampleCreatedF, sampleCreateG), (sampleHolding, sampleCreateF)] := by
  let _ := sampleSha256
  have hopen : sampleHolding.w.cl.fds.get 0 = some ⟨0, O_RDWR⟩ := rfl
  have hstays : sampleCreatedF.w.cl.fds.get 0 = some ⟨0, O_RDWR⟩ := by decide +kernel
  refine .cons ⟨sample_plain 6, fun _ => Or.inr fun h => ?_⟩
    (.cons ⟨sample_plain 5, fun _ => Or.inr fun h => ?_⟩ (guarded_nil _))
  · exact Option.some_ne_none _ (hstays.symm.trans h.2)
  · exact Option.some_ne_none _ (hopen.symm.trans h.2)

theorem sampleCreated_handles : 3 ∈ sampleCreated.handles ∧ 4 ∈ sampleCreated.handles := by
  let _ := sampleSha256
  have hf : sampleCreateF.op.gives sampleCreateF.E sampleHolding.w = some 3 := by decide +kernel
  have hg : sampleCreateG.op.gives sampleCreateG.E sampleCreatedF.w = some 4 := by decide +kernel
  exact ⟨Or.inl ⟨Or.inr hf, by decide⟩, Or.inr hg⟩

theorem sampleReleased_step :
    letI := sampleSha256
    Step sampleCreated sampleReleaseF sampleReleased := by
  let _ := sampleSha256
  refine step_after _ _ fun fi hfi => ?_
  rw [← Option.some.inj hfi]
  exact sampleCreated_handles.1

/-- The handle of `/g` is intact while that of `/f` is released. -/
theorem handles_intact_sample : ∃ d, sampleCreated.behind 4 = some d ∧
    sampleCreated.w.cl.fds.get (4 : Nat) = some d := by
  let _ := sampleSha256
  have hplain : Guarded (fun _ (turn : MountTurn) => turn.op.Plain turn.E)
      [(sampleCreatedF, sampleCreateG), (sampleHolding, sampleCreateF)] :=
    .cons (sample_plain 6) (.cons (sample_plain 5) (guarded_nil _))
  exact (handles_intact rfl sampleCreated_run hplain sampleReleased_step trivial).1 4 sampleCreated_handles.2

/-- What is open after that is the standard descriptors and the handle of `/g`. -/
theorem descriptors_accounted_sample :
    Accounted sampleHolding.w.openFds sampleReleased.w.openFds sampleReleased.fds := by
  let _ := sampleSha256
  have hgives : sampleReleaseF.op.GivesBack sampleReleaseF.E sampleCreated.w := rfl
  have haccount := descriptors_accounted rfl sampleCreated_run sampleCreated_givesBack sampleReleased_step trivial
  exact haccount.2.mpr hgives

end Holding

end Bnfs
