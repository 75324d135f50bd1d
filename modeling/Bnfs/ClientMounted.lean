import Bnfs.ClientOutside
import Bnfs.ClientOperations

/-! The mounted file system as a whole: whatever FUSE asks for, and whatever is taken from the queue, in any
order. Only four handlers and the queue can reach a file outside the directory of the client, and they do
whenever the path they are given is the name of one and the call succeeds. -/

namespace Bnfs

open FileSystem Programs Runs

section Injected

variable {E : Env}

section Keeps

variable {R : World → World → Prop} [IsPreorder World R]

theorem keeps_unlessInjected {body : Prog Int} (h : Keeps R body) : Keeps R (unlessInjected E body) :=
  .ite (fun _ => .pure _) fun _ => .ite (fun _ => .pure _) fun _ => h

theorem keeps_orErrno (ret : Int) : Keeps R (orErrno ret) := fun w => by
  rw [orErrno_world]
  exact refl_of R w

/-- Most handlers are one call, with its errno for a result. -/
theorem keeps_handler {call : Prog Int} (h : Keeps R call) :
    Keeps R (unlessInjected E do
      let ret ← call
      orErrno ret) :=
  keeps_unlessInjected (h.bind keeps_orErrno)

/-- A handler that returns what it finds next to its result. -/
theorem keeps_answer {α : Type} {noop : α} {injected : α} {body : Prog α} (h : Keeps R body) :
    Keeps R (do
      if E.injected = -ERRNO_NOOP then return noop
      else if E.injected ≠ 0 then return injected
      else body) :=
  .ite (fun _ => .pure _) fun _ => .ite (fun _ => .pure _) fun _ => h

end Keeps

/-- A call on a file of the directory that is open. -/
theorem spares_onFd {site : Site} {fd : Int} {call : Descriptor → Prog Int} {w : World}
    (h : ∀ d, w.cl.fds.get fd = some d → World.Spares w (call d w).2) :
    World.Spares w (onFd E site fd call w).2 := by
  rcases onFd_run E site w fd call with ⟨d, ⟨_, hget⟩, heq⟩ | ⟨_, e, _, heq⟩
  · rw [heq]
    exact h d hget
  · rw [heq]
    exact spares_failWith e w

theorem same_onFd_pure (site : Site) (fd : Int) : Keeps World.Same (onFd E site fd fun _ => pure 0) := fun w => by
  rcases onFd_run E site w fd fun _ => pure 0 with ⟨_, _, heq⟩ | ⟨_, e, _, heq⟩
  · rw [heq]
    exact refl_of _ w
  · rw [heq]
    exact same_failWith e w

/-- A handler that looks at a directory leaves the files alone. -/
theorem same_unreliableFsyncdir (path : CString) : Keeps World.Same (unreliableFsyncdir E path) := by
  have herrno : Keeps World.Same (do
      let errno ← getErrno
      return -errno) := same_getErrno.bind fun _ => .pure _
  refine keeps_unlessInjected ((same_posixOpen (by decide) (by decide)).bind fun dirfd =>
    .ite (fun _ => herrno) fun _ => (same_onFd_pure _ dirfd).bind fun ret => .ite (fun _ => herrno) fun _ => ?_)
  exact (same_posixClose dirfd).bind fun _ => .pure _

theorem same_posixCloseChecked (site : Site) (fd : Int) : Keeps World.Same (posixCloseChecked E site fd) :=
  fun w => by
    unfold posixCloseChecked attempt
    split
    · exact same_failWith EBADF w
    · cases E.fails site <;> exact ⟨rfl, rfl, rfl⟩

theorem spares_onFd_pure (site : Site) (fd : Int) :
    Keeps World.Spares (onFd E site fd fun _ => pure 0) :=
  fun w => spares_onFd fun _ _ => refl_of _ w

theorem spares_shuffleQueue (E : Env) : Keeps World.Spares (shuffleQueue E) :=
  fun _ => .of_files rfl

theorem spares_addToQueue (operation_id : Int) (path : CString) (fi : Option FuseFileInfo) (buf : Bytes)
    (size offset : Nat) : Keeps World.Spares (addToQueue operation_id path fi buf size offset) :=
  fun _ => .of_files rfl

theorem posixPread_cl (fd : Int) (size offset : Nat) (w : World) :
    (posixPread E fd size offset w).2.cl = w.cl := by
  unfold posixPread
  split <;> rfl

theorem spares_readAttribute (site : Site) (name : Bytes) (size : Nat) (value : File → Option Bytes) :
    Keeps World.Spares (readAttribute E site name size value) := fun w => by
  have hcl : (readAttribute E site name size value w).2.cl = w.cl := by
    unfold readAttribute
    split
    · rfl
    · rfl
    · split
      · rfl
      · split_ifs <;> rfl
  exact .of_cl hcl

/-- A read without a handle opens the path, and closes it again. -/
theorem spares_unreliableRead (path : CString) (size offset : Nat) (fi : Option FuseFileInfo) :
    Keeps World.Spares (unreliableRead E path size offset fi) := by
  refine keeps_answer ?_
  cases fi with
  | some fi =>
      refine (Keeps.pure (fi.fh : Int)).bind fun fd => .ite (fun _ => ?_) fun _ => ?_
      · exact spares_getErrno.bind fun _ => .pure _
      · refine .bind (fun w => .of_cl (posixPread_cl fd size offset w)) fun ret => ?_
        exact spares_getErrno.bind fun _ => (Keeps.pure ()).bind fun _ =>
          .ite (fun _ => .pure _) fun _ => .pure _
  | none =>
      intro w
      have hhandle : handleFd E .readOpen path none O_RDONLY =
          posixOpen E .readOpen path.bytes O_RDONLY := rfl
      rw [hhandle, bind_run]
      have hcreate : O_RDONLY.has O_CREAT = false := by decide
      have htrunc : O_RDONLY.has O_TRUNC = false := by decide
      rcases posixOpen_run E .readOpen w path.bytes hcreate htrunc with ⟨ino, _, heq⟩ | ⟨_, e, _, heq⟩
      · have hopened : 0 ≤ (newFd ino O_RDONLY w).1 := newFd_nonneg ino w
        have hfd : ¬ (newFd ino O_RDONLY w).1 = -1 := by omega
        have hread := posixPread_cl (E := E) (newFd ino O_RDONLY w).1 size offset (newFd ino O_RDONLY w).2
        have hclose := leaves_posixClose (w := w) (d := ⟨ino, O_RDONLY⟩) (congrArg (·.fds) hread)
        have hfiles : (posixPread E (newFd ino O_RDONLY w).1 size offset
            (newFd ino O_RDONLY w).2).2.files = w.files := congrArg (·.files) hread
        rw [hfiles] at hclose
        rw [heq, if_neg hfd]
        simp only [bind_run]
        split_ifs <;> exact hclose.spares
      · rw [heq]
        exact .of_cl rfl

end Injected

section Handlers

variable [Sha256] (E : Env)

theorem spares_openHandle (path : CString) (fi : FuseFileInfo) (is_create : Bool) :
    Keeps World.Spares (openHandle E path fi is_create) :=
  keeps_answer ((spares_Open E path fi is_create).bind fun _ =>
    .ite (fun _ => .pure _) fun _ => .pure _)

theorem spares_flushThrough (path : CString) (fi : FuseFileInfo) :
    Keeps World.Spares (flushThrough E path fi) := by
  intro w
  refine trans_of World.Spares (leaves_dupClose fi.fh w).spares (Keeps.ite (fun _ => ?_) (fun _ => ?_) _)
  · exact spares_getErrno.bind fun _ => .pure _
  · exact (spares_flush E path).bind fun _ => .pure _

theorem spares_unreliableFlush (path : CString) (fi : FuseFileInfo) :
    Keeps World.Spares (unreliableFlush E path fi) := by
  refine .ite (fun _ => .pure _) fun _ => .ite (fun _ => ?_) fun _ => .ite (fun _ => .pure _) fun _ =>
    spares_flushThrough E path fi
  exact (spares_addToQueue 1 path (some fi) [] 0 0).bind fun _ =>
    (spares_shuffleQueue E).bind fun _ => .pure _

/-- A write through a handle on a file of the directory. -/
theorem spares_unreliableWrite (path : CString) (buf : Bytes) (offset : Nat) {fi : FuseFileInfo}
    {w : World} (hfi : ∀ d, w.cl.fds.get fi.fh = some d → w.files.Hidden clientDir d.ino) :
    World.Spares w (unreliableWrite E path buf offset (some fi) w).2 := by
  have hthrough : World.Spares w (writeThrough E path buf offset (some fi) w).2 := by
    rw [writeThrough_handle]
    exact trans_of World.Spares (spares_posixPwrite hfi) (spares_markFileDirty path _)
  have hqueue : Keeps World.Spares (do
      addToQueue 2 path (some fi) buf buf.length offset
      shuffleQueue E
      return (buf.length : Int)) :=
    (spares_addToQueue _ _ _ _ _ _).bind fun _ => (spares_shuffleQueue E).bind fun _ => .pure _
  unfold unreliableWrite
  split_ifs
  · exact refl_of _ w
  · exact hqueue w
  · exact refl_of _ w
  · exact hthrough

end Handlers

section Handles

variable {E : Env} {fi : FuseFileInfo} {w : World}

theorem spares_unreliableIoctl
    (hfi : ∀ d, w.cl.fds.get fi.fh = some d → w.files.Hidden clientDir d.ino) :
    World.Spares w (unreliableIoctl E fi w).2 := by
  by_cases hplain : E.injected = 0
  · rw [unreliableIoctl, unlessInjected_zero hplain]
    refine trans_of World.Spares (spares_onFd fun d hd => ?_) ((spares_getErrno.bind fun errno =>
      .ite (fun _ => .pure _) fun _ => .pure _) _)
    exact .setFiles fun hw => Fs.confined_setInode hw _ (hfi d hd)
  · rw [unreliableIoctl, unlessInjected_of_ne hplain]
    exact refl_of _ w

theorem spares_unreliableFallocate (mode : Int) (offset len : Nat)
    (hfi : ∀ d, w.cl.fds.get fi.fh = some d → w.files.Hidden clientDir d.ino) :
    World.Spares w (unreliableFallocate E mode offset len fi w).2 := by
  by_cases hplain : E.injected = 0
  · rw [unreliableFallocate, unlessInjected_zero hplain]
    split_ifs
    · exact refl_of _ w
    · refine trans_of World.Spares (spares_onFd fun d hd => ?_) (keeps_orErrno _ _)
      dsimp only
      split_ifs
      · exact spares_failWith EBADF w
      · exact .setFiles fun hw => Fs.confined_setInode hw _ (hfi d hd)
      · exact refl_of _ w
  · rw [unreliableFallocate, unlessInjected_of_ne hplain]
    exact refl_of _ w

end Handles

namespace FuseCall

/-- The calls that may write under the path they were given. -/
def usesPath : FuseCall → Bool
  | .symlink .. | .link .. | .ftruncate .. | .write _ _ _ none => true
  | _ => false

/-- The handle a call works on. -/
def handle : FuseCall → Option FuseFileInfo
  | .read _ _ _ fi | .write _ _ _ fi => fi
  | .flush _ fi | .release fi | .fsync fi | .fgetattr _ fi | .lock fi | .ioctl fi | .flock fi => some fi
  | .fallocate _ _ _ fi => some fi
  | _ => none

section Spared

variable [Sha256] (E : Env) {w : World}

/-- Every other call keeps to the directory of the client, as long as its handle is on a file there. -/
theorem effect_spares {call : FuseCall} (hpath : call.usesPath = false)
    (hhandle : ∀ fi, call.handle = some fi → ∀ d, w.cl.fds.get fi.fh = some d →
      w.files.Hidden clientDir d.ino) : World.Spares w (call.effect E w) := by
  have htemp := getTempPath_mem_clientDir
  cases call with
  | getattr path buf => exact keeps_answer (spares_getAttr E path buf) w
  | readlink path => exact keeps_handler (spares_onFile_id _ _) w
  | mknod path mode dev => exact keeps_handler (spares_newNode _ _ _ (htemp path)) w
  | mkdir path mode =>
      exact keeps_unlessInjected ((spares_unary _ _).bind fun _ => .pure _) w
  | unlink path =>
      exact keeps_unlessInjected ((spares_unlink E path).bind fun _ =>
        .ite (fun _ => .pure _) fun _ => .pure _) w
  | rmdir path => exact keeps_unlessInjected ((spares_unary _ _).bind fun _ => .pure _) w
  | symlink target linkpath => cases hpath
  | rename oldpath newpath =>
      exact keeps_unlessInjected ((spares_rename E oldpath newpath).bind fun _ =>
        .ite (fun _ => .pure _) fun _ => .pure _) w
  | link oldpath newpath => cases hpath
  | chmod path mode => exact keeps_handler (spares_onFile _ _ (htemp path)) w
  | chown path owner group => exact keeps_handler (spares_onFile _ _ (htemp path)) w
  | truncate path length => exact keeps_handler (spares_posixTruncate _ _ (htemp path)) w
  | openFile path fi => exact spares_openHandle E path fi false w
  | read path size offset fi => exact spares_unreliableRead path size offset fi w
  | write path buf offset fi =>
      cases fi with
      | none => cases hpath
      | some fi => exact spares_unreliableWrite E path buf offset (hhandle fi rfl)
  | statfs path => exact keeps_handler (spares_onFile _ _ (htemp path)) w
  | flush path fi => exact spares_unreliableFlush E path fi w
  | release fi => exact keeps_handler (spares_of_same (same_posixCloseChecked _ _)) w
  | fsync fi => exact keeps_handler (spares_onFd_pure _ _) w
  | setxattr path name value => exact keeps_handler (spares_onFile _ _ (htemp path)) w
  | getxattr path name size =>
      exact keeps_answer ((spares_readAttribute _ _ _ _).bind fun ret =>
        spares_getErrno.bind fun errno => .ite (fun _ => .pure _) fun _ => .pure _) w
  | listxattr path size =>
      exact keeps_answer ((spares_readAttribute _ _ _ _).bind fun ret =>
        spares_getErrno.bind fun errno => .ite (fun _ => .pure _) fun _ => .pure _) w
  | removexattr path name => exact keeps_handler (spares_onFile _ _ (htemp path)) w
  | opendir => exact keeps_unlessInjected (.pure _) w
  | readdir path => exact keeps_answer (spares_readDir E path) w
  | releasedir => exact keeps_handler (spares_attempt (.pure _)) w
  | fsyncdir path => exact spares_of_same (same_unreliableFsyncdir path) w
  | init => exact refl_of _ w
  | destroy => exact refl_of _ w
  | access path => exact keeps_unlessInjected ((spares_unary _ _).bind fun _ => .pure _) w
  | create path fi => exact spares_openHandle E path fi true w
  | ftruncate path length => cases hpath
  | fgetattr buf fi =>
      have hcl : (unreliableFgetattr E buf fi w).2.cl = w.cl := by
        unfold unreliableFgetattr
        split_ifs
        · rfl
        · rfl
        · split <;> rfl
      exact .of_cl hcl
  | lock fi => exact keeps_handler (spares_onFd_pure _ _) w
  | ioctl fi => exact spares_unreliableIoctl (hhandle fi rfl)
  | flock fi => exact keeps_handler (spares_onFd_pure _ _) w
  | fallocate mode offset len fi => exact spares_unreliableFallocate mode offset len (hhandle fi rfl)
  | utimens path ts => exact keeps_unlessInjected (.pure _) w

end Spared

/-- The local files after a call that uses its path. -/
def rawFiles (E : Env) (files : Files) : FuseCall → Files
  | .symlink target linkpath =>
      if E.injected = 0 ∧ E.fails .symlink = none ∧ files.names linkpath.bytes = none then
        if files.names target.bytes ≠ none then files.link target.bytes linkpath.bytes
        else files.create linkpath.bytes
          ⟨target.bytes, E.now .symlink, { E.attr .symlink with mode := (S_IFLNK ||| 0o777).toNat }⟩
      else files
  | .link oldpath newpath =>
      if E.injected = 0 ∧ E.fails .link = none ∧ files.names oldpath.bytes ≠ none ∧
          files.names newpath.bytes = none then
        files.link oldpath.bytes newpath.bytes
      else files
  | .ftruncate path length =>
      match files.names path.bytes with
      | none => files
      | some ino =>
          if E.injected = 0 ∧ E.fails .ftruncate = none ∧ 0 ≤ length then
            files.setInode ino { files.inode ino with
              content := resize (files.inode ino).content length.toNat, mtime := E.now .ftruncate }
          else files
  | .write path buf offset none =>
      if E.injected = 0 then rawWritten E .writeOpen .pwrite path.bytes buf offset files else files
  | _ => files

/-- The call changes a file of a name outside: there it makes a new name, or leaves the file of the
name with other bytes or another time. -/
def Touches (E : Env) (files : Files) : FuseCall → Prop
  | .symlink _ linkpath =>
      linkpath.bytes ∉ clientDir ∧ E.injected = 0 ∧ E.fails .symlink = none ∧
        files.names linkpath.bytes = none
  | .link oldpath newpath =>
      newpath.bytes ∉ clientDir ∧ E.injected = 0 ∧ E.fails .link = none ∧
        files.names oldpath.bytes ≠ none ∧ files.names newpath.bytes = none
  | .ftruncate path length =>
      path.bytes ∉ clientDir ∧ E.injected = 0 ∧ E.fails .ftruncate = none ∧ 0 ≤ length ∧
        ∃ ino, files.names path.bytes = some ino ∧
          (length.toNat ≠ (files.inode ino).content.length ∨
            E.now .ftruncate ≠ (files.inode ino).mtime)
  | .write path buf offset none =>
      E.injected = 0 ∧ path.bytes ∉ clientDir ∧
        Rewrites E .writeOpen .pwrite path.bytes buf offset files
  | _ => False

/-- The call gives a file from outside a name in the directory, or makes a symbolic link there, which may lead
anywhere. -/
def Ties (E : Env) (files : Files) : FuseCall → Prop
  | .symlink _ linkpath =>
      linkpath.bytes ∈ clientDir ∧ E.injected = 0 ∧ E.fails .symlink = none ∧ files.names linkpath.bytes = none
  | .link oldpath newpath =>
      newpath.bytes ∈ clientDir ∧ oldpath.bytes ∉ clientDir ∧ E.injected = 0 ∧
        E.fails .link = none ∧ files.names oldpath.bytes ≠ none ∧ files.names newpath.bytes = none
  | _ => False

section Raw

variable {E : Env} {files : Files}

theorem truncated_sameOutside_iff (happart : files.Apart clientDir) {path : CString} {length : Int}
    {ino : Nat} (hname : files.names path.bytes = some ino)
    (hcut : E.injected = 0 ∧ E.fails .ftruncate = none ∧ 0 ≤ length) :
    Fs.SameOutside clientDir files (files.setInode ino { files.inode ino with
      content := resize (files.inode ino).content length.toNat, mtime := E.now .ftruncate }) ↔
      ¬ (FuseCall.ftruncate path length).Touches E files := by
  constructor
  · rintro h ⟨hout, _, _, _, ino', hino', hother⟩
    have hinode := h.inode path.bytes hout ino hname
    rw [Fs.setInode_self] at hinode
    cases hname.symm.trans hino'
    rcases hother with hlength | hmtime
    · have hcontent := congrArg (·.content.length) hinode
      exact hlength ((length_resize _ _).symm.trans hcontent)
    · exact hmtime (congrArg (·.mtime) hinode)
  · intro h
    by_cases hin : path.bytes ∈ clientDir
    · exact Fs.setInode_sameOutside _ (happart path.bytes hin ino hname)
    · have hsame : length.toNat = (files.inode ino).content.length ∧
          E.now .ftruncate = (files.inode ino).mtime := by
        by_contra hdiffer
        rw [not_and_or] at hdiffer
        exact h ⟨hin, hcut.1, hcut.2.1, hcut.2.2, ino, hname, hdiffer⟩
      rw [hsame.1, hsame.2, resize_self, Fs.setInode, Function.update_eq_self]
      exact .refl clientDir files

theorem rawFiles_sameOutside_iff (happart : files.Apart clientDir) {call : FuseCall}
    (hpath : call.usesPath = true) :
    Fs.SameOutside clientDir files (call.rawFiles E files) ↔ ¬ call.Touches E files := by
  cases call with
  | symlink target linkpath =>
      by_cases hmade : E.injected = 0 ∧ E.fails .symlink = none ∧ files.names linkpath.bytes = none
      · rw [rawFiles, if_pos hmade]
        by_cases hin : linkpath.bytes ∈ clientDir
        · refine iff_of_true ?_ fun h => h.1 hin
          split_ifs
          · exact Fs.link_sameOutside hin
          · exact Fs.create_sameOutside _ hin
        · refine iff_of_false (fun h => ?_) (not_not.mpr ⟨hin, hmade⟩)
          have hname := h.names linkpath.bytes hin
          rw [hmade.2.2] at hname
          split_ifs at hname with htarget
          · rw [Fs.link_names_self] at hname
            exact htarget hname
          · rw [Fs.create_names_self] at hname
            cases hname
      · rw [rawFiles, if_neg hmade]
        exact iff_of_true (.refl clientDir files) fun h => hmade h.2
  | link oldpath newpath =>
      by_cases hmade : E.injected = 0 ∧ E.fails .link = none ∧ files.names oldpath.bytes ≠ none ∧
          files.names newpath.bytes = none
      · rw [rawFiles, if_pos hmade]
        by_cases hin : newpath.bytes ∈ clientDir
        · exact iff_of_true (Fs.link_sameOutside hin) fun h => h.1 hin
        · refine iff_of_false (fun h => ?_) (not_not.mpr ⟨hin, hmade⟩)
          have hname := h.names newpath.bytes hin
          rw [Fs.link_names_self, hmade.2.2.2] at hname
          exact hmade.2.2.1 hname
      · rw [rawFiles, if_neg hmade]
        exact iff_of_true (.refl clientDir files) fun h => hmade h.2
  | ftruncate path length =>
      cases hname : files.names path.bytes with
      | none =>
          simp only [rawFiles, hname]
          refine iff_of_true (.refl clientDir files) fun h => ?_
          obtain ⟨_, _, _, _, ino, hino, _⟩ := h
          rw [hname] at hino
          cases hino
      | some ino =>
          simp only [rawFiles, hname]
          split_ifs with hcut
          · exact truncated_sameOutside_iff happart hname hcut
          · exact iff_of_true (.refl clientDir files) fun h => hcut ⟨h.2.1, h.2.2.1, h.2.2.2.1⟩
  | write path buf offset fi =>
      cases fi with
      | some fi => cases hpath
      | none =>
          by_cases hplain : E.injected = 0
          · rw [rawFiles, if_pos hplain, rawWritten_sameOutside_iff happart]
            exact not_congr (and_iff_right hplain).symm
          · rw [rawFiles, if_neg hplain]
            exact iff_of_true (.refl clientDir files) fun h => hplain h.1
  | _ => cases hpath

/-- What shares no file with the rest still does not. -/
theorem rawFiles_apart (happart : files.Apart clientDir) {call : FuseCall}
    (htouches : ¬ call.Touches E files) (hties : ¬ call.Ties E files) :
    (call.rawFiles E files).Apart clientDir := by
  cases call with
  | symlink target linkpath =>
      rw [rawFiles]
      by_cases hmade : E.injected = 0 ∧ E.fails .symlink = none ∧ files.names linkpath.bytes = none
      · by_cases hin : linkpath.bytes ∈ clientDir
        · exact absurd ⟨hin, hmade⟩ hties
        · exact absurd ⟨hin, hmade⟩ htouches
      · rwa [if_neg hmade]
  | link oldpath newpath =>
      rw [rawFiles]
      split_ifs with hmade
      · have hin : newpath.bytes ∈ clientDir := by
          by_contra hout
          exact htouches ⟨hout, hmade⟩
        have hold : oldpath.bytes ∈ clientDir := by
          by_contra hout
          exact hties ⟨hin, hout, hmade⟩
        exact happart.link hold hin
      · exact happart
  | ftruncate path length =>
      rw [rawFiles]
      split
      · exact happart
      · split_ifs
        · exact happart.of_names fun _ _ => id
        · exact happart
  | write path buf offset fi =>
      cases fi with
      | some fi => exact happart
      | none =>
          rw [rawFiles]
          split_ifs
          · refine happart.of_names fun name i hname => ?_
            rwa [rawWritten_names] at hname
          · exact happart
  | _ => exact happart

variable {w : World}

theorem leaves_handler {call : Prog Int} {w : World} {files : Files}
    (h : E.injected = 0 → World.Leaves w (call w).2 files) (hnot : E.injected ≠ 0 → files = w.files) :
    World.Leaves w (unlessInjected E (do
      let ret ← call
      orErrno ret) w).2 files := by
  by_cases hplain : E.injected = 0
  · rw [unlessInjected_zero hplain, bind_run, orErrno_world]
    exact h hplain
  · rw [unlessInjected_of_ne hplain, hnot hplain]
    exact ⟨rfl, fun _ _ => id⟩

theorem leaves_unreliableLink (E : Env) (w : World) (oldpath newpath : CString) :
    World.Leaves w (unreliableLink E oldpath newpath w).2
      ((FuseCall.link oldpath newpath).rawFiles E w.files) := by
  rw [unreliableLink, rawFiles]
  by_cases hplain : E.injected = 0
  · rw [unlessInjected_zero hplain]
    unfold posixLink attempt
    cases hfails : E.fails .link with
    | some e =>
        rw [if_neg (by simp)]
        exact ⟨rfl, fun _ _ => id⟩
    | none =>
        simp only [Option.isNone_iff_eq_none, Option.isSome_iff_ne_none]
        by_cases hold : w.files.names oldpath.bytes = none
        · rw [if_pos hold, if_neg fun h => h.2.2.1 hold]
          exact ⟨rfl, fun _ _ => id⟩
        · rw [if_neg hold]
          by_cases hnew : w.files.names newpath.bytes = none
          · rw [if_neg (not_not.mpr hnew), if_pos ⟨hplain, trivial, hold, hnew⟩]
            exact ⟨rfl, fun _ _ => id⟩
          · rw [if_pos hnew, if_neg fun h => hnew h.2.2.2]
            exact ⟨rfl, fun _ _ => id⟩
  · rw [unlessInjected_of_ne hplain, if_neg fun h => hplain h.1]
    exact ⟨rfl, fun _ _ => id⟩

theorem leaves_posixSymlink (hplain : E.injected = 0) (w : World) (target linkpath : CString) :
    World.Leaves w (posixSymlink E target.bytes linkpath.bytes w).2
      ((FuseCall.symlink target linkpath).rawFiles E w.files) := by
  rw [rawFiles]
  unfold posixSymlink attempt
  cases hfails : E.fails .symlink with
  | some e =>
      rw [if_neg (by simp)]
      exact ⟨rfl, fun _ _ => id⟩
  | none =>
      simp only [Option.isSome_iff_ne_none]
      by_cases htaken : w.files.names linkpath.bytes = none
      · have hmade : E.injected = 0 ∧ True ∧ w.files.names linkpath.bytes = none := ⟨hplain, trivial, htaken⟩
        rw [if_neg (not_not.mpr htaken), if_pos hmade]
        split_ifs <;> exact ⟨rfl, fun _ _ => id⟩
      · rw [if_pos htaken, if_neg fun h => htaken h.2.2]
        exact ⟨rfl, fun _ _ => id⟩

theorem leaves_posixTruncate (hplain : E.injected = 0) (w : World) (path : CString) (length : Int) :
    World.Leaves w (posixTruncate E .ftruncate path.bytes length w).2
      ((FuseCall.ftruncate path length).rawFiles E w.files) := by
  rw [rawFiles]
  rcases posixTruncate_run E .ftruncate w path.bytes length with ⟨ino, ⟨hle, hok, hname⟩, heq⟩ | ⟨hmissing, e, _, heq⟩
  · simp only [heq, hname]
    rw [if_pos ⟨hplain, hok, hle⟩]
    exact ⟨rfl, fun _ _ => id⟩
  · rw [heq]
    cases hname : w.files.names path.bytes with
    | none => exact ⟨rfl, fun _ _ => id⟩
    | some ino =>
        have hnot : ¬ (E.injected = 0 ∧ E.fails .ftruncate = none ∧ 0 ≤ length) := fun h =>
          absurd (hname.symm.trans (hmissing h.2.2 h.2.1)) (Option.some_ne_none ino)
        simp only [if_neg hnot]
        exact ⟨rfl, fun _ _ => id⟩

theorem leaves_writeThrough [Sha256] (E : Env) (w : World) (path : CString) (buf : Bytes)
    (offset : Nat) : World.Leaves w (writeThrough E path buf offset none w).2
      (rawWritten E .writeOpen .pwrite path.bytes buf offset w.files) := by
  have hhandle : handleFd E .writeOpen path none O_WRONLY = posixOpen E .writeOpen path.bytes O_WRONLY :=
    rfl
  have hcreate : O_WRONLY.has O_CREAT = false := by decide
  have htrunc : O_WRONLY.has O_TRUNC = false := by decide
  unfold writeThrough
  rw [hhandle, bind_run]
  by_cases hfd : (posixOpen E .writeOpen path.bytes O_WRONLY w).1 = -1
  · rw [if_pos hfd]
    rcases posixOpen_run E .writeOpen w path.bytes hcreate htrunc with ⟨ino, _, heq⟩ | ⟨hnone, e, _, heq⟩
    · rw [heq] at hfd
      have hpos : ((w.cl.fds.lowestFree : Nat) : Int) = -1 := hfd
      omega
    · rw [rawWritten_of_not hnone, heq]
      exact ⟨rfl, fun _ _ => id⟩
  · have hclose := leaves_rawWrite .pwrite buf offset hcreate htrunc (by decide) (by decide) hfd
      (markFileDirty path (posixPwrite E .pwrite (posixOpen E .writeOpen path.bytes O_WRONLY w).1 buf
        offset (posixOpen E .writeOpen path.bytes O_WRONLY w).2).2).2 ⟨rfl, rfl⟩
    rw [if_neg hfd]
    simp only [bind_run]
    split_ifs <;> exact hclose

theorem leaves_unreliableWrite [Sha256] (E : Env) (w : World) (path : CString) (buf : Bytes)
    (offset : Nat) : World.Leaves w (unreliableWrite E path buf offset none w).2
      ((FuseCall.write path buf offset none).rawFiles E w.files) := by
  rw [rawFiles]
  by_cases hplain : E.injected = 0
  · rw [if_pos hplain, unreliableWrite_plain path hplain]
    exact leaves_writeThrough E w path buf offset
  · rw [if_neg hplain]
    unfold unreliableWrite
    split_ifs <;> exact ⟨rfl, fun _ _ => id⟩

/-- What the four handlers do. -/
theorem effect_leaves [Sha256] (E : Env) (w : World) {call : FuseCall} (hpath : call.usesPath = true) :
    World.Leaves w (call.effect E w) (call.rawFiles E w.files) := by
  cases call with
  | symlink target linkpath =>
      refine leaves_handler (fun hplain => ?_) fun hne => if_neg fun h => hne h.1
      exact leaves_posixSymlink hplain w target linkpath
  | link oldpath newpath => exact leaves_unreliableLink E w oldpath newpath
  | ftruncate path length =>
      exact leaves_handler (fun hplain => leaves_posixTruncate hplain w path length) fun hne => by
        rw [rawFiles]
        split
        · rfl
        · exact if_neg fun h => hne h.1
  | write path buf offset fi =>
      cases fi with
      | some fi => cases hpath
      | none => exact leaves_unreliableWrite E w path buf offset
  | _ => cases hpath

end Raw

end FuseCall

/-! ### The head of the queue -/

section Queue

variable (E : Env) (w : World)

/-- The local files after the head of the queue was executed. -/
def queueFiles : Files :=
  match w.cl.op_queue with
  | [] => w.files
  | headVal :: _ =>
      if headVal.operation_id = 1 then
        rawWritten E .queueOpen .queuePwrite headVal.path.bytes (headVal.buf.take headVal.size)
          headVal.offset w.files
      else w.files

theorem leaves_executeEntry (headVal : QueueEntry) : World.Leaves w (executeEntry E headVal w).2
    (if headVal.operation_id = 1 then
      rawWritten E .queueOpen .queuePwrite headVal.path.bytes (headVal.buf.take headVal.size)
        headVal.offset w.files
    else w.files) := by
  have hcreate : O_RDWR.has O_CREAT = false := by decide
  have htrunc : O_RDWR.has O_TRUNC = false := by decide
  unfold executeEntry
  by_cases hwrite : headVal.operation_id = 1
  · rw [if_pos hwrite, if_pos hwrite, bind_run]
    by_cases hfd : (posixOpen E .queueOpen headVal.path.bytes O_RDWR w).1 = -1
    · rw [if_pos hfd]
      rcases posixOpen_run E .queueOpen w headVal.path.bytes hcreate htrunc with ⟨ino, _, heq⟩ | ⟨hnone, e, _, heq⟩
      · rw [heq] at hfd
        have hpos : ((w.cl.fds.lowestFree : Nat) : Int) = -1 := hfd
        omega
      · rw [rawWritten_of_not hnone, heq]
        exact ⟨rfl, fun _ _ => id⟩
    · have hclose := leaves_rawWrite .queuePwrite (headVal.buf.take headVal.size) headVal.offset hcreate
        htrunc (by decide) (by decide) hfd (posixPwrite E .queuePwrite (posixOpen E .queueOpen
          headVal.path.bytes O_RDWR w).1 (headVal.buf.take headVal.size) headVal.offset
          (posixOpen E .queueOpen headVal.path.bytes O_RDWR w).2).2 ⟨rfl, rfl⟩
      rw [if_neg hfd]
      simp only [bind_run]
      split_ifs <;> exact hclose
  · rw [if_neg hwrite, if_neg hwrite]
    split_ifs
    · cases headVal.fi with
      | none => exact ⟨rfl, fun _ _ => id⟩
      | some fi => exact leaves_dupClose fi.fh w
    · exact ⟨rfl, fun _ _ => id⟩

theorem leaves_executeQueueHead : World.Leaves w (executeQueueHead E w).2 (queueFiles E w) := by
  unfold executeQueueHead queueFiles
  cases hqueue : w.cl.op_queue with
  | nil => exact ⟨rfl, fun _ _ => id⟩
  | cons headVal rest =>
      have hentry := leaves_executeEntry E (w.setQueue rest) headVal
      exact ⟨hentry.files, hentry.fds⟩

end Queue

end Bnfs
