import Bnfs.ClientMountRuns
import Bnfs.ClientTwins

/-! The life of a client: calls of FUSE, the queue, and whatever others do to the server, in any order and with
any failures. A temporary copy never comes to share its file with another name, unless a link is asked for on the
name of one. -/

namespace Bnfs

open FileSystem Programs Runs

variable [Sha256]

/-- No temporary copy shares its file with another name. -/
def World.Private (w : World) : Prop := ∀ n ∈ tempNames, w.files.Sole n

/-- It stays so. -/
def World.StaysPrivate (w w' : World) : Prop := w.Private → w'.Private

instance : IsPreorder World World.StaysPrivate where
  refl _ h := h
  trans _ _ _ h h' hw := h' (h hw)

theorem World.StaysPrivate.of_names {w w' : World} (h : w'.files.names = w.files.names) :
    World.StaysPrivate w w' := fun hw n hn => (hw n hn).of_names_eq h

theorem World.StaysPrivate.of_cl {w w' : World} (h : w'.cl = w.cl) : World.StaysPrivate w w' :=
  .of_names (by rw [World.files, World.files, h])

theorem World.Concerns.staysPrivate {path : CString} {w w' : World} (h : World.Concerns path w w') :
    World.StaysPrivate w w' := fun hw n hn => h.sole n (hw n hn)

section Calls

variable {E : Env} {site : Site}

theorem private_of_same {α : Type} {x : Prog α} (h : Keeps World.Same x) : Keeps World.StaysPrivate x :=
  fun w => .of_names (congrArg Fs.names (h w).files)

theorem private_of_concerns {α : Type} {x : Prog α} {path : CString} (h : Keeps (World.Concerns path) x) :
    Keeps World.StaysPrivate x := fun w => (h w).staysPrivate

theorem private_attempt {call : Prog Int} (h : Keeps World.StaysPrivate call) :
    Keeps World.StaysPrivate (attempt E site call) :=
  attempt_keeps (fun e => private_of_same (same_failWith e)) h

theorem private_unary {Reply : Type} (r : Rpc) (handler : Server → Option Reply × Server) :
    Keeps World.StaysPrivate (unary E r handler) := fun w => .of_cl (unary_cl E w r handler)

theorem private_onFile (name : Bytes) (change : File → File) :
    Keeps World.StaysPrivate (onFile E site name change) := by
  refine private_attempt fun w => ?_
  split
  · exact private_of_same (same_failWith ENOENT) w
  · exact .of_names rfl

theorem private_posixTruncate (name : Bytes) (length : Int) :
    Keeps World.StaysPrivate (posixTruncate E site name length) :=
  .ite (fun _ => private_of_same (same_failWith EINVAL)) fun _ => private_onFile name _

/-- A new file has no other name. -/
theorem private_create {w : World} {name : Bytes} {file : File} (hname : w.files.names name = none) :
    World.StaysPrivate w (w.setFiles (w.files.create name file)) := by
  intro hw n hn
  have hopened : (w.files.openTrunc name file.mtime file.attr).1.Sole n :=
    Fs.openTrunc_sole file.mtime file.attr (hw n hn)
  simp only [Fs.openTrunc, hname] at hopened
  exact hopened.of_names_eq rfl

theorem private_newNode (name content : Bytes) (attr : Attr) :
    Keeps World.StaysPrivate (newNode E site name content attr) := by
  refine private_attempt fun w => ?_
  cases hname : w.files.names name with
  | some i => exact private_of_same (same_failWith EEXIST) w
  | none =>
      exact private_create hname

theorem private_posixPwrite (fd : Int) (data : Bytes) (offset : Nat) :
    Keeps World.StaysPrivate (posixPwrite E site fd data offset) := by
  refine private_attempt fun w => ?_
  split
  · exact private_of_same (same_failWith EBADF) w
  · split_ifs
    · exact private_of_same (same_failWith EBADF) w
    · exact refl_of World.StaysPrivate w
    · exact .of_names rfl

theorem private_onFd (fd : Int) {call : Descriptor → Prog Int} (h : ∀ d, Keeps World.StaysPrivate (call d)) :
    Keeps World.StaysPrivate (onFd E site fd call) := by
  refine private_attempt fun w => ?_
  split
  · exact private_of_same (same_failWith EBADF) w
  · exact h _ w

theorem private_posixRename (old_path new_path : CString) :
    Keeps World.StaysPrivate (posixRename E site (getTempPath old_path) (getTempPath new_path)) := by
  refine private_attempt fun w => ?_
  split
  · exact private_of_same (same_failWith ENOENT) w
  · intro hw n hn
    by_cases hnew : n = getTempPath new_path
    · rw [hnew]
      exact Fs.rename_sole_new _ (hw _ (getTempPath_mem_tempNames old_path))
    · exact Fs.rename_sole (hw n hn) hnew

theorem private_getErrno : Keeps World.StaysPrivate getErrno := private_of_same same_getErrno

theorem private_posixClose (fd : Int) : Keeps World.StaysPrivate (posixClose fd) :=
  private_of_same (same_posixClose fd)

theorem private_markFileDirty (path : CString) : Keeps World.StaysPrivate (markFileDirty path) :=
  private_of_concerns (concerns_markFileDirty path)

theorem private_queue (operation_id : Int) (path : CString) (fi : Option FuseFileInfo) (buf : Bytes)
    (size offset : Nat) {ret : Int} : Keeps World.StaysPrivate (do
      addToQueue operation_id path fi buf size offset
      shuffleQueue E
      return ret) := fun _ => .of_names rfl

theorem private_readAttribute (name : Bytes) (size : Nat) (value : File → Option Bytes) :
    Keeps World.StaysPrivate (readAttribute E site name size value) := fun w => by
  unfold readAttribute
  split
  · exact .of_cl rfl
  · exact .of_cl rfl
  · split
    · exact .of_cl rfl
    · split_ifs <;> exact .of_cl rfl

end Calls

section Operations

variable (E : Env) (path : CString)

theorem private_rename (new_path : CString) : Keeps World.StaysPrivate (AFSClient.rename E path new_path) := by
  have hunmark : Keeps World.StaysPrivate (unmarkFileDirty E path) :=
    (private_of_concerns (concerns_posixRemove (getTempPath_mem_localNames path))).bind fun _ => .pure _
  exact rename_keeps (private_of_same (same_posixOpen (by decide) (by decide))) (private_posixRename path new_path)
    private_getErrno hunmark (private_markFileDirty new_path) private_posixClose (private_unary _ _)

theorem private_openHandle (fi : FuseFileInfo) (is_create : Bool) :
    Keeps World.StaysPrivate (openHandle E path fi is_create) :=
  keeps_answer ((private_of_concerns (concerns_Open E path fi is_create)).bind fun _ =>
    .ite (fun _ => .pure _) fun _ => .pure _)

theorem private_unlink : Keeps World.StaysPrivate (AFSClient.unlink E path) :=
  unlink_keeps (private_of_concerns (concerns_deleteFromTemp E path)) (private_unary _ _)

theorem private_flush (fi : FuseFileInfo) : Keeps World.StaysPrivate (unreliableFlush E path fi) := by
  refine .ite (fun _ => .pure _) fun _ => .ite (fun _ => private_queue _ _ _ _ _ _) fun _ =>
    .ite (fun _ => .pure _) fun _ => ?_
  refine (private_of_same (posixDup_same E fi.fh)).bind fun fd => (private_posixClose fd).bind fun ret =>
    .ite (fun _ => private_getErrno.bind fun _ => .pure _) fun _ => ?_
  exact (private_of_concerns (concerns_flush E path)).bind fun _ => .pure _

/-- With or without a handle, no name is touched. -/
theorem private_handleFd (site : Site) (fi : Option FuseFileInfo) {flags : OpenFlags}
    (hcreate : flags.has O_CREAT = false) (htrunc : flags.has O_TRUNC = false) :
    Keeps World.StaysPrivate (handleFd E site path fi flags) := by
  cases fi with
  | some fi => exact .pure _
  | none => exact private_of_same (same_posixOpen hcreate htrunc)

theorem private_closeUnlessHandle (fd : Int) (fi : Option FuseFileInfo) :
    Keeps World.StaysPrivate (closeUnlessHandle fd fi) :=
  .ite (fun _ => (private_posixClose fd).bind fun _ => .pure _) fun _ => .pure _

theorem private_read (size offset : Nat) (fi : Option FuseFileInfo) :
    Keeps World.StaysPrivate (unreliableRead E path size offset fi) := by
  refine keeps_answer ((private_handleFd E path _ fi (by decide) (by decide)).bind fun fd =>
    .ite (fun _ => private_getErrno.bind fun _ => .pure _) fun _ => ?_)
  refine .bind (fun w => .of_cl (posixPread_cl fd size offset w)) fun ret => private_getErrno.bind fun _ => ?_
  exact (private_closeUnlessHandle fd fi).bind fun _ => .ite (fun _ => .pure _) fun _ => .pure _

theorem private_write (buf : Bytes) (offset : Nat) (fi : Option FuseFileInfo) :
    Keeps World.StaysPrivate (unreliableWrite E path buf offset fi) := by
  refine .ite (fun _ => .pure _) fun _ => .ite (fun _ => private_queue _ _ _ _ _ _) fun _ =>
    .ite (fun _ => .pure _) fun _ => ?_
  refine (private_handleFd E path _ fi (by decide) (by decide)).bind fun fd =>
    .ite (fun _ => private_getErrno.bind fun _ => .pure _) fun _ => ?_
  refine (private_posixPwrite fd buf offset).bind fun ret => private_getErrno.bind fun _ => ?_
  exact (private_markFileDirty path).bind fun _ => (private_closeUnlessHandle fd fi).bind fun _ =>
    .ite (fun _ => .pure _) fun _ => .pure _

theorem private_fallocate (mode : Int) (offset len : Nat) (fi : FuseFileInfo) :
    Keeps World.StaysPrivate (unreliableFallocate E mode offset len fi) := by
  refine keeps_unlessInjected (.ite (fun _ => .pure _) fun _ =>
    (private_onFd _ fun d w => ?_).bind keeps_orErrno)
  dsimp only
  split_ifs
  · exact private_of_same (same_failWith EBADF) w
  · exact .of_names rfl
  · exact refl_of World.StaysPrivate w

end Operations

namespace FuseCall

/-- A hard or symbolic link to a temporary copy, a hard link under the name of one, or a symbolic link anywhere in
the directory of the client. -/
def LinksCopy : FuseCall → Prop
  | .link oldpath newpath => oldpath.bytes ∈ tempNames ∨ newpath.bytes ∈ tempNames
  | .symlink target linkpath => target.bytes ∈ tempNames ∨ linkpath.bytes ∈ clientDir
  | _ => False

/-- A second name among other names. -/
theorem private_link {w : World} {old new : Bytes} (hold : old ∉ tempNames) (hnew : new ∉ tempNames) :
    World.StaysPrivate w (w.setFiles (w.files.link old new)) := by
  intro hw n hn i hi m hm
  have hne : n ≠ new := fun heq => hnew (heq ▸ hn)
  have hni : w.files.names n = some i := (Fs.link_names_of_ne w.files hne).symm.trans hi
  by_cases hm' : m = new
  · subst hm'
    have hshared : w.files.names old = some i := (Fs.link_names_self w.files old m).symm.trans hm
    exact absurd (hw n hn i hni old hshared ▸ hn) hold
  · exact hw n hn i hni m ((Fs.link_names_of_ne w.files hm').symm.trans hm)

theorem private_posixLink (E : Env) {oldpath newpath : Bytes} (hold : oldpath ∉ tempNames)
    (hnew : newpath ∉ tempNames) : Keeps World.StaysPrivate (posixLink E oldpath newpath) := by
  refine private_attempt fun w => ?_
  split_ifs
  · exact private_of_same (same_failWith ENOENT) w
  · exact private_of_same (same_failWith EEXIST) w
  · exact private_link hold hnew

theorem private_posixSymlink (E : Env) {target linkpath : Bytes} (htarget : target ∉ tempNames)
    (hlink : linkpath ∉ clientDir) : Keeps World.StaysPrivate (posixSymlink E target linkpath) := by
  refine private_attempt fun w => ?_
  split_ifs with htaken
  · exact private_of_same (same_failWith EEXIST) w
  · refine private_link htarget ?_
    rintro ⟨path, rfl⟩
    exact hlink (getTempPath_mem_clientDir path)
  · exact private_create (Option.not_isSome_iff_eq_none.mp htaken)

theorem staysPrivate (E : Env) (w : World) {c : FuseCall} (hlink : ¬ c.LinksCopy) :
    World.StaysPrivate w (c.effect E w) := by
  cases c with
  | getattr path buf =>
      refine keeps_answer ((private_unary _ _).bind fun reply => ?_) w
      cases reply <;> exact .pure _
  | readlink path => exact keeps_handler (private_onFile _ _) w
  | mknod path mode dev => exact keeps_handler (private_newNode _ _ _) w
  | mkdir path mode => exact keeps_unlessInjected ((private_unary _ _).bind fun _ => .pure _) w
  | unlink path =>
      exact keeps_unlessInjected ((private_unlink E path).bind fun _ =>
        .ite (fun _ => .pure _) fun _ => .pure _) w
  | rmdir path => exact keeps_unlessInjected ((private_unary _ _).bind fun _ => .pure _) w
  | symlink target linkpath =>
      have hnames := not_or.mp hlink
      exact keeps_handler (private_posixSymlink E hnames.1 hnames.2) w
  | rename oldpath newpath =>
      exact keeps_unlessInjected ((private_rename E oldpath newpath).bind fun _ =>
        .ite (fun _ => .pure _) fun _ => .pure _) w
  | link oldpath newpath =>
      have hnames := not_or.mp hlink
      exact keeps_unlessInjected (private_posixLink E hnames.1 hnames.2) w
  | chmod path mode => exact keeps_handler (private_onFile _ _) w
  | chown path owner group => exact keeps_handler (private_onFile _ _) w
  | truncate path length => exact keeps_handler (private_posixTruncate _ _) w
  | openFile path fi => exact private_openHandle E path fi false w
  | read path size offset fi => exact private_read E path size offset fi w
  | write path buf offset fi => exact private_write E path buf offset fi w
  | statfs path => exact keeps_handler (private_onFile _ _) w
  | flush path fi => exact private_flush E path fi w
  | release fi => exact keeps_handler (private_of_same (same_posixCloseChecked _ _)) w
  | fsync fi => exact keeps_handler (private_onFd _ fun _ => .pure _) w
  | setxattr path name value => exact keeps_handler (private_onFile _ _) w
  | getxattr path name size =>
      exact keeps_answer ((private_readAttribute _ _ _).bind fun ret =>
        private_getErrno.bind fun errno => .ite (fun _ => .pure _) fun _ => .pure _) w
  | listxattr path size =>
      exact keeps_answer ((private_readAttribute _ _ _).bind fun ret =>
        private_getErrno.bind fun errno => .ite (fun _ => .pure _) fun _ => .pure _) w
  | removexattr path name => exact keeps_handler (private_onFile _ _) w
  | opendir => exact keeps_unlessInjected (.pure _) w
  | readdir path =>
      refine keeps_answer ((private_unary _ _).bind fun reply => ?_) w
      cases reply with
      | none => exact .pure _
      | some reply => exact .ite (fun _ => .pure _) fun _ => .ite (fun _ => .pure _) fun _ => .pure _
  | releasedir => exact keeps_handler (private_attempt (.pure _)) w
  | fsyncdir path => exact private_of_same (same_unreliableFsyncdir path) w
  | init => exact refl_of World.StaysPrivate w
  | destroy => exact refl_of World.StaysPrivate w
  | access path => exact keeps_unlessInjected ((private_unary _ _).bind fun _ => .pure _) w
  | create path fi => exact private_openHandle E path fi true w
  | ftruncate path length => exact keeps_handler (private_posixTruncate _ _) w
  | fgetattr buf fi =>
      refine .of_cl ?_
      simp only [effect, unreliableFgetattr]
      split_ifs
      · rfl
      · rfl
      · split <;> rfl
  | lock fi => exact keeps_handler (private_onFd _ fun _ => .pure _) w
  | ioctl fi =>
      refine keeps_unlessInjected ((private_onFd _ fun d w => .of_names rfl).bind fun ret =>
        private_getErrno.bind fun errno => .ite (fun _ => .pure _) fun _ => .pure _) w
  | flock fi => exact keeps_handler (private_onFd _ fun _ => .pure _) w
  | fallocate mode offset len fi => exact private_fallocate E mode offset len fi w
  | utimens path ts => exact keeps_unlessInjected (.pure _) w

end FuseCall

/-- FUSE asks for something, something is taken from the queue, or others change the server. -/
inductive Happening where
  | asked (op : MountOp) (E : Env)
  | others (srv : Server)

namespace Happening

def after (w : World) : Happening → World
  | .asked op E => op.effect E w
  | .others srv => { w with srv }

def Step (w : World) (happening : Happening) (t : World) : Prop := t = happening.after w

/-- A link that a temporary copy may come to share its file by. -/
def LinksCopy : Happening → Prop
  | .asked (.call c) _ => c.LinksCopy
  | _ => False

end Happening

end Bnfs
