import Bnfs.ModelFuse

/-! The error injection of `unreliablefs_errinj.c` with the errno tables of Linux, and what each call of the
table `unreliable_ops` returns. Regular expressions are those of the C library and enter as a parameter, as
does what is read where a table ends. -/

namespace Bnfs

def EPERM : Int := 1
def ESRCH : Int := 3
def EINTR : Int := 4
def ENXIO : Int := 6
def E2BIG : Int := 7
def EAGAIN : Int := 11
def EWOULDBLOCK : Int := 11
def EACCES : Int := 13
def EFAULT : Int := 14
def EBUSY : Int := 16
def EXDEV : Int := 18
def ENODEV : Int := 19
def ENOTDIR : Int := 20
def EISDIR : Int := 21
def ENFILE : Int := 23
def EMFILE : Int := 24
def ENOTTY : Int := 25
def ETXTBSY : Int := 26
def EFBIG : Int := 27
def ENOSPC : Int := 28
def ESPIPE : Int := 29
def EROFS : Int := 30
def EMLINK : Int := 31
def EPIPE : Int := 32
def EDEADLK : Int := 35
def ENAMETOOLONG : Int := 36
def ENOLCK : Int := 37
def ENOSYS : Int := 38
def ELOOP : Int := 40
def EOVERFLOW : Int := 75
def EDESTADDRREQ : Int := 89
def ENOTSUP : Int := 95
def EDQUOT : Int := 122

/-- `fuse_op` -/
inductive FuseOp where
  | getattr | readlink | mknod | mkdir | unlink | rmdir | symlink | rename | link | chmod | chown
  | truncate | openFile | read | write | statfs | flush | release | fsync
  | setxattr | getxattr | listxattr | removexattr
  | opendir | readdir | releasedir | fsyncdir | access | creat | ftruncate | fgetattr | lock
  | ioctl | flock | fallocate | utimens | lstat
  deriving DecidableEq

namespace FuseOp

def fuseOpName : FuseOp → Bytes
  | .getattr => ascii "getattr"
  | .readlink => ascii "readlink"
  | .mknod => ascii "mknod"
  | .mkdir => ascii "mkdir"
  | .unlink => ascii "unlink"
  | .rmdir => ascii "rmdir"
  | .symlink => ascii "symlink"
  | .rename => ascii "rename"
  | .link => ascii "link"
  | .chmod => ascii "chmod"
  | .chown => ascii "chown"
  | .truncate => ascii "truncate"
  | .openFile => ascii "open"
  | .read => ascii "read"
  | .write => ascii "write"
  | .statfs => ascii "statfs"
  | .flush => ascii "flush"
  | .release => ascii "release"
  | .fsync => ascii "fsync"
  | .setxattr => ascii "setxattr"
  | .getxattr => ascii "getxattr"
  | .listxattr => ascii "listxattr"
  | .removexattr => ascii "removexattr"
  | .opendir => ascii "opendir"
  | .readdir => ascii "readdir"
  | .releasedir => ascii "releasedir"
  | .fsyncdir => ascii "fsyncdir"
  | .access => ascii "access"
  | .creat => ascii "creat"
  | .ftruncate => ascii "ftruncate"
  | .fgetattr => ascii "fgetattr"
  | .lock => ascii "lock"
  | .ioctl => ascii "ioctl"
  | .flock => ascii "flock"
  | .fallocate => ascii "fallocate"
  | .utimens => ascii "utimens"
  | .lstat => ascii "lstat"

def errnoAccess : List Int :=
  [EACCES, ELOOP, ENAMETOOLONG, ENOENT, ENOTDIR, EROFS, EFAULT, EINVAL, EIO, ENOMEM, ETXTBSY]

def errnoChmod : List Int :=
  [EACCES, EFAULT, EIO, ELOOP, ENAMETOOLONG, ENOENT, ENOMEM, ENOTDIR, EPERM, EROFS]

def errnoCreat : List Int :=
  [EACCES, EDQUOT, EEXIST, EFAULT, EFBIG, EINTR, EINVAL, EISDIR, ELOOP, EMFILE, ENAMETOOLONG, ENFILE,
    ENODEV, ENOENT, ENOMEM, ENOSPC, ENOTDIR, ENXIO, EOPNOTSUPP, EOVERFLOW, EPERM, EROFS, ETXTBSY,
    EWOULDBLOCK]

def errnoFtruncate : List Int :=
  [EACCES, EBADF, EFAULT, EFBIG, EINTR, EINVAL, EIO, EISDIR, ELOOP, ENAMETOOLONG, ENOTDIR, EPERM, EROFS,
    ETXTBSY]

def errnoLink : List Int :=
  [EACCES, EDQUOT, EEXIST, EFAULT, EIO, ELOOP, EMLINK, ENAMETOOLONG, ENOENT, ENOMEM, ENOSPC, ENOTDIR,
    EPERM, EROFS, EXDEV]

def errnoMkdir : List Int :=
  [EACCES, EDQUOT, EEXIST, EFAULT, EINVAL, ELOOP, EMLINK, ENAMETOOLONG, ENOENT, ENOMEM, ENOSPC, ENOTDIR,
    EPERM, EROFS]

def errnoMknod : List Int :=
  [EACCES, EDQUOT, EEXIST, EFAULT, EINVAL, ELOOP, ENAMETOOLONG, ENOENT, ENOMEM, ENOSPC, ENOTDIR, EPERM,
    EROFS]

def errnoOpendir : List Int := [EACCES, EBADF, EMFILE, ENOENT, ENOMEM, ENOTDIR]

def errnoReaddir : List Int := [EBADF]

def errnoRead : List Int := [EAGAIN, EWOULDBLOCK, EBADF, EFAULT, EINTR, EINVAL, EIO, EISDIR]

def errnoReadlink : List Int :=
  [EACCES, EFAULT, EINVAL, EIO, ELOOP, ENAMETOOLONG, ENOENT, ENOMEM, ENOTDIR]

def errnoRename : List Int :=
  [EACCES, EBUSY, EDQUOT, EEXIST, EFAULT, EINVAL, EISDIR, ELOOP, EMLINK, ENAMETOOLONG, ENOENT, ENOMEM,
    ENOSPC, ENOTDIR, ENOTEMPTY, EPERM, EROFS]

def errnoRmdir : List Int :=
  [EACCES, EBUSY, EFAULT, EINVAL, ELOOP, ENAMETOOLONG, ENOENT, ENOMEM, ENOTDIR, ENOTEMPTY, EPERM, EROFS]

def errnoSymlink : List Int :=
  [EACCES, EDQUOT, EEXIST, EFAULT, EIO, ELOOP, ENAMETOOLONG, ENOENT, ENOMEM, ENOSPC, ENOTDIR, EPERM,
    EROFS]

def errnoTruncate : List Int :=
  [EACCES, EFAULT, EFBIG, EINTR, EINVAL, EIO, EISDIR, ELOOP, ENAMETOOLONG, ENOENT, ENOTDIR, EPERM, EROFS,
    ETXTBSY]

def errnoUnlink : List Int :=
  [EACCES, EBUSY, EFAULT, EIO, EISDIR, ELOOP, ENAMETOOLONG, ENOENT, ENOMEM, ENOTDIR]

def errnoWrite : List Int :=
  [EAGAIN, EWOULDBLOCK, EBADF, EDESTADDRREQ, EDQUOT, EFAULT, EFBIG, EINTR, EINVAL, ENOSPC, EPERM, EPIPE]

def errnoLstat : List Int :=
  [EACCES, EBADF, EFAULT, EINVAL, ELOOP, ENAMETOOLONG, ENOENT, ENOMEM, ENOTDIR, EOVERFLOW]

def errnoStatfs : List Int :=
  [EACCES, EFAULT, EINTR, EIO, ELOOP, ENAMETOOLONG, ENOENT, ENOMEM, ENOSYS, ENOTDIR, EOVERFLOW]

def errnoClose : List Int := [EBADF, EDQUOT, EINTR, EIO, ENOSPC]

def errnoUtimensat : List Int :=
  [EACCES, EBADF, EFAULT, EINVAL, ELOOP, ENAMETOOLONG, ENOENT, ENOTDIR, EPERM, EROFS, ESRCH]

def errnoFsync : List Int := [EBADF, EDQUOT, EINVAL, EIO, ENOSPC, EROFS]

/-- The errors `stat` can end with, which the four tables below add. -/
def errnoStat : List Int :=
  [EACCES, EBADF, EFAULT, ELOOP, ENAMETOOLONG, ENOENT, ENOMEM, ENOTDIR, EOVERFLOW]

def errnoSetxattr : List Int :=
  [EDQUOT, EEXIST, ENODATA, ENOSPC, ENOTSUP, EPERM, ERANGE] ++ errnoStat

def errnoGetxattr : List Int := [E2BIG, ENODATA, ENOTSUP, ERANGE] ++ errnoStat

def errnoListxattr : List Int := [E2BIG, ENOTSUP, ERANGE] ++ errnoStat

def errnoRemovexattr : List Int := [ENODATA, ENOTSUP] ++ errnoStat

def errnoFlock : List Int := [EBADF, EINTR, EINVAL, ENOLCK, EWOULDBLOCK]

def errnoFallocate : List Int :=
  [EBADF, EFBIG, EINTR, EINVAL, EIO, ENODEV, ENOSPC, ENOSYS, EOPNOTSUPP, EPERM, ESPIPE, ETXTBSY]

def errnoIoctl : List Int := [EBADF, EFAULT, EINVAL, ENOTTY]

def errnoFcntl : List Int :=
  [EACCES, EAGAIN, EBADF, EBUSY, EDEADLK, EFAULT, EINTR, EINVAL, EMFILE, ENOLCK, ENOTDIR, EPERM]

/-- The table `op_random_errno` draws from. -/
def errnos : FuseOp → List Int
  | .lstat | .getattr | .fgetattr => errnoLstat
  | .readlink => errnoReadlink
  | .mknod => errnoMknod
  | .mkdir => errnoMkdir
  | .unlink => errnoUnlink
  | .rmdir => errnoRmdir
  | .symlink => errnoSymlink
  | .rename => errnoRename
  | .link => errnoLink
  | .chmod | .chown => errnoChmod
  | .truncate => errnoTruncate
  | .openFile | .creat => errnoCreat
  | .read => errnoRead
  | .write => errnoWrite
  | .statfs => errnoStatfs
  | .flush | .release | .releasedir => errnoClose
  | .fsync | .fsyncdir => errnoFsync
  | .setxattr => errnoSetxattr
  | .getxattr => errnoGetxattr
  | .listxattr => errnoListxattr
  | .removexattr => errnoRemovexattr
  | .opendir => errnoOpendir
  | .readdir => errnoReaddir
  | .access => errnoAccess
  | .ftruncate => errnoFtruncate
  | .lock => errnoFcntl
  | .ioctl => errnoIoctl
  | .flock => errnoFlock
  | .fallocate => errnoFallocate
  | .utimens => errnoUtimensat

/-- No table lists a number that is not an errno. -/
theorem errnos_pos (op : FuseOp) : ∀ e ∈ op.errnos, 0 < e := by
  cases op <;> decide

end FuseOp

/-- What `rand()` returns at the k-th entry of the configuration, for its probability and for the errno it
picks, and what stands in memory after each errno table. -/
structure Draws where
  chance : Nat → Nat
  choice : Nat → Nat
  past : FuseOp → Int

def randRange (rand min_n max_n : Nat) : Nat := rand % (max_n - min_n + 1) + min_n

/-- `RANDOM_ELEMENT` of the table of the operation. The index may be the length of the table. -/
def opRandomErrno (past : FuseOp → Int) (rand : Nat) (op : FuseOp) : Int :=
  op.errnos.getD (randRange rand 0 op.errnos.length) (past op)

/-- The errnos are taken from the table of the operation. -/
def Draws.InTable (draws : Draws) (op : FuseOp) : Prop :=
  ∀ k, randRange (draws.choice k) 0 op.errnos.length < op.errnos.length

theorem opRandomErrno_mem {draws : Draws} {op : FuseOp} (h : draws.InTable op) (k : Nat) :
    opRandomErrno draws.past (draws.choice k) op ∈ op.errnos := by
  rw [opRandomErrno, List.getD_eq_getElem?_getD, List.getElem?_eq_getElem (h k)]
  exact List.getElem_mem _

/-- `errinj_type` -/
inductive ErrinjType where
  | errno | killCaller | noop | slowdown | aliceReorder | aliceDelay
  deriving DecidableEq

/-- The `rc` an entry that triggered leaves. A signal to the caller and a sleep leave it as it is. -/
def ErrinjType.apply (type : ErrinjType) (errno rc : Int) : Int :=
  match type with
  | .noop => -ERRNO_NOOP
  | .killCaller | .slowdown => rc
  | .errno => -errno
  | .aliceReorder | .aliceDelay => -ERR_INSERT_TO_QUEUE

/-- An entry of this type sets the `rc`. -/
def ErrinjType.sets : ErrinjType → Bool
  | .killCaller | .slowdown => false
  | _ => true

theorem ErrinjType.apply_of_sets {type : ErrinjType} (h : type.sets = true) (errno rc rc' : Int) :
    type.apply errno rc = type.apply errno rc' := by
  cases type <;> first | rfl | cases h

theorem ErrinjType.apply_of_not_sets {type : ErrinjType} (h : type.sets = false) (errno rc : Int) :
    type.apply errno rc = rc := by
  cases type <;> first | rfl | cases h

/-- `struct errinj_conf`, without the two fields that nothing uses. -/
structure ErrinjConf where
  op_regexp : Option Bytes
  path_regexp : Option Bytes
  probability : Nat
  duration : Nat
  type : ErrinjType
  deriving DecidableEq

/-- What error injection reads of `struct unreliablefs_config`. -/
structure UnreliablefsConfig where
  errors : Option (List ErrinjConf)
  configPath : Bytes
  deriving DecidableEq

/-- `regcomp` with `REG_ICASE | REG_EXTENDED`, and `regexec` if it returned 0: the result of the last of
them that ran. -/
class PosixRegex where
  exec : Bytes → Bytes → Int

def MIN_PROBABLITY : Nat := 0

def MAX_PROBABLITY : Nat := 100

section Inject

variable [PosixRegex]

def isRegexMatched (regex : Option Bytes) (string : Bytes) : Int :=
  match regex with
  | none => 0
  | some regex => PosixRegex.exec regex string

/-- The entry is neither skipped for its probability nor for one of its expressions. -/
def ErrinjConf.triggered (err : ErrinjConf) (chance : Nat) (path : Bytes) (op : FuseOp) : Bool :=
  randRange chance MIN_PROBABLITY MAX_PROBABLITY ≤ err.probability &&
    isRegexMatched err.path_regexp path == 0 && isRegexMatched err.op_regexp op.fuseOpName == 0

/-- The loop over the entries, from the k-th one on. -/
def injectAll (draws : Draws) (path : Bytes) (op : FuseOp) : Nat → List ErrinjConf → Int → Int
  | _, [], rc => rc
  | k, err :: rest, rc => injectAll draws path op (k + 1) rest
      (if err.triggered (draws.chance k) path op then
        err.type.apply (opRandomErrno draws.past (draws.choice k) op) rc
      else rc)

/-- The result, and the configuration as it is afterwards. A call on the configuration file itself reads it
anew; `reread` is what `config_init` makes of it. -/
def errorInject (reread : Option (List ErrinjConf)) (conf : UnreliablefsConfig) (draws : Draws)
    (path : Bytes) (operation : FuseOp) : Int × UnreliablefsConfig :=
  if path = conf.configPath then (0, { conf with errors := reread })
  else match conf.errors with
    | none => (0, conf)
    | some errors => (injectAll draws path operation 0 errors 0, conf)

/-- The last entry that triggers and sets the `rc`, with its number. -/
def decisive (conf : UnreliablefsConfig) (draws : Draws) (path : Bytes) (operation : FuseOp) :
    Option (ErrinjConf × Nat) :=
  if path = conf.configPath then none
  else conf.errors.bind fun errors => (errors.zipIdx.filter fun entry =>
    entry.1.triggered (draws.chance entry.2) path operation && entry.1.type.sets).getLast?

theorem decisive_sets {conf : UnreliablefsConfig} {draws : Draws} {path : Bytes} {operation : FuseOp}
    {entry : ErrinjConf × Nat} (h : decisive conf draws path operation = some entry) :
    entry.1.type.sets = true := by
  unfold decisive at h
  split_ifs at h
  obtain ⟨errors, _, hlast⟩ := Option.bind_eq_some_iff.mp h
  have hkept := (List.mem_filter.mp (List.mem_of_getLast? hlast)).2
  exact (Bool.and_eq_true_iff.mp hkept).2

theorem injectAll_eq (draws : Draws) (path : Bytes) (op : FuseOp) (errors : List ErrinjConf) (k : Nat)
    (rc : Int) : injectAll draws path op k errors rc =
      match ((errors.zipIdx k).filter fun entry =>
        entry.1.triggered (draws.chance entry.2) path op && entry.1.type.sets).getLast? with
      | none => rc
      | some entry => entry.1.type.apply (opRandomErrno draws.past (draws.choice entry.2) op) rc := by
  induction errors generalizing k rc with
  | nil => rfl
  | cons err rest ih =>
      rw [injectAll, ih, List.zipIdx_cons, List.filter_cons]
      by_cases htriggered : err.triggered (draws.chance k) path op = true
      · cases hsets : err.type.sets with
        | false =>
            simp only [htriggered, Bool.and_false, Bool.false_eq_true, if_false, if_true,
              ErrinjType.apply_of_not_sets hsets]
        | true =>
            simp only [htriggered, Bool.and_true, if_true, List.getLast?_cons]
            cases hlast : ((rest.zipIdx (k + 1)).filter fun entry =>
                entry.1.triggered (draws.chance entry.2) path op && entry.1.type.sets).getLast? with
            | none => rfl
            | some entry =>
                have hmem := (List.mem_filter.mp (List.mem_of_getLast? hlast)).2
                exact ErrinjType.apply_of_sets (Bool.and_eq_true_iff.mp hmem).2 _ _ _
      · have hnot : ¬ (err.triggered (draws.chance k) path op && err.type.sets) = true :=
          fun h => htriggered (Bool.and_eq_true_iff.mp h).1
        simp only [if_neg htriggered, if_neg hnot]

theorem errorInject_eq (reread : Option (List ErrinjConf)) (conf : UnreliablefsConfig) (draws : Draws)
    (path : Bytes) (operation : FuseOp) : (errorInject reread conf draws path operation).1 =
      match decisive conf draws path operation with
      | none => 0
      | some entry =>
          entry.1.type.apply (opRandomErrno draws.past (draws.choice entry.2) operation) 0 := by
  unfold errorInject decisive
  by_cases hpath : path = conf.configPath
  · rw [if_pos hpath, if_pos hpath]
  · rw [if_neg hpath, if_neg hpath]
    cases conf.errors with
    | none => rfl
    | some errors => exact injectAll_eq draws path operation errors 0 0

end Inject

namespace FuseCall

/-- The operation a handler gives to `error_inject`. -/
def op : FuseCall → Option FuseOp
  | .getattr .. => some .getattr
  | .readlink .. => some .readlink
  | .mknod .. => some .mknod
  | .mkdir .. => some .mkdir
  | .unlink .. => some .unlink
  | .rmdir .. => some .rmdir
  | .symlink .. => some .symlink
  | .rename .. => some .rename
  | .link .. => some .link
  | .chmod .. => some .chmod
  | .chown .. => some .chown
  | .truncate .. => some .truncate
  | .openFile .. => some .openFile
  | .read .. => some .read
  | .write .. => some .write
  | .statfs .. => some .statfs
  | .flush .. => some .flush
  | .release .. => some .release
  | .fsync .. => some .fsync
  | .setxattr .. => some .setxattr
  | .getxattr .. => some .getxattr
  | .listxattr .. => some .listxattr
  | .removexattr .. => some .removexattr
  | .opendir => some .opendir
  | .readdir .. => some .readdir
  | .releasedir => some .releasedir
  | .fsyncdir .. => some .fsyncdir
  | .init | .destroy => none
  | .access .. => some .access
  | .create .. => some .creat
  | .ftruncate .. => some .ftruncate
  | .fgetattr .. => some .fgetattr
  | .lock .. => some .lock
  | .ioctl .. => some .ioctl
  | .flock .. => some .flock
  | .fallocate .. => some .fallocate
  | .utimens .. => some .utimens

variable [Sha256] (E : Env) (w : World)

/-- What a call returns. `init` returns a null pointer, and `destroy` nothing. -/
def result : FuseCall → Int
  | .getattr path buf => (unreliableGetattr E path buf w).1.1
  | .readlink path => (unreliableReadlink E path w).1
  | .mknod path mode dev => (unreliableMknod E path mode dev w).1
  | .mkdir path mode => (unreliableMkdir E path mode w).1
  | .unlink path => (unreliableUnlink E path w).1
  | .rmdir path => (unreliableRmdir E path w).1
  | .symlink target linkpath => (unreliableSymlink E target linkpath w).1
  | .rename oldpath newpath => (unreliableRename E oldpath newpath w).1
  | .link oldpath newpath => (unreliableLink E oldpath newpath w).1
  | .chmod path mode => (unreliableChmod E path mode w).1
  | .chown path owner group => (unreliableChown E path owner group w).1
  | .truncate path length => (unreliableTruncate E path length w).1
  | .openFile path fi => (unreliableOpen E path fi w).1.1
  | .read path size offset fi => (unreliableRead E path size offset fi w).1.1
  | .write path buf offset fi => (unreliableWrite E path buf offset fi w).1
  | .statfs path => (unreliableStatfs E path w).1
  | .flush path fi => (unreliableFlush E path fi w).1
  | .release fi => (unreliableRelease E fi w).1
  | .fsync fi => (unreliableFsync E fi w).1
  | .setxattr path name value => (unreliableSetxattr E path name value w).1
  | .getxattr path name size => (unreliableGetxattr E path name size w).1.1
  | .listxattr path size => (unreliableListxattr E path size w).1.1
  | .removexattr path name => (unreliableRemovexattr E path name w).1
  | .opendir => (unreliableOpendir E w).1
  | .readdir path => (unreliableReaddir E path w).1.1
  | .releasedir => (unreliableReleasedir E w).1
  | .fsyncdir path => (unreliableFsyncdir E path w).1
  | .init => 0
  | .destroy => 0
  | .access path => (unreliableAccess E path w).1
  | .create path fi => (unreliableCreate E path fi w).1.1
  | .ftruncate path length => (unreliableFtruncate E path length w).1
  | .fgetattr buf fi => (unreliableFgetattr E buf fi w).1.1
  | .lock fi => (unreliableLock E fi w).1
  | .ioctl fi => (unreliableIoctl E fi w).1
  | .flock fi => (unreliableFlock E fi w).1
  | .fallocate mode offset len fi => (unreliableFallocate E mode offset len fi w).1
  | .utimens path ts => (unreliableUtimens E path ts w).1

end FuseCall

end Bnfs
