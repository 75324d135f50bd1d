import Bnfs.ModelClient

/-! The FUSE handlers of `unreliablefs_ops.c`, the table `unreliable_ops` that registers them, and the
queue of put off operations. What `error_inject` returns to a handler is part of the environment. FUSE
hands `fi` to every handler that takes one except that `read` and `write` allow for a null pointer. -/

namespace Bnfs

def ERRNO_NOOP : Int := -999

def ERR_INSERT_TO_QUEUE : Int := -1000

/-- A call on the open file behind a descriptor. -/
def onFd (E : Env) (site : Site) (fd : Int) (call : Descriptor → Prog Int) : Prog Int :=
  attempt E site fun w =>
    match w.cl.fds.get fd with
    | none => failWith EBADF w
    | some d => call d w

/-- A new name for a new file. -/
def newNode (E : Env) (site : Site) (name content : Bytes) (attr : Attr) : Prog Int :=
  attempt E site fun w =>
    match w.files.names name with
    | some _ => failWith EEXIST w
    | none => (0, w.setFiles (w.files.create name ⟨content, E.now site, attr⟩))

/-- `-errno` of a call that returned -1, 0 else. -/
def orErrno (ret : Int) : Prog Int := do
  if ret = -1 then
    let errno ← getErrno
    return -errno
  else return 0

/-- The opening lines of every handler. -/
def unlessInjected (E : Env) (body : Prog Int) : Prog Int :=
  if E.injected = -ERRNO_NOOP then pure 0
  else if E.injected ≠ 0 then pure E.injected
  else body

section Queue

variable (E : Env)

def addToQueue (operation_id : Int) (path : CString) (fi : Option FuseFileInfo) (buf : Bytes)
    (size offset : Nat) : Prog Unit := fun w =>
  ((), w.setQueue (w.cl.op_queue ++ [⟨operation_id, path, fi, buf, size, offset⟩]))

def shuffleQueue : Prog Unit := fun w => ((), w.setQueue (E.shuffle w.cl.op_queue))

/-- `dup(fd)` -/
def posixDup (fd : Int) : Prog Int :=
  onFd E .dup fd fun d => newFd d.ino d.flags

/-- What `executeQueueHead` does with the entry it popped. -/
def executeEntry (headVal : QueueEntry) : Prog Int := do
  if headVal.operation_id = 1 then
    let fileDescriptor ← posixOpen E .queueOpen headVal.path.bytes O_RDWR
    if fileDescriptor = -1 then return -1
    else
      let bytesWritten ← posixPwrite E .queuePwrite fileDescriptor (headVal.buf.take headVal.size)
        headVal.offset
      let _ ← posixClose fileDescriptor
      if bytesWritten = -1 then return -1 else return 0
  else if headVal.operation_id = 2 then
    match headVal.fi with
    | some fi =>
      let fd ← posixDup E fi.fh
      posixClose fd
    | none => return -1
  else return -1

def executeQueueHead : Prog Int := fun w =>
  match w.cl.op_queue with
  | [] => (0, w)
  | headVal :: rest => executeEntry E headVal (w.setQueue rest)

end Queue

/-- A time `utimens` is asked to set: one that is given, the time of the clock, or the one it is. -/
inductive TimeArg where
  | given (time : Timespec)
  | clock
  | kept
  deriving DecidableEq

section Handlers

variable [Sha256] (E : Env)

def unreliableMknod (path : CString) (mode dev : Int) : Prog Int :=
  unlessInjected E do
    let attr := { E.attr .mknod with
      mode := mknodMode E.umask mode, rdev := if isDevice mode then dev else 0 }
    let ret ← newNode E .mknod (getTempPath path) [] attr
    orErrno ret

def unreliableChmod (path : CString) (mode : Int) : Prog Int :=
  unlessInjected E do
    let ret ← onFile E .chmod (getTempPath path) fun file =>
      { file with attr := { file.attr with mode := chmodMode file.attr.mode mode } }
    orErrno ret

def unreliableChown (path : CString) (owner group : Int) : Prog Int :=
  unlessInjected E do
    let ret ← onFile E .chown (getTempPath path) fun file =>
      { file with attr := { file.attr with
        uid := if owner = -1 then file.attr.uid else owner
        gid := if group = -1 then file.attr.gid else group } }
    orErrno ret

def unreliableTruncate (path : CString) (length : Int) : Prog Int :=
  unlessInjected E do
    let ret ← posixTruncate E .truncate (getTempPath path) length
    orErrno ret

def unreliableStatfs (path : CString) : Prog Int :=
  unlessInjected E do
    let ret ← onFile E .statvfs (getTempPath path) id
    orErrno ret

def unreliableSetxattr (path : CString) (name value : Bytes) : Prog Int :=
  unlessInjected E do
    let ret ← onFile E .setxattr (getTempPath path) fun file =>
      { file with attr := { file.attr with
        xattrs := (name, value) :: file.attr.xattrs.filter fun entry => entry.1 ≠ name } }
    orErrno ret

/-- `getxattr` and `listxattr`: the result and the bytes handed over. With size 0 only their number is asked
for. -/
def readAttribute (site : Site) (name : Bytes) (size : Nat) (value : File → Option Bytes) :
    Prog (Int × Bytes) := fun w =>
  match E.fails site, w.files.find name with
  | some e, _ => ((-1, []), { w with errno := e })
  | none, none => ((-1, []), { w with errno := ENOENT })
  | none, some file =>
      match value file with
      | none => ((-1, []), { w with errno := ENODATA })
      | some data =>
          if size = 0 then ((data.length, []), w)
          else if size < data.length then ((-1, []), { w with errno := ERANGE })
          else ((data.length, data), w)

/-- The result, 0 where the call succeeds, and the bytes handed over. -/
def unreliableGetxattr (path : CString) (name : Bytes) (size : Nat) : Prog (Int × Bytes) := do
  if E.injected = -ERRNO_NOOP then return (0, [])
  else if E.injected ≠ 0 then return (E.injected, [])
  else
    let ret ← readAttribute E .getxattr (getTempPath path) size fun file =>
      (file.attr.xattrs.find? fun entry => entry.1 = name).map (·.2)
    let errno ← getErrno
    if ret.1 = -1 then return (-errno, []) else return (0, ret.2)

/-- The result and the bytes handed over. -/
def unreliableListxattr (path : CString) (size : Nat) : Prog (Int × Bytes) := do
  if E.injected = -ERRNO_NOOP then return (0, [])
  else if E.injected ≠ 0 then return (E.injected, [])
  else
    let ret ← readAttribute E .listxattr (getTempPath path) size fun file =>
      some (file.attr.xattrs.flatMap fun entry => entry.1 ++ [0])
    let errno ← getErrno
    if ret.1 = -1 then return (-errno, []) else return ret

def unreliableRemovexattr (path : CString) (name : Bytes) : Prog Int :=
  unlessInjected E do
    let ret ← onFile E .removexattr (getTempPath path) fun file =>
      { file with attr := { file.attr with
        xattrs := file.attr.xattrs.filter fun entry => entry.1 ≠ name } }
    orErrno ret

def unreliableReadlink (path : CString) : Prog Int :=
  unlessInjected E do
    let ret ← onFile E .readlink path.bytes id
    orErrno ret

/-- `symlink(target, linkpath)`. A name stands for what its path leads to, symbolic links followed: the new name
leads to the file of the target. A link whose target is not there is a file that holds the target. -/
def posixSymlink (target linkpath : Bytes) : Prog Int :=
  attempt E .symlink fun w =>
    if (w.files.names linkpath).isSome then failWith EEXIST w
    else if (w.files.names target).isSome then (0, w.setFiles (w.files.link target linkpath))
    else
      let attr := { E.attr .symlink with mode := (S_IFLNK ||| 0o777).toNat }
      (0, w.setFiles (w.files.create linkpath ⟨target, E.now .symlink, attr⟩))

def unreliableSymlink (target linkpath : CString) : Prog Int :=
  unlessInjected E do
    let ret ← posixSymlink E target.bytes linkpath.bytes
    orErrno ret

/-- `link(oldpath, newpath)` -/
def posixLink (oldpath newpath : Bytes) : Prog Int :=
  attempt E .link fun w =>
    if (w.files.names oldpath).isNone then failWith ENOENT w
    else if (w.files.names newpath).isSome then failWith EEXIST w
    else (0, w.setFiles (w.files.link oldpath newpath))

/-- It returns -1 and not the errno. -/
def unreliableLink (oldpath newpath : CString) : Prog Int :=
  unlessInjected E (posixLink E oldpath.bytes newpath.bytes)

def unreliableFtruncate (path : CString) (length : Int) : Prog Int :=
  unlessInjected E do
    let ret ← posixTruncate E .ftruncate path.bytes length
    orErrno ret

/-- `opendir`, `fsync` or `fdatasync`, and `closedir`, which is not reached if the second call fails. -/
def unreliableFsyncdir (path : CString) : Prog Int :=
  unlessInjected E do
    let dirfd ← posixOpen E .fsyncdirOpendir path.bytes O_RDONLY
    if dirfd = -1 then
      let errno ← getErrno
      return -errno
    else
      let ret ← onFd E .fsyncdirFsync dirfd fun _ => pure 0
      if ret = -1 then
        let errno ← getErrno
        return -errno
      else
        let _ ← posixClose dirfd
        return 0

/-- `pread(fd, size, offset)`: the count and the bytes. -/
def posixPread (fd : Int) (size offset : Nat) : Prog (Int × Bytes) := fun w =>
  match E.fails .pread, w.cl.fds.get fd with
  | some e, _ => ((-1, []), { w with errno := e })
  | none, none => ((-1, []), { w with errno := EBADF })
  | none, some d =>
      let data := ((w.files.inode d.ino).content.drop offset).take size
      ((data.length, data), w)

/-- The descriptor of a handle; without one the path is opened as it is. -/
def handleFd (site : Site) (path : CString) (fi : Option FuseFileInfo) (flags : OpenFlags) :
    Prog Int :=
  match fi with
  | some fi => pure fi.fh
  | none => posixOpen E site path.bytes flags

/-- The closing lines of `read` and `write`. -/
def closeUnlessHandle (fd : Int) (fi : Option FuseFileInfo) : Prog Unit := do
  if fi.isNone then
    let _ ← posixClose fd

/-- The result and the bytes read. -/
def unreliableRead (path : CString) (size offset : Nat) (fi : Option FuseFileInfo) :
    Prog (Int × Bytes) := do
  if E.injected = -ERRNO_NOOP then return (0, [])
  else if E.injected ≠ 0 then return (E.injected, [])
  else
    let fd ← handleFd E .readOpen path fi O_RDONLY
    if fd = -1 then
      let errno ← getErrno
      return (-errno, [])
    else
      let ret ← posixPread E fd size offset
      let errno ← getErrno
      closeUnlessHandle fd fi
      if ret.1 = -1 then return (-errno, []) else return ret

/-- `unreliable_write` once nothing was injected. -/
def writeThrough (path : CString) (buf : Bytes) (offset : Nat) (fi : Option FuseFileInfo) :
    Prog Int := do
  let fd ← handleFd E .writeOpen path fi O_WRONLY
  if fd = -1 then
    let errno ← getErrno
    return -errno
  else
    let ret ← posixPwrite E .pwrite fd buf offset
    let errno ← getErrno
    markFileDirty path
    closeUnlessHandle fd fi
    if ret = -1 then return -errno else return ret

def unreliableWrite (path : CString) (buf : Bytes) (offset : Nat) (fi : Option FuseFileInfo) :
    Prog Int := do
  if E.injected = -ERRNO_NOOP then return 0
  else if E.injected = -ERR_INSERT_TO_QUEUE then
    addToQueue 2 path fi buf buf.length offset
    shuffleQueue E
    return buf.length
  else if E.injected ≠ 0 then return E.injected
  else writeThrough E path buf offset fi

/-- `close(fd)` where its result is looked at: Linux frees the descriptor also if the call fails. -/
def posixCloseChecked (site : Site) (fd : Int) : Prog Int := fun w =>
  match w.cl.fds.get fd with
  | none => failWith EBADF w
  | some _ => attempt E site (pure 0) (w.setFds (w.cl.fds.release fd))

def unreliableRelease (fi : FuseFileInfo) : Prog Int :=
  unlessInjected E do
    let ret ← posixCloseChecked E .releaseClose fi.fh
    orErrno ret

/-- `fsync` and `fdatasync` change no file. -/
def unreliableFsync (fi : FuseFileInfo) : Prog Int :=
  unlessInjected E do
    let ret ← onFd E .fsync fi.fh fun _ => pure 0
    orErrno ret

/-- The result and what `buf` holds afterwards. -/
def unreliableFgetattr (buf : Stat) (fi : FuseFileInfo) : Prog (Int × Stat) := fun w =>
  if E.injected = -ERRNO_NOOP then ((0, buf), w)
  else if E.injected ≠ 0 then ((E.injected, buf), w)
  else match E.fails .fstat, w.cl.fds.get fi.fh with
    | some e, _ => ((-e, buf), { w with errno := e })
    | none, none => ((-EBADF, buf), { w with errno := EBADF })
    | none, some d => ((0, statOf d.ino (w.files.inode d.ino)), w)

def unreliableLock (fi : FuseFileInfo) : Prog Int :=
  unlessInjected E do
    let ret ← onFd E .fcntl fi.fh fun _ => pure 0
    orErrno ret

/-- It returns what `ioctl` does. -/
def unreliableIoctl (fi : FuseFileInfo) : Prog Int :=
  unlessInjected E do
    let ret ← onFd E .ioctl fi.fh fun d w =>
      let file := w.files.inode d.ino
      (E.ioctlResult, w.setFiles (w.files.setInode d.ino { file with attr := E.ioctlAttr file.attr }))
    let errno ← getErrno
    if ret = -1 then return -errno else return ret

def unreliableFlock (fi : FuseFileInfo) : Prog Int :=
  unlessInjected E do
    let ret ← onFd E .flock fi.fh fun _ => pure 0
    orErrno ret

def unreliableFallocate (mode : Int) (offset len : Nat) (fi : FuseFileInfo) : Prog Int :=
  unlessInjected E do
    if mode ≠ 0 then return -EOPNOTSUPP
    else
      let ret ← onFd E .fallocate fi.fh fun d w =>
        if d.flags &&& O_ACCMODE = O_RDONLY then failWith EBADF w
        else
          let file := w.files.inode d.ino
          if file.content.length < offset + len then
            (0, w.setFiles (w.files.put d.ino (resize file.content (offset + len))
              (E.now .fallocate)))
          else (0, w)
      orErrno ret

/-- The result and what `buf` holds afterwards. -/
def unreliableGetattr (path : CString) (buf : Stat) : Prog (Int × Stat) := do
  if E.injected = -ERRNO_NOOP then return (0, buf)
  else if E.injected ≠ 0 then return (E.injected, buf)
  else AFSClient.getAttr E path buf

def unreliableMkdir (path : CString) (mode : Int) : Prog Int :=
  unlessInjected E (AFSClient.mkdir E path mode)

def unreliableUnlink (path : CString) : Prog Int :=
  unlessInjected E do
    let ret ← AFSClient.unlink E path
    if ret < 0 then return ret else return 0

def unreliableRmdir (path : CString) : Prog Int :=
  unlessInjected E (AFSClient.rmdir E path)

/-- A negative result is returned with its sign turned. -/
def unreliableRename (oldpath newpath : CString) : Prog Int :=
  unlessInjected E do
    let ret ← AFSClient.rename E oldpath newpath
    if ret < 0 then return -ret else return 0

/-- The result and what `fi` holds afterwards, for `unreliable_open` and `unreliable_create`. -/
def openHandle (path : CString) (fi : FuseFileInfo) (is_create : Bool) :
    Prog (Int × FuseFileInfo) := do
  if E.injected = -ERRNO_NOOP then return (0, fi)
  else if E.injected ≠ 0 then return (E.injected, fi)
  else
    let ret ← AFSClient.Open E path fi is_create
    if ret < 0 then return (ret, fi) else return (0, { fi with fh := ret.toNat })

def unreliableOpen (path : CString) (fi : FuseFileInfo) : Prog (Int × FuseFileInfo) :=
  openHandle E path fi false

def unreliableCreate (path : CString) (fi : FuseFileInfo) : Prog (Int × FuseFileInfo) :=
  openHandle E path fi true

/-- `unreliable_flush` once nothing was injected. The result of the upload is not looked at. -/
def flushThrough (path : CString) (fi : FuseFileInfo) : Prog Int := do
  let fd ← posixDup E fi.fh
  let ret ← posixClose fd
  if ret = -1 then
    let errno ← getErrno
    return -errno
  else
    let _ ← AFSClient.flush E path
    return 0

def unreliableFlush (path : CString) (fi : FuseFileInfo) : Prog Int := do
  if E.injected = -ERRNO_NOOP then return 0
  else if E.injected = -ERR_INSERT_TO_QUEUE then
    addToQueue 1 path (some fi) [] 0 0
    shuffleQueue E
    return 0
  else if E.injected ≠ 0 then return E.injected
  else flushThrough E path fi

/-- The result and the names handed to `filler`. -/
def unreliableReaddir (path : CString) : Prog (Int × List Bytes) := do
  if E.injected = -ERRNO_NOOP then return (0, [])
  else if E.injected ≠ 0 then return (E.injected, [])
  else AFSClient.readDir E path

def unreliableAccess (path : CString) : Prog Int :=
  unlessInjected E (AFSClient.access E path)

/-! ### Handlers without an effect of their own -/

def unreliableOpendir : Prog Int := unlessInjected E (pure 0)

def unreliableReleasedir : Prog Int :=
  unlessInjected E do
    let ret ← attempt E .closedir (pure 0)
    orErrno ret

/-- It is given the two times and does nothing with them. -/
def unreliableUtimens (_path : CString) (_ts : TimeArg × TimeArg) : Prog Int := unlessInjected E (pure 0)

/-- The calls FUSE can make of the table `unreliable_ops`. -/
inductive FuseCall where
  | getattr (path : CString) (buf : Stat)
  | readlink (path : CString)
  | mknod (path : CString) (mode dev : Int)
  | mkdir (path : CString) (mode : Int)
  | unlink (path : CString)
  | rmdir (path : CString)
  | symlink (target linkpath : CString)
  | rename (oldpath newpath : CString)
  | link (oldpath newpath : CString)
  | chmod (path : CString) (mode : Int)
  | chown (path : CString) (owner group : Int)
  | truncate (path : CString) (length : Int)
  | openFile (path : CString) (fi : FuseFileInfo)
  | read (path : CString) (size offset : Nat) (fi : Option FuseFileInfo)
  | write (path : CString) (buf : Bytes) (offset : Nat) (fi : Option FuseFileInfo)
  | statfs (path : CString)
  | flush (path : CString) (fi : FuseFileInfo)
  | release (fi : FuseFileInfo)
  | fsync (fi : FuseFileInfo)
  | setxattr (path : CString) (name value : Bytes)
  | getxattr (path : CString) (name : Bytes) (size : Nat)
  | listxattr (path : CString) (size : Nat)
  | removexattr (path : CString) (name : Bytes)
  | opendir
  | readdir (path : CString)
  | releasedir
  | fsyncdir (path : CString)
  | init
  | destroy
  | access (path : CString)
  | create (path : CString) (fi : FuseFileInfo)
  | ftruncate (path : CString) (length : Int)
  | fgetattr (buf : Stat) (fi : FuseFileInfo)
  | lock (fi : FuseFileInfo)
  | ioctl (fi : FuseFileInfo)
  | flock (fi : FuseFileInfo)
  | fallocate (mode : Int) (offset len : Nat) (fi : FuseFileInfo)
  | utimens (path : CString) (ts : TimeArg × TimeArg)
  deriving DecidableEq

/-- The world after a call. -/
def FuseCall.effect (w : World) : FuseCall → World
  | .getattr path buf => (unreliableGetattr E path buf w).2
  | .readlink path => (unreliableReadlink E path w).2
  | .mknod path mode dev => (unreliableMknod E path mode dev w).2
  | .mkdir path mode => (unreliableMkdir E path mode w).2
  | .unlink path => (unreliableUnlink E path w).2
  | .rmdir path => (unreliableRmdir E path w).2
  | .symlink target linkpath => (unreliableSymlink E target linkpath w).2
  | .rename oldpath newpath => (unreliableRename E oldpath newpath w).2
  | .link oldpath newpath => (unreliableLink E oldpath newpath w).2
  | .chmod path mode => (unreliableChmod E path mode w).2
  | .chown path owner group => (unreliableChown E path owner group w).2
  | .truncate path length => (unreliableTruncate E path length w).2
  | .openFile path fi => (unreliableOpen E path fi w).2
  | .read path size offset fi => (unreliableRead E path size offset fi w).2
  | .write path buf offset fi => (unreliableWrite E path buf offset fi w).2
  | .statfs path => (unreliableStatfs E path w).2
  | .flush path fi => (unreliableFlush E path fi w).2
  | .release fi => (unreliableRelease E fi w).2
  | .fsync fi => (unreliableFsync E fi w).2
  | .setxattr path name value => (unreliableSetxattr E path name value w).2
  | .getxattr path name size => (unreliableGetxattr E path name size w).2
  | .listxattr path size => (unreliableListxattr E path size w).2
  | .removexattr path name => (unreliableRemovexattr E path name w).2
  | .opendir => (unreliableOpendir E w).2
  | .readdir path => (unreliableReaddir E path w).2
  | .releasedir => (unreliableReleasedir E w).2
  | .fsyncdir path => (unreliableFsyncdir E path w).2
  | .init => w
  | .destroy => w
  | .access path => (unreliableAccess E path w).2
  | .create path fi => (unreliableCreate E path fi w).2
  | .ftruncate path length => (unreliableFtruncate E path length w).2
  | .fgetattr buf fi => (unreliableFgetattr E buf fi w).2
  | .lock fi => (unreliableLock E fi w).2
  | .ioctl fi => (unreliableIoctl E fi w).2
  | .flock fi => (unreliableFlock E fi w).2
  | .fallocate mode offset len fi => (unreliableFallocate E mode offset len fi w).2
  | .utimens path ts => (unreliableUtimens E path ts w).2

end Handlers

end Bnfs
