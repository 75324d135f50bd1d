import Bnfs.ModelPosix

/-! One operation of a client against the server: the state of both machines, the environment that
decides how every call of the operation turns out, and the system calls the client makes. A call site
is named after the function of the source it stands in and the call made there. -/

namespace Bnfs

/-- `struct fuse_file_info` -/
structure FuseFileInfo where
  flags : OpenFlags
  fh : Nat
  deriving DecidableEq

/-- An operation put off by `addToQueue`. A null `buf` has no bytes. -/
structure QueueEntry where
  operation_id : Int
  path : CString
  fi : Option FuseFileInfo
  buf : Bytes
  size : Nat
  offset : Nat
  deriving DecidableEq

/-- A client process and the machine it runs on. -/
structure Client where
  files : Files
  fds : Descriptors
  dirty_files : Finset Bytes
  op_queue : List QueueEntry

/-- A version put in place by an upload. -/
structure Install where
  path : Bytes
  content : Bytes
  deriving DecidableEq

/-- The server machine. `installs` is the history of the versions put in place, newest first; no
handler reads it. -/
structure Server where
  files : Files
  installs : List Install

structure World where
  srv : Server
  cl : Client
  errno : Int

/-- The system calls of the source, by function and call. -/
inductive Site where
  | getAttrLstat | readDirOpendir | mkdirMkdir | rmdirRmdir | accessAccess
  | openIfstream | openCreate
  | putFileOpen | putFileWrite (chunk : Nat) | putFileRename | putFileChmod | putFileLstat
  | unlinkUnlink | renameRename
  | isPresentInCache | isPresentInTemp
  | getCheckInTempOpen | getCheckInCache | getCheckInTempCp | getCheckInTempCreate
  | writeFileToCacheOpen | writeFileToCacheWrite | writeFileToTempOpen | writeFileToTempWrite
  | commitToCacheOpen | commitToCacheCp | commitToCacheUtimeTemp | commitToCacheUtimeCache
  | unmarkFileDirtyRemove | deleteFromTempRemove
  | clientOpenCreatTemp | clientOpenCreatCache | clientOpenOpen
  | clientRenameRename | clientFlushIfstream
  | queueOpen | queuePwrite
  | readlink | mknod | symlink | link | chmod | chown | truncate
  | readOpen | pread | writeOpen | pwrite | statvfs | dup | releaseClose | fsync
  | setxattr | getxattr | listxattr | removexattr | closedir | fsyncdirOpendir | fsyncdirFsync
  | ftruncate | fstat | fcntl | ioctl | flock | fallocateOpen | fallocate
  deriving DecidableEq

/-- The calls the server makes. -/
def Site.onServer : Site → Bool
  | .getAttrLstat | .readDirOpendir | .mkdirMkdir | .rmdirRmdir | .accessAccess | .openIfstream | .openCreate
  | .putFileOpen | .putFileWrite _ | .putFileRename | .putFileChmod | .putFileLstat | .unlinkUnlink
  | .renameRename => true
  | _ => false

/-- The RPCs with one request and one reply. -/
inductive Rpc where
  | getAttr | readDir | mkdir | rmdir | access | unlink | rename
  deriving DecidableEq

/-- What happens to an RPC: it is answered, or the call fails before or after the handler ran. -/
inductive RpcFate where
  | answered | lost | unanswered
  deriving DecidableEq

/-- What happens to a stream of messages: whether the handler runs, how many messages arrive before
the stream breaks (all of them if it does not), and whether the status arrives. -/
structure StreamFate where
  reached : Bool
  received : Option Nat
  finished : Bool
  deriving DecidableEq

/-- The messages that arrive. -/
def StreamFate.arrive {α : Type} (fate : StreamFate) (messages : List α) : List α :=
  match fate.received with
  | none => messages
  | some k => messages.take k

/-- How a command fails that `system` runs: it exits with a status other than 0 or cannot be run, or a signal
ends it, before it opens its target or when it has written some of the bytes. -/
inductive CommandFailure where
  | refused
  | killed (written : Option Nat)
  deriving DecidableEq

/-- How one operation turns out. -/
structure Env where
  /-- The errno with which the call at a site fails, for whatever reason; also because the permission bits of the file do
  not let the process in (`Attr.permits`). -/
  fails : Site → Option Int
  fails_pos : ∀ site e, fails site = some e → 0 < e
  /-- How the command at a site fails, if it does. -/
  command : Site → CommandFailure
  /-- The clock when the call at a site changes a file. -/
  now : Site → Timespec
  /-- The attributes of a file the call at a site creates. -/
  attr : Site → Attr
  rpc : Rpc → RpcFate
  /-- The stream of `OpenResp` messages. -/
  download : StreamFate
  /-- The stream of `PutFileReq` messages. -/
  upload : StreamFate
  /-- Whether the n-th `Write` of the upload returns true. -/
  writeOk : Nat → Bool
  /-- The values of `rand()`. -/
  rand : Nat → Nat
  /-- The file creation masks of the client and of the server. -/
  umask : BitVec 32
  serverUmask : BitVec 32
  /-- The entries `readdir` yields on the server. -/
  entries : List Bytes
  /-- What the server's `stbuf` holds before it is filled. -/
  serverStack : Stat
  /-- What the client's `getAttrData` holds before it is filled. -/
  clientStack : Stat
  /-- How many bytes a `pwrite` takes, if not all. -/
  taken : Option Nat
  /-- Whether `filler` takes the n-th entry of a directory. -/
  filler : Nat → Bool
  /-- What `ioctl` makes of the attributes of the file, and what it returns if it succeeds. -/
  ioctlAttr : Attr → Attr
  ioctlResult : Nat
  /-- The value of `error_inject`. -/
  injected : Int
  /-- The order `std::shuffle` gives the queue. -/
  shuffle : List QueueEntry → List QueueEntry
  shuffle_perm : ∀ queue, (shuffle queue).Perm queue

/-- Every system call succeeds and every RPC is answered in full. -/
structure Env.Reliable (E : Env) : Prop where
  calls : ∀ site, E.fails site = none
  rpcs : ∀ r, E.rpc r = .answered
  downloads : E.download = ⟨true, none, true⟩
  uploads : E.upload = ⟨true, none, true⟩
  writes : ∀ n, E.writeOk n = true
  whole : E.taken = none
  plain : E.injected = 0

/-- An operation at one second of the clock in which nothing goes wrong. -/
def Env.smooth (sec : Int) : Env where
  fails _ := none
  fails_pos _ _ h := nomatch h
  command _ := .refused
  now _ := ⟨sec, 0⟩
  attr _ := default
  rpc _ := .answered
  download := ⟨true, none, true⟩
  upload := ⟨true, none, true⟩
  writeOk _ := true
  rand _ := 0
  umask := 0o022
  serverUmask := 0o022
  entries := []
  serverStack := default
  clientStack := default
  taken := none
  filler _ := true
  ioctlAttr := id
  ioctlResult := 0
  injected := 0
  shuffle := id
  shuffle_perm queue := .refl queue

theorem Env.smooth_reliable (sec : Int) : (Env.smooth sec).Reliable :=
  ⟨fun _ => rfl, fun _ => rfl, rfl, rfl, fun _ => rfl, rfl, rfl⟩

abbrev Prog := StateM World

@[simp] theorem bind_run {α β : Type} (x : Prog α) (f : α → Prog β) (w : World) :
    (x >>= f) w = f (x w).1 (x w).2 := rfl

@[simp] theorem pure_run {α : Type} (a : α) (w : World) : (pure a : Prog α) w = (a, w) := rfl

namespace World

def files (w : World) : Files := w.cl.files

def setFiles (w : World) (files : Files) : World := { w with cl := { w.cl with files } }

def setFds (w : World) (fds : Descriptors) : World := { w with cl := { w.cl with fds } }

def setDirty (w : World) (dirty_files : Finset Bytes) : World :=
  { w with cl := { w.cl with dirty_files } }

def setQueue (w : World) (op_queue : List QueueEntry) : World :=
  { w with cl := { w.cl with op_queue } }

@[simp] theorem setFiles_files (w : World) (files : Files) : (w.setFiles files).files = files := rfl

@[simp] theorem setFiles_dirty (w : World) (files : Files) :
    (w.setFiles files).cl.dirty_files = w.cl.dirty_files := rfl

@[simp] theorem setFds_files (w : World) (fds : Descriptors) : (w.setFds fds).files = w.files := rfl

@[simp] theorem setDirty_files (w : World) (dirty : Finset Bytes) :
    (w.setDirty dirty).files = w.files := rfl

@[simp] theorem setDirty_dirty (w : World) (dirty : Finset Bytes) :
    (w.setDirty dirty).cl.dirty_files = dirty := rfl

end World

/-- A system call returning -1 with an errno. -/
def failWith (e : Int) : Prog Int := fun w => (-1, { w with errno := e })

/-- A system call at a site: it fails if the environment says so. -/
def attempt (E : Env) (site : Site) (call : Prog Int) : Prog Int :=
  match E.fails site with
  | some e => failWith e
  | none => call

/-- Give a descriptor for an inode. -/
def newFd (ino : Nat) (flags : OpenFlags) : Prog Int := fun w =>
  (w.cl.fds.lowestFree, w.setFds (w.cl.fds.insert ⟨ino, flags⟩))

/-- `open(name, flags)`. That the permission bits refuse it is one of the failures of the site. -/
def posixOpen (E : Env) (site : Site) (name : Bytes) (flags : OpenFlags) : Prog Int :=
  attempt E site fun w =>
    match w.files.names name with
    | none =>
        if flags.has O_CREAT then
          newFd w.files.next flags
            (w.setFiles (w.files.create name ⟨[], E.now site, E.attr site⟩))
        else failWith ENOENT w
    | some ino =>
        if flags.has O_CREAT && flags.has O_EXCL then failWith EEXIST w
        else if flags.has O_TRUNC then newFd ino flags (w.setFiles (w.files.put ino [] (E.now site)))
        else newFd ino flags w

/-- `close(fd)` -/
def posixClose (fd : Int) : Prog Int := fun w =>
  match w.cl.fds.get fd with
  | none => failWith EBADF w
  | some _ => (0, w.setFds (w.cl.fds.release fd))

/-- `creat(name, 00777)` -/
def posixCreat (E : Env) (site : Site) (name : Bytes) : Prog Int :=
  posixOpen E site name (O_WRONLY ||| O_CREAT ||| O_TRUNC)

/-- `remove(name)` -/
def posixRemove (E : Env) (site : Site) (name : Bytes) : Prog Int :=
  attempt E site fun w =>
    match w.files.names name with
    | none => failWith ENOENT w
    | some _ => (0, w.setFiles (w.files.remove name))

/-- `rename(old, new)` -/
def posixRename (E : Env) (site : Site) (old new : Bytes) : Prog Int :=
  attempt E site fun w =>
    match w.files.names old with
    | none => failWith ENOENT w
    | some _ => (0, w.setFiles (w.files.rename old new))

/-- Change the file a name leads to. -/
def onFile (E : Env) (site : Site) (name : Bytes) (change : File → File) : Prog Int :=
  attempt E site fun w =>
    match w.files.names name with
    | none => failWith ENOENT w
    | some ino => (0, w.setFiles (w.files.setInode ino (change (w.files.inode ino))))

/-- `utime(name, {t, t})` -/
def posixUtime (E : Env) (site : Site) (name : Bytes) (epoch_time : Int) : Prog Int :=
  onFile E site name fun file =>
    { file with mtime := ⟨epoch_time, 0⟩, attr := { file.attr with atim := ⟨epoch_time, 0⟩ } }

/-- `truncate(name, length)` -/
def posixTruncate (E : Env) (site : Site) (name : Bytes) (length : Int) : Prog Int :=
  if length < 0 then failWith EINVAL
  else onFile E site name fun file =>
    { file with content := resize file.content length.toNat, mtime := E.now site }

/-- The bytes `pwrite` takes. -/
def Env.takes (E : Env) (data : Bytes) : Bytes :=
  match E.taken with
  | none => data
  | some k => data.take k

/-- The bytes of a file after `pwrite` took `data` through a descriptor; one opened for appending
writes at the end whatever the offset. -/
def written (flags : OpenFlags) (content : Bytes) (offset : Nat) (data : Bytes) : Bytes :=
  if flags.has O_APPEND then content ++ data else splice content offset data

/-- `pwrite(fd, data, offset)` -/
def posixPwrite (E : Env) (site : Site) (fd : Int) (data : Bytes) (offset : Nat) : Prog Int :=
  attempt E site fun w =>
    match w.cl.fds.get fd with
    | none => failWith EBADF w
    | some d =>
        if d.flags &&& O_ACCMODE = O_RDONLY then failWith EBADF w
        else if E.takes data = [] then (0, w)
        else ((E.takes data).length, w.setFiles (w.files.put d.ino
          (written d.flags (w.files.inode d.ino).content offset (E.takes data)) (E.now site)))

/-- `ofstream file(name, ios::trunc); file.write(data); file.close()`: false if the file could not be
opened. A write that fails leaves the file empty and is not noticed. -/
def ofstreamSave (E : Env) (openSite writeSite : Site) (name data : Bytes) : Prog Bool := fun w =>
  match E.fails openSite with
  | some e => (false, { w with errno := e })
  | none =>
      let data := if (E.fails writeSite).isSome then [] else data
      let now := if data = [] then E.now openSite else E.now writeSite
      (true, w.setFiles (w.files.overwrite name data now (E.attr openSite)))

/-- What `system` returns: that the command exited, with which status, or that a signal ended it. -/
inductive WaitStatus where
  | exited (status : Nat)
  | signaled
  deriving DecidableEq

/-- `WIFEXITED(status) && WEXITSTATUS(status) != 0`. That `system` cannot run the command, and returns -1, is
treated alike by the source and is an exit status here. -/
def WaitStatus.isFailure : WaitStatus → Bool
  | .exited status => status ≠ 0
  | .signaled => false

/-- `cp` as far as it copies: it writes a part of the bytes. It does not copy a file onto itself. -/
def copyFile (E : Env) (site : Site) (source target : Bytes) (part : Bytes → Bytes) : Prog WaitStatus := fun w =>
  match w.files.find source with
  | none => (.exited 1, w)
  | some file =>
      if w.files.names source = w.files.names target then (.exited 1, w)
      else (.exited 0, w.setFiles (w.files.overwrite target (part file.content) (E.now site) (E.attr site)))

/-- `system("cp -f from to")` -/
def systemCp (E : Env) (site : Site) (source target : Bytes) : Prog WaitStatus :=
  match E.fails site, E.command site with
  | none, _ => copyFile E site source target id
  | some _, .refused => pure (.exited 1)
  | some _, .killed none => pure .signaled
  | some _, .killed (some written) => do
      let _ ← copyFile E site source target (·.take written)
      return .signaled

/-- An RPC with one request: the reply, if the call ends with an OK status. -/
def unary {Reply : Type} (E : Env) (r : Rpc) (handler : Server → Option Reply × Server) :
    Prog (Option Reply) := fun w =>
  match E.rpc r with
  | .answered => ((handler w.srv).1, { w with srv := (handler w.srv).2 })
  | .unanswered => (none, { w with srv := (handler w.srv).2 })
  | .lost => (none, w)

end Bnfs
