import Bnfs.ModelCache
import Bnfs.ModelServer

/-! The client operations of `afs_client.cc` that go through the server. `Open`, `Flush`, `Rename` and
`Unlink` keep the names of the source; `Open` also its capital, since `open` is a word of Lean. -/

namespace Bnfs

namespace AFSClient

variable [Sha256] (E : Env)

/-- Conversion to `mode_t`. -/
def toUInt32 (x : Int) : Int := x % 2 ^ 32

/-- The fields the client sets in the caller's `stbuf`. -/
def fillStat (stbuf : Stat) (reply : StatResponse) : Stat :=
  { stbuf with
    st_dev := reply.dev
    st_ino := reply.ino
    st_mode := toUInt32 reply.mode
    st_nlink := reply.nlink
    st_rdev := reply.rdev
    st_size := toInt64 reply.size
    st_blksize := toInt64 reply.blksize
    st_blocks := toInt64 reply.blocks
    st_atim := { stbuf.st_atim with tv_sec := toInt64 reply.atime }
    st_mtim := { stbuf.st_mtim with tv_sec := toInt64 reply.mtime }
    st_ctime := toInt64 reply.ctime }

/-- The result and what `stbuf` holds afterwards. -/
def getAttr (fileName : CString) (stbuf : Stat) : Prog (Int × Stat) := do
  let reply ← unary E .getAttr (FileServer.getAttr E fileName.bytes)
  match reply with
  | some reply => return (reply.errorcode, fillStat stbuf reply)
  | none => return (StatResponse.empty.errorcode, stbuf)

/-- The loop that hands the entries to `filler`, from the `k`-th call on: whether it took them all, and
those it took. -/
def fillEntries (filler : Nat → Bool) : Nat → List Bytes → Bool × List Bytes
  | _, [] => (true, [])
  | k, name :: rest =>
      if filler k then
        ((fillEntries filler (k + 1) rest).1, cStr name :: (fillEntries filler (k + 1) rest).2)
      else (false, [])

/-- The result and the names that `filler` took. -/
def readDir (fileName : CString) : Prog (Int × List Bytes) := do
  let reply ← unary E .readDir (FileServer.readDir E fileName.bytes)
  match reply with
  | some (names, errorcode) =>
      if errorcode = -1 then return (-1, [])
      else if (fillEntries E.filler 0 names).1 then return (0, (fillEntries E.filler 0 names).2)
      else return (-ENOMEM, (fillEntries E.filler 0 names).2)
  | none => return (0, [])

/-- The `errorcode` of a `BaseResponse` as `mkdir`, `rmdir` and `access` return it. -/
def baseResult (reply : Option Int) : Int :=
  match reply with
  | some errorcode => if errorcode < 0 then errorcode else 0
  | none => 0

def mkdir (fileName : CString) (mode : Int) : Prog Int := do
  let reply ← unary E .mkdir (FileServer.mkdir E fileName.bytes mode)
  return baseResult reply

def rmdir (fileName : CString) : Prog Int := do
  let reply ← unary E .rmdir (FileServer.rmdir E fileName.bytes)
  return baseResult reply

def access (path : CString) : Prog Int := do
  let reply ← unary E .access (FileServer.access E path.bytes)
  return baseResult reply

def isOpenWithCreate (flags : OpenFlags) : Bool := flags.has O_CREAT

def isOpenWithCreateNExclusive (flags : OpenFlags) : Bool :=
  isOpenWithCreate flags && flags.has O_EXCL

/-- What `getOpenFlags` does with the two descriptors and the verdict on the temporary copy. -/
def chooseCopy (cache_fd temp_fd : Int) (outOfDate : Bool) : Prog Int := do
  if temp_fd < 0 ∧ cache_fd < 0 then return 1
  else if temp_fd < 0 ∧ cache_fd ≥ 0 ∧ outOfDate = false then
    let _ ← posixClose cache_fd
    return 4
  else
    let _ ← posixClose temp_fd
    if cache_fd > 0 then
      let _ ← posixClose cache_fd
    if outOfDate then return 1 else return 2

/-- 1: requires a full fetch, 2: read from the local copy, 3: create the file locally and mark it
dirty, 4: copy the persistent copy. -/
def getOpenFlags (is_create : Bool) (flags : OpenFlags) (path : CString) : Prog Int := do
  let getAttrRes ← getAttr E path E.clientStack
  if getAttrRes.1 = -ENOENT ∧ (is_create || isOpenWithCreate flags) = true then return 3
  else
    let server_time := toInt getAttrRes.2.st_mtim.tv_sec
    let cache_fd ← isPresentInCache E path
    let temp_fd ← isPresentInTemp E path
    let outOfDate ← if temp_fd > 0 then isOutOfDate E server_time temp_fd else pure true
    chooseCopy cache_fd temp_fd outOfDate

/-- The messages `Read` delivers of the stream the server writes. -/
def openStream (request : OpenReq) : Prog (List OpenResp) := fun w =>
  if E.download.reached then
    (E.download.arrive (FileServer.Open E request w.srv).1,
      { w with srv := (FileServer.Open E request w.srv).2 })
  else ([], w)

def createOnServer (path : CString) (fi : FuseFileInfo) : Prog Int := do
  let replies ← openStream E ⟨path.bytes, fi.flags, true⟩
  if replies.isEmpty then return - EIO
  else if E.download.finished then return 0 else return - EIO

def fetchAndSyncServerFile (path : CString) (fi : FuseFileInfo) : Prog Int := do
  let replies ← openStream E ⟨path.bytes, fi.flags, false⟩
  if replies.isEmpty then return - EIO
  else if E.download.finished then
    let buf := (replies.map (·.buf)).flatten
    let _ ← writeFileToCache E path (cStr buf)
    let _ ← writeFileToTemp E path (cStr buf)
    return 0
  else return - EIO

/-- What `Open` does on the verdict of `getOpenFlags`, before it opens the temporary file. -/
def prepareTemp (path : CString) (fi : FuseFileInfo) (o_fl : Int) : Prog Unit := do
  if o_fl = 1 then
    let _ ← fetchAndSyncServerFile E path fi
  else if o_fl = 3 then
    let temp_fd ← posixCreat E .clientOpenCreatTemp (getTempPath path)
    let _ ← posixClose temp_fd
    let cache_fd ← posixCreat E .clientOpenCreatCache (getCachePath path)
    let _ ← posixClose cache_fd
    markFileDirty path
    let _ ← createOnServer E path fi
  else if o_fl = 4 then
    let _ ← getCheckInTemp E path true O_RDONLY true
  else return

/-- The flags for the temporary file: an exclusive creation is no longer exclusive. -/
def localFlags (flags : OpenFlags) : OpenFlags :=
  if isOpenWithCreateNExclusive flags then flags ^^^ O_EXCL else flags

def Open (path : CString) (fi : FuseFileInfo) (is_create : Bool) : Prog Int := do
  let o_fl ← getOpenFlags E is_create fi.flags path
  prepareTemp E path fi o_fl
  let temp_fd ← posixOpen E .clientOpenOpen (getTempPath path) (localFlags fi.flags)
  if temp_fd > -1 then return temp_fd
  else
    deleteFromTemp E path
    let errno ← getErrno
    return -errno

def unlink (file_path : CString) : Prog Int := do
  deleteFromTemp E file_path
  let reply ← unary E .unlink (FileServer.unlink E file_path.bytes)
  if reply.isSome then return 0 else return -1

/-- The last part of `Rename`. -/
def renameOnServer (old_path new_path : CString) : Prog Int := do
  let reply ← unary E .rename (FileServer.rename E old_path.bytes new_path.bytes)
  if reply.isSome then return 0 else return -1

def rename (old_path new_path : CString) : Prog Int := do
  let fd ← isPresentInCache E old_path
  if fd > 0 then
    let ret ← posixRename E .clientRenameRename (getTempPath old_path) (getTempPath new_path)
    if ret = -1 then
      let errno ← getErrno
      return -errno
    else
      let dirty ← isFileDirty old_path
      if dirty then
        unmarkFileDirty E old_path
        markFileDirty new_path
      let _ ← posixClose fd
      renameOnServer E old_path new_path
  else renameOnServer E old_path new_path

/-- What `ifstream file(name)` reads. -/
def ifstreamRead (site : Site) (name : Bytes) : Prog (Option Bytes) := fun w =>
  match E.fails site with
  | some e => (none, { w with errno := e })
  | none => ((w.files.find name).map (·.content), w)

/-- The chunks whose `Write` returned true, from the `k`-th `Write` on; the loop stops at the first
that did not. -/
def sentChunks (writeOk : Nat → Bool) : Nat → List Bytes → List Bytes
  | _, [] => []
  | k, chunk :: rest => if writeOk k then chunk :: sentChunks writeOk (k + 1) rest else []

/-- Send messages and wait for the status. -/
def putFileStream (requests : List PutFileReq) : Prog (Option PutFileResp) := fun w =>
  if E.upload.reached then
    (if E.upload.finished then (FileServer.putFile E (E.upload.arrive requests) w.srv).1 else none,
      { w with srv := (FileServer.putFile E (E.upload.arrive requests) w.srv).2 })
  else (none, w)

def flush (path : CString) : Prog Int := do
  let file ← ifstreamRead E .clientFlushIfstream (getTempPath path)
  match file with
  | none => return -1
  | some content =>
    let dirty ← isFileDirty path
    if dirty = false then return 0
    else if E.writeOk 0 = false then
      let _ ← putFileStream E []
      deleteFromTemp E path
      return -1
    else
      let chunks := sentChunks E.writeOk 1 (Chunks.pieces BUFSIZE content)
      let reply ← putFileStream E (uploadRequests path.bytes chunks)
      match reply with
      | none => return -1
      | some reply =>
        let _ ← commitToCache E path (toInt reply.lastModifiedTime)
        return 0

end AFSClient

end Bnfs
