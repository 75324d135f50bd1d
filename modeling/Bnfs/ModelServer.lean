import Bnfs.ModelWorld
import Bnfs.TheoryStream

/-! The handlers of `afs_server.cc`. Each takes the server as it is and gives the reply, or none where
it ends with a status other than OK, and the server as it leaves it. `PutFile` is given here as it runs
once it has the lock; its steps among other handlers are in `UploadHandlers`. -/

namespace Bnfs

def BUFSIZE : Nat := 65500

def serverDirBasePath : Bytes := ascii "/users/chrahul5/afs_server_dir"

def getServerPath (path : Bytes) : Bytes := cStr (serverDirBasePath ++ path)

def alphanum : Bytes :=
  ascii "0123456789ABCDEFGHIJKLMNOPQRSTUVWXYZabcdefghijklmnopqrstuvwxyz"

def randomString (rand : Nat → Nat) (len : Nat) : Bytes :=
  (List.range len).map fun i => alphanum.getD (rand i % alphanum.length) 0

theorem getServerPath_of_noNul {path : Bytes} (h : 0 ∉ path) :
    getServerPath path = serverDirBasePath ++ path := by
  refine cStr_of_noNul ?_
  rw [List.mem_append, not_or]
  exact ⟨by decide, h⟩

/-- Distinct paths of a client are distinct files of the server. -/
theorem getServerPath_injective {p q : CString}
    (h : getServerPath p.bytes = getServerPath q.bytes) : p = q := by
  rw [getServerPath_of_noNul p.noNul, getServerPath_of_noNul q.noNul] at h
  exact CString.ext_bytes (List.append_cancel_left h)

/-- A mapped path is never the empty string. -/
theorem getServerPath_ne_nil (path : Bytes) : getServerPath path ≠ [] := by
  intro h
  have hhead : (serverDirBasePath ++ path).head? = some 47 := rfl
  cases hpath : serverDirBasePath ++ path with
  | nil => rw [hpath] at hhead; cases hhead
  | cons b rest =>
      rw [hpath] at hhead
      cases hhead
      rw [getServerPath, hpath, cStr] at h
      cases h

@[simp] theorem randomString_length (rand : Nat → Nat) (len : Nat) :
    (randomString rand len).length = len := by
  rw [randomString, List.length_map, List.length_range]

structure StatResponse where
  dev : Int
  ino : Int
  mode : Int
  nlink : Int
  rdev : Int
  size : Int
  blksize : Int
  blocks : Int
  atime : Int
  mtime : Int
  ctime : Int
  uid : Int
  gid : Int
  errorcode : Int
  deriving DecidableEq, Inhabited

/-- A `StatResponse` no field of which was set. -/
def StatResponse.empty : StatResponse := ⟨0, 0, 0, 0, 0, 0, 0, 0, 0, 0, 0, 0, 0, 0⟩

/-- The fields the server sets from its `stbuf`. -/
def StatResponse.ofStat (stbuf : Stat) (errorcode : Int) : StatResponse where
  dev := toUInt64 stbuf.st_dev
  ino := toUInt64 stbuf.st_ino
  mode := toUInt64 stbuf.st_mode
  nlink := toUInt64 stbuf.st_nlink
  rdev := toUInt64 stbuf.st_rdev
  size := toUInt64 stbuf.st_size
  blksize := toUInt64 stbuf.st_blksize
  blocks := toUInt64 stbuf.st_blocks
  atime := toUInt64 stbuf.st_atim.tv_sec
  mtime := toUInt64 stbuf.st_mtim.tv_sec
  ctime := toUInt64 stbuf.st_ctime
  uid := toUInt64 stbuf.st_uid
  gid := toUInt64 stbuf.st_gid
  errorcode := errorcode

structure OpenReq where
  path : Bytes
  flag : OpenFlags
  is_create : Bool
  deriving DecidableEq

structure OpenResp where
  err : Int
  file_exists : Bool
  buf : Bytes
  deriving DecidableEq

structure PutFileReq where
  path : Bytes
  contents : Bytes
  deriving DecidableEq

structure PutFileResp where
  err : Int
  lastModifiedTime : Int
  deriving DecidableEq

/-- The messages of an upload: the path, then the chunks. -/
def uploadRequests (path : Bytes) (chunks : List Bytes) : List PutFileReq :=
  ⟨path, []⟩ :: chunks.map fun chunk => ⟨path, chunk⟩

/-- The bytes a name leads to and the time they were written. -/
def dated (files : Files) (name : Bytes) : Option (Bytes × Timespec) :=
  (files.find name).map fun file => (file.content, file.mtime)

theorem dated_of_find_eq {files files' : Files} {name name' : Bytes}
    (h : files'.find name' = files.find name) : dated files' name' = dated files name := by
  rw [dated, h, dated]

/-- The bytes at a path of the server. -/
def contentAt (srv : Server) (path : Bytes) : Option Bytes :=
  (srv.files.find (getServerPath path)).map (·.content)

theorem find_content (files : Files) (name : Bytes) :
    (files.find name).map (·.content) = (dated files name).map Prod.fst := by
  rw [dated, Option.map_map]
  rfl

/-- `outfile.open(name, ios::out | ios::trunc)`: the inode the stream writes to, if it opened. -/
def uploadOpen (fails : Option Int) (now : Timespec) (attr : Attr) (name : Bytes) (files : Files) :
    Files × Option Nat :=
  if fails.isSome || name.isEmpty then (files, none)
  else ((files.openTrunc name now attr).1, some (files.openTrunc name now attr).2)

/-- `outfile << chunk`. A stream that did not open or that failed before takes nothing more. -/
def uploadWrite (fails : Option Int) (now : Timespec) (chunk : Bytes) (out : Files × Option Nat) :
    Files × Option Nat :=
  match out.2 with
  | none => out
  | some ino =>
      if chunk = [] then out
      else if fails.isSome then (out.1, none)
      else (out.1.put ino ((out.1.inode ino).content ++ chunk) now, some ino)

/-- The append of a chunk changes the bytes of the open file or nothing. -/
theorem uploadWrite_cases (fails : Option Int) (now : Timespec) (chunk : Bytes) (files : Files)
    (out : Option Nat) :
    (uploadWrite fails now chunk (files, out)).1 = files ∨
      ∃ ino, out = some ino ∧ (uploadWrite fails now chunk (files, out)).1 =
        files.put ino ((files.inode ino).content ++ chunk) now := by
  unfold uploadWrite
  split
  · exact Or.inl rfl
  · rename_i ino hout
    split
    · exact Or.inl rfl
    · split
      · exact Or.inl rfl
      · exact Or.inr ⟨ino, hout, rfl⟩

theorem uploadWrite_names (fails : Option Int) (now : Timespec) (chunk : Bytes) (files : Files)
    (out : Option Nat) : (uploadWrite fails now chunk (files, out)).1.names = files.names := by
  rcases uploadWrite_cases fails now chunk files out with h | ⟨ino, _, h⟩ <;> rw [h]
  rfl

theorem uploadWrite_out (fails : Option Int) (now : Timespec) (chunk : Bytes) (files : Files)
    (out : Option Nat) {ino : Nat} (h : (uploadWrite fails now chunk (files, out)).2 = some ino) :
    out = some ino := by
  unfold uploadWrite at h
  split at h
  · exact h
  · rename_i hout
    split at h
    · exact h
    · split at h
      · cases h
      · exact hout.trans h

/-- `rename(temp, target)`: the errno if it fails. -/
def uploadRename (fails : Option Int) (temp target : Bytes) (files : Files) : Option Int × Files :=
  match fails with
  | some e => (some e, files)
  | none => if (files.names temp).isNone || target.isEmpty then (some ENOENT, files)
      else (none, files.rename temp target)

/-- Either the rename fails and changes nothing, or both names are good and the file has moved. -/
theorem uploadRename_cases (fails : Option Int) (temp target : Bytes) (files : Files) :
    (∃ e, uploadRename fails temp target files = (some e, files) ∧
      (fails.isSome ∨ files.names temp = none ∨ target = [])) ∨
    (uploadRename fails temp target files = (none, files.rename temp target) ∧ fails = none ∧
      files.names temp ≠ none ∧ target ≠ []) := by
  cases hfails : fails with
  | some e => exact Or.inl ⟨e, rfl, Or.inl rfl⟩
  | none =>
      by_cases hbad : files.names temp = none ∨ target = []
      · refine Or.inl ⟨ENOENT, ?_, Or.inr hbad⟩
        rw [uploadRename, if_pos (by simpa using hbad)]
      · refine Or.inr ⟨?_, rfl, fun h => hbad (Or.inl h), fun h => hbad (Or.inr h)⟩
        rw [uploadRename, if_neg (by simpa using hbad)]

/-- `chmod(name, S_IRWXU)`, whose result is not looked at. -/
def uploadChmod (fails : Option Int) (name : Bytes) (files : Files) : Files :=
  match fails, files.names name with
  | none, some ino => files.setInode ino
      { files.inode ino with attr :=
        { (files.inode ino).attr with mode := chmodMode (files.inode ino).attr.mode 0o700 } }
  | _, _ => files

@[simp] theorem uploadChmod_names (fails : Option Int) (name : Bytes) (files : Files) :
    (uploadChmod fails name files).names = files.names := by
  unfold uploadChmod
  split <;> rfl

/-- The chmod changes neither the bytes nor their time. -/
theorem dated_uploadChmod (fails : Option Int) (name other : Bytes) (files : Files) :
    dated (uploadChmod fails name files) other = dated files other := by
  unfold uploadChmod
  split
  · rename_i ino hname
    by_cases hother : files.names other = some ino
    · rw [dated, FileSystem.Fs.find_setInode_self files _ hother, dated,
        FileSystem.Fs.find_of_names hother]
      rfl
    · exact dated_of_find_eq (FileSystem.Fs.find_setInode_of_ne files _ hother)
  · rfl

/-- `lstat(name)`: the modification time in seconds. -/
def uploadLstat (fails : Option Int) (name : Bytes) (files : Files) : Option Int :=
  match fails with
  | some _ => none
  | none => (files.find name).map fun file => file.mtime.tv_sec

namespace FileServer

variable (E : Env)

def getAttr (path : Bytes) (srv : Server) : Option StatResponse × Server :=
  match E.fails .getAttrLstat, srv.files.names (getServerPath path) with
  | some e, _ => (some (.ofStat E.serverStack (-e)), srv)
  | none, none => (some (.ofStat E.serverStack (-ENOENT)), srv)
  | none, some ino => (some (.ofStat (statOf ino (srv.files.inode ino)) 0), srv)

/-- The names in the reply and its `errorcode`. -/
def readDir (path : Bytes) (srv : Server) : Option (List Bytes × Int) × Server :=
  match E.fails .readDirOpendir, srv.files.names (getServerPath path) with
  | some e, _ => (some ([], -e), srv)
  | none, none => (some ([], -ENOENT), srv)
  | none, some _ => (some (E.entries, 0), srv)

/-- The `errorcode` of the reply, as for the other calls below. -/
def mkdir (path : Bytes) (mode : Int) (srv : Server) : Option Int × Server :=
  let name := getServerPath path
  match E.fails .mkdirMkdir, srv.files.names name with
  | some e, _ => (some (-e), srv)
  | none, some _ => (some (-EEXIST), srv)
  | none, none =>
      let attr := { E.attr .mkdirMkdir with mode := mkdirMode E.serverUmask mode }
      (some 0, { srv with files := srv.files.create name ⟨[], E.now .mkdirMkdir, attr⟩ })

def rmdir (path : Bytes) (srv : Server) : Option Int × Server :=
  let name := getServerPath path
  match E.fails .rmdirRmdir, srv.files.names name with
  | some e, _ => (some (-e), srv)
  | none, none => (some (-ENOENT), srv)
  | none, some _ => (some 0, { srv with files := srv.files.remove name })

def access (path : Bytes) (srv : Server) : Option Int × Server :=
  match E.fails .accessAccess, srv.files.names (getServerPath path) with
  | some e, _ => (some (-e), srv)
  | none, none => (some (-ENOENT), srv)
  | none, some _ => (some 0, srv)

/-- `open(path, flag, 00777)` and `close`: the errno, 0 if the file opened, and the files. With `O_PATH` the flags
that create or empty a file are not heeded. -/
def openCreate (name : Bytes) (flag : OpenFlags) (files : Files) : Int × Files :=
  match E.fails .openCreate, files.names name with
  | some e, _ => (e, files)
  | none, none =>
      if flag.heeded.has O_CREAT then (0, files.create name ⟨[], E.now .openCreate, E.attr .openCreate⟩)
      else (ENOENT, files)
  | none, some ino =>
      if flag.heeded.has O_CREAT && flag.heeded.has O_EXCL then (EEXIST, files)
      else if flag.heeded.has O_TRUNC then (0, files.put ino [] (E.now .openCreate))
      else (0, files)

/-- What `ifstream file(path)` opens. -/
def openRead (name : Bytes) (files : Files) : Option File :=
  match E.fails .openIfstream with
  | some _ => none
  | none => files.find name

/-- The messages `Open` writes. -/
def Open (request : OpenReq) (srv : Server) : List OpenResp × Server :=
  let path := getServerPath request.path
  match openRead E path srv.files with
  | none =>
      if request.is_create then
        let created := openCreate E path request.flag srv.files
        ([⟨created.1, false, []⟩], { srv with files := created.2 })
      else ([⟨0, false, []⟩], srv)
  | some file => ((Chunks.pieces BUFSIZE file.content).map fun buf => ⟨0, true, buf⟩, srv)

/-- `cache_path`, empty if the first `Read` returned false. -/
def cachePath (requests : List PutFileReq) : Bytes :=
  match requests with
  | [] => []
  | request :: _ => getServerPath request.path

/-- `temp_file_path`, empty if the first `Read` returned false. -/
def tempFilePath (suffix : Bytes) (requests : List PutFileReq) : Bytes :=
  match requests with
  | [] => []
  | request :: _ => getServerPath request.path ++ suffix

/-- The loop `while (reader->Read(&request)) outfile << request.contents()`. -/
def writeChunks : Nat → List PutFileReq → Files × Option Nat → Files × Option Nat
  | _, [], out => out
  | k, request :: rest, out => writeChunks (k + 1) rest
      (uploadWrite (E.fails (.putFileWrite k)) (E.now (.putFileWrite k)) request.contents out)

/-- The files once the temporary file is written and closed. -/
def writeUpload (requests : List PutFileReq) (files : Files) : Files :=
  let temp := tempFilePath (randomString E.rand 20) requests
  (writeChunks E 0 requests.tail
    (uploadOpen (E.fails .putFileOpen) (E.now .putFileOpen) (E.attr .putFileOpen) temp files)).1

/-- `PutFile` on the messages its `Read` calls deliver before the first that returns false. -/
def putFile (requests : List PutFileReq) (srv : Server) : Option PutFileResp × Server :=
  let target := cachePath requests
  let temp := tempFilePath (randomString E.rand 20) requests
  let files := writeUpload E requests srv.files
  match uploadRename (E.fails .putFileRename) temp target files with
  | (some _, files) => (none, { srv with files })
  | (none, files) =>
      let version : Install := ⟨target, ((files.find target).map (·.content)).getD []⟩
      let files := uploadChmod (E.fails .putFileChmod) target files
      let srv : Server := { files, installs := version :: srv.installs }
      match uploadLstat (E.fails .putFileLstat) target files with
      | none => (none, srv)
      | some mtime => (some ⟨0, toUInt64 mtime⟩, srv)

def unlink (path : Bytes) (srv : Server) : Option Int × Server :=
  let name := getServerPath path
  match E.fails .unlinkUnlink, srv.files.names name with
  | none, some _ => (some 0, { srv with files := srv.files.remove name })
  | _, _ => (none, srv)

def rename (old_path new_path : Bytes) (srv : Server) : Option Int × Server :=
  let old := getServerPath old_path
  let new := getServerPath new_path
  match E.fails .renameRename, srv.files.names old with
  | none, some _ => (some 0, { srv with files := srv.files.rename old new })
  | _, _ => (none, srv)

end FileServer

end Bnfs
