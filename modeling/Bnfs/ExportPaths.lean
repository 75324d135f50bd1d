import Bnfs.ModelServer
import Bnfs.TheoryPaths
import Bnfs.TheoryPrograms

/-! The paths a request of a client leads the server to. `getServerPath` puts the string of the request
behind the name of the export directory and looks at nothing: whether the path stays inside depends on where
the string leads from there. The handlers are given here once more call by call, each system call with the names it is
handed. -/

namespace Bnfs

open FileSystem Paths Programs

/-- `/` -/
def slash : UInt8 := 47

/-- A component of a path. -/
def component (name : Bytes) : Seg Bytes :=
  if name = [] ∨ name = ascii "." then .stay else if name = ascii ".." then .up else .down name

def components (path : Bytes) : List (Seg Bytes) := (path.splitOn slash).map component

/-- Where an absolute path leads, symbolic links aside. -/
def resolve (path : Bytes) : List Bytes := walk [] (components path)

/-- The path is the export directory or below it. -/
def Confined (path : Bytes) : Prop := Below (resolve path) (resolve serverDirBasePath)

instance (path : Bytes) : Decidable (Confined path) :=
  inferInstanceAs (Decidable (Below (resolve path) (resolve serverDirBasePath)))

/-- The last component of `serverDirBasePath`. -/
def exportName : Bytes := ascii "afs_server_dir"

/-- The walk from the export directory on which a string leads that is put behind its name. A string that
does not begin with a slash changes the name itself. -/
def excursion (string : Bytes) : List (Seg Bytes) :=
  match string.splitOn slash with
  | [] => []
  | first :: rest =>
      if first = [] then rest.map component
      else .up :: .down (exportName ++ first) :: rest.map component

theorem component_exportName (first : Bytes) :
    component (exportName ++ first) = .down (exportName ++ first) := by
  have hhead : (exportName ++ first).head? = some 97 := rfl
  unfold component
  rw [if_neg, if_neg]
  · intro h
    rw [h] at hhead
    exact absurd hhead (by decide)
  · rintro (h | h)
    · rw [h] at hhead
      cases hhead
    · rw [h] at hhead
      exact absurd hhead (by decide)

/-- Any string put behind the name of the export directory leads on a walk from there. -/
theorem resolve_append (string : Bytes) :
    resolve (serverDirBasePath ++ string) = walk (resolve serverDirBasePath) (excursion string) := by
  have hbase : serverDirBasePath ++ string = [] ++ slash :: (ascii "users" ++ slash ::
      (ascii "chrahul5" ++ slash :: (exportName ++ string))) := rfl
  have hparts : (serverDirBasePath ++ string).splitOn slash = [] :: ascii "users" :: ascii "chrahul5" ::
      (string.splitOn slash).modifyHead (exportName ++ ·) := by
    rw [hbase, List.splitOn_append_cons_self_of_not_mem (by decide),
      List.splitOn_append_cons_self_of_not_mem (by decide),
      List.splitOn_append_cons_self_of_not_mem (by decide), splitOn_append (by decide)]
  have hroot : resolve serverDirBasePath = [exportName, ascii "chrahul5", ascii "users"] := by decide
  have husers : component (ascii "users") = .down (ascii "users") := by decide
  have hchrahul5 : component (ascii "chrahul5") = .down (ascii "chrahul5") := by decide
  have hempty : component [] = .stay := rfl
  rw [resolve, components, hparts, hroot, excursion]
  cases hsplit : string.splitOn slash with
  | nil => exact absurd hsplit (List.splitOn_ne_nil slash string)
  | cons first rest =>
      simp only [List.modifyHead_cons, List.map_cons, hempty, husers, hchrahul5, component_exportName,
        walk]
      by_cases hfirst : first = []
      · rw [if_pos hfirst, hfirst, List.append_nil]
      · rw [if_neg hfirst]
        rfl

/-- Behind the name of the export directory the string leads down again as far as it had led up: with the
levels it goes up beyond its own names, and the names it goes down from there, these begin with the last
components of the export directory, as many as the levels. -/
def Returns (string : Bytes) : Prop :=
  (resolve serverDirBasePath).take (reduce (excursion string)).1 <:+ (reduce (excursion string)).2

theorem confined_append_iff (string : Bytes) :
    Confined (serverDirBasePath ++ string) ↔ Returns string := by
  rw [Confined, resolve_append]
  exact walk_below_iff _ _

/-- A string that is empty or begins with a slash, and never goes up beyond its own names, returns. -/
theorem returns_of_descends {string : Bytes} (hslash : string = [] ∨ string.head? = some slash)
    (h : Descends 0 (components string)) : Returns string := by
  have hexcursion : excursion string = (components string).tail ∧ Descends 0 (components string).tail := by
    rcases hslash with rfl | hhead
    · exact ⟨rfl, trivial⟩
    · obtain ⟨rest, rfl⟩ : ∃ rest, string = slash :: rest := by
        cases string with
        | nil => cases hhead
        | cons b rest => exact ⟨rest, by rw [Option.some.inj hhead]⟩
      have hsplit : (slash :: rest).splitOn slash = [] :: rest.splitOn slash :=
        List.splitOn_append_cons_self_of_not_mem (List.not_mem_nil) rest
      rw [excursion, components, hsplit] at *
      exact ⟨rfl, h⟩
  rw [← confined_append_iff, Confined, resolve_append, hexcursion.1]
  exact walk_below_of_descends _ hexcursion.2

namespace Noted

abbrev NotedProg (α : Type) : Type := Logged Server Bytes α

variable (E : Env)

/-- A call that looks what is there: `lstat`, `opendir`, `access`. -/
def lookUp (site : Site) (name : Bytes) : StateM Server (Except Int (Nat × File)) := fun srv =>
  match E.fails site, srv.files.names name with
  | some e, _ => (.error e, srv)
  | none, none => (.error ENOENT, srv)
  | none, some ino => (.ok (ino, srv.files.inode ino), srv)

def posixMkdir (mode : Int) (name : Bytes) : StateM Server (Option Int) := fun srv =>
  match E.fails .mkdirMkdir, srv.files.names name with
  | some e, _ => (some e, srv)
  | none, some _ => (some EEXIST, srv)
  | none, none =>
      let attr := { E.attr .mkdirMkdir with mode := mkdirMode E.serverUmask mode }
      (none, { srv with files := srv.files.create name ⟨[], E.now .mkdirMkdir, attr⟩ })

/-- `rmdir` and `unlink`: the errno if it fails. -/
def takeAway (site : Site) (name : Bytes) : StateM Server (Option Int) := fun srv =>
  match E.fails site, srv.files.names name with
  | some e, _ => (some e, srv)
  | none, none => (some ENOENT, srv)
  | none, some _ => (none, { srv with files := srv.files.remove name })

def move (old new : Bytes) : StateM Server (Option Int) := fun srv =>
  match E.fails .renameRename, srv.files.names old with
  | some e, _ => (some e, srv)
  | none, none => (some ENOENT, srv)
  | none, some _ => (none, { srv with files := srv.files.rename old new })

def ifstreamOpen (name : Bytes) : StateM Server (Option File) := fun srv =>
  (FileServer.openRead E name srv.files, srv)

def posixOpenCreate (flag : OpenFlags) (name : Bytes) : StateM Server Int := fun srv =>
  ((FileServer.openCreate E name flag srv.files).1,
    { srv with files := (FileServer.openCreate E name flag srv.files).2 })

/-- `outfile.open(name, ios::out | ios::trunc)` -/
def ofstreamOpen (name : Bytes) : StateM Server (Option Nat) := fun srv =>
  let out := uploadOpen (E.fails .putFileOpen) (E.now .putFileOpen) (E.attr .putFileOpen) name srv.files
  (out.2, { srv with files := out.1 })

def writeChunks (requests : List PutFileReq) (opened : Option Nat) : StateM Server Unit := fun srv =>
  ((), { srv with files := (FileServer.writeChunks E 0 requests (srv.files, opened)).1 })

/-- `rename`, with the history of what was put in place. -/
def install (temp target : Bytes) : StateM Server (Option Int) := fun srv =>
  match uploadRename (E.fails .putFileRename) temp target srv.files with
  | (some e, files) => (some e, { srv with files })
  | (none, files) =>
      (none, ⟨files, ⟨target, ((files.find target).map (·.content)).getD []⟩ :: srv.installs⟩)

def posixChmod (name : Bytes) : StateM Server Unit := fun srv =>
  ((), { srv with files := uploadChmod (E.fails .putFileChmod) name srv.files })

def posixLstat (name : Bytes) : StateM Server (Option Int) := fun srv =>
  (uploadLstat (E.fails .putFileLstat) name srv.files, srv)

def getAttr (path : Bytes) : NotedProg (Option StatResponse) := do
  let res ← noting id (lookUp E .getAttrLstat) (getServerPath path)
  match res with
  | .error e => return some (.ofStat E.serverStack (-e))
  | .ok (ino, file) => return some (.ofStat (statOf ino file) 0)

def readDir (path : Bytes) : NotedProg (Option (List Bytes × Int)) := do
  let dp ← noting id (lookUp E .readDirOpendir) (getServerPath path)
  match dp with
  | .error e => return some ([], -e)
  | .ok _ => return some (E.entries, 0)

def mkdir (path : Bytes) (mode : Int) : NotedProg (Option Int) := do
  let res ← noting id (posixMkdir E mode) (getServerPath path)
  return some (-(res.getD 0))

def rmdir (path : Bytes) : NotedProg (Option Int) := do
  let res ← noting id (takeAway E .rmdirRmdir) (getServerPath path)
  return some (-(res.getD 0))

def access (path : Bytes) : NotedProg (Option Int) := do
  let res ← noting id (lookUp E .accessAccess) (getServerPath path)
  match res with
  | .error e => return some (-e)
  | .ok _ => return some 0

def Open (request : OpenReq) : NotedProg (List OpenResp) := do
  let path := getServerPath request.path
  let file ← noting id (ifstreamOpen E) path
  match file with
  | none =>
    if request.is_create then
      let err ← noting id (posixOpenCreate E request.flag) path
      return [⟨err, false, []⟩]
    else return [⟨0, false, []⟩]
  | some file => return (Chunks.pieces BUFSIZE file.content).map fun buf => ⟨0, true, buf⟩

def putFile (requests : List PutFileReq) : NotedProg (Option PutFileResp) := do
  let cache_path := FileServer.cachePath requests
  let temp_file_path := FileServer.tempFilePath (randomString E.rand 20) requests
  let outfile ← noting id (ofstreamOpen E) temp_file_path
  silent (writeChunks E requests.tail outfile)
  let rename_status ← noting₂ id (install E) temp_file_path cache_path
  match rename_status with
  | some _ => return none
  | none =>
    noting id (posixChmod E) cache_path
    let res ← noting id (posixLstat E) cache_path
    match res with
    | none => return none
    | some mtime => return some ⟨0, toUInt64 mtime⟩

def unlink (path : Bytes) : NotedProg (Option Int) := do
  let ret ← noting id (takeAway E .unlinkUnlink) (getServerPath path)
  match ret with
  | some _ => return none
  | none => return some 0

def rename (old_path new_path : Bytes) : NotedProg (Option Int) := do
  let ret ← noting₂ id (move E) (getServerPath old_path) (getServerPath new_path)
  match ret with
  | some _ => return none
  | none => return some 0

end Noted

/-- A request to one of the nine handlers. A stream of `PutFile` is given with its first message, which has
the path. -/
inductive RpcRequest where
  | getAttr (path : Bytes)
  | readDir (path : Bytes)
  | mkdir (path : Bytes) (mode : Int)
  | rmdir (path : Bytes)
  | access (path : Bytes) (mode : Int)
  | openFile (request : OpenReq)
  | putFile (first : PutFileReq) (rest : List PutFileReq)
  | unlink (path : Bytes)
  | rename (old_path new_path : Bytes)

inductive RpcReply where
  | stat (reply : Option StatResponse)
  | listing (reply : Option (List Bytes × Int))
  | code (reply : Option Int)
  | messages (replies : List OpenResp)
  | stored (reply : Option PutFileResp)

namespace RpcRequest

/-- What the handler replies, and what it makes of the server. -/
def answer (E : Env) : RpcRequest → StateM Server RpcReply
  | .getAttr path => fun srv => (FileServer.getAttr E path srv).map .stat id
  | .readDir path => fun srv => (FileServer.readDir E path srv).map .listing id
  | .mkdir path mode => fun srv => (FileServer.mkdir E path mode srv).map .code id
  | .rmdir path => fun srv => (FileServer.rmdir E path srv).map .code id
  | .access path _ => fun srv => (FileServer.access E path srv).map .code id
  | .openFile request => fun srv => (FileServer.Open E request srv).map .messages id
  | .putFile first rest => fun srv => (FileServer.putFile E (first :: rest) srv).map .stored id
  | .unlink path => fun srv => (FileServer.unlink E path srv).map .code id
  | .rename old_path new_path => fun srv => (FileServer.rename E old_path new_path srv).map .code id

/-- The same, call by call. -/
def noted (E : Env) : RpcRequest → Noted.NotedProg RpcReply
  | .getAttr path => do return .stat (← Noted.getAttr E path)
  | .readDir path => do return .listing (← Noted.readDir E path)
  | .mkdir path mode => do return .code (← Noted.mkdir E path mode)
  | .rmdir path => do return .code (← Noted.rmdir E path)
  | .access path _ => do return .code (← Noted.access E path)
  | .openFile request => do return .messages (← Noted.Open E request)
  | .putFile first rest => do return .stored (← Noted.putFile E (first :: rest))
  | .unlink path => do return .code (← Noted.unlink E path)
  | .rename old_path new_path => do return .code (← Noted.rename E old_path new_path)

/-- The names that the handler hands to system calls. -/
def names (E : Env) (srv : Server) (request : RpcRequest) : List Bytes := (request.noted E srv).1

/-- What these have behind the name of the export directory. -/
def strings (rand : Nat → Nat) : RpcRequest → List Bytes
  | .getAttr path | .readDir path | .mkdir path _ | .rmdir path | .access path _ | .unlink path =>
      [cStr path]
  | .openFile request => [cStr request.path]
  | .putFile first _ => [cStr first.path, cStr first.path ++ randomString rand 20]
  | .rename old_path new_path => [cStr old_path, cStr new_path]

end RpcRequest

theorem getServerPath_eq (path : Bytes) : getServerPath path = serverDirBasePath ++ cStr path := by
  have hbase : ∀ b ∈ serverDirBasePath, (b != 0) = true := by decide +kernel
  rw [getServerPath, cStr, List.takeWhile_append_of_pos hbase]
  rfl

/-- Call by call, a handler does what it does. -/
theorem RpcRequest.noted_erases (E : Env) (request : RpcRequest) : Erases (request.noted E) (request.answer E) := by
  intro srv
  cases request with
  | getAttr path =>
      simp only [noted, answer, Noted.getAttr, bind_log, noting, Noted.lookUp, FileServer.getAttr]
      cases E.fails .getAttrLstat <;> cases srv.files.names (getServerPath path) <;> rfl
  | readDir path =>
      simp only [noted, answer, Noted.readDir, bind_log, noting, Noted.lookUp, FileServer.readDir]
      cases E.fails .readDirOpendir <;> cases srv.files.names (getServerPath path) <;> rfl
  | mkdir path mode =>
      simp only [noted, answer, Noted.mkdir, bind_log, noting, Noted.posixMkdir, FileServer.mkdir]
      cases E.fails .mkdirMkdir <;> cases srv.files.names (getServerPath path) <;> rfl
  | rmdir path =>
      simp only [noted, answer, Noted.rmdir, bind_log, noting, Noted.takeAway, FileServer.rmdir]
      cases E.fails .rmdirRmdir <;> cases srv.files.names (getServerPath path) <;> rfl
  | access path mode =>
      simp only [noted, answer, Noted.access, bind_log, noting, Noted.lookUp, FileServer.access]
      cases E.fails .accessAccess <;> cases srv.files.names (getServerPath path) <;> rfl
  | openFile request =>
      simp only [noted, answer, Noted.Open, bind_log, noting, Noted.ifstreamOpen, FileServer.Open]
      cases FileServer.openRead E (getServerPath request.path) srv.files with
      | none => cases request.is_create <;> rfl
      | some file => rfl
  | putFile first rest =>
      simp only [noted, answer, Noted.putFile, bind_log, noting, noting₂, silent, Noted.ofstreamOpen, Noted.writeChunks,
        Noted.install, FileServer.putFile, FileServer.writeUpload]
      cases uploadRename (E.fails .putFileRename) _ _ _ with
      | mk failed files =>
          cases failed with
          | some e => rfl
          | none =>
              simp only [bind_log, noting, Noted.posixChmod, Noted.posixLstat]
              cases uploadLstat (E.fails .putFileLstat) _ _ <;> rfl
  | unlink path =>
      simp only [noted, answer, Noted.unlink, bind_log, noting, Noted.takeAway, FileServer.unlink]
      cases E.fails .unlinkUnlink <;> cases srv.files.names (getServerPath path) <;> rfl
  | rename old_path new_path =>
      simp only [noted, answer, Noted.rename, bind_log, noting₂, Noted.move, FileServer.rename]
      cases E.fails .renameRename <;> cases srv.files.names (getServerPath old_path) <;> rfl

namespace RpcRequest

/-- The paths that a handler makes of the request. -/
def paths (rand : Nat → Nat) : RpcRequest → List Bytes
  | .getAttr path | .readDir path | .mkdir path _ | .rmdir path | .access path _ | .unlink path =>
      [getServerPath path]
  | .openFile request => [getServerPath request.path]
  | .putFile first rest =>
      [FileServer.cachePath (first :: rest), FileServer.tempFilePath (randomString rand 20) (first :: rest)]
  | .rename old_path new_path => [getServerPath old_path, getServerPath new_path]

theorem paths_eq (rand : Nat → Nat) (request : RpcRequest) :
    request.paths rand = (request.strings rand).map (serverDirBasePath ++ ·) := by
  cases request <;>
    simp only [paths, strings, FileServer.cachePath, FileServer.tempFilePath, getServerPath_eq,
      List.map_cons, List.map_nil, List.append_assoc]

/-- Whatever the server has and whatever fails, these are handed to system calls, and no others. -/
theorem mem_names_iff (E : Env) (srv : Server) (request : RpcRequest) (name : Bytes) :
    name ∈ request.names E srv ↔ name ∈ request.paths E.rand := by
  cases request with
  | getAttr path =>
      simp only [names, noted, Noted.getAttr, bind_log, noting]
      cases (Noted.lookUp E .getAttrLstat (getServerPath path) srv).1 <;> rfl
  | readDir path =>
      simp only [names, noted, Noted.readDir, bind_log, noting]
      cases (Noted.lookUp E .readDirOpendir (getServerPath path) srv).1 <;> rfl
  | mkdir path mode => rfl
  | rmdir path => rfl
  | access path mode =>
      simp only [names, noted, Noted.access, bind_log, noting]
      cases (Noted.lookUp E .accessAccess (getServerPath path) srv).1 <;> rfl
  | openFile request =>
      simp only [names, noted, Noted.Open, bind_log, noting]
      cases (Noted.ifstreamOpen E (getServerPath request.path) srv).1 with
      | none =>
          cases request.is_create with
          | false => rfl
          | true => simp [bind_log, pure_log, noting, paths]
      | some file => rfl
  | putFile first rest =>
      -- the temporary name is opened and moved, so both names stand in the log even where the rename fails
      have hboth : ∀ (temp target : Bytes) (more : List Bytes), more ⊆ [target] →
          (name ∈ temp :: temp :: target :: more ↔ name ∈ [target, temp]) := fun temp target more hmore => by
        have hlast : name ∈ more → name = target := fun hmem => List.mem_singleton.mp (hmore hmem)
        grind
      simp only [names, noted, Noted.putFile, bind_log, noting, noting₂, silent]
      generalize Noted.install E _ _ _ = moved
      obtain ⟨_ | e, srv'⟩ := moved
      · simp only [bind_log, noting]
        generalize Noted.posixLstat E _ _ = found
        obtain ⟨_ | mtime, srv''⟩ := found <;>
          exact hboth _ _ [FileServer.cachePath (first :: rest), FileServer.cachePath (first :: rest)] (by simp)
      · exact hboth _ _ [] (List.nil_subset _)
  | unlink path =>
      simp only [names, noted, Noted.unlink, bind_log, noting]
      cases (Noted.takeAway E .unlinkUnlink (getServerPath path) srv).1 <;> rfl
  | rename old_path new_path =>
      simp only [names, noted, Noted.rename, bind_log, noting₂]
      cases (Noted.move E (getServerPath old_path) (getServerPath new_path) srv).1 <;> rfl

end RpcRequest

/-- A request leads to no path outside the export directory exactly if each of its strings returns there. -/
theorem request_confined_iff (E : Env) (srv : Server) (request : RpcRequest) :
    (∀ name ∈ request.names E srv, Confined name) ↔ ∀ string ∈ request.strings E.rand, Returns string := by
  simp only [request.mem_names_iff E srv, request.paths_eq, List.forall_mem_map]
  exact forall₂_congr fun string _ => confined_append_iff string

/-! ### What a request can change -/

section Changes

variable (E : Env)

theorem openCreate_within {allowed : Set Bytes} {name : Bytes} (hmem : name ∈ allowed)
    (flag : OpenFlags) (files : Files) :
    Fs.Within allowed files (FileServer.openCreate E name flag files).2 := by
  unfold FileServer.openCreate
  split
  · exact .refl allowed files
  · split_ifs
    · exact Fs.create_within _ hmem
    · exact .refl allowed files
  · rename_i ino _ hname
    split_ifs
    · exact .refl allowed files
    · exact Fs.setInode_within _ hname hmem
    · exact .refl allowed files

/-- The chunks go to the file that was opened under the name. -/
theorem writeChunks_within {allowed : Set Bytes} {name : Bytes} (hmem : name ∈ allowed) (k : Nat)
    (requests : List PutFileReq) (out : Files × Option Nat)
    (hout : ∀ ino, out.2 = some ino → out.1.names name = some ino) :
    Fs.Within allowed out.1 (FileServer.writeChunks E k requests out).1 := by
  induction requests generalizing k out with
  | nil => exact .refl allowed out.1
  | cons request rest ih =>
      obtain ⟨files, opened⟩ := out
      have hwrite := uploadWrite_cases (E.fails (.putFileWrite k)) (E.now (.putFileWrite k))
        request.contents files opened
      have hnames := uploadWrite_names (E.fails (.putFileWrite k)) (E.now (.putFileWrite k))
        request.contents files opened
      have hstep : Fs.Within allowed files (uploadWrite (E.fails (.putFileWrite k))
          (E.now (.putFileWrite k)) request.contents (files, opened)).1 := by
        rcases hwrite with heq | ⟨ino, hino, heq⟩
        · rw [heq]
          exact .refl allowed files
        · rw [heq]
          exact Fs.setInode_within _ (hout ino hino) hmem
      refine hstep.trans (ih (k + 1) _ fun ino hino => ?_)
      rw [hnames]
      exact hout ino (uploadWrite_out _ _ _ files opened hino)

theorem writeUpload_within {allowed : Set Bytes} (first : PutFileReq) (rest : List PutFileReq)
    (hmem : FileServer.tempFilePath (randomString E.rand 20) (first :: rest) ∈ allowed)
    (files : Files) : Fs.Within allowed files (FileServer.writeUpload E (first :: rest) files) := by
  rw [FileServer.writeUpload, List.tail_cons]
  unfold uploadOpen
  split_ifs
  · exact writeChunks_within E hmem 0 rest (files, none) fun ino hino => nomatch hino
  · refine Fs.Within.trans (Fs.openTrunc_within (E.now .putFileOpen) (E.attr .putFileOpen) hmem) ?_
    refine writeChunks_within E hmem 0 rest (_, some _) fun ino hino => ?_
    rw [← Option.some.inj hino]
    exact Fs.openTrunc_names_self _ _ _ _

theorem uploadChmod_within {allowed : Set Bytes} {name : Bytes} (hmem : name ∈ allowed)
    (fails : Option Int) (files : Files) : Fs.Within allowed files (uploadChmod fails name files) := by
  unfold uploadChmod
  split
  · rename_i ino hname
    exact Fs.setInode_within _ hname hmem
  · exact .refl allowed files

theorem putFile_within {allowed : Set Bytes} (first : PutFileReq) (rest : List PutFileReq)
    (htemp : FileServer.tempFilePath (randomString E.rand 20) (first :: rest) ∈ allowed)
    (htarget : FileServer.cachePath (first :: rest) ∈ allowed) (srv : Server) :
    Fs.Within allowed srv.files (FileServer.putFile E (first :: rest) srv).2.files := by
  have hwritten := writeUpload_within E first rest htemp srv.files
  unfold FileServer.putFile
  rcases uploadRename_cases (E.fails .putFileRename)
      (FileServer.tempFilePath (randomString E.rand 20) (first :: rest))
      (FileServer.cachePath (first :: rest)) (FileServer.writeUpload E (first :: rest) srv.files) with
    ⟨e, heq, _⟩ | ⟨heq, _⟩
  · simp only [heq]
    exact hwritten
  · simp only [heq]
    have hmoved := hwritten.trans (Fs.rename_within htemp htarget)
    split <;> exact hmoved.trans (uploadChmod_within htarget _ _)

/-- A request changes files only under the names it hands to system calls. -/
theorem RpcRequest.answer_within (request : RpcRequest) (srv : Server) :
    Fs.Within {name | name ∈ request.names E srv} srv.files (request.answer E srv).2.files := by
  simp only [request.mem_names_iff E srv]
  cases request with
  | getAttr path =>
      simp only [answer, FileServer.getAttr]
      split <;> exact .refl _ srv.files
  | readDir path =>
      simp only [answer, FileServer.readDir]
      split <;> exact .refl _ srv.files
  | mkdir path mode =>
      have hone : getServerPath path ∈ {name | name ∈ (RpcRequest.mkdir path mode).paths E.rand} :=
        List.mem_singleton_self _
      simp only [answer, FileServer.mkdir]
      split
      · exact .refl _ srv.files
      · exact .refl _ srv.files
      · exact Fs.create_within _ hone
  | rmdir path =>
      have hone : getServerPath path ∈ {name | name ∈ (RpcRequest.rmdir path).paths E.rand} :=
        List.mem_singleton_self _
      simp only [answer, FileServer.rmdir]
      split
      · exact .refl _ srv.files
      · exact .refl _ srv.files
      · exact Fs.remove_within hone
  | access path mode =>
      simp only [answer, FileServer.access]
      split <;> exact .refl _ srv.files
  | openFile request =>
      have hone : getServerPath request.path ∈ {name | name ∈ (RpcRequest.openFile request).paths E.rand} :=
        List.mem_singleton_self _
      simp only [answer, FileServer.Open]
      split
      · split_ifs
        · exact openCreate_within E hone request.flag srv.files
        · exact .refl _ srv.files
      · exact .refl _ srv.files
  | putFile first rest =>
      have htarget : FileServer.cachePath (first :: rest) ∈
          {name | name ∈ (RpcRequest.putFile first rest).paths E.rand} := List.mem_cons_self
      have htemp : FileServer.tempFilePath (randomString E.rand 20) (first :: rest) ∈
          {name | name ∈ (RpcRequest.putFile first rest).paths E.rand} :=
        List.mem_cons_of_mem _ (List.mem_singleton_self _)
      exact putFile_within E first rest htemp htarget srv
  | unlink path =>
      have hone : getServerPath path ∈ {name | name ∈ (RpcRequest.unlink path).paths E.rand} :=
        List.mem_singleton_self _
      simp only [answer, FileServer.unlink]
      split
      · exact Fs.remove_within hone
      · exact .refl _ srv.files
  | rename old_path new_path =>
      have hold : getServerPath old_path ∈
          {name | name ∈ (RpcRequest.rename old_path new_path).paths E.rand} := List.mem_cons_self
      have hnew : getServerPath new_path ∈
          {name | name ∈ (RpcRequest.rename old_path new_path).paths E.rand} :=
        List.mem_cons_of_mem _ (List.mem_singleton_self _)
      simp only [answer, FileServer.rename]
      split
      · exact Fs.rename_within hold hnew
      · exact .refl _ srv.files

/-- A request all of whose strings return leaves every file outside the export directory as it is. -/
theorem RpcRequest.answer_confined (request : RpcRequest) (srv : Server)
    (hreturns : ∀ string ∈ request.strings E.rand, Returns string) {name : Bytes} (hout : ¬ Confined name)
    (hsole : srv.files.Sole name) : (request.answer E srv).2.files.find name = srv.files.find name := by
  refine (request.answer_within E srv).find_eq (fun hmem => hout ?_) hsole
  exact (request_confined_iff E srv request).mpr hreturns name hmem

end Changes

/-- `..` leads out, and so does a string without a slash; for an upload to the export directory itself the
temporary name leads out. -/
theorem requests_lead_out :
    let srv : Server := ⟨.empty ⟨[], default, default⟩, []⟩
    (∃ name ∈ (RpcRequest.getAttr (ascii "/../f")).names (.smooth 1) srv, ¬ Confined name) ∧
      (∃ name ∈ (RpcRequest.unlink (ascii "f")).names (.smooth 1) srv, ¬ Confined name) ∧
      ∃ name ∈ (RpcRequest.putFile ⟨[], []⟩ []).names (.smooth 1) srv, ¬ Confined name := by
  intro srv
  refine ⟨⟨getServerPath (ascii "/../f"), by decide +kernel, by decide +kernel⟩,
    ⟨getServerPath (ascii "f"), by decide +kernel, by decide +kernel⟩,
    ⟨getServerPath [] ++ randomString (fun _ => 0) 20, by decide +kernel, by decide +kernel⟩⟩

end Bnfs
