import Bnfs.ClientOutside
import Bnfs.ClientRename
import Bnfs.ClientOperations
import Bnfs.TheoryHandles

/-! The operations of the client that open and close descriptors, each with a log of the calls of `open`, `creat` and
`close` it makes. They are the operations of the model with these calls logged, and the log accounts for every change
of the descriptor table. Files that are read or written through a C++ stream are closed by its destructor and are not
logged. -/

namespace Bnfs

open FileSystem Programs Handles

/-- A number that is a descriptor, and not the result of a failure. -/
def descriptorOf (fd : Int) : Option Int := if 0 ≤ fd then some fd else none

/-- The numbers that are open. -/
def World.openFds (w : World) : Set Int := {fd | w.cl.fds.get fd ≠ none}

theorem World.openFds_of_fds {w w' : World} (h : w'.cl.fds = w.cl.fds) : w'.openFds = w.openFds := by
  unfold World.openFds
  rw [h]

/-- A descriptor that is given out is one more. -/
theorem World.openFds_insert {w w' : World} {d : Descriptor} (h : w'.cl.fds = w.cl.fds.insert d) :
    w'.openFds = insert (w.cl.fds.lowestFree : Int) w.openFds := by
  ext other
  simp only [World.openFds, h, Set.mem_ofPred_eq, Set.mem_insert_iff, Option.ne_none_iff_exists']
  constructor
  · rintro ⟨d, hget⟩
    rcases Descriptors.get_insert_cases hget with hold | ⟨hnew, _⟩
    · exact Or.inr ⟨d, hold⟩
    · exact Or.inl hnew
  · rintro (rfl | ⟨d, hget⟩)
    · exact ⟨_, Descriptors.get_insert_self _ _⟩
    · exact ⟨d, Descriptors.get_insert_of_some hget⟩

/-- The descriptor table is left as it is. -/
def World.FdsSame (w w' : World) : Prop := w'.cl.fds = w.cl.fds

instance : IsPreorder World World.FdsSame where
  refl _ := rfl
  trans _ _ _ h h' := h'.trans h

theorem Descriptors.get_release_self {fds : Descriptors} {fd : Int} (h : 0 ≤ fd) :
    (fds.release fd).get fd = none := by
  obtain ⟨n, rfl⟩ := Int.eq_ofNat_of_zero_le h
  rw [get_eq, release, Int.toNat_natCast, List.getElem?_set, if_pos rfl]
  split_ifs <;> rfl

/-- A close takes away the number it is given, if it is a descriptor, and no other. -/
theorem posixClose_open_iff (fd other : Int) (w : World) : (posixClose fd w).2.cl.fds.get other ≠ none ↔
    w.cl.fds.get other ≠ none ∧ ¬ (other = fd ∧ 0 ≤ fd) := by
  unfold posixClose
  cases hget : w.cl.fds.get fd with
  | none =>
      have hne : w.cl.fds.get other ≠ none → ¬ (other = fd ∧ 0 ≤ fd) := fun hopen heq => hopen (heq.1 ▸ hget)
      exact (and_iff_left_of_imp hne).symm
  | some d =>
      have hnonneg : 0 ≤ fd := by
        by_contra hneg
        rw [Descriptors.get_of_none (by omega)] at hget
        cases hget
      rw [and_iff_left hnonneg]
      show (w.cl.fds.release fd).get other ≠ none ↔ _
      by_cases heq : other = fd
      · rw [heq, Descriptors.get_release_self hnonneg]
        exact iff_of_false (not_not_intro rfl) fun h => h.2 rfl
      · rw [Descriptors.get_release_of_ne hnonneg heq, and_iff_left heq]

namespace WithLog

abbrev LogProg (α : Type) : Type := Logged World (Event Int) α

variable (E : Env)

def openFile (site : Site) (name : Bytes) (flags : OpenFlags) : LogProg Int :=
  opening descriptorOf (posixOpen E site name flags)

def creat (site : Site) (name : Bytes) : LogProg Int := openFile E site name (O_WRONLY ||| O_CREAT ||| O_TRUNC)

def close (fd : Int) : LogProg Int := closing (descriptorOf fd) (posixClose fd)

theorem logs_openFile (site : Site) (name : Bytes) (flags : OpenFlags) :
    Logs World.openFds (posixOpen E site name flags) (openFile E site name flags) := by
  refine .opening (fun w fd hfd => ?_) fun w hfd => ?_
  · rcases posixOpen_cases E site name flags w with ⟨hfailed, _⟩ | ⟨ino, hopened, _, hfds⟩
    · rw [hfailed] at hfd
      cases hfd
    · rw [hopened, descriptorOf, if_pos (Int.natCast_nonneg _)] at hfd
      obtain rfl := Option.some.inj hfd
      exact ⟨not_not_intro (Descriptors.get_lowestFree _), World.openFds_insert hfds⟩
  · rcases posixOpen_cases E site name flags w with ⟨_, hcl⟩ | ⟨ino, hopened, _, _⟩
    · exact World.openFds_of_fds (by rw [hcl])
    · rw [hopened, descriptorOf, if_pos (Int.natCast_nonneg _)] at hfd
      cases hfd

theorem logs_close (fd : Int) : Logs World.openFds (posixClose fd) (close fd) := by
  refine .closing (fun handle hhandle w => ?_) fun hnone w => ?_
  · have hnonneg : 0 ≤ fd := by
      by_contra hneg
      rw [descriptorOf, if_neg hneg] at hhandle
      cases hhandle
    rw [descriptorOf, if_pos hnonneg] at hhandle
    obtain rfl := Option.some.inj hhandle
    ext other
    simp only [World.openFds, Set.mem_ofPred_eq, posixClose_open_iff, hnonneg, and_true, Set.mem_sdiff, Set.mem_singleton_iff]
  · have hneg : ¬ 0 ≤ fd := fun hnonneg => by
      rw [descriptorOf, if_pos hnonneg] at hnone
      cases hnone
    ext other
    simp only [World.openFds, Set.mem_ofPred_eq, posixClose_open_iff, hneg, and_false, not_false_eq_true, and_true]

/-- A program that leaves the table alone has nothing to log. -/
theorem logs_silent {α : Type} {x : Prog α} (h : Keeps World.FdsSame x) : Logs World.openFds x (silent x) :=
  .silent (h.mono fun _ _ => World.openFds_of_fds)

/-- The last part of `getOpenFlags`. -/
def chooseCopy (cache_fd temp_fd : Int) (outOfDate : Bool) : LogProg Int := do
  if temp_fd < 0 ∧ cache_fd < 0 then return 1
  else if temp_fd < 0 ∧ cache_fd ≥ 0 ∧ outOfDate = false then
    let _ ← close cache_fd
    return 4
  else
    let _ ← close temp_fd
    if cache_fd > 0 then
      let _ ← close cache_fd
    if outOfDate then return 1 else return 2

theorem logs_chooseCopy (cache_fd temp_fd : Int) (outOfDate : Bool) :
    Logs World.openFds (AFSClient.chooseCopy cache_fd temp_fd outOfDate) (chooseCopy cache_fd temp_fd outOfDate) := by
  have hlast : ∀ verdict : Bool, Logs World.openFds (if verdict then pure 1 else pure 2 : Prog Int)
      (if verdict then pure 1 else pure 2) := fun _ => .ite (fun _ => .pure _) fun _ => .pure _
  refine .ite (fun _ => .pure _) fun _ => .ite (fun _ => (logs_close _).bind fun _ => .pure _) fun _ => ?_
  refine (logs_close _).bind fun _ => .ite (fun _ => ?_) fun _ => hlast outOfDate
  exact (logs_close _).bind fun _ => hlast outOfDate

variable [Sha256]

def isPresentInTemp (path : CString) : LogProg Int := openFile E .isPresentInTemp (getTempPath path) O_RDONLY

def isPresentInCache (path : CString) : LogProg Int := openFile E .isPresentInCache (getCachePath path) O_RDONLY

def getOpenFlags (is_create : Bool) (flags : OpenFlags) (path : CString) : LogProg Int := do
  let getAttrRes ← silent (AFSClient.getAttr E path E.clientStack)
  if getAttrRes.1 = -ENOENT ∧ (is_create || AFSClient.isOpenWithCreate flags) = true then return 3
  else
    let server_time := toInt getAttrRes.2.st_mtim.tv_sec
    let cache_fd ← isPresentInCache E path
    let temp_fd ← isPresentInTemp E path
    let outOfDate ← if temp_fd > 0 then silent (isOutOfDate E server_time temp_fd) else pure true
    chooseCopy cache_fd temp_fd outOfDate

omit [Sha256] in
theorem fdsSame_isOutOfDate (server_time fd : Int) : Keeps World.FdsSame (isOutOfDate E server_time fd) := fun w => by
  unfold isOutOfDate
  split <;> rfl

theorem logs_getOpenFlags (is_create : Bool) (flags : OpenFlags) (path : CString) :
    Logs World.openFds (AFSClient.getOpenFlags E is_create flags path) (getOpenFlags E is_create flags path) := by
  have hattr : Keeps World.FdsSame (AFSClient.getAttr E path E.clientStack) := fun w => by
    rw [getAttr_world]
    exact refl_of World.FdsSame w
  refine (logs_silent hattr).bind fun getAttrRes => .ite (fun _ => .pure _) fun _ => ?_
  refine (logs_openFile E _ _ _).bind fun cache_fd => (logs_openFile E _ _ _).bind fun temp_fd => ?_
  refine .ite (fun _ => ?_) fun _ => (Logs.pure true).bind fun outOfDate => logs_chooseCopy cache_fd temp_fd outOfDate
  exact (logs_silent (fdsSame_isOutOfDate E _ _)).bind fun outOfDate => logs_chooseCopy cache_fd temp_fd outOfDate

/-- The result and `*file_descriptor`. -/
def getCheckInCache (path : CString) (close_file : Bool) (open_mode : OpenFlags) : LogProg (Bool × Int) := do
  let fd ← openFile E .getCheckInCache (getCachePath path) open_mode
  if fd ≥ 0 then
    if close_file then
      let _ ← close fd
    return (true, fd)
  else return (false, fd)

omit [Sha256] in
/-- The last part of `getCheckInTemp`. -/
def closeChecked (fd : Int) (close_file : Bool) : LogProg (Bool × Int) := do
  if fd ≥ 0 then
    if close_file then
      let _ ← close fd
    return (true, fd)
  else return (false, fd)

/-- The result and `*file_descriptor`. -/
def getCheckInTemp (path : CString) (close_file : Bool) (open_mode : OpenFlags) (create_new : Bool) :
    LogProg (Bool × Int) := do
  let fd ← openFile E .getCheckInTempOpen (getTempPath path) (O_RDONLY ||| open_mode)
  if fd = -1 && create_new then
    let is_cached ← getCheckInCache E path true O_RDONLY
    let status ← if is_cached.1 then
        silent (systemCp E .getCheckInTempCp (getCachePath path) (getTempPath path))
      else pure (.exited 0)
    if status.isFailure then return (false, fd)
    else
      let fd ← openFile E .getCheckInTempCreate (getTempPath path) (O_CREAT ||| open_mode)
      closeChecked fd close_file
  else closeChecked fd close_file

omit [Sha256] in
theorem logs_closeChecked (fd : Int) (close_file : Bool) :
    Logs World.openFds (Bnfs.closeChecked fd close_file) (closeChecked fd close_file) := by
  refine .ite (fun _ => .ite (fun _ => ?_) fun _ => .pure _) fun _ => .pure _
  exact (logs_close fd).bind fun _ => .pure _

theorem logs_getCheckInCache (path : CString) (close_file : Bool) (open_mode : OpenFlags) :
    Logs World.openFds (Bnfs.getCheckInCache E path close_file open_mode)
      (getCheckInCache E path close_file open_mode) :=
  (logs_openFile E _ _ _).bind fun fd => logs_closeChecked fd close_file

omit [Sha256] in
theorem fdsSame_systemCp (site : Site) (source target : Bytes) :
    Keeps World.FdsSame (systemCp E site source target) := fun w => by
  rcases systemCp_cases E site source target w with ⟨_, _, heq⟩ | ⟨_, _, _, _, _, _, heq⟩ <;> (rw [heq]; rfl)

theorem logs_getCheckInTemp (path : CString) (close_file : Bool) (open_mode : OpenFlags) (create_new : Bool) :
    Logs World.openFds (Bnfs.getCheckInTemp E path close_file open_mode create_new)
      (getCheckInTemp E path close_file open_mode create_new) := by
  refine (logs_openFile E _ _ _).bind fun fd => .ite (fun _ => ?_) fun _ => logs_closeChecked fd close_file
  have hcopied : ∀ status : WaitStatus, Logs World.openFds
      (if status.isFailure then Pure.pure (false, fd) else do
        let fd ← posixOpen E .getCheckInTempCreate (getTempPath path) (O_CREAT ||| open_mode)
        Bnfs.closeChecked fd close_file : Prog (Bool × Int))
      (if status.isFailure then Pure.pure (false, fd) else do
        let fd ← openFile E .getCheckInTempCreate (getTempPath path) (O_CREAT ||| open_mode)
        closeChecked fd close_file) := fun status =>
    .ite (fun _ => .pure _) fun _ => (logs_openFile E _ _ _).bind fun fd => logs_closeChecked fd close_file
  refine (logs_getCheckInCache E path true O_RDONLY).bind fun is_cached => .ite (fun _ => ?_) fun _ => ?_
  · exact (logs_silent (fdsSame_systemCp E _ _ _)).bind hcopied
  · exact (Logs.pure (.exited 0)).bind hcopied

/-- What `Open` does before it opens the temporary copy. -/
def prepareTemp (path : CString) (fi : FuseFileInfo) (o_fl : Int) : LogProg Unit := do
  if o_fl = 1 then
    let _ ← silent (AFSClient.fetchAndSyncServerFile E path fi)
  else if o_fl = 3 then
    let temp_fd ← creat E .clientOpenCreatTemp (getTempPath path)
    let _ ← close temp_fd
    let cache_fd ← creat E .clientOpenCreatCache (getCachePath path)
    let _ ← close cache_fd
    silent (markFileDirty path)
    let _ ← silent (AFSClient.createOnServer E path fi)
  else if o_fl = 4 then
    let _ ← getCheckInTemp E path true O_RDONLY true
  else return

def Open (path : CString) (fi : FuseFileInfo) (is_create : Bool) : LogProg Int := do
  let o_fl ← getOpenFlags E is_create fi.flags path
  prepareTemp E path fi o_fl
  let temp_fd ← openFile E .clientOpenOpen (getTempPath path) (AFSClient.localFlags fi.flags)
  if temp_fd > -1 then return temp_fd
  else
    silent (deleteFromTemp E path)
    let errno ← silent getErrno
    return -errno

omit [Sha256] in
theorem fdsSame_ofstreamSave (openSite writeSite : Site) (name data : Bytes) :
    Keeps World.FdsSame (ofstreamSave E openSite writeSite name data) := fun w => by
  unfold ofstreamSave
  split <;> rfl

omit [Sha256] in
theorem fdsSame_openStream (request : OpenReq) : Keeps World.FdsSame (AFSClient.openStream E request) := fun w => by
  rw [World.FdsSame, openStream_cl]

theorem fdsSame_fetch (path : CString) (fi : FuseFileInfo) :
    Keeps World.FdsSame (AFSClient.fetchAndSyncServerFile E path fi) :=
  fetchAndSyncServerFile_keeps (fdsSame_openStream E _) (fdsSame_ofstreamSave E _ _ _) (fdsSame_ofstreamSave E _ _ _)

omit [Sha256] in
theorem fdsSame_createOnServer (path : CString) (fi : FuseFileInfo) :
    Keeps World.FdsSame (AFSClient.createOnServer E path fi) :=
  createOnServer_keeps (fdsSame_openStream E _)

omit [Sha256] in
theorem fdsSame_getErrno : Keeps World.FdsSame getErrno := fun _ => rfl

theorem fdsSame_markFileDirty (path : CString) : Keeps World.FdsSame (markFileDirty path) := fun _ => rfl

theorem fdsSame_eraseDirty (path : CString) : Keeps World.FdsSame (eraseDirty path) := fun _ => rfl

theorem fdsSame_isFileDirty (path : CString) : Keeps World.FdsSame (isFileDirty path) := fun _ => rfl

theorem fdsSame_deleteFromTemp (path : CString) : Keeps World.FdsSame (deleteFromTemp E path) :=
  Keeps.bind (fun w => posixRemove_fds E _ _ w) fun _ => fdsSame_eraseDirty path

theorem logs_prepareTemp (path : CString) (fi : FuseFileInfo) (o_fl : Int) :
    Logs World.openFds (AFSClient.prepareTemp E path fi o_fl) (prepareTemp E path fi o_fl) := by
  refine .ite (fun _ => ?_) fun _ => .ite (fun _ => ?_) fun _ => .ite (fun _ => ?_) fun _ => .pure _
  · exact (logs_silent (fdsSame_fetch E path fi)).bind fun _ => .pure _
  · refine (logs_openFile E _ _ _).bind fun temp_fd => (logs_close temp_fd).bind fun _ => ?_
    refine (logs_openFile E _ _ _).bind fun cache_fd => (logs_close cache_fd).bind fun _ => ?_
    refine (logs_silent (fdsSame_markFileDirty path)).bind fun _ => ?_
    exact (logs_silent (fdsSame_createOnServer E path fi)).bind fun _ => .pure _
  · exact (logs_getCheckInTemp E path true O_RDONLY true).bind fun _ => .pure _

theorem logs_Open (path : CString) (fi : FuseFileInfo) (is_create : Bool) :
    Logs World.openFds (AFSClient.Open E path fi is_create) (Open E path fi is_create) := by
  refine (logs_getOpenFlags E is_create fi.flags path).bind fun o_fl => (logs_prepareTemp E path fi o_fl).bind fun _ => ?_
  refine (logs_openFile E _ _ _).bind fun temp_fd => .ite (fun _ => .pure _) fun _ => ?_
  exact (logs_silent (fdsSame_deleteFromTemp E path)).bind fun _ => (logs_silent fdsSame_getErrno).bind fun _ => .pure _

def rename (old_path new_path : CString) : LogProg Int := do
  let fd ← isPresentInCache E old_path
  if fd > 0 then
    let ret ← silent (posixRename E .clientRenameRename (getTempPath old_path) (getTempPath new_path))
    if ret = -1 then
      let errno ← silent getErrno
      return -errno
    else
      let dirty ← silent (isFileDirty old_path)
      if dirty then
        silent (unmarkFileDirty E old_path)
        silent (markFileDirty new_path)
      let _ ← close fd
      silent (AFSClient.renameOnServer E old_path new_path)
  else silent (AFSClient.renameOnServer E old_path new_path)

/-- It opens nothing. -/
def unlink (file_path : CString) : LogProg Int := silent (AFSClient.unlink E file_path)

def commitToCache (path : CString) (server_modified_at_epoch : Int) : LogProg Int := do
  let temp_file_fd ← openFile E .commitToCacheOpen (getTempPath path) O_RDWR
  if temp_file_fd < 0 then
    let errno ← silent getErrno
    return -errno
  else
    let _ ← close temp_file_fd
    let status ← silent (systemCp E .commitToCacheCp (getTempPath path) (getCachePath path))
    if status.isFailure then return 1
    else
      let _ ← silent (posixUtime E .commitToCacheUtimeTemp (getTempPath path) server_modified_at_epoch)
      let _ ← silent (posixUtime E .commitToCacheUtimeCache (getCachePath path) server_modified_at_epoch)
      silent (eraseDirty path)
      return 0

def flush (path : CString) : LogProg Int := do
  let file ← silent (AFSClient.ifstreamRead E .clientFlushIfstream (getTempPath path))
  match file with
  | none => return -1
  | some content =>
    let dirty ← silent (isFileDirty path)
    if dirty = false then return 0
    else if E.writeOk 0 = false then
      let _ ← silent (AFSClient.putFileStream E [])
      silent (deleteFromTemp E path)
      return -1
    else
      let chunks := AFSClient.sentChunks E.writeOk 1 (Chunks.pieces BUFSIZE content)
      let reply ← silent (AFSClient.putFileStream E (uploadRequests path.bytes chunks))
      match reply with
      | none => return -1
      | some reply =>
        let _ ← commitToCache E path (toInt reply.lastModifiedTime)
        return 0

omit [Sha256] in
theorem fdsSame_unary {Reply : Type} (r : Rpc) (handler : Server → Option Reply × Server) :
    Keeps World.FdsSame (unary E r handler) := fun w => by
  rw [World.FdsSame, unary_cl]

omit [Sha256] in
theorem fdsSame_renameOnServer (old_path new_path : CString) :
    Keeps World.FdsSame (AFSClient.renameOnServer E old_path new_path) :=
  (fdsSame_unary E _ _).bind fun _ => .ite (fun _ => .pure _) fun _ => .pure _

omit [Sha256] in
theorem fdsSame_attempt {site : Site} {call : Prog Int} (h : Keeps World.FdsSame call) :
    Keeps World.FdsSame (attempt E site call) :=
  attempt_keeps (fun _ _ => rfl) h

omit [Sha256] in
theorem fdsSame_posixRename (site : Site) (old new : Bytes) : Keeps World.FdsSame (posixRename E site old new) :=
  fdsSame_attempt E fun w => by
    cases w.files.names old <;> rfl

omit [Sha256] in
theorem fdsSame_posixUtime (site : Site) (name : Bytes) (t : Int) : Keeps World.FdsSame (posixUtime E site name t) :=
  fdsSame_attempt E fun w => by
    cases w.files.names name <;> rfl

omit [Sha256] in
theorem fdsSame_putFileStream (requests : List PutFileReq) :
    Keeps World.FdsSame (AFSClient.putFileStream E requests) := fun w => by
  rw [World.FdsSame, putFileStream_cl]

theorem fdsSame_unlink (path : CString) : Keeps World.FdsSame (AFSClient.unlink E path) :=
  unlink_keeps (fdsSame_deleteFromTemp E path) (fdsSame_unary E _ _)

theorem logs_rename (old_path new_path : CString) :
    Logs World.openFds (AFSClient.rename E old_path new_path) (rename E old_path new_path) := by
  refine (logs_openFile E _ _ _).bind fun fd => .ite (fun _ => ?_) fun _ =>
    logs_silent (fdsSame_renameOnServer E old_path new_path)
  refine (logs_silent (fdsSame_posixRename E _ _ _)).bind fun ret => .ite (fun _ => ?_) fun _ => ?_
  · exact (logs_silent fdsSame_getErrno).bind fun _ => .pure _
  · have hlast : ∀ _ : Unit, Logs World.openFds
        (do let _ ← posixClose fd; AFSClient.renameOnServer E old_path new_path : Prog Int)
        (do let _ ← close fd; silent (AFSClient.renameOnServer E old_path new_path)) := fun _ =>
      (logs_close fd).bind fun _ => logs_silent (fdsSame_renameOnServer E old_path new_path)
    refine (logs_silent (fdsSame_isFileDirty old_path)).bind fun dirty => .ite (fun _ => ?_) fun _ => hlast ()
    refine (logs_silent (Keeps.bind (fun w => posixRemove_fds E _ _ w) fun _ => .pure _)).bind fun _ => ?_
    exact (logs_silent (fdsSame_markFileDirty new_path)).bind hlast

theorem logs_unlink (file_path : CString) : Logs World.openFds (AFSClient.unlink E file_path) (unlink E file_path) :=
  logs_silent (fdsSame_unlink E file_path)

theorem logs_commitToCache (path : CString) (t : Int) :
    Logs World.openFds (Bnfs.commitToCache E path t) (commitToCache E path t) := by
  refine (logs_openFile E _ _ _).bind fun fd => .ite (fun _ => ?_) fun _ => ?_
  · exact (logs_silent fdsSame_getErrno).bind fun _ => .pure _
  · refine (logs_close fd).bind fun _ => (logs_silent (fdsSame_systemCp E _ _ _)).bind fun status => ?_
    refine .ite (fun _ => .pure _) fun _ => (logs_silent (fdsSame_posixUtime E _ _ _)).bind fun _ => ?_
    refine (logs_silent (fdsSame_posixUtime E _ _ _)).bind fun _ => ?_
    exact (logs_silent (fdsSame_eraseDirty path)).bind fun _ => .pure _

theorem logs_flush (path : CString) : Logs World.openFds (AFSClient.flush E path) (flush E path) := by
  have hread : Keeps World.FdsSame (AFSClient.ifstreamRead E .clientFlushIfstream (getTempPath path)) := fun w => by
    unfold AFSClient.ifstreamRead
    split <;> rfl
  refine (logs_silent hread).bind fun file => ?_
  cases file with
  | none => exact .pure _
  | some content =>
      refine (logs_silent (fdsSame_isFileDirty path)).bind fun dirty => .ite (fun _ => .pure _) fun _ => .ite (fun _ => ?_) fun _ => ?_
      · refine (logs_silent (fdsSame_putFileStream E [])).bind fun _ => ?_
        exact (logs_silent (fdsSame_deleteFromTemp E path)).bind fun _ => .pure _
      · refine (logs_silent (fdsSame_putFileStream E _)).bind fun reply => ?_
        cases reply with
        | none => exact .pure _
        | some reply => exact (logs_commitToCache E path _).bind fun _ => .pure _

end WithLog

end Bnfs
