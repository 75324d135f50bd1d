import Bnfs.ModelWorld
import Mathlib.Data.Set.Function
import Mathlib.Data.List.OfFn

/-! The cache helper of the client, `cache_helper.cc`: the local names of a path, the temporary and
the persistent copy, and the set of dirty paths. SHA-256 is OpenSSL's and enters as a parameter. -/

namespace Bnfs

/-- The digest function of OpenSSL. -/
class Sha256 where
  digest : Bytes → Fin 32 → UInt8

/-- SHA-256 as far as the paths `/f` and `/g` go. -/
abbrev sampleSha256 : Sha256 where
  digest path i := (if path = ascii "/g" then
      [172, 175, 170, 81, 47, 235, 83, 8, 113, 13, 193, 43, 157, 59, 117, 231,
        192, 182, 206, 129, 154, 64, 42, 166, 129, 59, 28, 44, 70, 107, 157, 169]
    else
      [132, 234, 111, 110, 32, 254, 154, 92, 201, 13, 12, 159, 91, 161, 40, 173,
        145, 84, 75, 218, 96, 113, 202, 249, 199, 156, 228, 128, 24, 182, 234, 19]).getD i.val 0

/-- The path `/f` of the samples. -/
def sampleF : CString := ⟨ascii "/f", by decide⟩

/-- The path `/g` of the samples. -/
def sampleG : CString := ⟨ascii "/g", by decide⟩

def CLIENT_DIR_ROOT : Bytes := ascii "/users/chrahul5/bnfs_client"

def cacheDir : Bytes := CLIENT_DIR_ROOT ++ ascii "/cache"

def tempDir : Bytes := CLIENT_DIR_ROOT ++ ascii "/temp"

/-- A hexadecimal digit as the stream prints it. -/
def hexDigit (d : Nat) : UInt8 := UInt8.ofNat (if d < 10 then 48 + d else 87 + d)

/-- `hex << setw(2) << setfill('0')` on one byte. -/
def hexByte (b : UInt8) : Bytes := [hexDigit (b.toNat / 16), hexDigit (b.toNat % 16)]

theorem hexDigit_injective {c d : Nat} (hc : c < 16) (hd : d < 16) (h : hexDigit c = hexDigit d) :
    c = d := by
  have hall : ∀ c < 16, ∀ d < 16, hexDigit c = hexDigit d → c = d := by decide
  exact hall c hc d hd h

theorem hexByte_injective {a b : UInt8} (h : hexByte a = hexByte b) : a = b := by
  obtain ⟨hhigh, htail⟩ := List.cons.inj h
  obtain ⟨hlow, _⟩ := List.cons.inj htail
  have ha := a.toNat_lt
  have hb := b.toNat_lt
  have h1 := hexDigit_injective (by omega) (by omega) hhigh
  have h2 := hexDigit_injective (by omega) (by omega) hlow
  exact UInt8.toNat_inj.mp (by omega)

theorem flatMap_hexByte_injective {xs ys : Bytes} (h : xs.flatMap hexByte = ys.flatMap hexByte) :
    xs = ys := by
  induction xs generalizing ys with
  | nil =>
      cases ys with
      | nil => rfl
      | cons y ys => cases h
  | cons x xs ih =>
      cases ys with
      | nil => cases h
      | cons y ys =>
          rw [List.flatMap_cons, List.flatMap_cons] at h
          obtain ⟨hhead, htail⟩ := List.append_inj h rfl
          rw [hexByte_injective hhead, ih htail]

section Names

variable [Sha256]

def getHashedPath (rel_path : CString) : Bytes :=
  (List.ofFn (Sha256.digest rel_path.bytes)).flatMap hexByte

def getCachePath (rel_path : CString) : Bytes := cacheDir ++ ascii "/" ++ getHashedPath rel_path

def getTempPath (rel_path : CString) : Bytes := tempDir ++ ascii "/" ++ getHashedPath rel_path

/-- Paths with one name under the local directories have one digest. -/
theorem digest_eq_of_hashed_eq {p q : CString} (h : getHashedPath p = getHashedPath q) :
    Sha256.digest p.bytes = Sha256.digest q.bytes :=
  List.ofFn_injective (flatMap_hexByte_injective h)

/-- No two of the paths have the same digest. -/
def NoCollision (paths : Set CString) : Prop :=
  Set.InjOn (fun p : CString => Sha256.digest p.bytes) paths

theorem NoCollision.hashed {paths : Set CString} (h : NoCollision paths) {p q : CString}
    (hp : p ∈ paths) (hq : q ∈ paths) (heq : getHashedPath p = getHashedPath q) : p = q :=
  h hp hq (digest_eq_of_hashed_eq heq)

theorem getTempPath_eq_iff {p q : CString} :
    getTempPath p = getTempPath q ↔ getHashedPath p = getHashedPath q :=
  List.append_right_inj _

theorem NoCollision.temp {paths : Set CString} (h : NoCollision paths) {p q : CString}
    (hp : p ∈ paths) (hq : q ∈ paths) (heq : getTempPath p = getTempPath q) : p = q :=
  h.hashed hp hq (getTempPath_eq_iff.mp heq)

/-- A temporary and a persistent copy never have one name: the directories differ. -/
theorem getTempPath_ne_getCachePath (p q : CString) : getTempPath p ≠ getCachePath q := by
  intro h
  rw [getTempPath, getCachePath, tempDir, cacheDir] at h
  simp only [List.append_assoc] at h
  exact absurd (List.append_cancel_left h) (by simp [ascii])

end Names

variable [Sha256]

def isFileDirty (path : CString) : Prog Bool := fun w =>
  (decide (getHashedPath path ∈ w.cl.dirty_files), w)

def markFileDirty (path : CString) : Prog Unit := fun w =>
  ((), w.setDirty (insert (getHashedPath path) w.cl.dirty_files))

/-- `dirty_files.erase(getHashedPath(path))` under the lock. -/
def eraseDirty (path : CString) : Prog Unit := fun w =>
  ((), w.setDirty (w.cl.dirty_files.erase (getHashedPath path)))

section Calls

variable (E : Env)

/-- It removes the temporary file; the mark stays. -/
def unmarkFileDirty (path : CString) : Prog Unit := do
  let _ ← posixRemove E .unmarkFileDirtyRemove (getTempPath path)

def deleteFromTemp (path : CString) : Prog Unit := do
  let _ ← posixRemove E .deleteFromTempRemove (getTempPath path)
  eraseDirty path

def isPresentInTemp (path : CString) : Prog Int :=
  posixOpen E .isPresentInTemp (getTempPath path) O_RDONLY

def isPresentInCache (path : CString) : Prog Int :=
  posixOpen E .isPresentInCache (getCachePath path) O_RDONLY

/-- The result and `*file_descriptor`. -/
def getCheckInCache (path : CString) (close_file : Bool) (open_mode : OpenFlags) :
    Prog (Bool × Int) := do
  let fd ← posixOpen E .getCheckInCache (getCachePath path) open_mode
  if fd ≥ 0 then
    if close_file then
      let _ ← posixClose fd
    return (true, fd)
  else return (false, fd)

/-- The last part of `getCheckInTemp`. -/
def closeChecked (fd : Int) (close_file : Bool) : Prog (Bool × Int) := do
  if fd ≥ 0 then
    if close_file then
      let _ ← posixClose fd
    return (true, fd)
  else return (false, fd)

/-- The result and `*file_descriptor`. -/
def getCheckInTemp (path : CString) (close_file : Bool) (open_mode : OpenFlags)
    (create_new : Bool) : Prog (Bool × Int) := do
  let fd ← posixOpen E .getCheckInTempOpen (getTempPath path) (O_RDONLY ||| open_mode)
  if fd = -1 && create_new then
    let is_cached ← getCheckInCache E path true O_RDONLY
    let status ← if is_cached.1 then
        systemCp E .getCheckInTempCp (getCachePath path) (getTempPath path)
      else pure (.exited 0)
    if status.isFailure then return (false, fd)
    else
      let fd ← posixOpen E .getCheckInTempCreate (getTempPath path) (O_CREAT ||| open_mode)
      closeChecked fd close_file
  else closeChecked fd close_file

/-- Whether the server's time is later than that of the file behind the descriptor. -/
def isOutOfDate (server_modified_at_epoch : Int) (file_descriptor : Int) : Prog Bool := fun w =>
  match w.cl.fds.get file_descriptor with
  | none => (decide (server_modified_at_epoch > toInt E.clientStack.st_mtim.tv_sec), w)
  | some d => (decide (server_modified_at_epoch > toInt (w.files.inode d.ino).mtime.tv_sec), w)

def writeFileToCache (path : CString) (data : Bytes) : Prog Int := do
  let opened ← ofstreamSave E .writeFileToCacheOpen .writeFileToCacheWrite (getCachePath path) data
  if opened then return 0 else return -1

def writeFileToTemp (path : CString) (data : Bytes) : Prog Int := do
  let opened ← ofstreamSave E .writeFileToTempOpen .writeFileToTempWrite (getTempPath path) data
  if opened then return 0 else return -1

def getErrno : Prog Int := fun w => (w.errno, w)

def commitToCache (path : CString) (server_modified_at_epoch : Int) : Prog Int := do
  let temp_file_fd ← posixOpen E .commitToCacheOpen (getTempPath path) O_RDWR
  if temp_file_fd < 0 then
    let errno ← getErrno
    return -errno
  else
    let _ ← posixClose temp_file_fd
    let status ← systemCp E .commitToCacheCp (getTempPath path) (getCachePath path)
    if status.isFailure then return 1
    else
      let _ ← posixUtime E .commitToCacheUtimeTemp (getTempPath path) server_modified_at_epoch
      let _ ← posixUtime E .commitToCacheUtimeCache (getCachePath path) server_modified_at_epoch
      eraseDirty path
      return 0

end Calls

/-- `struct dirent` -/
structure Dirent where
  d_name : Bytes
  d_type : Nat
  deriving DecidableEq

def DT_REG : Nat := 8

/-- The files after it, where `listing` is what `readdir` yields of the directory if it can be opened. -/
def cleanTempDir (listing : Option (List Dirent)) (files : Files) : Files :=
  match listing with
  | none => files
  | some entries => entries.foldl (fun files entry =>
      if entry.d_type = DT_REG then files.remove (tempDir ++ ascii "/" ++ entry.d_name) else files) files

/-- The directories themselves are not modelled. -/
def initCache (listing : Option (List Dirent)) (files : Files) : Files := cleanTempDir listing files

end Bnfs
