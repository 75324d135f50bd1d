import Bnfs.ClientKeys
import Bnfs.ConfigParser
import Bnfs.ExportPaths

/-! The strings that the program copies into blocks of its own. A block is so many bytes, whatever they are; a copy that
leaves it is a fault. -/

namespace Bnfs

open Buffers

def cStrBytes (text : Bytes) : Bytes := text ++ [0]

section Blocks

variable (block : Nat → Bytes)

/-- `getServerPath`, on the block that `new` gives it. -/
def getServerPathCopy (path : Bytes) : Option Bytes :=
  let fullPath := serverDirBasePath ++ path
  strcpy (block (fullPath.length + 1)) (cStrBytes fullPath)

/-- `Cache_path`, on the block that `malloc` gives it. -/
def cachePathCopy [Sha256] (path : CString) : Option Bytes :=
  let cache_path := getTempPath path
  strcpy (block cache_path.length) (cStrBytes cache_path)

def PATH_MAX : Nat := 4096

/-- The `sprintf` of `main` into its array. -/
def subdirOption (basedir : CString) : Option Bytes :=
  strcpy (block PATH_MAX) (cStrBytes (ascii "-omodules=subdir,subdir=" ++ basedir.bytes))

/-- `snprintf` of a text: as much of it as the size leaves place for. -/
def snprintf (dest : Bytes) (size : Nat) (text : Bytes) : Option Bytes := strcpy dest (cStrBytes (text.take (size - 1)))

def DEFAULT_CONF_NAME : Bytes := ascii "unreliablefs.conf"

/-- The `snprintf` of `main` into the block that `malloc` gives it. -/
def configPath (basedir : CString) : Option Bytes :=
  let sz := DEFAULT_CONF_NAME.length + basedir.bytes.length + 2
  snprintf (block sz) sz (basedir.bytes ++ ascii "/" ++ DEFAULT_CONF_NAME)

end Blocks

theorem holds_cStrBytes (text : Bytes) : Holds (cStrBytes text) 0 (cStr text) := holds_cStr text []

theorem holds_cStrBytes_of_noNul {text : Bytes} (h : 0 ∉ text) : Holds (cStrBytes text) 0 text := by
  have hholds := holds_cStrBytes text
  rwa [cStr_of_noNul h] at hholds

theorem getTempPath_noNul [Sha256] (path : CString) : 0 ∉ getTempPath path := by
  have hdir : 0 ∉ tempDir ++ ascii "/" := by decide +kernel
  have hdigits : (0 : UInt8) ∉ hexDigits := by decide +kernel
  rw [getTempPath, List.mem_append, not_or]
  exact ⟨hdir, fun hmem => hdigits (getHashedPath_digits path 0 hmem)⟩

section Fits

variable {block : Nat → Bytes} (hblock : ∀ n, (block n).length = n)

include hblock

theorem getServerPathCopy_holds (path : Bytes) :
    ∃ buf, getServerPathCopy block path = some buf ∧ Holds buf 0 (getServerPath path) := by
  have hlength : (getServerPath path).length ≤ (serverDirBasePath ++ path).length :=
    (List.takeWhile_prefix _).length_le
  refine (holds_cStrBytes (serverDirBasePath ++ path)).strcpy_holds ?_
  rw [hblock]
  exact Nat.lt_succ_of_le hlength

theorem configPath_holds (basedir : CString) : ∃ buf, configPath block basedir = some buf ∧
    Holds buf 0 (basedir.bytes ++ ascii "/" ++ DEFAULT_CONF_NAME) := by
  have hlength : (basedir.bytes ++ ascii "/" ++ DEFAULT_CONF_NAME).length + 1 =
      DEFAULT_CONF_NAME.length + basedir.bytes.length + 2 := by
    rw [List.length_append, List.length_append, show (ascii "/").length = 1 from rfl]
    omega
  have hnoNul : 0 ∉ basedir.bytes ++ ascii "/" ++ DEFAULT_CONF_NAME := by
    have hname : (0 : UInt8) ∉ ascii "/" ∧ 0 ∉ DEFAULT_CONF_NAME := by decide +kernel
    simp [basedir.noNul, hname]
  rw [configPath, snprintf, ← hlength, Nat.add_sub_cancel, List.take_length]
  refine (holds_cStrBytes_of_noNul hnoNul).strcpy_holds ?_
  rw [hblock]
  exact Nat.lt_succ_self _

theorem subdirOption_isSome_iff (basedir : CString) :
    (subdirOption block basedir).isSome = true ↔ basedir.bytes.length < 4072 := by
  have hnoNul : 0 ∉ ascii "-omodules=subdir,subdir=" ++ basedir.bytes := by
    have hoption : (0 : UInt8) ∉ ascii "-omodules=subdir,subdir=" := by decide +kernel
    rw [List.mem_append, not_or]
    exact ⟨hoption, basedir.noNul⟩
  have hlength : (ascii "-omodules=subdir,subdir=" ++ basedir.bytes).length = 24 + basedir.bytes.length := by
    rw [List.length_append, show (ascii "-omodules=subdir,subdir=").length = 24 from rfl]
  have hholds := holds_cStrBytes_of_noNul hnoNul
  by_cases hfits : basedir.bytes.length < 4072
  · rw [subdirOption, hholds.strcpy (by rw [hblock, hlength, PATH_MAX]; omega)]
    exact iff_of_true rfl hfits
  · rw [subdirOption, hholds.strcpy_eq_none (by rw [hblock, hlength, PATH_MAX]; omega)]
    exact iff_of_false (by decide) hfits

/-- The zero of the string is put behind the block, whatever is there. -/
theorem cachePathCopy_leaves [Sha256] (path : CString) : cachePathCopy block path = none ∧ ∀ next behind,
    strcpy (block (getTempPath path).length ++ next :: behind) (cStrBytes (getTempPath path)) =
      some (getTempPath path ++ 0 :: behind) := by
  have hholds := holds_cStrBytes_of_noNul (getTempPath_noNul path)
  refine ⟨hholds.strcpy_eq_none (Nat.le_of_eq (hblock _)), fun next behind => ?_⟩
  have hlength : (block (getTempPath path).length ++ [next]).length = (getTempPath path).length + 1 := by
    rw [List.length_append, hblock, List.length_singleton]
  have hbehind : (block (getTempPath path).length ++ next :: behind).drop ((getTempPath path).length + 1) = behind := by
    rw [List.append_cons, ← hlength, List.drop_left]
  rw [hholds.strcpy (by rw [List.length_append, hblock, List.length_cons]; omega), hbehind]

end Fits

/-- Whatever the strings are, the server's path has place in its block and `config_path` is not cut. The option for the
`subdir` module has place exactly if the directory has fewer than 4072 bytes. `Cache_path` never has place for its zero:
it overwrites the byte behind its block, and no other. -/
theorem string_copies {block : Nat → Bytes} (hblock : ∀ n, (block n).length = n) [Sha256] :
    (∀ path, ∃ buf, getServerPathCopy block path = some buf ∧ Holds buf 0 (getServerPath path)) ∧
    (∀ basedir, ∃ buf, configPath block basedir = some buf ∧
      Holds buf 0 (basedir.bytes ++ ascii "/" ++ DEFAULT_CONF_NAME)) ∧
    (∀ basedir, (subdirOption block basedir).isSome = true ↔ basedir.bytes.length < 4072) ∧
    ∀ path, cachePathCopy block path = none ∧ ∀ next behind,
      strcpy (block (getTempPath path).length ++ next :: behind) (cStrBytes (getTempPath path)) =
        some (getTempPath path ++ 0 :: behind) :=
  ⟨getServerPathCopy_holds hblock, configPath_holds hblock, subdirOption_isSome_iff hblock, cachePathCopy_leaves hblock⟩

/-- Of a block and the byte behind it, 77 each, that byte is zero after a call. -/
theorem string_copies_sample :
    letI := sampleSha256
    strcpy (List.replicate (getTempPath sampleF).length 77 ++ [77]) (cStrBytes (getTempPath sampleF)) =
      some (getTempPath sampleF ++ [0]) := by
  let _ := sampleSha256
  have hblock : ∀ n, (List.replicate n (77 : UInt8)).length = n := fun _ => List.length_replicate
  exact ((string_copies hblock).2.2.2 sampleF).2 77 []

end Bnfs
