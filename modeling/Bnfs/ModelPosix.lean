import Bnfs.TheoryFileSystem
import Mathlib.Algebra.Group.Int.Defs
import Mathlib.Algebra.Group.Nat.Defs
import Mathlib.Data.Finset.Erase
import Mathlib.Data.Finset.Insert
import Mathlib.Data.List.TakeWhile
import Mathlib.Tactic.SplitIfs

/-! The ground the programs stand on: byte strings and C strings, integer conversions, files with the
attributes `stat` reports, descriptors, and the environment of one operation. The environment decides,
for every call site of the source, whether the call fails and with which errno, what the clock shows
when it changes a file, and what happens to the messages of an RPC. -/

namespace Bnfs

abbrev Bytes := List UInt8

/-- The bytes of a literal of the source; all of them are ASCII. -/
def ascii (s : String) : Bytes := s.toList.map fun c => UInt8.ofNat c.toNat

/-- What a C function sees of a `std::string` handed over with `c_str()`. -/
def cStr (s : Bytes) : Bytes := s.takeWhile (· != 0)

/-- A `const char *` argument: no byte of it is NUL. -/
structure CString where
  bytes : Bytes
  noNul : 0 ∉ bytes
  deriving DecidableEq

theorem cStr_of_noNul {s : Bytes} (h : 0 ∉ s) : cStr s = s := by
  refine List.takeWhile_eq_self_iff.mpr fun b hb => ?_
  have hne : b ≠ 0 := fun heq => h (heq ▸ hb)
  simpa using hne

theorem CString.ext_bytes {p q : CString} (h : p.bytes = q.bytes) : p = q := by
  cases p
  cases q
  cases h
  rfl

/-- Conversion to `int`. -/
def toInt (x : Int) : Int := x.bmod (2 ^ 32)

/-- Conversion to `time_t` and the other signed 64-bit types. -/
def toInt64 (x : Int) : Int := x.bmod (2 ^ 64)

/-- Conversion to `uint64`, the type of the message fields. -/
def toUInt64 (x : Int) : Int := x % 2 ^ 64

theorem toInt_of_range {x : Int} (hlow : -2 ^ 31 ≤ x) (hhigh : x < 2 ^ 31) : toInt x = x :=
  Int.bmod_eq_of_le (by omega) (by omega)

/-- The fields of 64 bits do not change the `int` a time is narrowed to. -/
theorem toInt_toUInt64 (x : Int) : toInt (toUInt64 x) = toInt x := by
  have hsplit : x % 2 ^ 64 = x - ((2 ^ 32 : Nat) : Int) * (2 ^ 32 * (x / 2 ^ 64)) := by
    rw [Int.emod_def]
    omega
  rw [toInt, toInt, toUInt64, hsplit, Int.sub_mul_bmod_self_left]

theorem toInt_toInt64 (x : Int) : toInt (toInt64 x) = toInt x := by
  have hsplit : x.bmod (2 ^ 64) = x - ((2 ^ 32 : Nat) : Int) * (2 ^ 32 * x.bdiv (2 ^ 64)) := by
    rw [Int.bmod_eq_self_sub_mul_bdiv]
    omega
  rw [toInt, toInt, toInt64, hsplit, Int.sub_mul_bmod_self_left]

abbrev OpenFlags := BitVec 32

def O_RDONLY : OpenFlags := 0
def O_WRONLY : OpenFlags := 1
def O_RDWR : OpenFlags := 2
def O_ACCMODE : OpenFlags := 3
def O_CREAT : OpenFlags := 0o100
def O_EXCL : OpenFlags := 0o200
def O_TRUNC : OpenFlags := 0o1000
def O_APPEND : OpenFlags := 0o2000
def O_PATH : OpenFlags := 0o10000000

/-- `(flags & flag) == flag` -/
def OpenFlags.has (flags flag : OpenFlags) : Bool := flags &&& flag == flag

/-- The flags `open` goes by: with `O_PATH` it heeds none that creates or empties a file. -/
def OpenFlags.heeded (flags : OpenFlags) : OpenFlags := if flags.has O_PATH then O_PATH else flags

/-- For a flag of one bit it is that bit. -/
theorem OpenFlags.has_twoPow (flags : OpenFlags) {i : Nat} (hi : i < 32) :
    flags.has (BitVec.twoPow 32 i) = flags.getLsbD i := by
  rw [has, BitVec.and_twoPow]
  cases hbit : flags.getLsbD i with
  | true => simp
  | false =>
      have hne : (0 : OpenFlags) ≠ BitVec.twoPow 32 i := by
        intro heq
        have hget := congrArg (fun x => x.getLsbD i) heq
        simp [hi] at hget
      simpa using hne

def ENOENT : Int := 2
def EIO : Int := 5
def EBADF : Int := 9
def ENOMEM : Int := 12
def EEXIST : Int := 17
def EINVAL : Int := 22
def ERANGE : Int := 34
def ENOTEMPTY : Int := 39
def ENODATA : Int := 61
def EOPNOTSUPP : Int := 95

structure Timespec where
  tv_sec : Int
  tv_nsec : Nat
  deriving DecidableEq, Inhabited

/-- What an inode carries besides its bytes and their modification time. -/
structure Attr where
  dev : Int
  mode : Int
  nlink : Int
  uid : Int
  gid : Int
  rdev : Int
  blksize : Int
  blocks : Int
  atim : Timespec
  ctime : Int
  xattrs : List (Bytes × Bytes)
  deriving DecidableEq, Inhabited

/-- `struct stat` -/
structure Stat where
  st_dev : Int
  st_ino : Int
  st_mode : Int
  st_nlink : Int
  st_uid : Int
  st_gid : Int
  st_rdev : Int
  st_size : Int
  st_blksize : Int
  st_blocks : Int
  st_atim : Timespec
  st_mtim : Timespec
  st_ctime : Int
  deriving DecidableEq, Inhabited

abbrev File := FileSystem.Inode Timespec Attr

/-- The files of one machine, by absolute path. A name leads to the file that its path leads to, symbolic links
followed; two names of one file are hard or symbolic links. -/
abbrev Files := FileSystem.Fs Bytes Timespec Attr

/-- What `stat` reports of an inode. -/
def statOf (ino : Nat) (file : File) : Stat where
  st_dev := file.attr.dev
  st_ino := ino
  st_mode := file.attr.mode
  st_nlink := file.attr.nlink
  st_uid := file.attr.uid
  st_gid := file.attr.gid
  st_rdev := file.attr.rdev
  st_size := file.content.length
  st_blksize := file.attr.blksize
  st_blocks := file.attr.blocks
  st_atim := file.attr.atim
  st_mtim := file.mtime
  st_ctime := file.attr.ctime

/-- `S_IFMT`, the bits of the file type. -/
def S_IFMT : BitVec 32 := 0o170000
def S_IFREG : BitVec 32 := 0o100000
def S_IFDIR : BitVec 32 := 0o040000
def S_IFCHR : BitVec 32 := 0o020000
def S_IFBLK : BitVec 32 := 0o060000
def S_IFLNK : BitVec 32 := 0o120000

/-- Whether `mknod` makes a device. -/
def isDevice (mode : Int) : Bool :=
  BitVec.ofInt 32 mode &&& S_IFMT == S_IFCHR || BitVec.ofInt 32 mode &&& S_IFMT == S_IFBLK

/-- The mode of what `mknod` makes: without a type it is a regular file. -/
def mknodMode (umask : BitVec 32) (mode : Int) : Int :=
  let bits := BitVec.ofInt 32 mode
  let type := if bits &&& S_IFMT = 0 then S_IFREG else bits &&& S_IFMT
  ((bits &&& 0o7777 &&& ~~~umask) ||| type).toNat

/-- The mode of what `mkdir` makes. -/
def mkdirMode (umask : BitVec 32) (mode : Int) : Int :=
  ((BitVec.ofInt 32 mode &&& 0o1777 &&& ~~~umask) ||| S_IFDIR).toNat

/-- The mode after `chmod`: the type stays. -/
def chmodMode (old mode : Int) : Int := old - old % 0o10000 + mode % 0o10000

/-- The user and the groups of a process. -/
structure Credentials where
  uid : Int
  groups : List Int

/-- What a system call may need to be let in for: to read or write the bytes of a file, or to change what only its owner
may change. -/
inductive Access where
  | read
  | write
  | own
  deriving DecidableEq

/-- The owner and the permission bits of a file let the process in. -/
def Attr.permits (attr : Attr) (cred : Credentials) (access : Access) : Bool :=
  let bits := BitVec.ofInt 32 attr.mode
  let shift := if attr.uid = cred.uid then 6 else if attr.gid ∈ cred.groups then 3 else 0
  cred.uid = 0 || match access with
    | .read => bits.getLsbD (shift + 2)
    | .write => bits.getLsbD (shift + 1)
    | .own => attr.uid = cred.uid

/-- What an open with the flags needs of a file that is there. -/
def OpenFlags.asks (flags : OpenFlags) : Access → Bool
  | .read => flags &&& O_ACCMODE ≠ O_WRONLY
  | .write => flags &&& O_ACCMODE ≠ O_RDONLY || flags.has O_TRUNC
  | .own => false

/-- The bytes of a file after `data` was written at `offset`; a gap is filled with NUL bytes. -/
def splice (content : Bytes) (offset : Nat) (data : Bytes) : Bytes :=
  content.take offset ++ List.replicate (offset - content.length) 0 ++ data ++
    content.drop (offset + data.length)

/-- The bytes of a file cut or extended with NUL bytes to `length`. -/
def resize (content : Bytes) (length : Nat) : Bytes :=
  content.take length ++ List.replicate (length - content.length) 0

theorem length_resize (content : Bytes) (length : Nat) : (resize content length).length = length := by
  rw [resize, List.length_append, List.length_take, List.length_replicate]
  omega

theorem resize_self (content : Bytes) : resize content content.length = content := by
  rw [resize, List.take_length, Nat.sub_self, List.replicate_zero, List.append_nil]

structure Descriptor where
  ino : Nat
  flags : OpenFlags
  deriving DecidableEq

/-- The descriptor table of a process, by descriptor number. -/
abbrev Descriptors := List (Option Descriptor)

namespace Descriptors

/-- The number `open` gives out: the lowest one that is free. -/
def lowestFree (fds : Descriptors) : Nat := fds.findIdx (·.isNone)

def insert (fds : Descriptors) (d : Descriptor) : Descriptors :=
  if fds.lowestFree < fds.length then fds.set fds.lowestFree (some d) else fds ++ [some d]

/-- The open descriptor behind a number. -/
def get (fds : Descriptors) (fd : Int) : Option Descriptor :=
  if 0 ≤ fd then fds[fd.toNat]?.join else none

def release (fds : Descriptors) (fd : Int) : Descriptors := fds.set fd.toNat none

theorem get_of_none {fds : Descriptors} {fd : Int} (h : fd < 0) : fds.get fd = none :=
  if_neg (by omega)

theorem get_eq {fds : Descriptors} (fd : Nat) : fds.get fd = fds[fd]?.join := by
  rw [get, if_pos (by omega), Int.toNat_natCast]

/-- The number given out was free. -/
theorem get_lowestFree (fds : Descriptors) : fds.get fds.lowestFree = none := by
  rw [get_eq]
  by_cases hlt : fds.lowestFree < fds.length
  · have hfree := List.findIdx_getElem (w := hlt)
    rw [List.getElem?_eq_getElem hlt]
    exact Option.isNone_iff_eq_none.mp hfree
  · rw [List.getElem?_eq_none (by omega)]
    rfl

theorem lowestFree_eq_zero_iff {fds : Descriptors} : fds.lowestFree = 0 ↔ fds.get 0 = none := by
  constructor
  · intro h
    have hfree := get_lowestFree fds
    rw [h] at hfree
    exact hfree
  · intro h
    cases fds with
    | nil => rfl
    | cons first rest =>
        have hfirst : first = none := h
        subst hfirst
        simp [lowestFree, List.findIdx_cons]

theorem get_insert_self (fds : Descriptors) (d : Descriptor) :
    (fds.insert d).get fds.lowestFree = some d := by
  rw [get_eq, insert]
  split_ifs with hlt
  · rw [List.getElem?_set_self hlt]
    rfl
  · have hend : fds.lowestFree = fds.length := by
      have hle : fds.lowestFree ≤ fds.length := List.findIdx_le_length
      omega
    rw [hend, List.getElem?_concat_length]
    rfl

/-- Giving out a descriptor keeps the open ones. -/
theorem get_insert_of_some {fds : Descriptors} {fd : Int} {d d' : Descriptor}
    (h : fds.get fd = some d) : (fds.insert d').get fd = some d := by
  have hpos : 0 ≤ fd := by
    by_contra hneg
    rw [get_of_none (by omega)] at h
    cases h
  obtain ⟨n, rfl⟩ := Int.eq_ofNat_of_zero_le hpos
  rw [get_eq] at h ⊢
  have hn : n < fds.length := by
    by_contra hge
    rw [List.getElem?_eq_none (by omega)] at h
    cases h
  have hne : fds.lowestFree ≠ n := by
    intro heq
    have hfree := get_lowestFree fds
    rw [get_eq, heq, h] at hfree
    cases hfree
  rw [insert]
  split_ifs
  · rw [List.getElem?_set_ne hne, h]
  · rw [List.getElem?_append_left hn, h]

/-- Whatever is given out, descriptor 0 is taken then. -/
theorem get_insert_zero_ne (fds : Descriptors) (d : Descriptor) : (fds.insert d).get 0 ≠ none := by
  cases hzero : fds.get 0 with
  | none =>
      have hself := get_insert_self fds d
      rw [lowestFree_eq_zero_iff.mpr hzero] at hself
      exact hself ▸ Option.some_ne_none d
  | some d' =>
      rw [get_insert_of_some hzero]
      exact Option.some_ne_none d'

theorem get_release_of_ne {fds : Descriptors} {fd other : Int} (hfd : 0 ≤ fd) (hne : other ≠ fd) :
    (fds.release fd).get other = fds.get other := by
  by_cases hpos : 0 ≤ other
  · obtain ⟨n, rfl⟩ := Int.eq_ofNat_of_zero_le hpos
    rw [get_eq, get_eq, release, List.getElem?_set_ne (by omega)]
  · rw [get_of_none (by omega), get_of_none (by omega)]

end Descriptors

end Bnfs
