import Bnfs.ClientTransfers
import Bnfs.ClientFetchRace

/-! The attributes of a file from the `lstat` of the server to the buffer of the client's caller. All go through fields
of 64 bits without a sign and come back as they were, for values of the C types. The owner and the group are sent too, but
the client does not take them out of the reply. -/

namespace Bnfs

open FileSystem FileServer

/-- A value of an unsigned type. -/
def InUnsigned (bits : Nat) (x : Int) : Prop := 0 ≤ x ∧ x < 2 ^ bits

/-- A value of a signed type of 64 bits. -/
def InSigned64 (x : Int) : Prop := -2 ^ 63 ≤ x ∧ x < 2 ^ 63

theorem toUInt64_of_unsigned {x : Int} (h : InUnsigned 64 x) : toUInt64 x = x :=
  Int.emod_eq_of_lt h.1 h.2

theorem toUInt32_toUInt64 {x : Int} (h : InUnsigned 32 x) : AFSClient.toUInt32 (toUInt64 x) = x := by
  obtain ⟨hlow, hhigh⟩ := h
  rw [toUInt64_of_unsigned ⟨hlow, by omega⟩]
  exact Int.emod_eq_of_lt hlow hhigh

/-- A negative number comes back as one. -/
theorem toInt64_toUInt64 {x : Int} (h : InSigned64 x) : toInt64 (toUInt64 x) = x := by
  obtain ⟨hlow, hhigh⟩ := h
  calc toInt64 (toUInt64 x) = x.bmod (2 ^ 64) := Int.emod_bmod x (2 ^ 64)
    _ = x := Int.bmod_eq_of_le (by omega) (by omega)

/-- The fields of the message are values of their types in `struct stat`. -/
structure Stat.InRange (stbuf : Stat) : Prop where
  dev : InUnsigned 64 stbuf.st_dev
  ino : InUnsigned 64 stbuf.st_ino
  mode : InUnsigned 32 stbuf.st_mode
  nlink : InUnsigned 64 stbuf.st_nlink
  uid : InUnsigned 32 stbuf.st_uid
  gid : InUnsigned 32 stbuf.st_gid
  rdev : InUnsigned 64 stbuf.st_rdev
  size : InSigned64 stbuf.st_size
  blksize : InSigned64 stbuf.st_blksize
  blocks : InSigned64 stbuf.st_blocks
  atime : InSigned64 stbuf.st_atim.tv_sec
  mtime : InSigned64 stbuf.st_mtim.tv_sec
  ctime : InSigned64 stbuf.st_ctime

/-- The two agree in all that the message has a field for. -/
structure Stat.SameSent (sent got : Stat) : Prop where
  dev : got.st_dev = sent.st_dev
  ino : got.st_ino = sent.st_ino
  mode : got.st_mode = sent.st_mode
  nlink : got.st_nlink = sent.st_nlink
  uid : got.st_uid = sent.st_uid
  gid : got.st_gid = sent.st_gid
  rdev : got.st_rdev = sent.st_rdev
  size : got.st_size = sent.st_size
  blksize : got.st_blksize = sent.st_blksize
  blocks : got.st_blocks = sent.st_blocks
  atime : got.st_atim.tv_sec = sent.st_atim.tv_sec
  mtime : got.st_mtim.tv_sec = sent.st_mtim.tv_sec
  ctime : got.st_ctime = sent.st_ctime

/-- Eleven of the thirteen fields come through; the other two have what the buffer had. -/
theorem fillStat_ofStat_iff {sent : Stat} (h : sent.InRange) (errorcode : Int) (stbuf : Stat) :
    sent.SameSent (AFSClient.fillStat stbuf (.ofStat sent errorcode)) ↔
      stbuf.st_uid = sent.st_uid ∧ stbuf.st_gid = sent.st_gid := by
  constructor
  · exact fun hsame => ⟨hsame.uid, hsame.gid⟩
  · rintro ⟨huid, hgid⟩
    exact {
      dev := toUInt64_of_unsigned h.dev
      ino := toUInt64_of_unsigned h.ino
      mode := toUInt32_toUInt64 h.mode
      nlink := toUInt64_of_unsigned h.nlink
      uid := huid
      gid := hgid
      rdev := toUInt64_of_unsigned h.rdev
      size := toInt64_toUInt64 h.size
      blksize := toInt64_toUInt64 h.blksize
      blocks := toInt64_toUInt64 h.blocks
      atime := toInt64_toUInt64 h.atime
      mtime := toInt64_toUInt64 h.mtime
      ctime := toInt64_toUInt64 h.ctime }

variable {E : Env} {path : CString} {w : World} {ino : Nat}

/-- What the buffer holds after an answer for a file that is there. -/
theorem getAttr_filled (hanswered : E.rpc .getAttr = .answered) (hok : E.fails .getAttrLstat = none)
    (hname : w.srv.files.names (getServerPath path.bytes) = some ino) (stbuf : Stat) :
    (AFSClient.getAttr E path stbuf w).1.2 =
      AFSClient.fillStat stbuf (.ofStat (statOf ino (w.srv.files.inode ino)) 0) := by
  have hreply : (FileServer.getAttr E path.bytes w.srv).1 =
      some (.ofStat (statOf ino (w.srv.files.inode ino)) 0) := by
    simp only [FileServer.getAttr, hok, hname]
  rw [getAttr_reply, if_pos hanswered, hreply]

theorem attributes_carried_iff (hanswered : E.rpc .getAttr = .answered) (hok : E.fails .getAttrLstat = none)
    (hname : w.srv.files.names (getServerPath path.bytes) = some ino)
    (hrange : (statOf ino (w.srv.files.inode ino)).InRange) (stbuf : Stat) :
    (statOf ino (w.srv.files.inode ino)).SameSent (AFSClient.getAttr E path stbuf w).1.2 ↔
      stbuf.st_uid = (w.srv.files.inode ino).attr.uid ∧ stbuf.st_gid = (w.srv.files.inode ino).attr.gid := by
  rw [getAttr_filled hanswered hok hname, fillStat_ofStat_iff hrange]
  rfl

/-- A server that has `/f` with an owner and a time before 1970. -/
def sampleOwned : World where
  srv := ⟨(Fs.empty ⟨[], default, default⟩).create (getServerPath (ascii "/f"))
    ⟨ascii "data", ⟨-1, 0⟩, { (default : Attr) with uid := 1000 }⟩, []⟩
  cl := ⟨.empty ⟨[], default, default⟩, [], ∅, []⟩
  errno := 0

theorem attributes_carried_iff_sample :
    (statOf 0 (sampleOwned.srv.files.inode 0)).SameSent
      (AFSClient.getAttr (.smooth 5) sampleF { (default : Stat) with st_uid := 1000 } sampleOwned).1.2 := by
  have hrange : (statOf 0 (sampleOwned.srv.files.inode 0)).InRange := by
    constructor <;> exact ⟨by decide +kernel, by decide +kernel⟩
  exact (attributes_carried_iff rfl rfl (by decide +kernel) hrange _).mpr ⟨rfl, rfl⟩

/-- A buffer of zeros: the owner of the file becomes the user 0. -/
theorem owner_not_carried :
    let stat := (AFSClient.getAttr (.smooth 5) sampleF default sampleOwned).1.2
    stat.st_mtim.tv_sec = -1 ∧ stat.st_uid = 0 ∧ (statOf 0 (sampleOwned.srv.files.inode 0)).st_uid = 1000 ∧
      ¬ (statOf 0 (sampleOwned.srv.files.inode 0)).SameSent stat := by
  intro stat
  have hzero : stat.st_uid = 0 := by decide +kernel
  have howner : (statOf 0 (sampleOwned.srv.files.inode 0)).st_uid = 1000 := by decide +kernel
  refine ⟨by decide +kernel, hzero, howner, fun h => ?_⟩
  have hsame := h.uid
  rw [hzero, howner] at hsame
  exact absurd hsame (by decide)

end Bnfs
