import Bnfs.ClientErrors
import Bnfs.ClientMounted

/-! Setting metadata and asking for it. `chmod`, `chown`, `truncate` and `mknod` act on the temporary copy and
`utimens` on nothing, while `getattr` asks the server: what it reports afterwards is what it would have
reported before. -/

namespace Bnfs

open FileSystem Programs

/-- A handler that sets metadata, with what it is asked to set. -/
inductive Setter where
  | chmod (mode : Int)
  | chown (owner group : Int)
  | truncate (length : Int)
  | utimens (ts : TimeArg × TimeArg)
  | mknod (mode dev : Int)

/-- The time is the one that was asked for, to the nanosecond. -/
def TimeArg.Asks (clock time : Timespec) : TimeArg → Prop
  | .given asked => time = asked
  | .clock => time = clock
  | .kept => True

namespace Setter

variable [Sha256] (E E' : Env) (path : CString) (buf : Stat) (clock : Timespec) (w : World)

def call : Setter → Prog Int
  | .chmod mode => unreliableChmod E path mode
  | .chown owner group => unreliableChown E path owner group
  | .truncate length => unreliableTruncate E path length
  | .utimens ts => unreliableUtimens E path ts
  | .mknod mode dev => unreliableMknod E path mode dev

/-- The system call of the handler fails. -/
def Fails : Setter → Prop
  | .chmod _ => E.fails .chmod ≠ none
  | .chown _ _ => E.fails .chown ≠ none
  | .truncate length => length < 0 ∨ E.fails .truncate ≠ none
  | .utimens _ => False
  | .mknod _ _ => E.fails .mknod ≠ none ∨ w.files.names (getTempPath path) ≠ none

omit [Sha256] in
/-- What was set is what `stbuf` has; of a new file, its type and permissions, and its number if it is a device. -/
def Shown (stbuf : Stat) : Setter → Prop
  | .chmod mode => stbuf.st_mode % 0o10000 = mode % 0o10000
  | .chown owner group =>
      (owner = -1 ∨ stbuf.st_uid = owner) ∧ (group = -1 ∨ stbuf.st_gid = group)
  | .truncate length => stbuf.st_size = length
  | .utimens ts => ts.1.Asks clock stbuf.st_atim ∧ ts.2.Asks clock stbuf.st_mtim
  | .mknod mode dev => stbuf.st_mode = mknodMode E.umask mode ∧ (isDevice mode → stbuf.st_rdev = dev)

/-- What was set is what the file has anyway. The owner and the nanoseconds are not taken from the reply, and the
caller's `stbuf` has them. -/
def Had (file : File) : Setter → Prop
  | .chmod mode => file.attr.mode % 0o10000 = mode % 0o10000
  | .chown owner group => (owner = -1 ∨ buf.st_uid = owner) ∧ (group = -1 ∨ buf.st_gid = group)
  | .truncate length => toInt64 file.content.length = length
  | .utimens ts => ts.1.Asks clock { buf.st_atim with tv_sec := toInt64 file.attr.atim.tv_sec } ∧
      ts.2.Asks clock { buf.st_mtim with tv_sec := toInt64 file.mtime.tv_sec }
  | .mknod mode dev => AFSClient.toUInt32 file.attr.mode = mknodMode E.umask mode ∧
      (isDevice mode → toUInt64 file.attr.rdev = dev)

/-- The path is a file on the server and has a temporary copy; for a new file the server has none. -/
def Applies : Setter → Prop
  | .mknod _ _ => w.srv.files.names (getServerPath path.bytes) = none
  | _ => w.srv.files.names (getServerPath path.bytes) ≠ none ∧
      w.files.names (getTempPath path) ≠ none

/-- If the handler returns 0, the next `getattr` returns 0 and reports what was set. -/
def Agrees (setter : Setter) : Prop :=
  (setter.call E path w).1 = 0 →
    (unreliableGetattr E' path buf (setter.call E path w).2).1.1 = 0 ∧
      setter.Shown E clock (unreliableGetattr E' path buf (setter.call E path w).2).1.2

/-- What `getattr` will have to say was so before: the server's file had it, or no reply arrives and
`stbuf` had it. -/
def ShownBefore (setter : Setter) : Prop :=
  match E'.rpc .getAttr with
  | .answered => E'.fails .getAttrLstat = none ∧ ∃ file,
      w.srv.files.find (getServerPath path.bytes) = some file ∧ setter.Had E buf clock file
  | _ => setter.Shown E clock buf

variable {E E'} {w} {path}

/-- A call that leaves the server as it is, and fails with an errno exactly under a condition. -/
def Outcome (call : Prog Int) (w : World) (bad : Prop) : Prop :=
  (call w).2.srv = w.srv ∧
    (((call w).1 = 0 ∧ ¬ bad) ∨ ((call w).1 = -1 ∧ 0 < (call w).2.errno ∧ bad))

omit [Sha256] in
theorem handler_result (hplain : E.injected = 0) {call : Prog Int} {bad : Prop} (h : Outcome call w bad) :
    let handler := unlessInjected E do
      let ret ← call
      orErrno ret
    (handler w).2.srv = w.srv ∧ ((handler w).1 = 0 ↔ ¬ bad) := by
  obtain ⟨hsrv, hcases⟩ := h
  dsimp only
  rw [unlessInjected_zero hplain, bind_run]
  refine ⟨(congrArg (·.srv) (orErrno_world _ _)).trans hsrv, ?_⟩
  rcases hcases with ⟨hret, hok⟩ | ⟨hret, herrno, hbad⟩
  · rw [hret]
    exact iff_of_true rfl hok
  · rw [hret]
    refine iff_of_false ?_ (not_not.mpr hbad)
    show ¬ -(call w).2.errno = 0
    omega

omit [Sha256] in
/-- A change of a file that is there. -/
theorem onFile_outcome (site : Site) {name : Bytes} (hname : w.files.names name ≠ none)
    (change : File → File) : Outcome (onFile E site name change) w (E.fails site ≠ none) := by
  obtain ⟨ino, hino⟩ := Option.ne_none_iff_exists'.mp hname
  unfold Outcome
  rcases onFile_run E site w name change with ⟨_, ⟨hok, _⟩, heq⟩ | ⟨hmissing, e, hpos, heq⟩
  · rw [heq]
    exact ⟨rfl, Or.inl ⟨rfl, fun h => h hok⟩⟩
  · rw [heq]
    exact ⟨rfl, Or.inr ⟨rfl, hpos, fun hok => hname (hmissing hok)⟩⟩

omit [Sha256] in
theorem posixTruncate_outcome (site : Site) {name : Bytes} (hname : w.files.names name ≠ none)
    (length : Int) :
    Outcome (posixTruncate E site name length) w (length < 0 ∨ E.fails site ≠ none) := by
  unfold posixTruncate
  by_cases hneg : length < 0
  · rw [if_pos hneg]
    exact ⟨rfl, Or.inr ⟨rfl, (by decide : (0 : Int) < EINVAL), Or.inl hneg⟩⟩
  · rw [if_neg hneg]
    have hchange := onFile_outcome (E := E) site hname fun file =>
      { file with content := resize file.content length.toNat, mtime := E.now site }
    rwa [← or_iff_right (b := E.fails site ≠ none) hneg] at hchange

omit [Sha256] in
theorem newNode_outcome (site : Site) (name content : Bytes) (attr : Attr) :
    Outcome (newNode E site name content attr) w (E.fails site ≠ none ∨ w.files.names name ≠ none) := by
  unfold Outcome
  rcases newNode_run E site w name content attr with ⟨⟨hok, hfree⟩, heq⟩ | ⟨htaken, e, hpos, heq⟩
  · rw [heq]
    exact ⟨rfl, Or.inl ⟨rfl, not_or.mpr ⟨not_not_intro hok, not_not_intro hfree⟩⟩⟩
  · rw [heq]
    exact ⟨rfl, Or.inr ⟨rfl, hpos, not_or_of_imp htaken⟩⟩

/-- A setter returns 0 exactly if its call does not fail, and leaves the server as it is. -/
theorem call_result (hplain : E.injected = 0) {setter : Setter} (happlies : setter.Applies path w) :
    (setter.call E path w).2.srv = w.srv ∧
      ((setter.call E path w).1 = 0 ↔ ¬ setter.Fails E path w) := by
  cases setter with
  | chmod mode => exact handler_result hplain (onFile_outcome .chmod happlies.2 _)
  | chown owner group => exact handler_result hplain (onFile_outcome .chown happlies.2 _)
  | truncate length => exact handler_result hplain (posixTruncate_outcome .truncate happlies.2 length)
  | utimens ts =>
      have hcall : unreliableUtimens E path ts = pure 0 := unlessInjected_zero hplain _
      show (unreliableUtimens E path ts w).2.srv = w.srv ∧ _
      exact ⟨by rw [hcall]; rfl, iff_of_true (by rw [call, hcall]; rfl) id⟩
  | mknod mode dev => exact handler_result hplain (newNode_outcome .mknod (getTempPath path) [] _)

omit [Sha256] in
/-- The mode goes through a field of 64 bits unchanged. -/
theorem toUInt32_toUInt64 (x : Int) : AFSClient.toUInt32 (toUInt64 x) = AFSClient.toUInt32 x :=
  Int.emod_emod_of_dvd x (by decide)

omit [Sha256] in
theorem toInt64_toUInt64_eq (x : Int) : toInt64 (toUInt64 x) = toInt64 x := by
  rw [toInt64, toInt64, toUInt64, show (2 ^ 64 : Int) = ((2 ^ 64 : Nat) : Int) by rfl, Int.emod_bmod]

omit [Sha256] in
/-- What the reply for a file leaves in `stbuf` shows what the file has. -/
theorem shown_fillStat_iff (setter : Setter) (ino : Nat) (file : File) (errorcode : Int) :
    setter.Shown E clock (AFSClient.fillStat buf (.ofStat (statOf ino file) errorcode)) ↔
      setter.Had E buf clock file := by
  have hmode : AFSClient.toUInt32 file.attr.mode % 0o10000 = file.attr.mode % 0o10000 :=
    Int.emod_emod_of_dvd _ (by decide)
  cases setter <;>
    simp only [Shown, Had, AFSClient.fillStat, StatResponse.ofStat, statOf, hmode, toInt64_toUInt64_eq,
      toUInt32_toUInt64]

omit [Sha256] in
theorem unreliableGetattr_plain (hplain : E'.injected = 0) :
    unreliableGetattr E' path buf = AFSClient.getAttr E' path buf :=
  answer_zero hplain _ _ _

omit [Sha256] in
/-- `getattr` returns 0 and shows what was set exactly if it would have before. -/
theorem getattr_shown_iff (hplain : E'.injected = 0) (setter : Setter) :
    ((unreliableGetattr E' path buf w).1.1 = 0 ∧
        setter.Shown E clock (unreliableGetattr E' path buf w).1.2) ↔
      setter.ShownBefore E E' path buf clock w := by
  rw [unreliableGetattr_plain buf hplain]
  unfold AFSClient.getAttr ShownBefore
  rw [bind_run]
  cases hrpc : E'.rpc .getAttr with
  | lost =>
      rw [RemoteOp.unary_failed (by rw [hrpc]; decide)]
      exact and_iff_right rfl
  | unanswered =>
      rw [RemoteOp.unary_failed (by rw [hrpc]; decide)]
      exact and_iff_right rfl
  | answered =>
      rw [RemoteOp.unary_answered hrpc]
      unfold FileServer.getAttr
      cases hfails : E'.fails .getAttrLstat with
      | some e =>
          have hpos := E'.fails_pos .getAttrLstat e hfails
          refine iff_of_false (fun h => ?_) fun h => nomatch h.1
          have hzero : -e = 0 := h.1
          omega
      | none =>
          cases hname : w.srv.files.names (getServerPath path.bytes) with
          | none =>
              have hneg : ¬ -ENOENT = 0 := by decide
              refine iff_of_false (fun h => hneg h.1) fun h => ?_
              obtain ⟨_, file, hfind, _⟩ := h
              rw [Fs.find_eq_none_iff.mpr hname] at hfind
              cases hfind
          | some ino =>
              simp only [Fs.find_of_names hname, Option.some.injEq, true_and,
                exists_eq_left']
              exact (and_iff_right rfl).trans
                (shown_fillStat_iff buf clock setter ino (w.srv.files.inode ino) 0)

/-- Setters and getter agree exactly if the setter fails, or what it was asked to set was so before. -/
theorem agrees_iff (hplain : E.injected = 0) (hplain' : E'.injected = 0) {setter : Setter}
    (happlies : setter.Applies path w) :
    setter.Agrees E E' path buf clock w ↔
      (setter.Fails E path w ∨ setter.ShownBefore E E' path buf clock w) := by
  obtain ⟨hsrv, hzero⟩ := call_result hplain happlies
  have hbefore : setter.ShownBefore E E' path buf clock (setter.call E path w).2 ↔
      setter.ShownBefore E E' path buf clock w := by
    unfold ShownBefore
    rw [hsrv]
  rw [Agrees, getattr_shown_iff buf clock hplain', hbefore, hzero]
  exact ⟨fun h => or_iff_not_imp_left.mpr h, fun h => or_iff_not_imp_left.mp h⟩

section Sample

/-- The server and the client have `/f`. -/
def sampleMeta : World where
  srv := ⟨(Fs.empty ⟨[], default, default⟩).create (getServerPath sampleF.bytes)
    ⟨ascii "data", ⟨1, 0⟩, default⟩, []⟩
  cl := ⟨(Fs.empty ⟨[], default, default⟩).create (getTempPath sampleF)
    ⟨ascii "data", ⟨1, 0⟩, default⟩, [], ∅, []⟩
  errno := 0

omit [Sha256] in
/-- A `truncate` to the length the file has agrees with `getattr`. -/
theorem agrees_iff_sample :
    letI := sampleSha256
    (Setter.truncate 4).Agrees (.smooth 5) (.smooth 6) sampleF default ⟨5, 0⟩ sampleMeta := by
  let _ := sampleSha256
  have happlies : (Setter.truncate 4).Applies sampleF sampleMeta := ⟨by decide, by decide⟩
  refine (agrees_iff default ⟨5, 0⟩ rfl rfl happlies).mpr (Or.inr ⟨rfl, _, rfl, ?_⟩)
  show toInt64 4 = 4
  decide

omit [Sha256] in
/-- A `truncate` to two bytes returns 0, and `getattr` reports four. -/
theorem truncate_not_shown :
    letI := sampleSha256
    (Setter.truncate 2).Applies sampleF sampleMeta ∧
      ((Setter.truncate 2).call (.smooth 5) sampleF sampleMeta).1 = 0 ∧
      (unreliableGetattr (.smooth 6) sampleF default
        ((Setter.truncate 2).call (.smooth 5) sampleF sampleMeta).2).1.2.st_size = 4 ∧
      ¬ (Setter.truncate 2).Agrees (.smooth 5) (.smooth 6) sampleF default ⟨5, 0⟩ sampleMeta := by
  let _ := sampleSha256
  refine ⟨⟨by decide, by decide⟩, by decide, by decide, fun h => ?_⟩
  have hshown := (h (by decide)).2
  exact absurd hshown (by unfold Shown; decide)

end Sample

end Setter

end Bnfs
