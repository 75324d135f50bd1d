import Bnfs.ModelInject
import Bnfs.ClientErrors
import Bnfs.ClientMountRuns
import Bnfs.ClientRename

/-! What the handlers return to FUSE: an errno negated, 0, or the number of bytes they moved. A marker of
`error_inject` that only `write` and `flush` look for, and the sign that `rename` turns, break this. -/

namespace Bnfs

open FileSystem Programs

section Calls

variable {E : Env} {site : Site}

/-- When it returns -1 the errno is a positive number. -/
def SetsErrno (x : Prog Int) : Prop := ∀ w, (x w).1 = -1 → 0 < (x w).2.errno

theorem setsErrno_failWith {e : Int} (h : 0 < e) : SetsErrno (failWith e) := fun _ _ => h

theorem setsErrno_of_ne {x : Prog Int} (h : ∀ w, (x w).1 ≠ -1) : SetsErrno x :=
  fun w hret => absurd hret (h w)

theorem setsErrno_attempt {call : Prog Int} (h : SetsErrno call) : SetsErrno (attempt E site call) := by
  unfold attempt
  cases hfails : E.fails site with
  | some e => exact setsErrno_failWith (E.fails_pos site e hfails)
  | none => exact h

theorem setsErrno_onFile (name : Bytes) (change : File → File) :
    SetsErrno (onFile E site name change) := by
  refine setsErrno_attempt fun w => ?_
  cases w.files.names name with
  | none => exact setsErrno_failWith (by decide : 0 < ENOENT) w
  | some ino => exact fun hret => absurd hret (by decide : ¬ (0 : Int) = -1)

theorem setsErrno_onFd (fd : Int) {call : Descriptor → Prog Int} (h : ∀ d, SetsErrno (call d)) :
    SetsErrno (onFd E site fd call) := by
  refine setsErrno_attempt fun w => ?_
  cases w.cl.fds.get fd with
  | none => exact setsErrno_failWith (by decide : 0 < EBADF) w
  | some d => exact h d w

theorem setsErrno_newNode (name content : Bytes) (attr : Attr) :
    SetsErrno (newNode E site name content attr) := by
  refine setsErrno_attempt fun w => ?_
  cases w.files.names name with
  | none => exact fun hret => absurd hret (by decide : ¬ (0 : Int) = -1)
  | some ino => exact setsErrno_failWith (by decide : 0 < EEXIST) w

theorem setsErrno_posixSymlink (target linkpath : Bytes) : SetsErrno (posixSymlink E target linkpath) := by
  refine setsErrno_attempt fun w => ?_
  split_ifs
  · exact setsErrno_failWith (by decide : 0 < EEXIST) w
  · exact fun hret => hret.elim
  · exact fun hret => hret.elim

theorem setsErrno_posixTruncate (name : Bytes) (length : Int) :
    SetsErrno (posixTruncate E site name length) := by
  unfold posixTruncate
  split_ifs
  · exact setsErrno_failWith (by decide : 0 < EINVAL)
  · exact setsErrno_onFile name _

theorem setsErrno_posixClose (fd : Int) : SetsErrno (posixClose fd) := by
  intro w
  unfold posixClose
  cases w.cl.fds.get fd with
  | none => exact setsErrno_failWith (by decide : 0 < EBADF) w
  | some d => exact fun hret => absurd hret (by decide : ¬ (0 : Int) = -1)

theorem setsErrno_posixCloseChecked (fd : Int) : SetsErrno (posixCloseChecked E site fd) := by
  intro w
  unfold posixCloseChecked
  cases w.cl.fds.get fd with
  | none => exact setsErrno_failWith (by decide : 0 < EBADF) w
  | some d =>
      exact setsErrno_attempt (setsErrno_of_ne fun _ => (by decide : ¬ (0 : Int) = -1)) _

theorem setsErrno_posixOpen (name : Bytes) (flags : OpenFlags) :
    SetsErrno (posixOpen E site name flags) := fun w hret =>
  posixOpen_errno (by rw [hret]; decide)

theorem setsErrno_posixPwrite (fd : Int) (data : Bytes) (offset : Nat) :
    SetsErrno (posixPwrite E site fd data offset) := by
  refine setsErrno_attempt fun w => ?_
  cases w.cl.fds.get fd with
  | none => exact setsErrno_failWith (by decide : 0 < EBADF) w
  | some d =>
      simp only
      split_ifs
      · exact setsErrno_failWith (by decide : 0 < EBADF) w
      · exact fun hret => hret.elim
      · exact fun hret => hret.elim

/-- `pread` hands over the bytes it counts, and not more than it was asked for. -/
theorem posixPread_cases (fd : Int) (size offset : Nat) (w : World) :
    ((posixPread E fd size offset w).1.1 = -1 ∧ 0 < (posixPread E fd size offset w).2.errno) ∨
    ((posixPread E fd size offset w).1.1 = (posixPread E fd size offset w).1.2.length ∧
      (posixPread E fd size offset w).1.2.length ≤ size) := by
  unfold posixPread
  cases hfails : E.fails .pread with
  | some e => exact Or.inl ⟨rfl, E.fails_pos .pread e hfails⟩
  | none =>
      cases w.cl.fds.get fd with
      | none => exact Or.inl ⟨rfl, (by decide : 0 < EBADF)⟩
      | some d => exact Or.inr ⟨rfl, List.length_take_le _ _⟩

/-- `pwrite` fails or takes some of the bytes. -/
theorem posixPwrite_cases (fd : Int) (data : Bytes) (offset : Nat) (w : World) :
    (posixPwrite E .pwrite fd data offset w).1 = -1 ∨
    (0 ≤ (posixPwrite E .pwrite fd data offset w).1 ∧
      (posixPwrite E .pwrite fd data offset w).1 ≤ data.length) := by
  have htakes : (E.takes data).length ≤ data.length := by
    unfold Env.takes
    split
    · exact le_refl _
    · exact List.length_take_le' _ _
  rcases posixPwrite_run E .pwrite w fd data offset with ⟨d, _, heq⟩ | ⟨e, _, heq⟩
  · rw [heq]
    exact Or.inr ⟨Int.natCast_nonneg _, Int.ofNat_le.mpr htakes⟩
  · rw [heq]
    exact Or.inl rfl

/-- `getxattr` and `listxattr` fail, tell the length, or hand the bytes over. -/
theorem readAttribute_cases (E : Env) (site : Site) (name : Bytes) (size : Nat)
    (value : File → Option Bytes) (w : World) :
    ((readAttribute E site name size value w).1.1 = -1 ∧
      0 < (readAttribute E site name size value w).2.errno ∧
      (E.fails site = none → size = 0 → ∀ file, w.files.find name = some file → value file = none)) ∨
    (∃ file data, E.fails site = none ∧ w.files.find name = some file ∧ value file = some data ∧
      (readAttribute E site name size value w).1 =
        ((data.length : Int), if size = 0 then [] else data) ∧
      (size ≠ 0 → data.length ≤ size)) := by
  unfold readAttribute
  cases hfails : E.fails site with
  | some e => exact Or.inl ⟨rfl, E.fails_pos site e hfails, (fun h => nomatch h)⟩
  | none =>
      cases hfind : w.files.find name with
      | none => exact Or.inl ⟨rfl, (by decide : 0 < ENOENT), fun _ _ _ h => nomatch h⟩
      | some file =>
          simp only
          cases hvalue : value file with
          | none =>
              refine Or.inl ⟨rfl, (by decide : 0 < ENODATA), fun _ _ other hother => ?_⟩
              rw [← Option.some.inj hother]
              exact hvalue
          | some data =>
              simp only
              split_ifs with hsize hlength
              · exact Or.inr ⟨file, data, trivial, rfl, hvalue, rfl, fun h => absurd hsize h⟩
              · exact Or.inl ⟨rfl, (by decide : 0 < ERANGE), fun _ h => absurd h hsize⟩
              · exact Or.inr ⟨file, data, trivial, rfl, hvalue, rfl, fun _ => not_lt.mp hlength⟩

/-- The closing lines of a handler make an errno negated of -1, and 0 of everything else. -/
theorem orErrno_nonpos {call : Prog Int} (h : SetsErrno call) (w : World) :
    ((do
      let ret ← call
      orErrno ret) w).1 ≤ 0 := by
  rw [bind_run]
  unfold orErrno
  split_ifs with hret
  · have hpos := h w hret
    show -(call w).2.errno ≤ 0
    omega
  · exact le_refl 0

end Calls

namespace FuseCall

section Injection

variable [PosixRegex] (reread : Option (List ErrinjConf)) (conf : UnreliablefsConfig) (draws : Draws)
  (path : Bytes)

/-- The environment of a call whose injections are those of the configuration. -/
def under (E : Env) (c : FuseCall) : Env :=
  match c.op with
  | none => E
  | some op => { E with injected := (errorInject reread conf draws path op).1 }

/-- The type of the entry that settles what is injected, if one does. -/
def verdict (c : FuseCall) : Option ErrinjType :=
  c.op.bind fun op => (decisive conf draws path op).map fun entry => entry.1.type

end Injection

variable [Sha256] (E : Env) (w : World)

/-- The size that was asked for, for the handlers that move bytes. -/
def requested : FuseCall → Option Nat
  | .read _ size _ _ | .getxattr _ _ size | .listxattr _ size => some size
  | .write _ buf _ _ => some buf.length
  | _ => none

/-- The bytes `pwrite` takes of a write that is not kept from making the call. -/
def bytesTaken (path : CString) (buf : Bytes) (offset : Nat) (fi : Option FuseFileInfo) : Nat :=
  if E.injected = 0 then
    ((handleFd E .writeOpen path fi O_WRONLY >>= fun fd => posixPwrite E .pwrite fd buf offset)
      w).1.toNat
  else 0

/-- How many bytes a call moves. -/
def moved : FuseCall → Nat
  | .read path size offset fi => (unreliableRead E path size offset fi w).1.2.length
  | .write path buf offset fi => bytesTaken E w path buf offset fi
  | .getxattr path name size => (unreliableGetxattr E path name size w).1.2.length
  | .listxattr path size => (unreliableListxattr E path size w).1.2.length
  | _ => 0

/-- A handler returns an errno negated or 0, or the bytes it moved, and not more than it was asked for; an
`ioctl` that is made returns what the call does. -/
def Convention (c : FuseCall) : Prop :=
  c.result E w ≤ 0 ∨
  (∃ size, c.requested = some size ∧ c.result E w = c.moved E w ∧ c.result E w ≤ size) ∨
  (∃ fi, c = .ioctl fi ∧ E.injected = 0 ∧ c.result E w = E.ioctlResult)

/-- One of the three calls of `Rename` fails: `rename` on the temporary copy, made if the persistent copy
opens on a descriptor above 0, the RPC, or the server's `rename`. -/
def RenameFails (oldpath newpath : CString) : Prop :=
  ((E.fails .isPresentInCache = none ∧ w.files.names (getCachePath oldpath) ≠ none ∧
      w.cl.fds.get 0 ≠ none) ∧
    (E.fails .clientRenameRename ≠ none ∨ w.files.names (getTempPath oldpath) = none)) ∨
  E.rpc .rename ≠ .answered ∨ (RemoteOp.rename oldpath newpath).errno E w.srv ≠ none

/-- The temporary copy has a name to list. -/
def Lists (path : CString) : Prop :=
  E.fails .listxattr = none ∧
    ∃ file, w.files.find (getTempPath path) = some file ∧ file.attr.xattrs ≠ []

/-- The cases in which the convention is broken: a call is put off and is neither a `flush` nor a `write`
of nothing, a `rename` fails, or `listxattr` asks for the length of a list. -/
def Breaks (verdict : Option ErrinjType) : FuseCall → Prop
  | .init | .destroy | .flush .. => False
  | .write _ buf _ _ => PutOff verdict ∧ buf ≠ []
  | .rename oldpath newpath => PutOff verdict ∨ (verdict = none ∧ RenameFails E w oldpath newpath)
  | .listxattr path size => PutOff verdict ∨ (verdict = none ∧ size = 0 ∧ Lists E w path)
  | _ => PutOff verdict
where
  PutOff (verdict : Option ErrinjType) : Prop :=
    verdict = some .aliceReorder ∨ verdict = some .aliceDelay

/-- What a handler makes of a value that was injected. -/
def passed (rc : Int) : FuseCall → Int
  | .write _ buf _ _ => if rc = -ERR_INSERT_TO_QUEUE then buf.length else rc
  | .flush .. => if rc = -ERR_INSERT_TO_QUEUE then 0 else rc
  | _ => rc

variable {E} {w}

theorem result_of_injected {c : FuseCall} (hop : c.op ≠ none) (h : E.injected ≠ 0) :
    c.result E w = if E.injected = -ERRNO_NOOP then 0 else c.passed E.injected := by
  have hunless : ∀ body : Prog Int, (unlessInjected E body w).1 =
      if E.injected = -ERRNO_NOOP then 0 else E.injected := by
    intro body
    unfold unlessInjected
    rw [if_pos h]
    split_ifs <;> rfl
  cases c with
  | init => exact absurd rfl hop
  | destroy => exact absurd rfl hop
  | write path buf offset fi =>
      simp only [result, unreliableWrite, passed, if_pos h]
      split_ifs <;> rfl
  | flush path fi =>
      simp only [result, unreliableFlush, passed, if_pos h]
      split_ifs <;> rfl
  | getattr path buf =>
      simp only [result, unreliableGetattr, passed, if_pos h]
      split_ifs <;> rfl
  | read path size offset fi =>
      simp only [result, unreliableRead, passed, if_pos h]
      split_ifs <;> rfl
  | getxattr path name size =>
      simp only [result, unreliableGetxattr, passed, if_pos h]
      split_ifs <;> rfl
  | listxattr path size =>
      simp only [result, unreliableListxattr, passed, if_pos h]
      split_ifs <;> rfl
  | readdir path =>
      simp only [result, unreliableReaddir, passed, if_pos h]
      split_ifs <;> rfl
  | openFile path fi =>
      simp only [result, unreliableOpen, openHandle, passed, if_pos h]
      split_ifs <;> rfl
  | create path fi =>
      simp only [result, unreliableCreate, openHandle, passed, if_pos h]
      split_ifs <;> rfl
  | fgetattr buf fi =>
      simp only [result, unreliableFgetattr, passed, if_pos h]
      split_ifs <;> rfl
  | _ => exact hunless _

/-- A call that was injected into moves nothing. -/
theorem moved_of_injected (h : E.injected ≠ 0) (c : FuseCall) : c.moved E w = 0 := by
  cases c with
  | read path size offset fi =>
      simp only [moved, unreliableRead, if_pos h]
      split_ifs <;> rfl
  | getxattr path name size =>
      simp only [moved, unreliableGetxattr, if_pos h]
      split_ifs <;> rfl
  | listxattr path size =>
      simp only [moved, unreliableListxattr, if_pos h]
      split_ifs <;> rfl
  | write path buf offset fi => exact if_neg h
  | _ => rfl

/-- The handlers whose results may be positive. -/
def Counts : FuseCall → Prop
  | .read .. | .write .. | .getxattr .. | .listxattr .. | .ioctl .. | .rename .. => True
  | _ => False

omit [Sha256] in
theorem baseResult_nonpos (reply : Option Int) : AFSClient.baseResult reply ≤ 0 := by
  unfold AFSClient.baseResult
  cases reply with
  | none => exact le_refl 0
  | some errorcode =>
      simp only
      split_ifs <;> omega

section Nonpos

variable (hplain : E.injected = 0)
include hplain

omit [Sha256] in
theorem handler_nonpos {call : Prog Int} (hcall : SetsErrno call) : (unlessInjected E (do
    let ret ← call
    orErrno ret) w).1 ≤ 0 := by
  rw [unlessInjected_zero hplain]
  exact orErrno_nonpos hcall w

omit [Sha256] in
theorem body_nonpos {body : Prog Int} (hbody : (body w).1 ≤ 0) : (unlessInjected E body w).1 ≤ 0 := by
  rw [unlessInjected_zero hplain]
  exact hbody

theorem openHandle_nonpos (path : CString) (fi : FuseFileInfo) (is_create : Bool) :
    (openHandle E path fi is_create w).1.1 ≤ 0 := by
  rw [openHandle_plain path hplain, bind_run]
  split_ifs with hret
  · exact le_of_lt hret
  · exact le_refl 0

theorem unreliableGetattr_nonpos (path : CString) (buf : Stat) : (unreliableGetattr E path buf w).1.1 ≤ 0 := by
  have hresult : (RemoteOp.getAttr path buf).result E w = _ := RemoteOp.result_of_field trivial
  unfold unreliableGetattr
  rw [answer_zero hplain]
  show (RemoteOp.getAttr path buf).result E w ≤ 0
  rw [hresult]
  split_ifs
  · exact RemoteOp.errorcode_nonpos
  · exact le_refl 0

theorem unreliableReaddir_nonpos (path : CString) : (unreliableReaddir E path w).1.1 ≤ 0 := by
  have hresult := RemoteOp.result_readDir (E := E) (w := w) path
  unfold unreliableReaddir
  rw [answer_zero hplain]
  show (RemoteOp.readDir path).result E w ≤ 0
  rw [hresult]
  cases (RemoteOp.readDir path).errno E w.srv with
  | none =>
      simp only
      split_ifs <;> decide
  | some e =>
      simp only
      split_ifs <;> decide

theorem unreliableFlush_nonpos (path : CString) (fi : FuseFileInfo) : (unreliableFlush E path fi w).1 ≤ 0 := by
  rw [unreliableFlush_plain path fi hplain]
  unfold flushThrough
  rw [bind_run, bind_run]
  split_ifs with hret
  · have hpos := setsErrno_posixClose _ _ hret
    exact Int.neg_nonpos_of_nonneg (le_of_lt hpos)
  · exact le_refl 0

omit [Sha256] in
theorem unreliableFgetattr_nonpos (buf : Stat) (fi : FuseFileInfo) :
    (unreliableFgetattr E buf fi w).1.1 ≤ 0 := by
  unfold unreliableFgetattr
  rw [answer_zero hplain]
  cases hfails : E.fails .fstat with
  | some e =>
      have hpos := E.fails_pos .fstat e hfails
      exact Int.neg_nonpos_of_nonneg (le_of_lt hpos)
  | none =>
      cases w.cl.fds.get fi.fh with
      | none => exact (by decide : -EBADF ≤ 0)
      | some d => exact le_refl 0

end Nonpos

omit [Sha256] in
theorem posixLink_nonpos (oldpath newpath : Bytes) : (posixLink E oldpath newpath w).1 ≤ 0 := by
  unfold posixLink attempt
  cases E.fails .link with
  | some e => exact (by decide : (-1 : Int) ≤ 0)
  | none =>
      simp only
      split_ifs
      · exact (by decide : (-1 : Int) ≤ 0)
      · exact (by decide : (-1 : Int) ≤ 0)
      · exact le_refl 0

omit [Sha256] in
theorem unreliableFsyncdir_nonpos (hplain : E.injected = 0) (path : CString) :
    (unreliableFsyncdir E path w).1 ≤ 0 := by
  have hopen : SetsErrno (posixOpen E .fsyncdirOpendir path.bytes O_RDONLY) := setsErrno_posixOpen _ _
  have hsync : SetsErrno (onFd E .fsyncdirFsync (posixOpen E .fsyncdirOpendir path.bytes O_RDONLY w).1
      fun _ => pure 0) := setsErrno_onFd _ fun _ => setsErrno_of_ne fun _ => (by decide : ¬ (0 : Int) = -1)
  refine body_nonpos hplain ?_
  rw [bind_run]
  split_ifs with hfailed
  · exact Int.neg_nonpos_of_nonneg (le_of_lt (hopen w hfailed))
  · rw [bind_run]
    split_ifs with hunsynced
    · exact Int.neg_nonpos_of_nonneg (le_of_lt (hsync _ hunsynced))
    · exact le_refl 0

/-- The other handlers return an errno negated or 0. -/
theorem result_nonpos (hplain : E.injected = 0) {c : FuseCall} (hc : ¬ c.Counts) :
    c.result E w ≤ 0 := by
  have hzero : ∀ d : Descriptor, SetsErrno (pure 0) := fun _ =>
    setsErrno_of_ne fun _ => (by decide : ¬ (0 : Int) = -1)
  cases c with
  | read => exact absurd trivial hc
  | write => exact absurd trivial hc
  | getxattr => exact absurd trivial hc
  | listxattr => exact absurd trivial hc
  | ioctl => exact absurd trivial hc
  | rename => exact absurd trivial hc
  | getattr path buf => exact unreliableGetattr_nonpos hplain path buf
  | readlink path => exact handler_nonpos hplain (setsErrno_onFile _ _)
  | mknod path mode dev => exact handler_nonpos hplain (setsErrno_newNode _ _ _)
  | mkdir path mode => exact body_nonpos hplain (baseResult_nonpos _)
  | unlink path =>
      refine body_nonpos hplain ?_
      rw [bind_run]
      split_ifs with hret
      · exact le_of_lt hret
      · exact le_refl 0
  | rmdir path => exact body_nonpos hplain (baseResult_nonpos _)
  | symlink target linkpath => exact handler_nonpos hplain (setsErrno_posixSymlink _ _)
  | link oldpath newpath => exact body_nonpos hplain (posixLink_nonpos _ _)
  | chmod path mode => exact handler_nonpos hplain (setsErrno_onFile _ _)
  | chown path owner group => exact handler_nonpos hplain (setsErrno_onFile _ _)
  | truncate path length => exact handler_nonpos hplain (setsErrno_posixTruncate _ _)
  | openFile path fi => exact openHandle_nonpos hplain path fi false
  | statfs path => exact handler_nonpos hplain (setsErrno_onFile _ _)
  | flush path fi => exact unreliableFlush_nonpos hplain path fi
  | release fi => exact handler_nonpos hplain (setsErrno_posixCloseChecked _)
  | fsync fi => exact handler_nonpos hplain (setsErrno_onFd _ hzero)
  | setxattr path name value => exact handler_nonpos hplain (setsErrno_onFile _ _)
  | removexattr path name => exact handler_nonpos hplain (setsErrno_onFile _ _)
  | opendir => exact body_nonpos hplain (le_refl 0)
  | readdir path => exact unreliableReaddir_nonpos hplain path
  | releasedir => exact handler_nonpos hplain (setsErrno_attempt (hzero ⟨0, 0⟩))
  | fsyncdir path => exact unreliableFsyncdir_nonpos hplain path
  | init => exact le_refl 0
  | destroy => exact le_refl 0
  | access path => exact body_nonpos hplain (baseResult_nonpos _)
  | create path fi => exact openHandle_nonpos hplain path fi true
  | ftruncate path length => exact handler_nonpos hplain (setsErrno_posixTruncate _ _)
  | fgetattr buf fi => exact unreliableFgetattr_nonpos hplain buf fi
  | lock fi => exact handler_nonpos hplain (setsErrno_onFd _ hzero)
  | flock fi => exact handler_nonpos hplain (setsErrno_onFd _ hzero)
  | fallocate mode offset len fi =>
      refine body_nonpos hplain ?_
      split_ifs
      · exact (by decide : -EOPNOTSUPP ≤ 0)
      · refine orErrno_nonpos (setsErrno_onFd _ fun d w => ?_) w
        split_ifs
        · exact setsErrno_failWith (by decide : 0 < EBADF) w
        · simp only
          split_ifs <;> exact fun hret => hret.elim
  | utimens path ts => exact body_nonpos hplain (le_refl 0)

/-- `Rename` fails exactly if one of its calls does. -/
theorem rename_neg_iff (old_path new_path : CString) :
    (AFSClient.rename E old_path new_path w).1 < 0 ↔ RenameFails E w old_path new_path := by
  have hremote : ∀ w' : World, w'.srv = w.srv →
      ((AFSClient.renameOnServer E old_path new_path w').1 < 0 ↔
        (E.rpc .rename ≠ .answered ∨ (RemoteOp.rename old_path new_path).errno E w.srv ≠ none)) := by
    intro w' hsrv
    have hsome := RemoteOp.unary_isSome (E := E) (w := w') (r := .rename)
      (RemoteOp.rename_reply E w'.srv old_path new_path)
    rw [hsrv] at hsome
    rw [renameOnServer_run, ← not_and_or, ← hsome]
    dsimp only
    split_ifs with h
    · exact iff_of_false (lt_irrefl 0) (not_not.mpr h)
    · exact iff_of_true (by decide) h
  have hopened := isPresentInCache_pos_iff E old_path w
  rcases rename_cases E old_path new_path w with ⟨hfd, heq⟩ | ⟨hfd, hfails, heq⟩ | ⟨hmoves, heq⟩
  · rw [heq, hremote _ (isPresentInCache_same E old_path w).srv]
    exact ⟨Or.inr, fun h => h.resolve_left fun hlocal => hfd (hopened.mpr hlocal.1)⟩
  · rw [heq]
    refine iff_of_true (Int.neg_neg_of_pos (errno_or_enoent_pos E .clientRenameRename))
      (Or.inl ⟨hopened.mp hfd, ?_⟩)
    rwa [not_and_or, not_not] at hfails
  · rw [heq, hremote _ (carried_srv E old_path new_path w)]
    exact ⟨Or.inr, fun h => h.resolve_left fun hlocal => hlocal.2.elim (· hmoves.2.1) hmoves.2.2⟩

/-- An errno negated, 0, or the number of the bytes handed over. -/
def Answers (size : Nat) (answer : Int × Bytes) : Prop :=
  answer.1 ≤ 0 ∨ (answer.1 = answer.2.length ∧ answer.1 ≤ size)

omit [Sha256] in
/-- The closing lines of a handler that hands bytes over. -/
theorem answers_of_count {size : Nat} {errno : Int} {ret : Int × Bytes}
    (h : (ret.1 = -1 ∧ 0 < errno) ∨ (ret.1 = ret.2.length ∧ ret.2.length ≤ size)) :
    Answers size (if ret.1 = -1 then (-errno, []) else ret) := by
  rcases h with ⟨hret, herrno⟩ | ⟨hret, hsize⟩
  · rw [if_pos hret]
    exact Or.inl (Int.neg_nonpos_of_nonneg (le_of_lt herrno))
  · rw [if_neg (by omega)]
    exact Or.inr ⟨hret, by omega⟩

theorem read_convention (hplain : E.injected = 0) (path : CString) (size offset : Nat)
    (fi : Option FuseFileInfo) : (FuseCall.read path size offset fi).Convention E w := by
  suffices hanswers : Answers size (unreliableRead E path size offset fi w).1 from
    hanswers.imp_right fun hmoved => Or.inl ⟨size, rfl, hmoved⟩
  unfold unreliableRead
  rw [answer_zero hplain, bind_run]
  split_ifs with hfd
  · refine Or.inl (Int.neg_nonpos_of_nonneg (le_of_lt ?_))
    cases fi with
    | none => exact setsErrno_posixOpen path.bytes O_RDONLY w hfd
    | some fi =>
        have hne : ¬ ((fi.fh : Nat) : Int) = -1 := by omega
        exact absurd hfd hne
  · have hcount := answers_of_count (posixPread_cases (E := E) (handleFd E .readOpen path fi O_RDONLY w).1 size
      offset (handleFd E .readOpen path fi O_RDONLY w).2)
    simp only [bind_run]
    split_ifs at hcount ⊢ with hret <;> exact hcount

theorem getxattr_convention (hplain : E.injected = 0) (path : CString) (name : Bytes) (size : Nat) :
    (FuseCall.getxattr path name size).Convention E w := by
  refine Or.inl ?_
  show (unreliableGetxattr E path name size w).1.1 ≤ 0
  unfold unreliableGetxattr
  rw [answer_zero hplain]
  simp only [bind_run]
  rcases readAttribute_cases E .getxattr (getTempPath path) size
    (fun file => (file.attr.xattrs.find? fun entry => entry.1 = name).map (·.2)) w with
    ⟨hret, herrno, _⟩ | ⟨file, data, _, _, _, hret, _⟩
  · rw [if_pos hret]
    exact Int.neg_nonpos_of_nonneg (le_of_lt herrno)
  · have hne : ¬ ((data.length : Int) = -1) := by omega
    simp only [hret, if_neg hne]
    exact le_refl 0

omit [Sha256] in
/-- The names of a list with their terminators take up no bytes only if there are none. -/
theorem flatMap_names_eq_nil {xattrs : List (Bytes × Bytes)} :
    (xattrs.flatMap fun entry => entry.1 ++ [0]) = [] ↔ xattrs = [] := by
  cases xattrs with
  | nil => exact iff_of_true rfl rfl
  | cons entry rest =>
      rw [List.flatMap_cons]
      exact iff_of_false (by simp) (by simp)

theorem listxattr_convention_iff (hplain : E.injected = 0) (path : CString) (size : Nat) :
    (FuseCall.listxattr path size).Convention E w ↔ ¬ (size = 0 ∧ Lists E w path) := by
  have hconvention : (FuseCall.listxattr path size).Convention E w ↔
      Answers size (unreliableListxattr E path size w).1 := by
    constructor
    · rintro (hnonpos | ⟨asked, hasked, hmoved⟩ | ⟨fi, hioctl, _⟩)
      · exact Or.inl hnonpos
      · cases hasked
        exact Or.inr hmoved
      · cases hioctl
    · exact fun h => h.imp_right fun hmoved => Or.inl ⟨size, rfl, hmoved⟩
  have hbody : (unreliableListxattr E path size w).1 =
      let ret := readAttribute E .listxattr (getTempPath path) size (fun file =>
        some (file.attr.xattrs.flatMap fun entry => entry.1 ++ [0])) w
      if ret.1.1 = -1 then (-ret.2.errno, []) else ret.1 := by
    unfold unreliableListxattr
    rw [answer_zero hplain]
    simp only [bind_run]
    split_ifs <;> rfl
  rw [hconvention, hbody]
  rcases readAttribute_cases E .listxattr (getTempPath path) size
    (fun file => some (file.attr.xattrs.flatMap fun entry => entry.1 ++ [0])) w with
    ⟨hret, herrno, hnone⟩ | ⟨file, data, hfails, hfind, hvalue, hret, hsize⟩
  · refine iff_of_true (answers_of_count (Or.inl ⟨hret, herrno⟩)) ?_
    rintro ⟨hzero, hsite, file, hfind, _⟩
    cases hnone hsite hzero file hfind
  · have hne : ¬ ((data.length : Int) = -1) := by omega
    have hnil : data = [] ↔ file.attr.xattrs = [] := by
      rw [← Option.some.inj hvalue]
      exact flatMap_names_eq_nil
    simp only [hret, if_neg hne]
    by_cases hzero : size = 0
    · rw [if_pos hzero]
      constructor
      · rintro hanswers ⟨_, _, other, hother, hnames⟩
        have hsame := Option.some.inj (hfind.symm.trans hother)
        have hpos := List.length_pos_of_ne_nil fun h => hnames (hsame ▸ hnil.mp h)
        rcases hanswers with hnonpos | ⟨_, hle⟩
        · have hlength : (data.length : Int) ≤ 0 := hnonpos
          omega
        · have hlength : (data.length : Int) ≤ size := hle
          omega
      · intro hnot
        have hempty : data = [] := by
          by_contra hdata
          exact hnot ⟨hzero, hfails, file, hfind, fun h => hdata (hnil.mpr h)⟩
        rw [hempty]
        exact Or.inl (le_refl 0)
    · rw [if_neg hzero]
      exact iff_of_true (Or.inr ⟨rfl, Int.ofNat_le.mpr (hsize hzero)⟩) fun h => hzero h.1

theorem write_convention (hplain : E.injected = 0) (path : CString) (buf : Bytes) (offset : Nat)
    (fi : Option FuseFileInfo) : (FuseCall.write path buf offset fi).Convention E w := by
  have htaken : bytesTaken E w path buf offset fi =
      (posixPwrite E .pwrite (handleFd E .writeOpen path fi O_WRONLY w).1 buf offset
        (handleFd E .writeOpen path fi O_WRONLY w).2).1.toNat := if_pos hplain
  suffices hresult : (unreliableWrite E path buf offset fi w).1 ≤ 0 ∨
      ((unreliableWrite E path buf offset fi w).1 = bytesTaken E w path buf offset fi ∧
        (unreliableWrite E path buf offset fi w).1 ≤ buf.length) from
    hresult.imp_right fun hmoved => Or.inl ⟨buf.length, rfl, hmoved⟩
  rw [htaken]
  rw [unreliableWrite_plain path hplain]
  unfold writeThrough
  rw [bind_run]
  split_ifs with hfd
  · refine Or.inl (Int.neg_nonpos_of_nonneg (le_of_lt ?_))
    cases fi with
    | none => exact setsErrno_posixOpen path.bytes O_WRONLY w hfd
    | some fi =>
        have hne : ¬ ((fi.fh : Nat) : Int) = -1 := by omega
        exact absurd hfd hne
  · simp only [bind_run]
    split_ifs with hret
    · exact Or.inl (Int.neg_nonpos_of_nonneg (le_of_lt (setsErrno_posixPwrite _ buf offset _ hret)))
    · have hcount := (posixPwrite_cases (E := E) _ buf offset _).resolve_left hret
      exact Or.inr ⟨(Int.toNat_of_nonneg hcount.1).symm, hcount.2⟩

theorem ioctl_convention (hplain : E.injected = 0) (fi : FuseFileInfo) :
    (FuseCall.ioctl fi).Convention E w := by
  suffices hresult : (unreliableIoctl E fi w).1 ≤ 0 ∨ (unreliableIoctl E fi w).1 = E.ioctlResult from
    hresult.imp_right fun h => Or.inr ⟨fi, rfl, hplain, h⟩
  unfold unreliableIoctl
  rw [unlessInjected_zero hplain, bind_run]
  rcases onFd_run E .ioctl w fi.fh (fun d w => ((E.ioctlResult : Int), w.setFiles (w.files.setInode d.ino
      { w.files.inode d.ino with attr := E.ioctlAttr (w.files.inode d.ino).attr }))) with
    ⟨d, _, hret⟩ | ⟨_, e, hpos, hret⟩
  · have hne : ¬ ((E.ioctlResult : Nat) : Int) = -1 := by omega
    rw [bind_run, hret, if_neg hne]
    exact Or.inr rfl
  · have hfailed : (failWith e w).1 = -1 := rfl
    rw [bind_run, hret, if_pos hfailed]
    exact Or.inl (Int.neg_nonpos_of_nonneg hpos.le)

theorem rename_convention_iff (hplain : E.injected = 0) (oldpath newpath : CString) :
    (FuseCall.rename oldpath newpath).Convention E w ↔ ¬ RenameFails E w oldpath newpath := by
  have hresult : (FuseCall.rename oldpath newpath).result E w =
      if (AFSClient.rename E oldpath newpath w).1 < 0 then
        -(AFSClient.rename E oldpath newpath w).1 else 0 := by
    show (unreliableRename E oldpath newpath w).1 = _
    unfold unreliableRename
    rw [unlessInjected_zero hplain, bind_run]
    split_ifs <;> rfl
  rw [← rename_neg_iff]
  constructor
  · rintro (hnonpos | ⟨size, hsize, _⟩ | ⟨fi, hioctl, _⟩) hneg
    · rw [hresult, if_pos hneg] at hnonpos
      omega
    · cases hsize
    · cases hioctl
  · intro hneg
    exact Or.inl (by rw [hresult, if_neg hneg])

/-! ### The convention and what breaks it -/

/-- Nothing was injected. -/
theorem convention_plain_iff (hplain : E.injected = 0) (c : FuseCall) :
    c.Convention E w ↔ ¬ c.Breaks E w none := by
  have hnone : ¬ Breaks.PutOff none := by rintro (h | h) <;> cases h
  cases c with
  | read path size offset fi => exact iff_of_true (read_convention hplain path size offset fi) hnone
  | write path buf offset fi =>
      exact iff_of_true (write_convention hplain path buf offset fi) fun h => hnone h.1
  | getxattr path name size => exact iff_of_true (getxattr_convention hplain path name size) hnone
  | listxattr path size =>
      refine (listxattr_convention_iff hplain path size).trans (not_congr ?_)
      exact ⟨fun h => Or.inr ⟨rfl, h⟩, fun h => (h.resolve_left hnone).2⟩
  | ioctl fi => exact iff_of_true (ioctl_convention hplain fi) hnone
  | rename oldpath newpath =>
      refine (rename_convention_iff hplain oldpath newpath).trans (not_congr ?_)
      exact ⟨fun h => Or.inr ⟨rfl, h⟩, fun h => (h.resolve_left hnone).2⟩
  | init => exact iff_of_true (Or.inl (le_refl 0)) id
  | destroy => exact iff_of_true (Or.inl (le_refl 0)) id
  | flush path fi => exact iff_of_true (Or.inl (result_nonpos hplain id)) id
  | _ => exact iff_of_true (Or.inl (result_nonpos hplain id)) hnone

/-- Nothing was done, or an errno was injected. -/
theorem convention_of_injected {c : FuseCall} (hop : c.op ≠ none)
    (h : E.injected = -ERRNO_NOOP ∨ E.injected < 0) : c.Convention E w := by
  refine Or.inl ?_
  have hne : E.injected ≠ 0 := by
    rcases h with h | h
    · rw [h]
      decide
    · omega
  rw [result_of_injected hop hne]
  split_ifs with hnoop
  · exact le_refl 0
  · have hneg := h.resolve_left hnoop
    have hqueue : ¬ E.injected = -ERR_INSERT_TO_QUEUE := fun heq => by
      rw [heq] at hneg
      exact absurd hneg (by decide)
    have hpassed : c.passed E.injected = E.injected := by
      cases c with
      | write => exact if_neg hqueue
      | flush => exact if_neg hqueue
      | _ => rfl
    rw [hpassed]
    exact le_of_lt hneg

/-- The call was to be put off. -/
theorem convention_putOff_iff {c : FuseCall} {verdict : Option ErrinjType} (hop : c.op ≠ none)
    (h : E.injected = -ERR_INSERT_TO_QUEUE) (hverdict : Breaks.PutOff verdict) :
    c.Convention E w ↔ ¬ c.Breaks E w verdict := by
  have hne : E.injected ≠ 0 := by
    rw [h]
    decide
  have hresult : c.result E w = c.passed E.injected := by
    rw [result_of_injected hop hne, if_neg (by rw [h]; decide)]
  have hmoved := moved_of_injected (w := w) hne c
  have hconvention : c.Convention E w ↔ c.passed E.injected ≤ 0 := by
    refine ⟨fun hc => ?_, fun hpassed => Or.inl (by rw [hresult]; exact hpassed)⟩
    rcases hc with hnonpos | ⟨_, _, hcount, _⟩ | ⟨_, _, hplain, _⟩
    · rw [hresult] at hnonpos
      exact hnonpos
    · rw [hresult, hmoved] at hcount
      exact le_of_eq hcount
    · exact absurd hplain hne
  have hleaves : c.passed E.injected = E.injected → c.Breaks E w verdict →
      (c.Convention E w ↔ ¬ c.Breaks E w verdict) := by
    intro hpassed hbreaks
    refine hconvention.trans (iff_of_false ?_ (not_not.mpr hbreaks))
    rw [hpassed, h]
    decide
  cases c with
  | init => exact absurd rfl hop
  | destroy => exact absurd rfl hop
  | flush path fi =>
      refine hconvention.trans (iff_of_true ?_ id)
      exact le_of_eq (if_pos h)
  | write path buf offset fi =>
      have hpassed : (FuseCall.write path buf offset fi).passed E.injected = buf.length := if_pos h
      rw [hconvention, hpassed]
      constructor
      · intro hlength hbreaks
        have hpos := List.length_pos_of_ne_nil hbreaks.2
        omega
      · intro hnot
        have hnil : buf = [] := by
          by_contra hbuf
          exact hnot ⟨hverdict, hbuf⟩
        rw [hnil]
        exact le_refl 0
  | rename oldpath newpath => exact hleaves rfl (Or.inl hverdict)
  | listxattr path size => exact hleaves rfl (Or.inl hverdict)
  | _ => exact hleaves rfl hverdict

/-- Where an entry settles what is injected, only a call that is put off breaks the convention. -/
theorem putOff_of_breaks {c : FuseCall} {type : ErrinjType} (h : c.Breaks E w (some type)) :
    Breaks.PutOff (some type) := by
  cases c with
  | init => exact h.elim
  | destroy => exact h.elim
  | flush => exact h.elim
  | write => exact h.1
  | rename => exact h.resolve_right fun hnone => nomatch hnone.1
  | listxattr => exact h.resolve_right fun hnone => nomatch hnone.1
  | _ => exact h

/-- What was injected by an entry of a type that sets the `rc`. -/
theorem convention_of_type {c : FuseCall} (hop : c.op ≠ none) {type : ErrinjType} (hsets : type.sets = true)
    {errno : Int} (herrno : 0 < errno) (hinjected : E.injected = type.apply errno 0) :
    c.Convention E w ↔ ¬ c.Breaks E w (some type) := by
  have hfine : E.injected = -ERRNO_NOOP ∨ E.injected < 0 → ¬ Breaks.PutOff (some type) →
      (c.Convention E w ↔ ¬ c.Breaks E w (some type)) :=
    fun hinjected hnot => iff_of_true (convention_of_injected hop hinjected)
      fun hbreaks => hnot (putOff_of_breaks hbreaks)
  cases type with
  | killCaller => cases hsets
  | slowdown => cases hsets
  | noop => exact hfine (Or.inl hinjected) (by rintro (h | h) <;> cases h)
  | errno =>
      have hneg : E.injected = -errno := hinjected
      exact hfine (Or.inr (by omega)) (by rintro (h | h) <;> cases h)
  | aliceReorder => exact convention_putOff_iff hop hinjected (Or.inl rfl)
  | aliceDelay => exact convention_putOff_iff hop hinjected (Or.inr rfl)

/-- Whatever is configured and drawn, and whatever the calls return, a handler keeps the convention exactly
if it is none of the cases that break it. -/
theorem convention_iff [PosixRegex] {draws : Draws} {c : FuseCall}
    (htable : ∀ op, c.op = some op → draws.InTable op) (reread : Option (List ErrinjConf))
    (conf : UnreliablefsConfig) (path : Bytes) (E : Env) (w : World) :
    c.Convention (c.under reread conf draws path E) w ↔
      ¬ c.Breaks E w (c.verdict conf draws path) := by
  cases hop : c.op with
  | none =>
      cases c with
      | init => exact iff_of_true (Or.inl (le_refl 0)) id
      | destroy => exact iff_of_true (Or.inl (le_refl 0)) id
      | _ => cases hop
  | some op =>
      have hne : c.op ≠ none := by
        rw [hop]
        exact Option.some_ne_none op
      have hsame : ∀ verdict, c.Breaks (c.under reread conf draws path E) w verdict ↔
          c.Breaks E w verdict := by
        intro verdict
        unfold under
        rw [hop]
        exact Iff.rfl
      have hinjected : (c.under reread conf draws path E).injected =
          (errorInject reread conf draws path op).1 := by
        unfold under
        rw [hop]
      have hverdict : c.verdict conf draws path =
          (decisive conf draws path op).map fun entry => entry.1.type := by
        unfold verdict
        rw [hop]
        rfl
      rw [← hsame, hverdict]
      rw [errorInject_eq] at hinjected
      cases hdecisive : decisive conf draws path op with
      | none =>
          rw [hdecisive] at hinjected
          exact convention_plain_iff hinjected c
      | some entry =>
          rw [hdecisive] at hinjected
          exact convention_of_type hne (decisive_sets hdecisive)
            (op.errnos_pos _ (opRandomErrno_mem (htable op hop) entry.2)) hinjected

section Sample

/-- A configuration with an entry of the type, for every path and operation. -/
def sampleConf (type : ErrinjType) : UnreliablefsConfig :=
  ⟨some [⟨none, none, 100, 0, type⟩], ascii "/users/unreliablefs.conf"⟩

def sampleDraws : Draws := ⟨fun _ => 0, fun _ => 0, fun _ => 0⟩

omit [Sha256] in
/-- An errno of the table is returned negated. -/
theorem convention_iff_sample :
    letI := sampleSha256
    letI : PosixRegex := ⟨fun _ _ => 0⟩
    let c := FuseCall.mkdir sampleF 0o755
    let E := c.under none (sampleConf .errno) sampleDraws sampleF.bytes (.smooth 5)
    c.Convention E RemoteOp.sampleRemote := by
  let _ := sampleSha256
  let _ : PosixRegex := ⟨fun _ _ => 0⟩
  have htable : ∀ op, (FuseCall.mkdir sampleF 0o755).op = some op → sampleDraws.InTable op := by
    intro op hop k
    cases hop
    exact (by decide : randRange 0 0 FuseOp.mkdir.errnos.length < FuseOp.mkdir.errnos.length)
  have hverdict : ¬ (FuseCall.mkdir sampleF 0o755).Breaks (.smooth 5) RemoteOp.sampleRemote
      ((FuseCall.mkdir sampleF 0o755).verdict (sampleConf .errno) sampleDraws sampleF.bytes) := by
    rintro (h | h) <;> cases h
  exact (convention_iff htable none (sampleConf .errno) sampleF.bytes (.smooth 5)
    RemoteOp.sampleRemote).mpr hverdict

omit [Sha256] in
/-- With `errinj_alice_delay` a `mkdir` returns the marker. With nothing configured a `rename` that does not
reach the server returns 1. -/
theorem marker_and_sign_returned :
    letI := sampleSha256
    letI : PosixRegex := ⟨fun _ _ => 0⟩
    let make := FuseCall.mkdir sampleF 0o755
    let delayed := make.under none (sampleConf .aliceDelay) sampleDraws sampleF.bytes (.smooth 5)
    let move := FuseCall.rename sampleF sampleF
    let unanswered : Env := { Env.smooth 5 with rpc := fun _ => .lost }
    let plain := move.under none ⟨none, []⟩ sampleDraws sampleF.bytes unanswered
    (make.result delayed RemoteOp.sampleRemote = 1000 ∧
      ¬ make.Convention delayed RemoteOp.sampleRemote) ∧
    (move.result plain RemoteOp.sampleRemote = 1 ∧
      ¬ move.Convention plain RemoteOp.sampleRemote) := by
  let _ := sampleSha256
  let _ : PosixRegex := ⟨fun _ _ => 0⟩
  refine ⟨⟨rfl, ?_⟩, ⟨rfl, ?_⟩⟩
  · rintro (hnonpos | ⟨_, hasked, _⟩ | ⟨_, hioctl, _⟩)
    · exact absurd hnonpos (by decide)
    · cases hasked
    · cases hioctl
  · rintro (hnonpos | ⟨_, hasked, _⟩ | ⟨_, hioctl, _⟩)
    · exact absurd hnonpos (by decide)
    · cases hasked
    · cases hioctl

end Sample

end FuseCall

end Bnfs
