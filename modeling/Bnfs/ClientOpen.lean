import Bnfs.ClientCopies

/-! What an open does, part by part: the verdict of `getOpenFlags`, the fetch, and the open of the
temporary copy at the end. Whatever fails on the way, the verdict is 4 in no state: a copy of the
persistent file is only made when a temporary one was looked at and found good. -/

namespace Bnfs

open FileSystem Programs

section Choice

variable (cache_fd temp_fd : Int) (outOfDate : Bool)

/-- The last part of `getOpenFlags` tells the two verdicts apart by the age of the temporary copy alone,
because a copy that could not be opened counts as out of date. -/
theorem chooseCopy_result (h : temp_fd ≤ 0 → outOfDate = true) (w : World) :
    (AFSClient.chooseCopy cache_fd temp_fd outOfDate w).1 = if outOfDate then 1 else 2 := by
  unfold AFSClient.chooseCopy
  by_cases hnone : temp_fd < 0 ∧ cache_fd < 0
  · rw [if_pos hnone, h (by omega)]
    rfl
  · rw [if_neg hnone]
    have hfresh : ¬ (temp_fd < 0 ∧ cache_fd ≥ 0 ∧ outOfDate = false) := by
      rintro ⟨htemp, _, hold⟩
      rw [h (by omega)] at hold
      cases hold
    rw [if_neg hfresh, bind_run]
    cases outOfDate <;> split_ifs <;> rfl

theorem chooseCopy_same : Keeps World.Same (AFSClient.chooseCopy cache_fd temp_fd outOfDate) := by
  refine .ite (fun _ => .pure _) fun _ => .ite (fun _ => (same_posixClose _).bind fun _ => .pure _)
    fun _ => (same_posixClose _).bind fun _ => ?_
  refine .ite (fun _ => (same_posixClose _).bind fun _ => ?_) fun _ => ?_
  · exact .ite (fun _ => .pure _) fun _ => .pure _
  · exact .ite (fun _ => .pure _) fun _ => .pure _

theorem chooseCopy_fdsKept {w w' : World} (h : World.FdsKept w w')
    (hcache : w.cl.fds.get cache_fd = none) (htemp : w.cl.fds.get temp_fd = none) :
    World.FdsKept w (AFSClient.chooseCopy cache_fd temp_fd outOfDate w').2 := by
  unfold AFSClient.chooseCopy
  split_ifs
  · exact h
  · exact h.close hcache
  · exact (h.close htemp).close hcache
  · exact h.close htemp
  · exact (h.close htemp).close hcache
  · exact h.close htemp

end Choice

section GetOpenFlags

variable (E : Env) (path : CString)

/-- Asking for the attributes leaves both machines as they are. -/
theorem getAttr_world (stbuf : Stat) (w : World) : (AFSClient.getAttr E path stbuf w).2 = w := by
  have hsrv : (FileServer.getAttr E path.bytes w.srv).2 = w.srv := by
    unfold FileServer.getAttr
    split <;> rfl
  unfold AFSClient.getAttr unary
  rw [bind_run]
  cases E.rpc .getAttr with
  | answered =>
      simp only [hsrv]
      cases (FileServer.getAttr E path.bytes w.srv).1 <;> rfl
  | lost => rfl
  | unanswered => simp only [hsrv, pure_run]

variable [Sha256] (flags : OpenFlags) (is_create : Bool)

/-- The answer to `GetAttr` has the file created locally. -/
def CreatesLocally (w : World) : Prop :=
  (AFSClient.getAttr E path E.clientStack w).1.1 = -ENOENT ∧
    (is_create || AFSClient.isOpenWithCreate flags) = true

instance (w : World) : Decidable (CreatesLocally E path flags is_create w) :=
  inferInstanceAs (Decidable (_ ∧ _))

/-- The time of the server as `getOpenFlags` compares it. -/
def reportedTime (w : World) : Int :=
  toInt (AFSClient.getAttr E path E.clientStack w).1.2.st_mtim.tv_sec

/-- The descriptor of the temporary copy in `getOpenFlags`. -/
def checkedTemp (w : World) : Int × World := isPresentInTemp E path (isPresentInCache E path w).2

/-- The temporary copy is opened under a descriptor other than 0, and the server does not report a
later time than the one of the copy. -/
def TempUsed (w : World) : Prop :=
  0 < (checkedTemp E path w).1 ∧ ∃ file, w.files.find (getTempPath path) = some file ∧
    reportedTime E path w ≤ toInt file.mtime.tv_sec

/-- Then there is one. -/
theorem TempUsed.names {w : World} (h : TempUsed E path w) :
    ∃ ino, w.files.names (getTempPath path) = some ino := by
  obtain ⟨_, file, hfind, _⟩ := h
  obtain ⟨ino, hname, _⟩ := Fs.find_eq_some_iff.mp hfind
  exact ⟨ino, hname⟩

/-- What `getOpenFlags` looks at of the local copies changes none of them. -/
theorem checkedTemp_same (w : World) : World.Same w (checkedTemp E path w).2 :=
  trans_of World.Same (same_posixOpen (by decide) (by decide) w)
    (same_posixOpen (by decide) (by decide) _)

theorem checkedTemp_fdsKept (w : World) : World.FdsKept w (checkedTemp E path w).2 :=
  trans_of World.FdsKept (posixOpen_fdsKept E _ _ _ w) (posixOpen_fdsKept E _ _ _ _)

/-- The comparison with the copy behind the descriptor. -/
theorem isOutOfDate_checkedTemp (w : World) (hfd : 0 < (checkedTemp E path w).1) (server_time : Int) :
    ∃ file, w.files.find (getTempPath path) = some file ∧
      isOutOfDate E server_time (checkedTemp E path w).1 (checkedTemp E path w).2 =
        (decide (server_time > toInt file.mtime.tv_sec), (checkedTemp E path w).2) := by
  have hsame := checkedTemp_same E path w
  obtain ⟨ino, hname, hget⟩ := posixOpen_opened (Int.le_of_lt hfd)
  have hfind : w.files.find (getTempPath path) = some (w.files.inode ino) :=
    Fs.find_of_names (hsame.files ▸ hname)
  refine ⟨_, hfind, ?_⟩
  have hget' : (checkedTemp E path w).2.cl.fds.get (checkedTemp E path w).1 = some ⟨ino, O_RDONLY⟩ :=
    hget
  unfold isOutOfDate
  rw [hget', hsame.files]

/-- Without a creation the two copies are opened, and the choice is made on what the temporary one
turned out to be. -/
theorem getOpenFlags_of_present {w : World} (h : ¬ CreatesLocally E path flags is_create w) :
    ∃ outOfDate : Bool, (outOfDate = false ↔ TempUsed E path w) ∧
      AFSClient.getOpenFlags E is_create flags path w =
        AFSClient.chooseCopy (isPresentInCache E path w).1 (checkedTemp E path w).1 outOfDate
          (checkedTemp E path w).2 := by
  unfold CreatesLocally at h
  unfold AFSClient.getOpenFlags
  rw [bind_run, getAttr_world, if_neg h]
  by_cases hfd : 0 < (checkedTemp E path w).1
  · obtain ⟨file, hfind, hcompare⟩ := isOutOfDate_checkedTemp E path w hfd (reportedTime E path w)
    refine ⟨decide (reportedTime E path w > toInt file.mtime.tv_sec), ?_, ?_⟩
    · rw [decide_eq_false_iff_not, TempUsed, hfind]
      simp [hfd]
    · have hopened : isPresentInTemp E path (isPresentInCache E path w).2 = checkedTemp E path w := rfl
      simp only [bind_run, hopened, gt_iff_lt, if_pos hfd]
      rw [show toInt (AFSClient.getAttr E path E.clientStack w).1.2.st_mtim.tv_sec =
        reportedTime E path w by rfl, hcompare]
  · refine ⟨true, iff_of_false (by decide) fun hused => hfd hused.1, ?_⟩
    have hopened : isPresentInTemp E path (isPresentInCache E path w).2 = checkedTemp E path w := rfl
    simp only [bind_run, hopened, gt_iff_lt, if_neg hfd]
    rfl

theorem getOpenFlags_of_create {w : World} (h : CreatesLocally E path flags is_create w) :
    AFSClient.getOpenFlags E is_create flags path w = (3, w) := by
  unfold CreatesLocally at h
  unfold AFSClient.getOpenFlags
  rw [bind_run, getAttr_world, if_pos h]
  rfl

/-- The verdict: 3 if the file is to be created, else 2 if the temporary copy is used and 1 if not. -/
theorem getOpenFlags_result (w : World) :
    (AFSClient.getOpenFlags E is_create flags path w).1 = 3 ∧
      CreatesLocally E path flags is_create w ∨
    (AFSClient.getOpenFlags E is_create flags path w).1 = 2 ∧
      ¬ CreatesLocally E path flags is_create w ∧ TempUsed E path w ∨
    (AFSClient.getOpenFlags E is_create flags path w).1 = 1 ∧
      ¬ CreatesLocally E path flags is_create w ∧ ¬ TempUsed E path w := by
  by_cases hcreate : CreatesLocally E path flags is_create w
  · rw [getOpenFlags_of_create E path flags is_create hcreate]
    exact Or.inl ⟨rfl, hcreate⟩
  · right
    obtain ⟨outOfDate, hused, heq⟩ := getOpenFlags_of_present E path flags is_create hcreate
    have hfd : (checkedTemp E path w).1 ≤ 0 → outOfDate = true := by
      intro hle
      refine (Bool.not_eq_false outOfDate).mp fun hfresh => ?_
      have hpos := (hused.mp hfresh).1
      omega
    rw [heq, chooseCopy_result _ _ _ hfd]
    cases outOfDate with
    | false => exact Or.inl ⟨rfl, hcreate, hused.mp rfl⟩
    | true => exact Or.inr ⟨rfl, hcreate, fun h => nomatch hused.mpr h⟩

/-- Giving the verdict changes no file. -/
theorem getOpenFlags_same : Keeps World.Same (AFSClient.getOpenFlags E is_create flags path) := by
  intro w
  by_cases hcreate : CreatesLocally E path flags is_create w
  · rw [getOpenFlags_of_create E path flags is_create hcreate]
    exact refl_of World.Same w
  · obtain ⟨outOfDate, _, heq⟩ := getOpenFlags_of_present E path flags is_create hcreate
    rw [heq]
    exact trans_of World.Same (checkedTemp_same E path w) (chooseCopy_same _ _ _ _)

/-- Both copies it opened are closed again, and nothing else is. -/
theorem getOpenFlags_fdsKept :
    Keeps World.FdsKept (AFSClient.getOpenFlags E is_create flags path) := by
  intro w
  by_cases hcreate : CreatesLocally E path flags is_create w
  · rw [getOpenFlags_of_create E path flags is_create hcreate]
    exact refl_of World.FdsKept w
  · obtain ⟨outOfDate, _, heq⟩ := getOpenFlags_of_present E path flags is_create hcreate
    rw [heq]
    have hcache := posixOpen_fdsKept E .isPresentInCache (getCachePath path) O_RDONLY w
    refine chooseCopy_fdsKept _ _ _ (checkedTemp_fdsKept E path w) (posixOpen_fd_free E _ _ _ w) ?_
    exact hcache.get_eq_none (posixOpen_fd_free E _ _ _ _)

end GetOpenFlags

section Fetch

variable (E : Env) (path : CString) (fi : FuseFileInfo)

/-- What `Open` of the server writes for a file that is there. -/
theorem openStream_fetch (flag : OpenFlags) (w : World) :
    (AFSClient.openStream E ⟨path.bytes, flag, false⟩ w).2 = w := by
  have hsrv : (FileServer.Open E ⟨path.bytes, flag, false⟩ w.srv).2 = w.srv := by
    unfold FileServer.Open
    dsimp only
    split <;> rfl
  unfold AFSClient.openStream
  split
  · rw [hsrv]
  · rfl

/-- The bytes a fetch puts into the local copies, if it gets that far. -/
def fetched (flag : OpenFlags) (w : World) : Option Bytes :=
  let replies := (AFSClient.openStream E ⟨path.bytes, flag, false⟩ w).1
  if replies.isEmpty || !E.download.finished then none
  else some (cStr (replies.map (·.buf)).flatten)

/-- The bytes a fetch receives, if it gets that far. -/
def received (E : Env) (path : CString) (flag : OpenFlags) (w : World) : Option Bytes :=
  let replies := (AFSClient.openStream E ⟨path.bytes, flag, false⟩ w).1
  if replies.isEmpty || !E.download.finished then none else some (replies.map (·.buf)).flatten

/-- What is saved of them ends with the first NUL byte. -/
theorem fetched_eq (E : Env) (path : CString) (flag : OpenFlags) (w : World) :
    fetched E path flag w = (received E path flag w).map cStr := by
  unfold fetched received
  dsimp only
  split_ifs <;> rfl

theorem received_of_srv (E : Env) (path : CString) (flag : OpenFlags) {w w' : World}
    (h : w'.srv = w.srv) : received E path flag w' = received E path flag w := by
  unfold received AFSClient.openStream
  rw [h]
  split_ifs <;> rfl

/-- The messages of a stream that is not cut hold the file, in pieces. -/
theorem received_of_stored {E : Env} {path : CString} {w : World} {content : Bytes}
    (hread : E.fails .openIfstream = none) (hstream : E.download = ⟨true, none, true⟩)
    (hstored : contentAt w.srv path.bytes = some content) (flag : OpenFlags) :
    received E path flag w = some content := by
  obtain ⟨file, hfind, hcontent⟩ := Option.map_eq_some_iff.mp hstored
  have hreplies : (AFSClient.openStream E ⟨path.bytes, flag, false⟩ w).1 =
      (Chunks.pieces BUFSIZE file.content).map fun buf => ⟨0, true, buf⟩ := by
    unfold AFSClient.openStream StreamFate.arrive FileServer.Open FileServer.openRead
    rw [hstream, hread]
    simp only [if_true, hfind]
  have hpieces := Chunks.pieces_ne_nil BUFSIZE content
  unfold received
  rw [hreplies, hstream, hcontent]
  simp [hpieces, Function.comp_def]

/-- The one message for a file that is not there has no bytes. -/
theorem received_of_missing {E : Env} {path : CString} {w : World} (hstream : E.download = ⟨true, none, true⟩)
    (hmissing : w.srv.files.names (getServerPath path.bytes) = none) (flag : OpenFlags) :
    received E path flag w = some [] := by
  have hread : FileServer.openRead E (getServerPath path.bytes) w.srv.files = none := by
    unfold FileServer.openRead
    cases E.fails .openIfstream with
    | some e => rfl
    | none => exact Fs.find_eq_none_iff.mpr hmissing
  have hreplies : (AFSClient.openStream E ⟨path.bytes, flag, false⟩ w).1 = [⟨0, false, []⟩] := by
    unfold AFSClient.openStream StreamFate.arrive FileServer.Open
    rw [hstream]
    simp only [if_true, hread, Bool.false_eq_true, if_false]
  unfold received
  rw [hreplies, hstream]
  rfl

variable [Sha256]

/-- The two local copies after a fetch of the given bytes. -/
def saveFetched (data : Bytes) : Prog Int := do
  let _ ← writeFileToCache E path data
  let _ ← writeFileToTemp E path data
  return 0

/-- A fetch leaves everything as it is, or saves the bytes it got. -/
theorem fetchAndSyncServerFile_eq (w : World) :
    (AFSClient.fetchAndSyncServerFile E path fi w).2 =
      match fetched E path fi.flags w with
      | none => w
      | some data => (saveFetched E path data w).2 := by
  have hworld := openStream_fetch E path fi.flags w
  unfold AFSClient.fetchAndSyncServerFile fetched
  rw [bind_run, hworld]
  dsimp only
  cases hempty : (AFSClient.openStream E ⟨path.bytes, fi.flags, false⟩ w).1.isEmpty with
  | true => rfl
  | false =>
      cases hfinished : E.download.finished with
      | true => rfl
      | false => rfl

end Fetch

section Final

/-- The flags handed to the local `open` never ask for an exclusive creation. -/
theorem localFlags_not_exclusive (flags : OpenFlags) :
    ((AFSClient.localFlags flags).has O_CREAT && (AFSClient.localFlags flags).has O_EXCL) = false := by
  have hcreat : O_CREAT = BitVec.twoPow 32 6 := rfl
  have hexcl : O_EXCL = BitVec.twoPow 32 7 := rfl
  unfold AFSClient.localFlags AFSClient.isOpenWithCreateNExclusive AFSClient.isOpenWithCreate
  simp only [hcreat, hexcl, OpenFlags.has_twoPow _ (show 6 < 32 by decide),
    OpenFlags.has_twoPow _ (show 7 < 32 by decide)]
  split_ifs with h
  · rw [Bool.and_eq_true] at h
    simp [h.2]
  · exact Bool.eq_false_iff.mpr h

/-- Every flag but `O_EXCL` is passed on. -/
theorem localFlags_has (flags : OpenFlags) {i : Nat} (hi : i < 32) (hne : i ≠ 7) :
    (AFSClient.localFlags flags).has (BitVec.twoPow 32 i) = flags.has (BitVec.twoPow 32 i) := by
  have hexcl : O_EXCL = BitVec.twoPow 32 7 := rfl
  unfold AFSClient.localFlags
  rw [hexcl, OpenFlags.has_twoPow _ hi, OpenFlags.has_twoPow _ hi]
  split_ifs
  · simp [hne.symm]
  · rfl

theorem localFlags_trunc (flags : OpenFlags) :
    (AFSClient.localFlags flags).has O_TRUNC = flags.has O_TRUNC :=
  localFlags_has flags (by decide : 9 < 32) (by decide)

theorem localFlags_creat (flags : OpenFlags) :
    (AFSClient.localFlags flags).has O_CREAT = flags.has O_CREAT :=
  localFlags_has flags (by decide : 6 < 32) (by decide)

end Final

end Bnfs
