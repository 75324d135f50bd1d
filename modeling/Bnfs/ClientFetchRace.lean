import Bnfs.ClientOpen
import Bnfs.TheoryRuns

/-! A fetch while other clients upload. The server reads the file, and some time later the client writes
what it got into its two copies; uploads of others may come in between and afterwards. The temporary copy
is stamped with the client's clock, and later compared with the time the server's clock gave to the
version that is then in place. So a newer version is seen exactly when its second happens to be the later
one of the two. -/

namespace Bnfs

open FileSystem Programs Runs FileServer

/-- How far the fetch has come. -/
inductive FetchPhase where
  | asking
  | received (data : Bytes)
  | cached (data : Bytes)
  | saved (data : Bytes)
  | failed
  deriving DecidableEq

/-- The world the fetch runs in, and how many versions of the path had been put in place when the server
read the file. -/
structure Fetch where
  w : World
  phase : FetchPhase
  seen : Nat

/-- How many versions of a path have been put in place. -/
def versions (srv : Server) (path : CString) : Nat :=
  srv.installs.countP fun version => version.path = getServerPath path.bytes

namespace Fetch

/-- What may happen next: a step of the fetch, an upload of another client, or something else on the
client's machine. -/
inductive Turn where
  | serverReads
  | writesCache
  | writesTemp
  | install (E : Env) (requests : List PutFileReq)
  | elsewhere (cl : Client)

variable [Sha256]

/-- Whatever happened on the machine, the temporary copy of the path and its mark are as they were. -/
def Undisturbed (path : CString) (cl cl' : Client) : Prop :=
  cl'.files.find (getTempPath path) = cl.files.find (getTempPath path) ∧
    (getHashedPath path ∈ cl'.dirty_files ↔ getHashedPath path ∈ cl.dirty_files)

instance (path : CString) (cl cl' : Client) : Decidable (Undisturbed path cl cl') :=
  inferInstanceAs (Decidable (_ ∧ _))

variable (E : Env) (path : CString) (flag : OpenFlags)

def next (s : Fetch) : Turn → Option Fetch
  | .serverReads =>
      if s.phase = .asking then
        some {
          w := (AFSClient.openStream E ⟨path.bytes, flag, false⟩ s.w).2
          phase := match fetched E path flag s.w with
            | none => .failed
            | some data => .received data
          seen := versions s.w.srv path }
      else none
  | .writesCache =>
      match s.phase with
      | .received data => some { s with
          w := (writeFileToCache E path data s.w).2
          phase := .cached data }
      | _ => none
  | .writesTemp =>
      match s.phase with
      | .cached data => some { s with
          w := (writeFileToTemp E path data s.w).2
          phase := if (E.fails .writeFileToTempOpen).isSome then .failed else .saved data }
      | _ => none
  | .install E' requests =>
      some { s with w := { s.w with srv := (putFile E' requests s.w.srv).2 } }
  | .elsewhere cl =>
      if Undisturbed path s.w.cl cl then some { s with w := { s.w with cl } } else none

/-- The steps of the fetch among those of the others. -/
def step (s : Fetch) (turn : Turn) (t : Fetch) : Prop := next E path flag s turn = some t

/-- Before the fetch the path is clean. -/
structure Start (s : Fetch) : Prop where
  asking : s.phase = .asking
  clean : getHashedPath path ∉ s.w.cl.dirty_files

/-- The version that was fetched is no longer the one in place. -/
def Superseded (s : Fetch) : Prop := s.seen ≠ versions s.w.srv path

instance (s : Fetch) : Decidable (Superseded path s) := inferInstanceAs (Decidable (_ ≠ _))

/-- Undisturbed, the steps are those of `fetchAndSyncServerFile`. -/
theorem alone_fetch (fi : FuseFileInfo) {w : World} {data : Bytes} (seen : Nat)
    (hfetched : fetched E path fi.flags w = some data)
    (hopen : E.fails .writeFileToTempOpen = none) :
    ∃ trace, Run (step E path fi.flags) ⟨w, .asking, seen⟩ trace
      ⟨(AFSClient.fetchAndSyncServerFile E path fi w).2, .saved data, versions w.srv path⟩ := by
  have hrun : Run (step E path fi.flags) ⟨w, .asking, seen⟩ [] _ := .nil
  have hread : step E path fi.flags ⟨w, .asking, seen⟩ .serverReads
      ⟨w, .received data, versions w.srv path⟩ := by
    rw [step, next, if_pos rfl, openStream_fetch, hfetched]
  have hcache : step E path fi.flags ⟨w, .received data, versions w.srv path⟩ .writesCache
      ⟨(writeFileToCache E path data w).2, .cached data, versions w.srv path⟩ := rfl
  have htemp : step E path fi.flags ⟨(writeFileToCache E path data w).2, .cached data,
      versions w.srv path⟩ .writesTemp ⟨(AFSClient.fetchAndSyncServerFile E path fi w).2, .saved data,
      versions w.srv path⟩ := by
    rw [step, next, fetchAndSyncServerFile_eq, hfetched, hopen]
    rfl
  exact ⟨_, ((hrun.cons hread).cons hcache).cons htemp⟩

end Fetch

section Verdict

variable (E : Env) (path : CString) (w : World)

/-- The second `getOpenFlags` has for the server: the one of the file, or what was in the memory of the
server or of the client if `lstat` or the call failed. -/
def serverSecond : Int :=
  if E.rpc .getAttr = .answered then
    match E.fails .getAttrLstat, w.srv.files.find (getServerPath path.bytes) with
    | none, some file => toInt file.mtime.tv_sec
    | _, _ => toInt E.serverStack.st_mtim.tv_sec
  else toInt E.clientStack.st_mtim.tv_sec

/-- The server answers that there is no such file. -/
def AnswersMissing : Prop :=
  E.rpc .getAttr = .answered ∧ (E.fails .getAttrLstat = some ENOENT ∨
    (E.fails .getAttrLstat = none ∧ w.srv.files.names (getServerPath path.bytes) = none))

instance : Decidable (AnswersMissing E path w) := inferInstanceAs (Decidable (_ ∧ (_ ∨ _ ∧ _)))

theorem getAttr_reply (stbuf : Stat) : (AFSClient.getAttr E path stbuf w).1 =
    if E.rpc .getAttr = .answered then
      match (FileServer.getAttr E path.bytes w.srv).1 with
      | some reply => (reply.errorcode, AFSClient.fillStat stbuf reply)
      | none => (0, stbuf)
    else (0, stbuf) := by
  unfold AFSClient.getAttr unary
  rw [bind_run]
  cases E.rpc .getAttr with
  | answered =>
      simp only [if_true]
      cases (FileServer.getAttr E path.bytes w.srv).1 <;> rfl
  | lost => rfl
  | unanswered => rfl

theorem reportedTime_eq : reportedTime E path w = serverSecond E path w := by
  have hconvert : ∀ sec : Int, toInt (toInt64 (toUInt64 sec)) = toInt sec := fun sec => by
    rw [toInt_toInt64, toInt_toUInt64]
  unfold reportedTime serverSecond
  rw [getAttr_reply]
  split_ifs with hanswered
  · unfold FileServer.getAttr Fs.find
    cases E.fails .getAttrLstat with
    | some e => exact hconvert _
    | none =>
        cases w.srv.files.names (getServerPath path.bytes) with
        | none => exact hconvert _
        | some ino => exact hconvert _
  · rfl

theorem createsLocally_iff (flags : OpenFlags) (is_create : Bool) :
    CreatesLocally E path flags is_create w ↔
      AnswersMissing E path w ∧ (is_create || AFSClient.isOpenWithCreate flags) = true := by
  refine and_congr_left fun _ => ?_
  unfold AnswersMissing
  rw [getAttr_reply]
  by_cases hanswered : E.rpc .getAttr = .answered
  · rw [if_pos hanswered, and_iff_right hanswered]
    unfold FileServer.getAttr
    cases E.fails .getAttrLstat with
    | some e =>
        show -e = -ENOENT ↔ _
        simp
    | none =>
        cases w.srv.files.names (getServerPath path.bytes) with
        | none => exact iff_of_true rfl (Or.inr ⟨rfl, rfl⟩)
        | some ino =>
            refine iff_of_false ?_ ?_
            · show ¬ (0 : Int) = -ENOENT
              decide
            · simp
  · rw [if_neg hanswered]
    exact iff_of_false (by show ¬ (0 : Int) = -ENOENT; decide) fun h => hanswered h.1

variable [Sha256]

/-- `getOpenFlags` can open the temporary copy, under a descriptor other than 0. -/
def TempReadable : Prop :=
  E.fails .isPresentInTemp = none ∧ w.files.names (getTempPath path) ≠ none ∧
    (w.cl.fds.get 0 ≠ none ∨
      (E.fails .isPresentInCache = none ∧ w.files.names (getCachePath path) ≠ none))

omit [Sha256] in
/-- An open for reading succeeds if the name is there, and gives the lowest free descriptor. -/
theorem posixOpen_rdonly (E : Env) (site : Site) (name : Bytes) (w : World) :
    (∃ ino, (E.fails site = none ∧ w.files.names name = some ino) ∧
      posixOpen E site name O_RDONLY w = newFd ino O_RDONLY w) ∨
    ((E.fails site = none → w.files.names name = none) ∧
      ∃ e, 0 < e ∧ posixOpen E site name O_RDONLY w = failWith e w) :=
  posixOpen_run E site w name (by decide) (by decide)

omit [Sha256] in
/-- Its descriptor is 0 only if that one is free. -/
theorem newFd_pos_iff (ino : Nat) (flags : OpenFlags) : 0 < (newFd ino flags w).1 ↔ w.cl.fds.get 0 ≠ none := by
  have hpos : 0 < (newFd ino flags w).1 ↔ w.cl.fds.lowestFree ≠ 0 := by
    show 0 < ((w.cl.fds.lowestFree : Nat) : Int) ↔ _
    omega
  rw [hpos]
  exact not_congr Descriptors.lowestFree_eq_zero_iff

/-- Descriptor 0 is taken once the persistent copy was looked at. -/
theorem presentInCache_zero : (isPresentInCache E path w).2.cl.fds.get 0 ≠ none ↔
    w.cl.fds.get 0 ≠ none ∨
      (E.fails .isPresentInCache = none ∧ w.files.names (getCachePath path) ≠ none) := by
  unfold isPresentInCache
  rcases posixOpen_rdonly E .isPresentInCache (getCachePath path) w with
    ⟨ino, ⟨hok, hname⟩, heq⟩ | ⟨hmissing, e, _, heq⟩
  · rw [heq]
    refine iff_of_true ?_ (Or.inr ⟨hok, hname ▸ Option.some_ne_none ino⟩)
    show (w.cl.fds.insert ⟨ino, O_RDONLY⟩).get 0 ≠ none
    cases hzero : w.cl.fds.get 0 with
    | some d =>
        rw [Descriptors.get_insert_of_some hzero]
        exact Option.some_ne_none d
    | none =>
        have hself := Descriptors.get_insert_self w.cl.fds ⟨ino, O_RDONLY⟩
        rw [Descriptors.lowestFree_eq_zero_iff.mpr hzero] at hself
        exact fun hnone => nomatch hself.symm.trans hnone
  · rw [heq]
    exact (or_iff_left fun h => h.2 (hmissing h.1)).symm

/-- When the descriptor of the temporary copy is a positive number. -/
theorem checkedTemp_pos_iff : 0 < (checkedTemp E path w).1 ↔ TempReadable E path w := by
  have hfiles : (isPresentInCache E path w).2.files = w.files :=
    (same_posixOpen (by decide) (by decide) w).files
  unfold TempReadable checkedTemp isPresentInTemp
  rw [← presentInCache_zero, ← hfiles]
  rcases posixOpen_rdonly E .isPresentInTemp (getTempPath path) (isPresentInCache E path w).2 with
    ⟨ino, ⟨hok, hname⟩, heq⟩ | ⟨hmissing, e, _, heq⟩
  · rw [heq, newFd_pos_iff, and_iff_right hok, and_iff_right (hname ▸ Option.some_ne_none ino)]
  · rw [heq]
    exact iff_of_false (by decide : ¬ (0 : Int) < -1) fun h => h.2.1 (hmissing h.1)

variable (flags : OpenFlags) (is_create : Bool)

/-- A file that is not to be created is fetched unless the temporary copy can be read and the server's
second is not the later one. -/
theorem getOpenFlags_one_iff : (AFSClient.getOpenFlags E is_create flags path w).1 = 1 ↔
    ¬ (AnswersMissing E path w ∧ (is_create || AFSClient.isOpenWithCreate flags) = true) ∧
      (TempReadable E path w → ∀ file, w.files.find (getTempPath path) = some file →
        toInt file.mtime.tv_sec < serverSecond E path w) := by
  rw [← createsLocally_iff, ← reportedTime_eq, ← checkedTemp_pos_iff]
  have hused : ¬ TempUsed E path w ↔ (0 < (checkedTemp E path w).1 →
      ∀ file, w.files.find (getTempPath path) = some file →
        toInt file.mtime.tv_sec < reportedTime E path w) := by
    simp only [TempUsed, not_and, not_exists, not_le]
  rw [← hused]
  rcases getOpenFlags_result E path flags is_create w with
    ⟨heq, hcreate⟩ | ⟨heq, _, hused⟩ | ⟨heq, hcreate, hused⟩
  · rw [heq]
    exact iff_of_false (by decide) fun h => h.1 hcreate
  · rw [heq]
    exact iff_of_false (by decide) fun h => h.2 hused
  · exact iff_of_true heq ⟨hcreate, hused⟩

end Verdict

namespace Fetch

variable [Sha256] (E : Env) (path : CString) (flag : OpenFlags)

/-- The time the client's clock gives to the temporary copy of the fetched bytes. -/
def savedAt (data : Bytes) : Timespec :=
  if data = [] ∨ (E.fails .writeFileToTempWrite).isSome then E.now .writeFileToTempOpen
  else E.now .writeFileToTempWrite

/-- The path stays clean, and the temporary copy that was written keeps its time. -/
structure Stamped (s : Fetch) : Prop where
  clean : getHashedPath path ∉ s.w.cl.dirty_files
  stamp : ∀ data, s.phase = .saved data →
    ∃ file, s.w.files.find (getTempPath path) = some file ∧ file.mtime = savedAt E data

variable {E path flag} {s t : Fetch}

omit [Sha256] in
theorem writeFile_frame {openSite writeSite : Site} {name data : Bytes} {x : Prog Int}
    (hx : x = do
      let opened ← ofstreamSave E openSite writeSite name data
      if opened then return 0 else return -1) : Keeps (World.Frame {name}) x := by
  subst hx
  exact (keeps_ofstreamSave (Set.mem_singleton name)).bind fun _ =>
    .ite (fun _ => .pure _) fun _ => .pure _

theorem writeFileToTemp_mtime {data : Bytes} {w : World} (hopen : E.fails .writeFileToTempOpen = none) :
    ∃ file, (writeFileToTemp E path data w).2.files.find (getTempPath path) = some file ∧
      file.mtime = savedAt E data := by
  unfold writeFileToTemp ofstreamSave savedAt
  simp only [bind_run, hopen]
  obtain ⟨kept, hfind⟩ := Fs.find_overwrite_self w.files (getTempPath path)
    (if (E.fails .writeFileToTempWrite).isSome then [] else data)
    (if (if (E.fails .writeFileToTempWrite).isSome then [] else data) = [] then
      E.now .writeFileToTempOpen else E.now .writeFileToTempWrite) (E.attr .writeFileToTempOpen)
  refine ⟨_, hfind, ?_⟩
  cases E.fails .writeFileToTempWrite with
  | some e => simp
  | none => simp

theorem Stamped.step (hs : Stamped E path s) {turn : Turn} (hstep : step E path flag s turn t) :
    Stamped E path t := by
  unfold Fetch.step next at hstep
  cases turn with
  | serverReads =>
      dsimp only at hstep
      split_ifs at hstep
      cases hstep
      refine ⟨?_, fun data hphase => ?_⟩
      · show getHashedPath path ∉ (AFSClient.openStream E _ s.w).2.cl.dirty_files
        rw [openStream_fetch]
        exact hs.clean
      · dsimp only at hphase
        split at hphase <;> cases hphase
  | writesCache =>
      dsimp only at hstep
      split at hstep <;> cases hstep
      rename_i data _
      have hframe : World.Frame {getCachePath path} s.w (writeFileToCache E path data s.w).2 :=
        writeFile_frame rfl s.w
      exact ⟨hframe.dirty ▸ hs.clean, fun data hphase => nomatch hphase⟩
  | writesTemp =>
      dsimp only at hstep
      split at hstep <;> cases hstep
      rename_i data _
      have hframe : World.Frame {getTempPath path} s.w (writeFileToTemp E path data s.w).2 :=
        writeFile_frame rfl s.w
      refine ⟨hframe.dirty ▸ hs.clean, fun data' hphase => ?_⟩
      dsimp only at hphase
      split_ifs at hphase with hfails
      cases hphase
      exact writeFileToTemp_mtime (by simpa using hfails)
  | install E' requests =>
      cases hstep
      exact ⟨hs.clean, hs.stamp⟩
  | elsewhere cl =>
      dsimp only at hstep
      split_ifs at hstep with hundisturbed
      cases hstep
      refine ⟨hundisturbed.2.not.mpr hs.clean, fun data hphase => ?_⟩
      obtain ⟨file, hfind, hmtime⟩ := hs.stamp data hphase
      exact ⟨file, hundisturbed.1.trans hfind, hmtime⟩

/-- Once a fetch has written the temporary copy, a later open fetches again because the version has been
superseded, exactly when the temporary copy cannot be read or the second in which the fetch wrote it is
before the one the server has for the version in place. -/
theorem superseded_refetched_iff {start : Fetch} (hstart : Start path start)
    {trace : List (Fetch × Turn)} (hrun : Run (step E path flag) start trace s) {data : Bytes}
    (hsaved : s.phase = .saved data) (E' : Env) (flags : OpenFlags) (is_create : Bool) :
    (Superseded path s → (AFSClient.getOpenFlags E' is_create flags path s.w).1 = 1) ↔
      (Superseded path s →
        ¬ (AnswersMissing E' path s.w ∧ (is_create || AFSClient.isOpenWithCreate flags) = true) ∧
        (TempReadable E' path s.w →
          toInt (savedAt E data).tv_sec < serverSecond E' path s.w)) := by
  have hbegin : Stamped E path start :=
    ⟨hstart.clean, fun data hphase => by rw [hstart.asking] at hphase; cases hphase⟩
  have hs : Stamped E path s := hrun.invariant (Stamped E path) hbegin
    fun _ _ _ hs hstep => hs.step hstep
  obtain ⟨file, hfind, hmtime⟩ := hs.stamp data hsaved
  refine imp_congr_right fun _ => ?_
  rw [getOpenFlags_one_iff, hfind]
  simp only [Option.some.injEq, forall_eq', hmtime]

section Sample

/-- `/f` is on the server since second 100, and the client has nothing yet. -/
def sampleFetch : Fetch where
  w := {
    srv := ⟨(Fs.empty ⟨[], default, default⟩).create (getServerPath (ascii "/f"))
      ⟨ascii "old", ⟨100, 0⟩, default⟩, []⟩
    cl := ⟨.empty ⟨[], default, default⟩, [some ⟨0, O_RDWR⟩], ∅, []⟩
    errno := 0 }
  phase := .asking
  seen := 0

/-- Another client uploads new bytes in the given second. -/
def installAt (sec : Int) : Turn := .install (.smooth sec) (uploadRequests (ascii "/f") [ascii "new"])

omit [Sha256] in
/-- The upload comes in second 200, when the fetch is long over. -/
theorem installed_later :
    letI := sampleSha256
    ∃ trace s, Run (step (.smooth 102) sampleF O_RDWR) sampleFetch trace s ∧
      s.phase = .saved (ascii "old") ∧ Superseded sampleF s ∧
      ¬ AnswersMissing (.smooth 300) sampleF s.w ∧ 102 < serverSecond (.smooth 300) sampleF s.w := by
  have hrun : Run (@step sampleSha256 (.smooth 102) sampleF O_RDWR) sampleFetch _ _ :=
    .of_advance [.serverReads, .writesCache, .writesTemp, installAt 200] .nil rfl
  exact ⟨_, _, hrun, by decide, by decide, by decide, by decide⟩

omit [Sha256] in
theorem superseded_refetched_iff_later :
    letI := sampleSha256
    ∃ trace s, Run (step (.smooth 102) sampleF O_RDWR) sampleFetch trace s ∧ Superseded sampleF s ∧
      (AFSClient.getOpenFlags (.smooth 300) false O_RDWR sampleF s.w).1 = 1 := by
  let _ := sampleSha256
  obtain ⟨trace, s, hrun, hsaved, hnew, hfound, hlater⟩ := installed_later
  have hstart : Start sampleF sampleFetch := ⟨rfl, by decide⟩
  refine ⟨trace, s, hrun, hnew, (superseded_refetched_iff hstart hrun hsaved (.smooth 300) O_RDWR
    false).mpr (fun _ => ⟨fun h => hfound h.1, fun _ => ?_⟩) hnew⟩
  have hsecond : toInt (savedAt (.smooth 102) (ascii "old")).tv_sec = 102 := by decide
  rw [hsecond]
  exact hlater

omit [Sha256] in
/-- The upload comes between the reading of the server and the writing of the client; the client's clock
is two seconds ahead of the stamp of the new version, which an open then does not see. -/
theorem fetch_masks_newer :
    letI := sampleSha256
    (AFSClient.getOpenFlags (.smooth 100) false O_RDWR sampleF sampleFetch.w).1 = 1 ∧
      ∃ trace s, Run (step (.smooth 102) sampleF O_RDWR) sampleFetch trace s ∧
        s.phase = .saved (ascii "old") ∧ Superseded sampleF s ∧
        contentAt s.w.srv sampleF.bytes = some (ascii "new") ∧
        getHashedPath sampleF ∉ s.w.cl.dirty_files ∧
        (AFSClient.getOpenFlags (.smooth 103) false O_RDWR sampleF s.w).1 = 2 := by
  have hrun : Run (@step sampleSha256 (.smooth 102) sampleF O_RDWR) sampleFetch _ _ :=
    .of_advance [.serverReads, installAt 100, .writesCache, .writesTemp] .nil rfl
  exact ⟨by decide, _, _, hrun, by decide, by decide, by decide, by decide, by decide⟩

end Sample

end Fetch

end Bnfs
