import Bnfs.ClientTimes
import Bnfs.ClientFlushResult

/-! Open, write and flush when no call fails, each in a period of the clock: what is in the temporary
copy and on the server afterwards, and that nothing else has changed. -/

namespace Bnfs

open FileSystem Programs FileServer

/-- The bytes of the temporary copy of a path. -/
def tempAt [Sha256] (files : Files) (path : CString) : Option Bytes :=
  (files.find (getTempPath path)).map (·.content)

section FdsKept

variable {E : Env}

theorem fdsKept_openClose {α : Type} (site : Site) (name : Bytes) (flags : OpenFlags) {rest : Prog α}
    (hrest : Keeps World.FdsKept rest) :
    Keeps World.FdsKept (do
      let fd ← posixOpen E site name flags
      let _ ← posixClose fd
      rest) := fun w =>
  trans_of World.FdsKept ((posixOpen_fdsKept E site name flags w).close
    (posixOpen_fd_free E site name flags w)) (hrest _)

theorem fdsKept_ofstreamSave (openSite writeSite : Site) (name data : Bytes) :
    Keeps World.FdsKept (ofstreamSave E openSite writeSite name data) := fun w => by
  unfold ofstreamSave
  split <;> exact .of_eq rfl

theorem fdsKept_systemCp (site : Site) (source target : Bytes) :
    Keeps World.FdsKept (systemCp E site source target) := fun w => by
  rcases systemCp_cases E site source target w with ⟨_, _, heq⟩ | ⟨_, _, _, _, _, _, heq⟩ <;>
    (rw [heq]; exact .of_eq rfl)

theorem fdsKept_posixUtime (site : Site) (name : Bytes) (t : Int) :
    Keeps World.FdsKept (posixUtime E site name t) := by
  refine attempt_keeps (fun e w => .of_eq rfl) fun w => ?_
  split <;> exact .of_eq rfl

theorem fdsKept_openStream (request : OpenReq) :
    Keeps World.FdsKept (AFSClient.openStream E request) := fun w => .of_eq (by rw [openStream_cl])

variable [Sha256] (path : CString)

theorem fdsKept_fetch (fi : FuseFileInfo) :
    Keeps World.FdsKept (AFSClient.fetchAndSyncServerFile E path fi) :=
  fetchAndSyncServerFile_keeps (fdsKept_openStream _) (fdsKept_ofstreamSave _ _ _) (fdsKept_ofstreamSave _ _ _)

theorem fdsKept_commitToCache (t : Int) : Keeps World.FdsKept (commitToCache E path t) := fun w => by
  have hopen := posixOpen_fdsKept E .commitToCacheOpen (getTempPath path) O_RDWR w
  have hfree := posixOpen_fd_free E .commitToCacheOpen (getTempPath path) O_RDWR w
  unfold commitToCache
  rw [bind_run]
  split_ifs
  · exact hopen
  · refine trans_of World.FdsKept (hopen.close hfree) (Keeps.bind (fdsKept_systemCp _ _ _)
      (fun status => .ite (fun _ => .pure _) fun _ => ?_) _)
    refine (fdsKept_posixUtime _ _ _).bind fun _ => (fdsKept_posixUtime _ _ _).bind fun _ => ?_
    exact .bind (fun _ => .of_eq rfl) fun _ => .pure _

end FdsKept

section Open

variable {E : Env} {path : CString} {lo hi : Int} {w : World}

/-- With an answer from the server the whole file is received; a file that is not there counts as empty. -/
theorem received_of_reliable (hrel : E.Reliable) (flag : OpenFlags) (w : World) :
    received E path flag w = some ((contentAt w.srv path.bytes).getD []) := by
  cases hcontent : contentAt w.srv path.bytes with
  | none =>
      have hmissing := Fs.find_eq_none_iff.mp (Option.map_eq_none_iff.mp hcontent)
      exact received_of_missing hrel.downloads hmissing flag
  | some content => exact received_of_stored (hrel.calls _) hrel.downloads hcontent flag

theorem getAttr_of_reply (hrel : E.Reliable) {reply : StatResponse}
    (h : (FileServer.getAttr E path.bytes w.srv).1 = some reply) (stbuf : Stat) :
    (AFSClient.getAttr E path stbuf w).1 = (reply.errorcode, AFSClient.fillStat stbuf reply) := by
  unfold AFSClient.getAttr unary
  rw [bind_run, hrel.rpcs]
  simp only [h]
  rfl

/-- A file that is to be created is not on the server. -/
theorem missing_of_enoent (hrel : E.Reliable) {stbuf : Stat}
    (h : (AFSClient.getAttr E path stbuf w).1.1 = -ENOENT) :
    w.srv.files.names (getServerPath path.bytes) = none := by
  cases hname : w.srv.files.names (getServerPath path.bytes) with
  | none => rfl
  | some ino =>
      have hreply : (FileServer.getAttr E path.bytes w.srv).1 =
          some (.ofStat (statOf ino (w.srv.files.inode ino)) 0) := by
        rw [FileServer.getAttr, hrel.calls, hname]
      rw [getAttr_of_reply hrel hreply] at h
      have hzero : (0 : Int) = -ENOENT := h
      exact absurd hzero (by decide)

/-- The time that is compared is the one of the file on the server. -/
theorem reportedTime_of_reliable (hrel : E.Reliable) {content : Bytes} {t : Timespec}
    (h : dated w.srv.files (getServerPath path.bytes) = some (content, t)) :
    reportedTime E path w = toInt t.tv_sec := by
  obtain ⟨file, hfind, hfile⟩ := Option.map_eq_some_iff.mp h
  obtain ⟨ino, hname, hino⟩ := Fs.find_eq_some_iff.mp hfind
  have hreply : (FileServer.getAttr E path.bytes w.srv).1 =
      some (.ofStat (statOf ino (w.srv.files.inode ino)) 0) := by
    rw [FileServer.getAttr, hrel.calls, hname]
  rw [reportedTime, getAttr_of_reply hrel hreply]
  show toInt (toInt64 (toUInt64 (w.srv.files.inode ino).mtime.tv_sec)) = toInt t.tv_sec
  rw [toInt_toInt64, toInt_toUInt64, hino]
  cases hfile
  rfl

/-- On the server no file but the one at the path is touched. -/
def World.SrvTouches (name : Bytes) (w w' : World) : Prop :=
  ∀ other, other ≠ name → w'.srv.files.find other = w.srv.files.find other

instance (name : Bytes) : IsPreorder World (World.SrvTouches name) where
  refl _ _ _ := rfl
  trans _ _ _ h h' other hne := (h' other hne).trans (h other hne)

/-- To create a file that is not there, the server touches nothing else. -/
theorem openStream_touches (E : Env) (path : CString) {name : Bytes} (hname : name = getServerPath path.bytes) {w : World}
    (hnone : w.srv.files.names name = none) (flag : OpenFlags) :
    World.SrvTouches name w (AFSClient.openStream E ⟨path.bytes, flag, true⟩ w).2 := by
  have hsrv : ∀ other, other ≠ name →
      (FileServer.Open E ⟨path.bytes, flag, true⟩ w.srv).2.files.find other = w.srv.files.find other := by
    intro other hne
    unfold FileServer.Open
    dsimp only
    rw [← hname]
    split
    · rw [if_pos rfl]
      unfold FileServer.openCreate
      rw [hnone]
      dsimp only
      split
      · rfl
      · split_ifs
        · exact Fs.find_create_of_ne _ _ hne
        · rfl
      · rename_i h
        cases h
    · rfl
  unfold AFSClient.openStream
  split
  · exact hsrv
  · exact fun _ _ => rfl

theorem createOnServer_world (fi : FuseFileInfo) (w : World) : (AFSClient.createOnServer E path fi w).2 =
    (AFSClient.openStream E ⟨path.bytes, fi.flags, true⟩ w).2 := by
  unfold AFSClient.createOnServer
  rw [bind_run]
  split_ifs <;> rfl

variable [Sha256]

theorem passes_fetch (hduring : E.During lo hi) (fi : FuseFileInfo) :
    Keeps (World.Passes path lo hi) (AFSClient.fetchAndSyncServerFile E path fi) :=
  fetchAndSyncServerFile_keeps (passes_openStream hduring path _)
    (fun _ => passes_ofstreamSave hduring (getCachePath_mem_localNames path))
    (fun _ => passes_ofstreamSave hduring (getTempPath_mem_localNames path))

/-- After the fetch the temporary copy has what was fetched. -/
theorem saveFetched_tempAt (hopen : E.fails .writeFileToTempOpen = none)
    (hwrite : E.fails .writeFileToTempWrite = none) (data : Bytes) (w : World) :
    tempAt (saveFetched E path data w).2.files path = some data := by
  unfold saveFetched
  simp only [bind_run]
  generalize (writeFileToCache E path data w).2 = w₁
  unfold writeFileToTemp ofstreamSave
  simp only [bind_run, hopen, hwrite, Option.isSome_none, Bool.false_eq_true, if_false]
  obtain ⟨kept, hfind⟩ := Fs.find_overwrite_self w₁.files (getTempPath path) data
    (if data = [] then E.now .writeFileToTempOpen else E.now .writeFileToTempWrite)
    (E.attr .writeFileToTempOpen)
  exact congrArg (Option.map (·.content)) hfind

theorem saveFetched_frame (E : Env) (path : CString) (data : Bytes) :
    Keeps (World.Frame (localNames path)) (saveFetched E path data) := by
  refine .bind ?_ fun _ => .bind ?_ fun _ => .pure _
  · exact (keeps_ofstreamSave (getCachePath_mem_localNames path)).bind fun _ =>
      .ite (fun _ => .pure _) fun _ => .pure _
  · exact (keeps_ofstreamSave (getTempPath_mem_localNames path)).bind fun _ =>
      .ite (fun _ => .pure _) fun _ => .pure _

variable (fi : FuseFileInfo)

/-- What `Open` does before it opens the temporary copy. -/
def prepared (E : Env) (path : CString) (fi : FuseFileInfo) (is_create : Bool) (w : World) : World :=
  (AFSClient.prepareTemp E path fi (AFSClient.getOpenFlags E is_create fi.flags path w).1
    (AFSClient.getOpenFlags E is_create fi.flags path w).2).2

theorem prepareTemp_fetch : AFSClient.prepareTemp E path fi 1 = (do
    let _ ← AFSClient.fetchAndSyncServerFile E path fi) := rfl

theorem prepareTemp_use : AFSClient.prepareTemp E path fi 2 = pure () := rfl

/-- What follows the creation of the temporary copy. -/
def afterCreat (E : Env) (path : CString) (fi : FuseFileInfo) (temp_fd : Int) : Prog Unit := do
  let _ ← posixClose temp_fd
  let cache_fd ← posixCreat E .clientOpenCreatCache (getCachePath path)
  let _ ← posixClose cache_fd
  markFileDirty path
  let _ ← AFSClient.createOnServer E path fi

theorem prepareTemp_create : AFSClient.prepareTemp E path fi 3 =
    posixCreat E .clientOpenCreatTemp (getTempPath path) >>= afterCreat E path fi := rfl

theorem passes_createOnServer (hduring : E.During lo hi) :
    Keeps (World.Passes path lo hi) (AFSClient.createOnServer E path fi) :=
  createOnServer_keeps (passes_openStream hduring path _)

theorem afterCreat_keeps {R : World → World → Prop} [IsPreorder World R] (hclose : ∀ fd, Keeps R (posixClose fd))
    (hopen : Keeps R (posixCreat E .clientOpenCreatCache (getCachePath path))) (hmark : Keeps R (markFileDirty path))
    (hserver : Keeps R (AFSClient.createOnServer E path fi)) (temp_fd : Int) : Keeps R (afterCreat E path fi temp_fd) := by
  refine (hclose temp_fd).bind fun _ => hopen.bind fun cache_fd => ?_
  exact (hclose cache_fd).bind fun _ => hmark.bind fun _ => hserver.bind fun _ => .pure _

theorem passes_afterCreat (hduring : E.During lo hi) (temp_fd : Int) :
    Keeps (World.Passes path lo hi) (afterCreat E path fi temp_fd) :=
  afterCreat_keeps fi (fun fd => passes_of_same (same_posixClose fd) path lo hi)
    (passes_posixOpen hduring (getCachePath_mem_localNames path) _) (passes_markFileDirty path lo hi)
    (passes_createOnServer fi hduring) temp_fd

theorem passes_creation (hduring : E.During lo hi) :
    Keeps (World.Passes path lo hi) (AFSClient.prepareTemp E path fi 3) :=
  (passes_posixOpen hduring (getTempPath_mem_localNames path) _).bind (passes_afterCreat fi hduring)

theorem fdsKept_creation : Keeps World.FdsKept (AFSClient.prepareTemp E path fi 3) := by
  refine fdsKept_openClose _ _ _ (fdsKept_openClose _ _ _ (.bind (fun _ => .of_eq rfl) fun _ => ?_))
  exact (createOnServer_keeps (fdsKept_openStream _)).bind fun _ => .pure _

/-- What `Open` does before it opens the temporary copy comes down to the verdict, the creation and the fetch. -/
theorem prepared_keeps {R : World → World → Prop} [IsPreorder World R] {is_create : Bool} {w : World}
    (hverdict : R w (AFSClient.getOpenFlags E is_create fi.flags path w).2)
    (hcreation : Keeps R (AFSClient.prepareTemp E path fi 3))
    (hfetch : Keeps R (AFSClient.fetchAndSyncServerFile E path fi)) : R w (prepared E path fi is_create w) := by
  refine trans_of R hverdict ?_
  unfold prepared
  rcases getOpenFlags_result E path fi.flags is_create w with ⟨heq, _⟩ | ⟨heq, _⟩ | ⟨heq, _⟩
  · rw [heq]
    exact hcreation _
  · rw [heq, prepareTemp_use]
    exact refl_of R _
  · rw [heq, prepareTemp_fetch]
    exact hfetch.bind (fun _ => .pure _) _

theorem passes_prepared (hduring : E.During lo hi) (is_create : Bool) (w : World) :
    World.Passes path lo hi w (prepared E path fi is_create w) :=
  prepared_keeps fi ((getOpenFlags_same E path fi.flags is_create w).passes path lo hi) (passes_creation fi hduring)
    (passes_fetch hduring fi)

theorem fdsKept_prepared (is_create : Bool) (w : World) :
    World.FdsKept w (prepared E path fi is_create w) :=
  prepared_keeps fi (getOpenFlags_fdsKept E path fi.flags is_create w) (fdsKept_creation fi) (fdsKept_fetch path fi)

/-- Verdict 1: what is fetched is saved, and nothing else has happened. -/
theorem prepared_saves {is_create : Bool} {w : World}
    (heq : (AFSClient.getOpenFlags E is_create fi.flags path w).1 = 1) :
    ∃ checked, World.Same w checked ∧ prepared E path fi is_create w =
      match received E path fi.flags w with
      | none => checked
      | some buf => (saveFetched E path (cStr buf) checked).2 := by
  have hsame := getOpenFlags_same E path fi.flags is_create w
  refine ⟨(AFSClient.getOpenFlags E is_create fi.flags path w).2, hsame, ?_⟩
  unfold prepared
  rw [heq, prepareTemp_fetch, bind_run, pure_run, fetchAndSyncServerFile_eq, fetched_eq,
    received_of_srv E path fi.flags hsame.srv]
  cases received E path fi.flags w with
  | none => rfl
  | some buf => rfl

/-- Verdict 1: the temporary copy is what the server has. -/
theorem prepared_fetched (hrel : E.Reliable) {is_create : Bool} {w : World}
    (heq : (AFSClient.getOpenFlags E is_create fi.flags path w).1 = 1) :
    (prepared E path fi is_create w).srv = w.srv ∧
      (prepared E path fi is_create w).cl.dirty_files = w.cl.dirty_files ∧
      tempAt (prepared E path fi is_create w).files path =
        some (cStr ((contentAt w.srv path.bytes).getD [])) := by
  obtain ⟨checked, hsame, hprepared⟩ := prepared_saves fi heq
  rw [received_of_reliable hrel] at hprepared
  have hframe := saveFetched_frame E path (cStr ((contentAt w.srv path.bytes).getD [])) checked
  rw [hprepared]
  exact ⟨hframe.srv.trans hsame.srv, hframe.dirty.trans hsame.dirty,
    saveFetched_tempAt (hrel.calls _) (hrel.calls _) _ _⟩

/-- Verdict 2: nothing happens, and the temporary copy was found good. -/
theorem prepared_used {is_create : Bool} {w : World}
    (heq : (AFSClient.getOpenFlags E is_create fi.flags path w).1 = 2) :
    World.Same w (prepared E path fi is_create w) := by
  unfold prepared
  rw [heq, prepareTemp_use]
  exact getOpenFlags_same E path fi.flags is_create w

theorem afterCreat_created (E : Env) (path : CString) (temp_fd : Int) {w : World}
    (hnone : w.srv.files.names (getServerPath path.bytes) = none) :
    getHashedPath path ∈ (afterCreat E path fi temp_fd w).2.cl.dirty_files ∧
      World.SrvTouches (getServerPath path.bytes) w (afterCreat E path fi temp_fd w).2 := by
  have hclosed : World.SrvSame w (posixClose temp_fd w).2 := (same_posixClose temp_fd w).srv
  have hcreat := srvSame_posixOpen E .clientOpenCreatCache (getCachePath path)
    (O_WRONLY ||| O_CREAT ||| O_TRUNC) (posixClose temp_fd w).2
  unfold afterCreat posixCreat
  simp only [bind_run, pure_run, createOnServer_world]
  revert hcreat
  generalize posixOpen E .clientOpenCreatCache (getCachePath path) (O_WRONLY ||| O_CREAT ||| O_TRUNC)
    (posixClose temp_fd w).2 = created
  intro hcreat
  have hsrv : World.SrvSame w (posixClose created.1 created.2).2 :=
    trans_of World.SrvSame (trans_of World.SrvSame hclosed hcreat) (same_posixClose _ _).srv
  have hmarked : (markFileDirty path (posixClose created.1 created.2).2).2.srv = w.srv := hsrv
  refine ⟨?_, ?_⟩
  · rw [openStream_cl]
    exact Finset.mem_insert_self _ _
  · have htouch := openStream_touches E path rfl (hmarked ▸ hnone) fi.flags
    exact fun other hne => (htouch other hne).trans (by rw [hmarked])

omit [Sha256] in
/-- `creat` that does not fail. -/
theorem posixCreat_files {site : Site} (hok : E.fails site = none) (name : Bytes) (w : World) :
    (posixCreat E site name w).2.files =
        (w.files.openTrunc name (E.now site) (E.attr site)).1 ∧
      (posixCreat E site name w).2.cl.dirty_files = w.cl.dirty_files ∧
      (posixCreat E site name w).2.srv = w.srv := by
  simp only [posixCreat, posixOpen, attempt, hok, Fs.openTrunc]
  cases hname : w.files.names name with
  | none => exact ⟨rfl, rfl, rfl⟩
  | some ino => exact ⟨rfl, rfl, rfl⟩

omit [Sha256] in
theorem posixCreat_names {site : Site} (hok : E.fails site = none) (name : Bytes) (w : World) :
    ∃ ino, (posixCreat E site name w).2.files.names name = some ino := by
  rw [(posixCreat_files hok name w).1]
  exact ⟨_, Fs.openTrunc_names_self w.files name _ _⟩

/-- Verdict 3: there is a temporary copy, the path is dirty, and the server had no such file. -/
theorem prepared_created (hrel : E.Reliable) (hduring : E.During lo hi) {is_create : Bool} {w : World}
    (heq : (AFSClient.getOpenFlags E is_create fi.flags path w).1 = 3)
    (hnone : w.srv.files.names (getServerPath path.bytes) = none) :
    getHashedPath path ∈ (prepared E path fi is_create w).cl.dirty_files ∧
      (∃ ino, (prepared E path fi is_create w).files.names (getTempPath path) = some ino) ∧
      World.SrvTouches (getServerPath path.bytes) w (prepared E path fi is_create w) := by
  have hsame := (getOpenFlags_same E path fi.flags is_create w).srv
  unfold prepared
  rw [heq, prepareTemp_create, bind_run]
  obtain ⟨ino, hname⟩ := posixCreat_names (hrel.calls .clientOpenCreatTemp) (getTempPath path)
    (AFSClient.getOpenFlags E is_create fi.flags path w).2
  have hsrv : (posixCreat E .clientOpenCreatTemp (getTempPath path)
      (AFSClient.getOpenFlags E is_create fi.flags path w).2).2.srv = w.srv :=
    (srvSame_posixOpen E _ _ _ _).trans hsame
  revert hname hsrv
  generalize posixCreat E .clientOpenCreatTemp (getTempPath path)
    (AFSClient.getOpenFlags E is_create fi.flags path w).2 = created
  intro hname hsrv
  obtain ⟨hdirty, htouch⟩ := afterCreat_created fi E path created.1 (hsrv ▸ hnone)
  refine ⟨hdirty, ⟨ino, ?_⟩, fun other hne => (htouch other hne).trans (by rw [hsrv])⟩
  exact (passes_afterCreat fi hduring created.1 created.2).files.names _ _ hname

/-- The last part of `Open`. -/
def openTemp (E : Env) (path : CString) (fi : FuseFileInfo) : Prog Int := do
  let temp_fd ← posixOpen E .clientOpenOpen (getTempPath path) (AFSClient.localFlags fi.flags)
  if temp_fd > -1 then return temp_fd
  else
    deleteFromTemp E path
    let errno ← getErrno
    return -errno

theorem Open_eq (E : Env) (path : CString) (is_create : Bool) (w : World) :
    AFSClient.Open E path fi is_create w = openTemp E path fi (prepared E path fi is_create w) := rfl

/-- The last open of `Open` gives a descriptor, and truncates if it is asked to. -/
theorem openTemp_eq (hok : E.fails .clientOpenOpen = none) {i : Nat}
    (hname : w.files.names (getTempPath path) = some i) :
    openTemp E path fi w = newFd i (AFSClient.localFlags fi.flags)
      (if fi.flags.has O_TRUNC then w.setFiles (w.files.put i [] (E.now .clientOpenOpen)) else w) := by
  have hexcl := localFlags_not_exclusive fi.flags
  have htrunc := localFlags_trunc fi.flags
  have hopen : posixOpen E .clientOpenOpen (getTempPath path) (AFSClient.localFlags fi.flags) w =
      newFd i (AFSClient.localFlags fi.flags)
        (if fi.flags.has O_TRUNC then w.setFiles (w.files.put i [] (E.now .clientOpenOpen)) else w) := by
    simp only [posixOpen, attempt, hok, hname, hexcl, htrunc, Bool.false_eq_true, if_false]
    split_ifs <;> rfl
  have hfd : ∀ w', (newFd i (AFSClient.localFlags fi.flags) w').1 > -1 := fun w' =>
    lt_of_lt_of_le (by decide) (newFd_nonneg i w')
  unfold openTemp
  rw [bind_run, hopen, if_pos (hfd _)]
  rfl

variable {fi}

/-- The call does not fail by itself, and the temporary copy is there or is made. -/
def FinalOpens (E : Env) (path : CString) (flags : OpenFlags) (w : World) : Prop :=
  E.fails .clientOpenOpen = none ∧
    (w.files.names (getTempPath path) ≠ none ∨ flags.has O_CREAT = true)

theorem openTemp_made (hok : E.fails .clientOpenOpen = none)
    (hnone : w.files.names (getTempPath path) = none) (hcreat : fi.flags.has O_CREAT = true) :
    openTemp E path fi w = newFd w.files.next (AFSClient.localFlags fi.flags) (w.setFiles
      (w.files.create (getTempPath path) ⟨[], E.now .clientOpenOpen, E.attr .clientOpenOpen⟩)) := by
  have hopen : posixOpen E .clientOpenOpen (getTempPath path) (AFSClient.localFlags fi.flags) w =
      newFd w.files.next (AFSClient.localFlags fi.flags) (w.setFiles
        (w.files.create (getTempPath path) ⟨[], E.now .clientOpenOpen, E.attr .clientOpenOpen⟩)) := by
    simp only [posixOpen, attempt, hok, hnone, localFlags_creat, hcreat, if_true]
  have hfd : ∀ w', (newFd w.files.next (AFSClient.localFlags fi.flags) w').1 > -1 := fun w' =>
    lt_of_lt_of_le (by decide) (newFd_nonneg _ w')
  unfold openTemp
  rw [bind_run, hopen, if_pos (hfd _)]
  rfl

/-- A call that fails takes the temporary copy and the mark away. -/
theorem openTemp_failed (h : ¬ FinalOpens E path fi.flags w) : ∃ e : Int, 0 < e ∧ openTemp E path fi w =
    (-(deleteFromTemp E path { w with errno := e }).2.errno, (deleteFromTemp E path { w with errno := e }).2) := by
  have hfail : ∃ e : Int, 0 < e ∧ posixOpen E .clientOpenOpen (getTempPath path)
      (AFSClient.localFlags fi.flags) w = failWith e w := by
    cases hfails : E.fails .clientOpenOpen with
    | some e => exact ⟨e, E.fails_pos _ e hfails, by simp only [posixOpen, attempt, hfails]⟩
    | none =>
        have hnone : w.files.names (getTempPath path) = none := by
          by_contra hthere
          exact h ⟨hfails, Or.inl hthere⟩
        have hcreat : fi.flags.has O_CREAT = false := by
          by_contra hflag
          exact h ⟨hfails, Or.inr (by simpa using hflag)⟩
        refine ⟨ENOENT, by decide, ?_⟩
        simp only [posixOpen, attempt, hfails, hnone, localFlags_creat, hcreat, Bool.false_eq_true, if_false]
  obtain ⟨e, hpos, heq⟩ := hfail
  refine ⟨e, hpos, ?_⟩
  have hneg : ¬ (failWith e w).1 > -1 := by
    show ¬ (-1 : Int) > -1
    omega
  unfold openTemp
  rw [bind_run, heq, if_neg hneg]
  rfl

theorem openTemp_neg_iff : (openTemp E path fi w).1 < 0 ↔ ¬ FinalOpens E path fi.flags w := by
  constructor
  · rintro hneg ⟨hok, hopens⟩
    have hopened : 0 ≤ (openTemp E path fi w).1 := by
      cases hname : w.files.names (getTempPath path) with
      | some i =>
          rw [openTemp_eq fi hok hname]
          exact newFd_nonneg _ _
      | none =>
          rw [openTemp_made hok hname (hopens.resolve_left fun h => h hname)]
          exact newFd_nonneg _ _
    omega
  · intro h
    obtain ⟨e, hpos, heq⟩ := openTemp_failed h
    have herrno : 0 < (deleteFromTemp E path { w with errno := e }).2.errno :=
      posixRemove_errno (w := { w with errno := e }) hpos
    rw [heq]
    show -(deleteFromTemp E path { w with errno := e }).2.errno < 0
    omega

variable (fi)

/-- Once the temporary copy is there, `Open` opens it. -/
theorem Open_of_prepared (hrel : E.Reliable) (htrunc : fi.flags.has O_TRUNC = false)
    {is_create : Bool} {w : World} {ino : Nat}
    (hname : (prepared E path fi is_create w).files.names (getTempPath path) = some ino) :
    AFSClient.Open E path fi is_create w =
      newFd ino (AFSClient.localFlags fi.flags) (prepared E path fi is_create w) := by
  rw [Open_eq, openTemp_eq fi (hrel.calls _) hname, htrunc]
  rfl

theorem tempAt_ne_none {files : Files} {bytes : Bytes} (h : tempAt files path = some bytes) :
    ∃ ino, files.names (getTempPath path) = some ino := by
  obtain ⟨file, hfind, _⟩ := Option.map_eq_some_iff.mp h
  obtain ⟨ino, hname, _⟩ := Fs.find_eq_some_iff.mp hfind
  exact ⟨ino, hname⟩

/-- What an open leaves behind: the path is dirty, because there was no such file on the server and one
was created; or nothing on the server has changed, and the temporary copy is either the server's file or
the one that was there, found not to be older. -/
inductive Opened (E : Env) (path : CString) (w w' : World) : Prop where
  | created (hdirty : getHashedPath path ∈ w'.cl.dirty_files)
      (hmissing : w.srv.files.names (getServerPath path.bytes) = none)
      (hsrv : World.SrvTouches (getServerPath path.bytes) w w')
  | fetched (hsrv : w'.srv = w.srv) (hdirty : w'.cl.dirty_files = w.cl.dirty_files)
      (htemp : tempAt w'.files path = some (cStr ((contentAt w.srv path.bytes).getD [])))
  | used (hsame : World.Same w w') (hused : TempUsed E path w)

/-- An open gives a descriptor on the temporary copy. -/
theorem Open_spec (hrel : E.Reliable) (hduring : E.During lo hi)
    (htrunc : fi.flags.has O_TRUNC = false) (is_create : Bool) (w : World) :
    World.Passes path lo hi w (AFSClient.Open E path fi is_create w).2 ∧
    World.FdsKept w (AFSClient.Open E path fi is_create w).2 ∧
    Opened E path w (AFSClient.Open E path fi is_create w).2 ∧
    ∃ ino fd, (AFSClient.Open E path fi is_create w).1 = ((fd : Nat) : Int) ∧
      (AFSClient.Open E path fi is_create w).2.files.names (getTempPath path) = some ino ∧
      (AFSClient.Open E path fi is_create w).2.cl.fds.get fd =
        some ⟨ino, AFSClient.localFlags fi.flags⟩ := by
  have hpasses : World.Passes path lo hi w (prepared E path fi is_create w) :=
    passes_prepared fi hduring is_create w
  have hkept : World.FdsKept w (prepared E path fi is_create w) := fdsKept_prepared fi is_create w
  have hopened : (∃ ino, (prepared E path fi is_create w).files.names (getTempPath path) = some ino) ∧
      Opened E path w (prepared E path fi is_create w) := by
    rcases getOpenFlags_result E path fi.flags is_create w with
      ⟨heq, hcreate⟩ | ⟨heq, _, hused⟩ | ⟨heq, _⟩
    · have hmissing := missing_of_enoent hrel hcreate.1
      obtain ⟨hdirty, hname, hsrv⟩ := prepared_created fi hrel hduring heq hmissing
      exact ⟨hname, .created hdirty hmissing hsrv⟩
    · have hsame := prepared_used fi heq
      obtain ⟨ino, hname⟩ := hused.names
      exact ⟨⟨ino, hsame.files ▸ hname⟩, .used hsame hused⟩
    · obtain ⟨hsrv, hdirty, htemp⟩ := prepared_fetched fi hrel heq
      exact ⟨tempAt_ne_none htemp, .fetched hsrv hdirty htemp⟩
  obtain ⟨⟨ino, hname⟩, hopened⟩ := hopened
  rw [Open_of_prepared fi hrel htrunc hname]
  have hnew := same_newFd ino (AFSClient.localFlags fi.flags) (prepared E path fi is_create w)
  refine ⟨trans_of _ hpasses (hnew.passes path lo hi), trans_of World.FdsKept hkept ?_, ?_,
    ino, _, rfl, hname, Descriptors.get_insert_self _ _⟩
  · exact fun _ _ hget => Descriptors.get_insert_of_some hget
  · cases hopened with
    | created hdirty hmissing hsrv => exact .created hdirty hmissing hsrv
    | fetched hsrv hdirty htemp => exact .fetched hsrv hdirty htemp
    | used hsame hused => exact .used (trans_of World.Same hsame hnew) hused

/-- The handle an open returns is on the temporary copy. -/
theorem openHandle_spec (path : CString) (hrel : E.Reliable) (hduring : E.During lo hi)
    (htrunc : fi.flags.has O_TRUNC = false) (is_create : Bool) (w : World) :
    let result := openHandle E path fi is_create w
    World.Passes path lo hi w result.2 ∧ World.FdsKept w result.2 ∧ Opened E path w result.2 ∧
    result.1.1 = 0 ∧ ∃ d, result.2.cl.fds.get result.1.2.fh = some d ∧
      result.2.files.names (getTempPath path) = some d.ino := by
  obtain ⟨hpasses, hkept, hopened, ino, fd, hret, hname, hget⟩ :=
    Open_spec fi hrel hduring htrunc is_create w
  have hresult : openHandle E path fi is_create w =
      ((0, { fi with fh := fd }), (AFSClient.Open E path fi is_create w).2) := by
    rw [openHandle_plain path hrel.plain, bind_run, hret, if_neg (by omega)]
    rfl
  rw [hresult]
  exact ⟨hpasses, hkept, hopened, rfl, _, hget, hname⟩

end Open

/-! ### Write -/

section Write

variable [Sha256] {E : Env} {path : CString} {lo hi : Int} {w : World} {fi : FuseFileInfo}
  {d : Descriptor}

/-- What goes through a descriptor of the temporary copy changes nothing else. -/
theorem passes_posixPwrite (hduring : E.During lo hi) (site : Site) (data : Bytes) (offset : Nat)
    (hfd : w.cl.fds.get fi.fh = some d) (hname : w.files.names (getTempPath path) = some d.ino) :
    World.Passes path lo hi w (posixPwrite E site fi.fh data offset w).2 ∧
      World.FdsKept w (posixPwrite E site fi.fh data offset w).2 ∧
      (posixPwrite E site fi.fh data offset w).2.srv = w.srv := by
  have hrefl := refl_of (World.Passes path lo hi) w
  rcases posixPwrite_run E site w fi.fh data offset with ⟨d', ⟨_, hget, _⟩, heq⟩ | ⟨e, _, heq⟩
  · obtain rfl : d' = d := Option.some.inj (hget.symm.trans hfd)
    rw [heq]
    split_ifs
    · exact ⟨hrefl, .of_eq rfl, rfl⟩
    · exact ⟨(setInode_evolves hname (getTempPath_mem_localNames path) (hduring site)).passes, .of_eq rfl, rfl⟩
  · rw [heq]
    exact ⟨(same_failWith e w).passes path lo hi, .of_eq rfl, rfl⟩

/-- A write on a handle is one `pwrite`; the path is marked whether it was made or not. -/
theorem writeThrough_run (path : CString) (buf : Bytes) (offset : Nat) (fi : FuseFileInfo) (w : World) :
    writeThrough E path buf offset (some fi) w =
      (if (posixPwrite E .pwrite fi.fh buf offset w).1 = -1 then -(posixPwrite E .pwrite fi.fh buf offset w).2.errno
        else (posixPwrite E .pwrite fi.fh buf offset w).1,
      (markFileDirty path (posixPwrite E .pwrite fi.fh buf offset w).2).2) := by
  have hhandle : handleFd E .writeOpen path (some fi) O_WRONLY = pure (fi.fh : Int) := rfl
  have hclose : closeUnlessHandle fi.fh (some fi) = pure () := rfl
  have hfh : ¬ (fi.fh : Int) = -1 := by omega
  unfold writeThrough
  rw [hhandle, bind_run, pure_run, if_neg hfh]
  simp only [bind_run, hclose]
  split_ifs <;> rfl

theorem writeThrough_handle (path : CString) (buf : Bytes) (offset : Nat) (fi : FuseFileInfo)
    (w : World) : (writeThrough E path buf offset (some fi) w).2 =
      (markFileDirty path (posixPwrite E .pwrite fi.fh buf offset w).2).2 :=
  congrArg Prod.snd (writeThrough_run path buf offset fi w)

/-- A write through a handle on the path marks it dirty, whatever `pwrite` returns. -/
theorem unreliableWrite_spec (hrel : E.Reliable) (hduring : E.During lo hi) (buf : Bytes)
    (offset : Nat) (hfd : w.cl.fds.get fi.fh = some d)
    (hname : w.files.names (getTempPath path) = some d.ino) :
    World.Passes path lo hi w (unreliableWrite E path buf offset (some fi) w).2 ∧
      World.FdsKept w (unreliableWrite E path buf offset (some fi) w).2 ∧
      (unreliableWrite E path buf offset (some fi) w).2.srv = w.srv ∧
      getHashedPath path ∈ (unreliableWrite E path buf offset (some fi) w).2.cl.dirty_files := by
  obtain ⟨hpasses, hkept, hsrv⟩ := passes_posixPwrite hduring .pwrite buf offset hfd hname
  have hwrite : (unreliableWrite E path buf offset (some fi) w).2 =
      (markFileDirty path (posixPwrite E .pwrite fi.fh buf offset w).2).2 := by
    unfold unreliableWrite
    rw [hrel.plain, if_neg (by decide), if_neg (by decide), if_neg (by decide)]
    exact writeThrough_handle path buf offset fi w
  rw [hwrite]
  exact ⟨trans_of _ hpasses (passes_markFileDirty path lo hi _),
    trans_of World.FdsKept hkept (.of_eq rfl), hsrv, Finset.mem_insert_self _ _⟩

end Write

section Flush

variable {E : Env} {path : CString} {lo hi : Int} {w : World}

/-- All messages of the upload arrive. -/
theorem putFileStream_reliable (hrel : E.Reliable) (requests : List PutFileReq) (w : World) :
    AFSClient.putFileStream E requests w =
      ((putFile E requests w.srv).1, { w with srv := (putFile E requests w.srv).2 }) := by
  unfold AFSClient.putFileStream StreamFate.arrive
  rw [hrel.uploads]
  rfl

theorem sentChunks_all (hwrites : ∀ n, E.writeOk n = true) (n : Nat) (chunks : List Bytes) :
    AFSClient.sentChunks E.writeOk n chunks = chunks := by
  induction chunks generalizing n with
  | nil => rfl
  | cons chunk rest ih => rw [AFSClient.sentChunks, if_pos (hwrites n), ih]

theorem landed_reliable (hrel : E.Reliable) (n : Nat) (chunks : List Bytes) :
    landed E n chunks = chunks.flatten := by
  induction chunks generalizing n with
  | nil => rfl
  | cons chunk rest ih =>
      rw [landed, ih, List.flatten_cons, hrel.calls]
      split_ifs with hempty
      · rw [hempty, List.nil_append]
      · cases ‹_›
      · rfl

/-- The upload puts the chunks at the path. -/
theorem putFile_contentAt (path : Bytes) (hrel : E.Reliable) (chunks : List Bytes) (srv : Server) :
    contentAt (putFile E (uploadRequests path chunks) srv).2 path = some chunks.flatten :=
  ((putFile_installs_iff path srv chunks chunks.flatten).mpr
    ⟨hrel.calls _, Or.inl ⟨hrel.calls _, landed_reliable hrel 0 chunks⟩⟩).2

/-- An upload under a name that is free leaves every other file of the server alone. -/
theorem dated_putFile_of_ne (hrel : E.Reliable) (request : PutFileReq) (rest : List PutFileReq)
    (srv : Server) (hfresh : srv.files.names (uploadTemp E request.path) = none) {name : Bytes}
    (hne : name ≠ getServerPath request.path) {file : Bytes × Timespec}
    (hfile : dated srv.files name = some file) :
    dated (putFile E (request :: rest) srv).2.files name = some file := by
  obtain ⟨found, hfind, hfound⟩ := Option.map_eq_some_iff.mp hfile
  obtain ⟨i, hname, hi⟩ := Fs.find_eq_some_iff.mp hfind
  have htemp : name ≠ uploadTemp E request.path := by
    rintro rfl
    rw [hfresh] at hname
    cases hname
  have hwritten : dated (writeUpload E (request :: rest) srv.files) name = some file := by
    obtain ⟨ino, _, _, hnames, hino, hinodes⟩ :=
      writeUpload_of_opened E request rest srv.files (hrel.calls _)
    have hne : i ≠ ino := by
      rcases hino with hold | ⟨_, rfl⟩
      · rw [hfresh] at hold
        cases hold
      · exact Nat.ne_of_lt (srv.files.named_lt name i hname)
    rw [dated, Fs.find_of_names ((hnames name htemp).trans hname), hinodes i hne, hi, ← hfound]
    rfl
  rcases putFile_cases E request rest srv with ⟨_, hput⟩ | ⟨_, _, _, _, hdated⟩
  · rw [hput]
    exact hwritten
  · rw [hdated, dated_of_find_eq (Fs.find_rename_of_ne _ htemp hne)]
    exact hwritten

variable [Sha256]

theorem passes_commitToCache {t : Int} (ht : lo < t ∧ t ≤ hi) (hduring : E.During lo hi) :
    Keeps (World.Passes path lo hi) (commitToCache E path t) := by
  have htemp := getTempPath_mem_localNames path
  have hcache := getCachePath_mem_localNames path
  exact commitToCache_keeps (passes_posixOpen hduring htemp _) (passes_of_same same_getErrno path lo hi)
    (fun fd => passes_of_same (same_posixClose fd) path lo hi) (passes_systemCp hduring hcache)
    (passes_posixUtime ht htemp) (passes_posixUtime ht hcache) (passes_eraseDirty path lo hi)

/-- A flush of a path that is not dirty looks at the temporary copy, and that is all. -/
theorem flush_clean (E : Env) (hclean : getHashedPath path ∉ w.cl.dirty_files) :
    World.Same w (AFSClient.flush E path w).2 ∧ World.FdsKept w (AFSClient.flush E path w).2 := by
  have hsame := ifstreamRead_same E .clientFlushIfstream (getTempPath path) w
  have hkept : World.FdsKept w
      (AFSClient.ifstreamRead E .clientFlushIfstream (getTempPath path) w).2 := by
    unfold AFSClient.ifstreamRead
    split <;> exact .of_eq rfl
  unfold AFSClient.flush
  rw [bind_run]
  cases hfile : (AFSClient.ifstreamRead E .clientFlushIfstream (getTempPath path) w).1 with
  | none => exact ⟨hsame, hkept⟩
  | some content =>
      simp only [bind_run, isFileDirty, hsame.dirty, hclean, decide_false]
      exact ⟨hsame, hkept⟩

/-- The temporary copy is read whole. -/
theorem ifstreamRead_reliable (hrel : E.Reliable) {content : Bytes}
    (htemp : tempAt w.files path = some content) :
    AFSClient.ifstreamRead E .clientFlushIfstream (getTempPath path) w = (some content, w) := by
  unfold AFSClient.ifstreamRead
  rw [hrel.calls]
  exact congrArg (fun read => (read, w)) htemp

/-- A flush of a dirty path sends the temporary copy and, with a reply, commits it. -/
theorem flush_dirty (hrel : E.Reliable) (hdirty : getHashedPath path ∈ w.cl.dirty_files)
    {content : Bytes} (htemp : tempAt w.files path = some content) :
    (AFSClient.flush E path w).2 =
      let sent := putFile E (uploadRequests path.bytes (Chunks.pieces BUFSIZE content)) w.srv
      match sent.1 with
      | none => { w with srv := sent.2 }
      | some reply =>
        (commitToCache E path (toInt reply.lastModifiedTime) { w with srv := sent.2 }).2 := by
  unfold AFSClient.flush
  rw [bind_run, ifstreamRead_reliable hrel htemp]
  simp only [bind_run, isFileDirty, hdirty, decide_true]
  rw [if_neg (by decide), if_neg (by rw [hrel.writes]; decide), sentChunks_all hrel.writes, bind_run,
    putFileStream_reliable hrel]
  dsimp only
  cases (putFile E (uploadRequests path.bytes (Chunks.pieces BUFSIZE content)) w.srv).1 <;> rfl

theorem commitToCache_tempAt (t : Int) (hsole : w.files.Sole (getTempPath path)) :
    tempAt (commitToCache E path t w).2.files path = tempAt w.files path := by
  rcases commitToCache_cases E path w t hsole with hsame | ⟨_, _, _, ino, hw, hw', hcontent, _⟩
  · rw [hsame.files]
  · rw [tempAt, tempAt, Fs.find_of_names hw.names, Fs.find_of_names hw'.names]
    exact congrArg some hcontent

/-- A commit leaves the bytes of the temporary copy alone, and the server. -/
theorem commitToCache_spec (hduring : E.During lo hi) {t : Int} (ht : lo < t ∧ t ≤ hi)
    (hsole : w.files.Sole (getTempPath path)) :
    World.Passes path lo hi w (commitToCache E path t w).2 ∧
      World.FdsKept w (commitToCache E path t w).2 ∧
      (commitToCache E path t w).2.srv = w.srv ∧
      tempAt (commitToCache E path t w).2.files path = tempAt w.files path :=
  ⟨passes_commitToCache ht hduring w, fdsKept_commitToCache path t w, srvSame_commitToCache E path t w,
    commitToCache_tempAt t hsole⟩

/-- After a flush of a dirty path the server and the temporary copy have the bytes that were sent. -/
structure Flushed (E : Env) (path : CString) (w w' : World) : Prop where
  sent : ∃ content, tempAt w.files path = some content ∧ tempAt w'.files path = some content ∧
    contentAt w'.srv path.bytes = some content
  srv : ∃ chunks, w'.srv = (putFile E (uploadRequests path.bytes chunks) w.srv).2

theorem flush_dirty_spec (hrel : E.Reliable) (hduring : E.During lo hi) (hlo : -2 ^ 31 ≤ lo)
    (hhi : hi < 2 ^ 31) (hdirty : getHashedPath path ∈ w.cl.dirty_files) {ino : Nat}
    (hw : w.Holds (getTempPath path) ino) :
    World.Passes path lo hi w (AFSClient.flush E path w).2 ∧
      World.FdsKept w (AFSClient.flush E path w).2 ∧ Flushed E path w (AFSClient.flush E path w).2 := by
  have htemp : tempAt w.files path = some (w.files.inode ino).content := by
    rw [tempAt, Fs.find_of_names hw.names, Option.map_some]
  have hcontent := putFile_contentAt path.bytes hrel
    (Chunks.pieces BUFSIZE (w.files.inode ino).content) w.srv
  rw [Chunks.pieces_flatten] at hcontent
  obtain ⟨hrenewed, hreply⟩ := putFile_renewed hrel hduring ⟨path.bytes, []⟩
    ((Chunks.pieces BUFSIZE (w.files.inode ino).content).map fun chunk => ⟨path.bytes, chunk⟩) w.srv
  rw [flush_dirty hrel hdirty htemp]
  revert hcontent hrenewed hreply
  rw [← uploadRequests]
  generalize hput : putFile E (uploadRequests path.bytes
    (Chunks.pieces BUFSIZE (w.files.inode ino).content)) w.srv = sent
  intro hcontent hrenewed hreply
  dsimp only
  have hsent : World.Passes path lo hi w { w with srv := sent.2 } :=
    ⟨refl_of (Evolves _ lo hi) w.files, fun _ _ => Iff.rfl, hrenewed⟩
  cases hstatus : sent.1 with
  | none =>
      refine ⟨hsent, .of_eq rfl, ⟨_, htemp, htemp, hcontent⟩,
        Chunks.pieces BUFSIZE (w.files.inode ino).content, ?_⟩
      rw [hput]
  | some reply =>
      obtain ⟨_, t, _, htlo, hthi, hmtime⟩ := hreply reply hstatus
      have ht : toInt reply.lastModifiedTime = t.tv_sec := by
        rw [hmtime, toInt_toUInt64]
        exact toInt_of_range (by omega) (by omega)
      have hperiod : lo < toInt reply.lastModifiedTime ∧ toInt reply.lastModifiedTime ≤ hi := by
        rw [ht]
        exact ⟨htlo, hthi⟩
      have hcommit := commitToCache_spec (w := { w with srv := sent.2 }) hduring hperiod hw.sole
      revert hcommit
      dsimp only
      generalize (commitToCache E path (toInt reply.lastModifiedTime) { w with srv := sent.2 }).2 = w'
      rintro ⟨hcommit, hkept, hsrv, htemp'⟩
      have hsrv : w'.srv = sent.2 := hsrv
      refine ⟨trans_of (World.Passes path lo hi) hsent hcommit, hkept,
        ⟨_, htemp, htemp'.trans htemp, ?_⟩, Chunks.pieces BUFSIZE (w.files.inode ino).content, ?_⟩
      · rw [hsrv]
        exact hcontent
      · rw [hput]
        exact hsrv

/-- A flush through a handle on the path: nothing happens to a clean path, and a dirty one is sent. -/
theorem unreliableFlush_spec (hrel : E.Reliable) (hduring : E.During lo hi) (hlo : -2 ^ 31 ≤ lo)
    (hhi : hi < 2 ^ 31) {fi : FuseFileInfo} {d : Descriptor} (hfd : w.cl.fds.get fi.fh = some d)
    (hw : w.Holds (getTempPath path) d.ino) :
    World.Passes path lo hi w (unreliableFlush E path fi w).2 ∧
      World.FdsKept w (unreliableFlush E path fi w).2 ∧
      ((getHashedPath path ∉ w.cl.dirty_files ∧ World.Same w (unreliableFlush E path fi w).2) ∨
        (getHashedPath path ∈ w.cl.dirty_files ∧
          Flushed E path w (unreliableFlush E path fi w).2)) := by
  have hdup : DupOk E fi w := ⟨hrel.calls _, by rw [hfd]; rfl⟩
  obtain ⟨w₁, hsame, hkept, hflush⟩ := flushThrough_of_dupOk path fi hdup
  rw [unreliableFlush_plain path fi hrel.plain, hflush]
  by_cases hdirty : getHashedPath path ∈ w.cl.dirty_files
  · have hw₁ : w₁.Holds (getTempPath path) d.ino :=
      ⟨hsame.files ▸ hw.names, hsame.files ▸ hw.sole⟩
    obtain ⟨hpasses, hkept', hflushed⟩ :=
      flush_dirty_spec hrel hduring hlo hhi (hsame.dirty ▸ hdirty) hw₁
    refine ⟨trans_of _ (hsame.passes path lo hi) hpasses, trans_of World.FdsKept hkept hkept',
      Or.inr ⟨hdirty, ⟨hsame.files ▸ hflushed.sent, hsame.srv ▸ hflushed.srv⟩⟩⟩
  · obtain ⟨hsame', hkept'⟩ := flush_clean E (hsame.dirty ▸ hdirty)
    exact ⟨(trans_of World.Same hsame hsame').passes path lo hi,
      trans_of World.FdsKept hkept hkept', Or.inl ⟨hdirty, trans_of World.Same hsame hsame'⟩⟩

end Flush

end Bnfs
