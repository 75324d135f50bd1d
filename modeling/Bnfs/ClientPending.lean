import Bnfs.ClientLife
import Bnfs.ClientDirtyRuns
import Bnfs.ClientOpenCopies

/-! Bytes of the temporary copy that no flush has sent yet. An open of the path before the flush may lose them:
it does not look at the mark. So does a flush that cannot write its first message; any other one that fails can be
tried again. -/

namespace Bnfs

open FileSystem Programs Runs FileServer

/-- What the temporary copy has, and that a flush is still to send it. -/
structure Unflushed [Sha256] (path : CString) (bytes : Option Bytes) (w : World) : Prop where
  temp : tempAt w.files path = bytes
  dirty : getHashedPath path ∈ w.cl.dirty_files

theorem Unflushed.of_same [Sha256] {path : CString} {bytes : Option Bytes} {w w' : World}
    (h : Unflushed path bytes w) (hfiles : w'.files = w.files) (hdirty : w'.cl.dirty_files = w.cl.dirty_files) :
    Unflushed path bytes w' :=
  ⟨by rw [hfiles]; exact h.temp, by rw [hdirty]; exact h.dirty⟩

section Open

variable [Sha256] {E : Env} {path : CString} {fi : FuseFileInfo} {is_create : Bool} {w : World} {content : Bytes}

/-- The temporary copy has the bytes it is overwritten with, if it can be; else those that are written to the
persistent copy, if the two are one file. -/
def Survives (E : Env) (tempSite cacheSite : Site) (path : CString) (data cached : Bytes) (w : World) : Prop :=
  (E.fails tempSite = none → tempAt w.files path = some data) ∧
    (E.fails tempSite ≠ none → E.fails cacheSite = none →
      w.files.names (getCachePath path) = w.files.names (getTempPath path) → tempAt w.files path = some cached)

/-- The open does not fail, there is a temporary copy, and neither a creation nor a fetch puts other bytes in it. -/
structure OpenSpares (E : Env) (path : CString) (fi : FuseFileInfo) (is_create : Bool) (w : World) : Prop where
  opens : E.fails .clientOpenOpen = none
  there : tempAt w.files path ≠ none
  created : MadeAnew E path fi.flags is_create w →
    Survives E .clientOpenCreatTemp .clientOpenCreatCache path [] [] w
  fetched : ¬ MadeAnew E path fi.flags is_create w → ¬ TempTaken E path w →
    ∀ buf, received E path fi.flags w = some buf →
      Survives E .writeFileToTempOpen .writeFileToCacheOpen path
        (savedBytes E .writeFileToTempWrite (cStr buf)) (savedBytes E .writeFileToCacheWrite (cStr buf)) w

/-- No open takes the mark away before its last call. -/
theorem prepared_keeps_mark (hdirty : getHashedPath path ∈ w.cl.dirty_files) :
    getHashedPath path ∈ (prepared E path fi is_create w).cl.dirty_files := by
  rcases verdict_cases E path fi is_create w with ⟨hverdict, _⟩ | ⟨hverdict, _⟩ | ⟨hverdict, _⟩
  · exact (prepared_creating hverdict).1
  · rw [(prepared_using hverdict).dirty]
    exact hdirty
  · rw [(prepared_fetching hverdict).1]
    exact hdirty

/-- What is done to the temporary copy before the last call. -/
theorem prepared_temp_iff (hthere : tempAt w.files path = some content) :
    tempAt (prepared E path fi is_create w).files path = some content ↔
      (MadeAnew E path fi.flags is_create w →
        Survives E .clientOpenCreatTemp .clientOpenCreatCache path [] [] w) ∧
      (¬ MadeAnew E path fi.flags is_create w → ¬ TempTaken E path w →
        ∀ buf, received E path fi.flags w = some buf →
          Survives E .writeFileToTempOpen .writeFileToCacheOpen path
            (savedBytes E .writeFileToTempWrite (cStr buf)) (savedBytes E .writeFileToCacheWrite (cStr buf)) w) := by
  have hsurvives : ∀ tempSite cacheSite data cached,
      Survives E tempSite cacheSite path data cached w ↔
        (E.fails tempSite = none → data = content) ∧ (¬ E.fails tempSite = none → E.fails cacheSite = none →
          w.files.names (getCachePath path) = w.files.names (getTempPath path) → cached = content) := by
    intro tempSite cacheSite data cached
    unfold Survives
    rw [hthere]
    simp only [Option.some_inj, eq_comm, ne_eq]
  rcases verdict_cases E path fi is_create w with
    ⟨hverdict, hanew⟩ | ⟨hverdict, hnot, htaken⟩ | ⟨hverdict, hnot, htaken⟩
  · obtain ⟨_, files, htemp, hcache⟩ := prepared_creating hverdict
    rw [hsurvives, tempAt, htemp.content_iff_first hcache hthere]
    exact ⟨fun h => ⟨fun _ => h, fun hnew => absurd hanew hnew⟩, fun h => h.1 hanew⟩
  · rw [(prepared_using hverdict).files]
    exact iff_of_true hthere ⟨fun hnew => absurd hnew hnot, fun _ hnew => absurd htaken hnew⟩
  · have hfetching := (prepared_fetching hverdict).2
    cases hreceived : received E path fi.flags w with
    | none =>
        rw [hreceived] at hfetching
        rw [hfetching]
        exact iff_of_true hthere ⟨fun hnew => absurd hnew hnot, fun _ _ buf hbuf => by cases hbuf⟩
    | some buf =>
        rw [hreceived] at hfetching
        obtain ⟨files, hcache, htemp⟩ := hfetching
        rw [tempAt, hcache.content_iff_last htemp hthere, ← hsurvives]
        refine ⟨fun h => ⟨fun hnew => absurd hnew hnot, fun _ _ buf' hbuf => ?_⟩, fun h => h.2 hnot htaken buf rfl⟩
        cases hbuf
        exact h

/-- The last call, without `O_TRUNC`, leaves a temporary copy that is there alone. -/
theorem openTemp_keeps (hok : E.fails .clientOpenOpen = none) (htrunc : fi.flags.has O_TRUNC = false)
    (hthere : tempAt w.files path = some content) : (openTemp E path fi w).2.files = w.files ∧
      (openTemp E path fi w).2.cl.dirty_files = w.cl.dirty_files := by
  obtain ⟨i, hname⟩ := tempAt_ne_none hthere
  rw [openTemp_eq fi hok hname, htrunc]
  exact ⟨rfl, rfl⟩

/-- A temporary copy is never taken away before the last call. -/
theorem prepared_there (hthere : tempAt w.files path ≠ none) :
    tempAt (prepared E path fi is_create w).files path ≠ none := by
  have hname : w.files.names (getTempPath path) ≠ none := fun hnone => hthere (by
    rw [tempAt, Fs.find_eq_none_iff.mpr hnone, Option.map_none])
  have hkept : (prepared E path fi is_create w).files.names (getTempPath path) ≠ none := by
    rcases verdict_cases E path fi is_create w with ⟨hverdict, _⟩ | ⟨hverdict, _⟩ | ⟨hverdict, _⟩
    · obtain ⟨_, files, htemp, hcache⟩ := prepared_creating hverdict
      rw [hcache.names _ (getTempPath_ne_getCachePath path path)]
      exact htemp.taken_iff.mpr (Or.inl hname)
    · rw [(prepared_using hverdict).files]
      exact hname
    · exact (prepared_fetching_taken hverdict).1.mpr (Or.inl hname)
  obtain ⟨i, hi⟩ := Option.ne_none_iff_exists'.mp hkept
  rw [tempAt, Fs.find_of_names hi]
  exact Option.some_ne_none _

/-- An open of a dirty path leaves its bytes and its mark alone exactly if it spares them. -/
theorem open_spares_iff {bytes : Option Bytes} (h : Unflushed path bytes w)
    (htrunc : fi.flags.has O_TRUNC = false) :
    Unflushed path bytes (AFSClient.Open E path fi is_create w).2 ↔ OpenSpares E path fi is_create w := by
  rw [Open_eq]
  by_cases hok : E.fails .clientOpenOpen = none
  · cases hbytes : bytes with
    | none =>
        have hnone := h.temp.trans hbytes
        refine iff_of_false (fun hafter => ?_) fun hspares => hspares.there hnone
        by_cases hopens : FinalOpens E path fi.flags (prepared E path fi is_create w)
        · exact openTemp_there hopens hafter.temp
        · exact openTemp_unmarks hopens hafter.dirty
    | some content =>
        have hthere := h.temp.trans hbytes
        have hkept : tempAt (prepared E path fi is_create w).files path ≠ none :=
          prepared_there (hthere ▸ Option.some_ne_none content)
        obtain ⟨found, hprepared⟩ := Option.ne_none_iff_exists'.mp hkept
        obtain ⟨hfiles, hmarks⟩ := openTemp_keeps hok htrunc hprepared
        refine ⟨fun hafter => ?_, fun hspares => ⟨?_, ?_⟩⟩
        · have htemp := hafter.temp
          rw [hfiles, prepared_temp_iff hthere] at htemp
          exact ⟨hok, hthere ▸ Option.some_ne_none content, htemp.1, htemp.2⟩
        · rw [hfiles, prepared_temp_iff hthere]
          exact ⟨hspares.created, hspares.fetched⟩
        · rw [hmarks]
          exact prepared_keeps_mark h.dirty
  · refine iff_of_false (fun hafter => ?_) fun hspares => hok hspares.opens
    exact openTemp_unmarks (fun hopens => hok hopens.1) hafter.dirty

end Open

namespace Happening

/-- The path is opened or created without `O_TRUNC`, or others change the server. -/
def Reopens (path : CString) : Happening → Prop
  | .asked (.call (.openFile p fi)) _ => p = path ∧ fi.flags.has O_TRUNC = false
  | .asked (.call (.create p fi)) _ => p = path ∧ fi.flags.has O_TRUNC = false
  | .others _ => True
  | _ => False

/-- An open that is not answered by an injected error spares what is not flushed. -/
def Spares [Sha256] (path : CString) (w : World) : Happening → Prop
  | .asked (.call (.openFile _ fi)) E => E.injected = 0 → OpenSpares E path fi false w
  | .asked (.call (.create _ fi)) E => E.injected = 0 → OpenSpares E path fi true w
  | _ => True

end Happening

section Life

/-- Whatever happens in a row is a life. -/
theorem Happening.reaches [Sha256] (happenings : List Happening) (start : World) :
    ∃ life, Run Happening.Step start life (happenings.foldl Happening.after start) := by
  induction happenings generalizing start with
  | nil => exact ⟨[], .nil⟩
  | cons happening rest ih =>
      obtain ⟨life, hlife⟩ := ih (happening.after start)
      exact ⟨_, (Run.nil.cons rfl).trans hlife⟩

section Steps

variable [Sha256] {path : CString} {bytes : Option Bytes} {w : World}

theorem openHandle_unflushed_iff {E : Env} {fi : FuseFileInfo} {is_create : Bool} (h : Unflushed path bytes w)
    (htrunc : fi.flags.has O_TRUNC = false) : Unflushed path bytes (openHandle E path fi is_create w).2 ↔
      (E.injected = 0 → OpenSpares E path fi is_create w) := by
  by_cases hplain : E.injected = 0
  · rw [openHandle_world hplain, open_spares_iff h htrunc]
    exact ⟨fun hspares _ => hspares, fun hspares => hspares hplain⟩
  · have hsame : (openHandle E path fi is_create w).2 = w := by
      unfold openHandle
      split_ifs
      · rfl
      · rfl
    rw [hsame]
    exact iff_of_true h fun hzero => absurd hzero hplain

theorem Unflushed.step_iff (h : Unflushed path bytes w) {happening : Happening}
    (hreopens : happening.Reopens path) :
    Unflushed path bytes (happening.after w) ↔ happening.Spares path w := by
  cases happening with
  | others srv => exact iff_of_true (h.of_same rfl rfl) trivial
  | asked op E =>
      cases op with
      | queueHead => exact hreopens.elim
      | call c =>
          cases c with
          | openFile p fi =>
              obtain ⟨rfl, htrunc⟩ := hreopens
              exact openHandle_unflushed_iff h htrunc
          | create p fi =>
              obtain ⟨rfl, htrunc⟩ := hreopens
              exact openHandle_unflushed_iff h htrunc
          | _ => exact hreopens.elim

/-- From any state in which the path is dirty, through any number of opens of it and any changes on the server:
its bytes and its mark are the same in every state exactly if every open spares them. -/
theorem unflushed_over_opens_iff {start : World} {life : List (World × Happening)}
    (hlife : Run Happening.Step start life w) (hopens : Guarded (fun _ happening => happening.Reopens path) life)
    (hstart : Unflushed path bytes start) :
    (∀ s, Visits life w s → Unflushed path bytes s) ↔
      Guarded (fun s happening => happening.Spares path s) life := by
  constructor
  · rintro hall ⟨s, happening⟩ hmem
    obtain ⟨_, t, _, hstep, hvisit, _⟩ := hlife.of_mem hmem
    have hbefore := hall s (Or.inr ⟨happening, hmem⟩)
    have hafter := hall t hvisit
    rw [show t = happening.after s from hstep] at hafter
    exact (hbefore.step_iff (hopens _ hmem)).mp hafter
  · intro hspares s hvisit
    have hboth : Guarded (fun s happening => happening.Reopens path ∧ happening.Spares path s) life :=
      fun entry hmem => ⟨hopens entry hmem, hspares entry hmem⟩
    refine Run.visits (Unflushed path bytes) (fun life' t hlife' hguard => ?_) hlife hboth hvisit
    refine hlife'.guarded_invariant (Unflushed path bytes) hstart ?_ hguard
    rintro s happening _ hs ⟨hreopens, hspare⟩ rfl
    exact (hs.step_iff hreopens).mpr hspare

end Steps

/-- `/f` is dirty and open; it is opened once more, and its copy is used as it is. -/
theorem unflushed_over_opens_iff_sample :
    letI := sampleSha256
    let reopen : Happening := .asked (.call (.openFile sampleF ⟨O_RDWR, 0⟩)) (.smooth 5)
    ∀ s, Visits [(sampleDirty, reopen)] (reopen.after sampleDirty) s → Unflushed sampleF (some (ascii "data")) s := by
  let _ := sampleSha256
  intro reopen
  have hlife : Run Happening.Step sampleDirty [(sampleDirty, reopen)] (reopen.after sampleDirty) :=
    Run.nil.cons rfl
  have hopens : Guarded (fun _ happening => happening.Reopens sampleF) [(sampleDirty, reopen)] :=
    .cons ⟨rfl, by decide⟩ (guarded_nil _)
  have htaken : TempTaken (.smooth 5) sampleF sampleDirty :=
    ⟨⟨rfl, by decide, Or.inl (by decide)⟩, _, Fs.find_of_names (i := 0) (by decide), by decide⟩
  have hspares : OpenSpares (.smooth 5) sampleF ⟨O_RDWR, 0⟩ false sampleDirty :=
    ⟨rfl, by decide, fun hanew => absurd hanew.2 (by decide), fun _ hnot => absurd htaken hnot⟩
  exact (unflushed_over_opens_iff hlife hopens ⟨by decide, by decide⟩).mpr
    (.cons (fun _ => hspares) (guarded_nil _))

/-- What the server has of `/f` once another client put a new version there. -/
def sampleTheirs (second : Int) : Server :=
  ⟨(Fs.empty ⟨[], default, default⟩).create (getServerPath (ascii "/f")) ⟨ascii "their", ⟨second, 0⟩, default⟩, []⟩

/-- A client opens `/f` and writes to it, and another one flushes a new version. -/
def sampleWrites : List Happening :=
  [.asked (.call (.openFile sampleF ⟨O_RDWR, 0⟩)) (.smooth 5),
    .asked (.call (.write sampleF (ascii "mine") 0 (some ⟨O_RDWR, 0⟩))) (.smooth 6), .others (sampleTheirs 9)]

/-- The client opens `/f` again before its flush: what it wrote is overwritten by what the other one flushed. -/
theorem open_loses_write :
    letI := sampleSha256
    let s := sampleWrites.foldl Happening.after (sampleStored (ascii "data"))
    let t := (Happening.asked (.call (.openFile sampleF ⟨O_RDWR, 0⟩)) (.smooth 10)).after s
    (∃ life, Run Happening.Step (sampleStored (ascii "data")) life s) ∧
      Unflushed sampleF (some (ascii "mine")) s ∧ tempAt t.files sampleF = some (ascii "their") ∧
      ¬ Unflushed sampleF (some (ascii "mine")) t := by
  let _ := sampleSha256
  intro s t
  have hafter : tempAt t.files sampleF = some (ascii "their") := by decide +kernel
  refine ⟨Happening.reaches sampleWrites _, ⟨by decide +kernel, by decide +kernel⟩, hafter, ?_⟩
  rintro ⟨htemp, _⟩
  rw [hafter] at htemp
  exact absurd htemp (by decide)

end Life

section Flush

variable [Sha256] {E : Env} {path : CString} {w : World} {content : Bytes}

/-- The messages of an upload of the bytes, as far as they go out, and what comes back. -/
def uploaded (E : Env) (path : CString) (content : Bytes) (w : World) : Option PutFileResp × World :=
  AFSClient.putFileStream E (uploadRequests path.bytes
    (AFSClient.sentChunks E.writeOk 1 (Chunks.pieces BUFSIZE content))) w

/-- The commit took place: the persistent copy has the bytes, and the path is no longer marked. -/
structure Committed (path : CString) (content : Bytes) (w : World) : Prop where
  copied : cacheAt w.files path = some content
  clean : getHashedPath path ∉ w.cl.dirty_files

/-- The temporary copy can be opened, and a signal ends the `cp` to the persistent copy before that one has all the
bytes. -/
def CopyCutShort (E : Env) (path : CString) (content : Bytes) (files : Files) : Prop :=
  E.fails .commitToCacheOpen = none ∧ E.fails .commitToCacheCp ≠ none ∧
    files.names (getTempPath path) ≠ files.names (getCachePath path) ∧
      match E.command .commitToCacheCp with
      | .refused => False
      | .killed none => cacheAt files path ≠ some content
      | .killed (some written) => written < content.length

/-- The four ways a flush of a dirty path takes. -/
theorem flush_cases (h : Unflushed path (some content) w) :
    (∃ e, E.fails .clientFlushIfstream = some e ∧ AFSClient.flush E path w = (-1, { w with errno := e })) ∨
    (E.fails .clientFlushIfstream = none ∧ E.writeOk 0 = false ∧
      AFSClient.flush E path w = (-1, (deleteFromTemp E path (AFSClient.putFileStream E [] w).2).2)) ∨
    (E.fails .clientFlushIfstream = none ∧ E.writeOk 0 = true ∧ (uploaded E path content w).1 = none ∧
      AFSClient.flush E path w = (-1, (uploaded E path content w).2)) ∨
    (E.fails .clientFlushIfstream = none ∧ E.writeOk 0 = true ∧ ∃ reply,
      (uploaded E path content w).1 = some reply ∧ AFSClient.flush E path w =
        (0, (commitToCache E path (toInt reply.lastModifiedTime) (uploaded E path content w).2).2)) := by
  unfold AFSClient.flush
  rw [bind_run]
  cases hfails : E.fails .clientFlushIfstream with
  | some e =>
      left
      refine ⟨e, rfl, ?_⟩
      simp only [AFSClient.ifstreamRead, hfails]
      rfl
  | none =>
      right
      have hread : AFSClient.ifstreamRead E .clientFlushIfstream (getTempPath path) w = (some content, w) := by
        simp only [AFSClient.ifstreamRead, hfails]
        exact congrArg (fun read => (read, w)) h.temp
      rw [hread]
      simp only [bind_run, isFileDirty, h.dirty, decide_true, Bool.true_eq_false, if_false]
      cases hfirst : E.writeOk 0 with
      | false => exact Or.inl ⟨trivial, rfl, rfl⟩
      | true =>
          right
          simp only [Bool.true_eq_false, if_false, bind_run, true_and]
          cases hreply : (uploaded E path content w).1 with
          | none =>
              left
              refine ⟨rfl, ?_⟩
              unfold uploaded at hreply ⊢
              rw [hreply]
              rfl
          | some reply =>
              right
              refine ⟨reply, rfl, ?_⟩
              unfold uploaded at hreply ⊢
              rw [hreply]
              rfl

/-- A commit that does not go on after the copy leaves everything as it is. -/
theorem copyTemp_of_not (h : (copyTemp E path w).1 = false) : World.Same w (copyTemp E path w).2 := by
  unfold copyTemp at h ⊢
  rw [bind_run] at h ⊢
  split_ifs at h ⊢ with hfd
  · exact same_posixOpen (by decide) (by decide) w
  · rw [bind_run, bind_run] at h ⊢
    cases hfailure : (systemCp E .commitToCacheCp (getTempPath path) (getCachePath path)
      (posixClose (posixOpen E .commitToCacheOpen (getTempPath path) O_RDWR w).1
        (posixOpen E .commitToCacheOpen (getTempPath path) O_RDWR w).2).2).1.isFailure with
    | true =>
        rw [if_pos rfl, systemCp_of_failure hfailure]
        exact commitToCache_opened E path w
    | false =>
        rw [hfailure] at h
        cases h

omit [Sha256] in
theorem content_posixUtime (site : Site) (name other : Bytes) (t : Int) :
    ((posixUtime E site name t w).2.files.find other).map (·.content) = (w.files.find other).map (·.content) := by
  unfold posixUtime onFile attempt
  cases E.fails site with
  | some e => rfl
  | none =>
      cases hname : w.files.names name with
      | none => simp only [hname]; rfl
      | some ino =>
          simp only [hname]
          exact Fs.content_setInode w.files other rfl

/-- The two times that are set after the copy change no bytes. -/
theorem cacheAt_commitToCache (t : Int) :
    cacheAt (commitToCache E path t w).2.files path = cacheAt (copyTemp E path w).2.files path := by
  rw [commitToCache_world]
  cases (copyTemp E path w).1 with
  | false => rfl
  | true => exact (content_posixUtime _ _ _ t).trans (content_posixUtime _ _ _ t)

/-- What `cp` leaves in the persistent copy when a signal ends it; to the commit it is no failure. -/
theorem copyTemp_of_killed {written : Option Nat} (htemp : tempAt w.files path = some content)
    (hopen : E.fails .commitToCacheOpen = none) (hfails : E.fails .commitToCacheCp ≠ none)
    (hkilled : E.command .commitToCacheCp = .killed written)
    (hapart : w.files.names (getTempPath path) ≠ w.files.names (getCachePath path)) :
    (copyTemp E path w).1 = true ∧ cacheAt (copyTemp E path w).2.files path =
      written.elim (cacheAt w.files path) fun written => some (content.take written) := by
  obtain ⟨i, hname⟩ := tempAt_ne_none htemp
  have hcontent : (w.files.inode i).content = content := by
    rw [tempAt, Fs.find_of_names hname] at htemp
    exact Option.some.inj htemp
  obtain ⟨e, he⟩ := Option.ne_none_iff_exists'.mp hfails
  obtain ⟨w₁, hsame, hrun⟩ := copyTemp_opened E path hopen hname
  have hsignaled : (systemCp E .commitToCacheCp (getTempPath path) (getCachePath path) w₁).1 = .signaled :=
    systemCp_of_killed hfails (by rw [hkilled]; exact CommandFailure.noConfusion)
  rw [hrun, hsignaled]
  refine ⟨rfl, ?_⟩
  cases written with
  | none =>
      have hrest : systemCp E .commitToCacheCp (getTempPath path) (getCachePath path) w₁ = (.signaled, w₁) := by
        simp only [systemCp, he, hkilled]
        rfl
      rw [hrest, hsame.files]
      rfl
  | some written =>
      have hrest : (systemCp E .commitToCacheCp (getTempPath path) (getCachePath path) w₁).2.files =
          w.files.overwrite (getCachePath path) (content.take written) (E.now .commitToCacheCp)
            (E.attr .commitToCacheCp) := by
        simp only [systemCp, he, hkilled, bind_run, copyFile, hsame.files, Fs.find_of_names hname, if_neg hapart,
          hcontent]
        rfl
      obtain ⟨_, hfind⟩ := Fs.find_overwrite_self w.files (getCachePath path) (content.take written)
        (E.now .commitToCacheCp) (E.attr .commitToCacheCp)
      rw [cacheAt, hrest, hfind]
      rfl

/-- A commit that goes on has all the bytes in the persistent copy exactly if no signal cut the `cp` short. -/
theorem copyTemp_bytes_iff (htemp : tempAt w.files path = some content) (hcopied : (copyTemp E path w).1 = true) :
    cacheAt (copyTemp E path w).2.files path = some content ↔ ¬ CopyCutShort E path content w.files := by
  obtain ⟨i, hname⟩ := tempAt_ne_none htemp
  have hcontent : (w.files.inode i).content = content := by
    rw [tempAt, Fs.find_of_names hname] at htemp
    exact Option.some.inj htemp
  have hopen : E.fails .commitToCacheOpen = none := by
    cases hfails : E.fails .commitToCacheOpen with
    | none => rfl
    | some e =>
        simp only [copyTemp, posixOpen, attempt, hfails, bind_run] at hcopied
        cases hcopied
  obtain ⟨w₁, hsame, hrun⟩ := copyTemp_opened E path hopen hname
  have hpassed := hcopied
  rw [hrun, Bool.not_eq_true'] at hpassed
  rcases systemCp_not_failure hpassed with ⟨hcp, hne⟩ | ⟨hfails, hcommand⟩
  · rw [hsame.files] at hne
    obtain ⟨_, hfiles, _⟩ := copyTemp_run E path hopen hcp hname hne
    obtain ⟨_, hfind⟩ := Fs.find_overwrite_self w.files (getCachePath path) (w.files.inode i).content
      (E.now .commitToCacheCp) (E.attr .commitToCacheCp)
    rw [cacheAt, hfiles, hfind, Option.map_some, hcontent]
    exact iff_of_true rfl fun hcut => hcut.2.1 hcp
  · by_cases hone : w.files.names (getTempPath path) = w.files.names (getCachePath path)
    · -- `cp` does not copy a file onto itself, but both names have the bytes
      have hrest : (systemCp E .commitToCacheCp (getTempPath path) (getCachePath path) w₁).2 = w₁ := by
        rcases systemCp_cases E .commitToCacheCp (getTempPath path) (getCachePath path) w₁ with
          ⟨_, _, heq⟩ | ⟨_, _, hne, _⟩
        · rw [heq]
        · exact absurd (hsame.files ▸ hone) hne
      rw [hrun, hrest, hsame.files, cacheAt, Fs.find_of_names (hone ▸ hname), Option.map_some, hcontent]
      exact iff_of_true rfl fun hcut => hcut.2.2.1 hone
    · cases hkilled : E.command .commitToCacheCp with
      | refused => exact absurd hkilled hcommand
      | killed written =>
          rw [(copyTemp_of_killed htemp hopen hfails hkilled hone).2]
          unfold CopyCutShort
          rw [hkilled]
          cases written with
          | none =>
              exact ⟨fun heq hcut => hcut.2.2.2 heq,
                fun hnot => by_contra fun hne => hnot ⟨hopen, hfails, hone, hne⟩⟩
          | some written =>
              rw [Option.elim_some, Option.some_inj, List.take_eq_self_iff]
              exact ⟨fun hle hcut => absurd hcut.2.2.2 (not_lt.mpr hle),
                fun hnot => not_lt.mp fun hlt => hnot ⟨hopen, hfails, hone, hlt⟩⟩

/-- A copy that a signal cuts short is no failure to the commit, which goes on. -/
theorem CopyCutShort.goes_on (htemp : tempAt w.files path = some content) (hcut : CopyCutShort E path content w.files) :
    (copyTemp E path w).1 = true := by
  obtain ⟨hopen, hfails, hapart, hcommand⟩ := hcut
  cases hkilled : E.command .commitToCacheCp with
  | refused =>
      rw [hkilled] at hcommand
      exact hcommand.elim
  | killed written => exact (copyTemp_of_killed htemp hopen hfails hkilled hapart).1

/-- The bytes are still there, and the next flush in which nothing fails brings them to the server. -/
structure Retryable (path : CString) (content : Bytes) (w : World) : Prop where
  kept : Unflushed path (some content) w
  sends : ∀ E : Env, E.Reliable → contentAt (AFSClient.flush E path w).2.srv path.bytes = some content

theorem Unflushed.retryable (h : Unflushed path (some content) w) : Retryable path content w := by
  refine ⟨h, fun E hrel => ?_⟩
  have hcontent := putFile_contentAt path.bytes hrel (Chunks.pieces BUFSIZE content) w.srv
  rw [Chunks.pieces_flatten] at hcontent
  have hsent : (uploaded E path content w).2.srv =
      (putFile E (uploadRequests path.bytes (Chunks.pieces BUFSIZE content)) w.srv).2 := by
    unfold uploaded
    rw [sentChunks_all hrel.writes, putFileStream_reliable hrel]
  rcases flush_cases (E := E) h with ⟨e, hfails, _⟩ | ⟨_, hfirst, _⟩ | ⟨_, _, _, heq⟩ | ⟨_, _, reply, _, heq⟩
  · rw [hrel.calls] at hfails
    cases hfails
  · rw [hrel.writes] at hfirst
    cases hfirst
  · rw [heq, hsent]
    exact hcontent
  · have hcommit : (commitToCache E path (toInt reply.lastModifiedTime) (uploaded E path content w).2).2.srv =
        (uploaded E path content w).2.srv := srvSame_commitToCache E path _ _
    rw [heq, hcommit, hsent]
    exact hcontent

/-- The commit of what is not flushed yet takes place, or leaves it as it is, or is cut short. -/
theorem Unflushed.commit_cases (h : Unflushed path (some content) w) (t : Int) :
    (¬ CopyCutShort E path content w.files ∧ Committed path content (commitToCache E path t w).2) ∨
    (¬ CopyCutShort E path content w.files ∧ Unflushed path (some content) (commitToCache E path t w).2) ∨
    (CopyCutShort E path content w.files ∧ ¬ Committed path content (commitToCache E path t w).2 ∧
      getHashedPath path ∉ (commitToCache E path t w).2.cl.dirty_files) := by
  cases hcopied : (copyTemp E path w).1 with
  | false =>
      refine Or.inr (Or.inl ⟨fun hcut => ?_, ?_⟩)
      · rw [hcut.goes_on h.temp] at hcopied
        cases hcopied
      · have hsame := copyTemp_of_not hcopied
        rw [commitToCache_world, hcopied]
        exact h.of_same hsame.files hsame.dirty
  | true =>
      have hclean := commitToCache_unmarks E path t hcopied
      have hbytes := copyTemp_bytes_iff h.temp hcopied
      rw [← cacheAt_commitToCache t] at hbytes
      by_cases hcut : CopyCutShort E path content w.files
      · exact Or.inr (Or.inr ⟨hcut, fun hcommitted => hbytes.mp hcommitted.copied hcut, hclean⟩)
      · exact Or.inl ⟨hcut, hbytes.mpr hcut, hclean⟩

/-- After every flush that fails, or after which the commit has not taken place, the bytes can be sent again, exactly
if the temporary copy cannot be read, or the first message goes out and no signal cuts short the copy that follows an
answer with OK. -/
theorem flush_retryable_iff (h : Unflushed path (some content) w) :
    (((AFSClient.flush E path w).1 ≠ 0 ∨ ¬ Committed path content (AFSClient.flush E path w).2) →
        Retryable path content (AFSClient.flush E path w).2) ↔
      E.fails .clientFlushIfstream ≠ none ∨
        (E.writeOk 0 = true ∧ ((uploaded E path content w).1 ≠ none → ¬ CopyCutShort E path content w.files)) := by
  have hcl : (uploaded E path content w).2.cl = w.cl := putFileStream_cl E _ w
  have huploaded : Unflushed path (some content) (uploaded E path content w).2 :=
    h.of_same (congrArg (·.files) hcl) (congrArg (·.dirty_files) hcl)
  rcases flush_cases (E := E) h with
    ⟨e, hfails, heq⟩ | ⟨hreads, hfirst, heq⟩ | ⟨_, hfirst, hreply, heq⟩ | ⟨hreads, hfirst, reply, hreply, heq⟩
  · rw [heq]
    have hkept : Unflushed path (some content) { w with errno := e } := h.of_same rfl rfl
    exact iff_of_true (fun _ => hkept.retryable) (Or.inl (hfails ▸ Option.some_ne_none e))
  · rw [heq]
    refine iff_of_false (fun hretry => ?_) fun hor => ?_
    · have hkept := (hretry (Or.inl (show (-1 : Int) ≠ 0 by decide))).kept.dirty
      exact Finset.notMem_erase _ _ hkept
    · rcases hor with hfails | ⟨hok, _⟩
      · exact hfails hreads
      · rw [hfirst] at hok
        cases hok
  · rw [heq]
    exact iff_of_true (fun _ => huploaded.retryable) (Or.inr ⟨hfirst, fun hok => absurd hreply hok⟩)
  · rw [heq]
    have hfiles : (uploaded E path content w).2.files = w.files := congrArg (·.files) hcl
    rcases huploaded.commit_cases (E := E) (toInt reply.lastModifiedTime) with
      ⟨hcut, hcommitted⟩ | ⟨hcut, hkept⟩ | ⟨hcut, hnot, hclean⟩
    · rw [hfiles] at hcut
      refine iff_of_true (fun hfailed => ?_) (Or.inr ⟨hfirst, fun _ => hcut⟩)
      rcases hfailed with hne | hnot
      · exact absurd rfl hne
      · exact absurd hcommitted hnot
    · rw [hfiles] at hcut
      exact iff_of_true (fun _ => hkept.retryable) (Or.inr ⟨hfirst, fun _ => hcut⟩)
    · rw [hfiles] at hcut
      refine iff_of_false (fun hretry => hclean (hretry (Or.inr hnot)).kept.dirty) fun hor => ?_
      rcases hor with hfails | ⟨_, huncut⟩
      · exact hfails hreads
      · exact huncut (hreply ▸ Option.some_ne_none reply) hcut

end Flush

/-- The server does not answer; what is dirty stays so and is sent by the next flush. -/
theorem flush_retryable_iff_sample :
    letI := sampleSha256
    let E : Env := { Env.smooth 7 with upload := ⟨false, none, false⟩ }
    Retryable sampleF (ascii "data") (AFSClient.flush E sampleF sampleDirty).2 := by
  let _ := sampleSha256
  intro E
  have hdirty : Unflushed sampleF (some (ascii "data")) sampleDirty := ⟨by decide, by decide⟩
  have hlost : (uploaded E sampleF (ascii "data") sampleDirty).1 = none := by decide
  exact (flush_retryable_iff (E := E) hdirty).mpr (Or.inr ⟨rfl, fun hok => absurd hlost hok⟩) (Or.inl (by decide))

/-- The first message cannot be written: `/f` is no longer there and no longer marked. -/
theorem flush_loses_write :
    letI := sampleSha256
    let E : Env := { Env.smooth 7 with upload := ⟨false, none, false⟩, writeOk := fun _ => false }
    let w := (AFSClient.flush E sampleF sampleDirty).2
    Unflushed sampleF (some (ascii "data")) sampleDirty ∧ (AFSClient.flush E sampleF sampleDirty).1 = -1 ∧
      tempAt w.files sampleF = none ∧ getHashedPath sampleF ∉ w.cl.dirty_files ∧
      ¬ Retryable sampleF (ascii "data") w := by
  let _ := sampleSha256
  intro E w
  have hclean : getHashedPath sampleF ∉ w.cl.dirty_files := by decide +kernel
  refine ⟨⟨by decide, by decide⟩, by decide +kernel, by decide +kernel, hclean, fun hretry => ?_⟩
  exact hclean hretry.kept.dirty

end Bnfs
