import Bnfs.ClientDirtySet

/-! Whole files over the wire, with nothing failing. An upload brings every byte of the temporary copy to the
server, whatever its length and its bytes. A download goes through a C string on its way into the local copies,
so it brings the bytes before the first NUL. -/

namespace Bnfs

open FileSystem Programs FileServer

/-- The bytes of the persistent copy of a path. -/
def cacheAt [Sha256] (files : Files) (path : CString) : Option Bytes :=
  (files.find (getCachePath path)).map (·.content)

/-- Only a string without a NUL byte is a C string as it is. -/
theorem cStr_eq_self_iff {s : Bytes} : cStr s = s ↔ 0 ∉ s := by
  refine ⟨fun h hmem => ?_, cStr_of_noNul⟩
  have hall := List.takeWhile_eq_self_iff.mp h 0 hmem
  exact absurd hall (by decide)

section Save

variable (E : Env) (openSite writeSite : Site) (name data : Bytes) (w : World)

/-- The bytes a file has after a stream wrote to it. -/
def savedBytes : Bytes := if (E.fails writeSite).isSome then [] else data

/-- The bytes come through as they are. -/
theorem savedBytes_eq_iff : savedBytes E writeSite data = data ↔ data = [] ∨ E.fails writeSite = none := by
  unfold savedBytes
  cases E.fails writeSite with
  | none => simp
  | some e => simp [eq_comm]

theorem ofstreamSave_rewritten : Fs.Rewritten (E.fails openSite = none) name (savedBytes E writeSite data)
    w.files (ofstreamSave E openSite writeSite name data w).2.files := by
  unfold ofstreamSave
  cases hfails : E.fails openSite with
  | some e => exact .of_failed (Option.some_ne_none e)
  | none => exact Fs.overwrite_rewritten rfl w.files name _ _ _

end Save

section Download

variable (E : Env)

/-- The server can read the file, the stream arrives whole, and both local files can be written. -/
structure Env.Downloads : Prop where
  read : E.fails .openIfstream = none
  stream : E.download = ⟨true, none, true⟩
  cacheOpen : E.fails .writeFileToCacheOpen = none
  cacheWrite : E.fails .writeFileToCacheWrite = none
  tempOpen : E.fails .writeFileToTempOpen = none
  tempWrite : E.fails .writeFileToTempWrite = none

variable {E} {path : CString} {w : World} {content : Bytes}

variable [Sha256]

/-- The two writes of a fetch, the persistent copy first. -/
theorem saveFetched_rewritten (E : Env) (path : CString) (data : Bytes) (w : World) : ∃ files,
    Fs.Rewritten (E.fails .writeFileToCacheOpen = none) (getCachePath path)
      (savedBytes E .writeFileToCacheWrite data) w.files files ∧
    Fs.Rewritten (E.fails .writeFileToTempOpen = none) (getTempPath path)
      (savedBytes E .writeFileToTempWrite data) files (saveFetched E path data w).2.files := by
  have hcache : ∀ w₁, (writeFileToCache E path data w₁).2 =
      (ofstreamSave E .writeFileToCacheOpen .writeFileToCacheWrite (getCachePath path) data w₁).2 := by
    intro w₁
    unfold writeFileToCache
    rw [bind_run]
    split_ifs <;> rfl
  have htemp : ∀ w₁, (writeFileToTemp E path data w₁).2 =
      (ofstreamSave E .writeFileToTempOpen .writeFileToTempWrite (getTempPath path) data w₁).2 := by
    intro w₁
    unfold writeFileToTemp
    rw [bind_run]
    split_ifs <;> rfl
  refine ⟨(writeFileToCache E path data w).2.files, ?_, ?_⟩
  · rw [hcache]
    exact ofstreamSave_rewritten E _ _ _ data w
  · show Fs.Rewritten _ _ _ _ (writeFileToTemp E path data (writeFileToCache E path data w).2).2.files
    rw [htemp]
    exact ofstreamSave_rewritten E _ _ _ data _

/-- Saved bytes are in both copies, also if these are two names of one file. -/
theorem saveFetched_copies (path : CString) (h : E.Downloads) (data : Bytes) (w : World) :
    cacheAt (saveFetched E path data w).2.files path = some data ∧
      tempAt (saveFetched E path data w).2.files path = some data := by
  obtain ⟨files, hcache, htemp⟩ := saveFetched_rewritten E path data w
  rw [(savedBytes_eq_iff E _ data).mpr (Or.inr h.cacheWrite)] at hcache
  rw [(savedBytes_eq_iff E _ data).mpr (Or.inr h.tempWrite)] at htemp
  have hcached := hcache.self h.cacheOpen
  refine ⟨?_, htemp.self h.tempOpen⟩
  by_cases hsame : files.names (getTempPath path) = files.names (getCachePath path)
  · have hthere : files.names (getCachePath path) ≠ none := hcache.taken_iff.mpr (Or.inr h.cacheOpen)
    exact htemp.content_eq hthere ⟨h.tempOpen, hsame⟩
  · rw [cacheAt, htemp.apart _ hsame]
    exact hcached

/-- A download that goes well leaves the bytes of the server in both local copies exactly if no byte of them is
NUL. -/
theorem download_exact_iff (h : E.Downloads) (hstored : contentAt w.srv path.bytes = some content)
    (fi : FuseFileInfo) :
    let w' := (AFSClient.fetchAndSyncServerFile E path fi w).2
    (cacheAt w'.files path = some content ∧ tempAt w'.files path = some content) ↔ 0 ∉ content := by
  intro w'
  have hfetched : fetched E path fi.flags w = some (cStr content) := by
    rw [fetched_eq, received_of_stored h.read h.stream hstored, Option.map_some]
  have hw' : w' = (saveFetched E path (cStr content) w).2 := by
    show (AFSClient.fetchAndSyncServerFile E path fi w).2 = _
    rw [fetchAndSyncServerFile_eq, hfetched]
  obtain ⟨hcache, htemp⟩ := saveFetched_copies path h (cStr content) w
  rw [hw', hcache, htemp, and_self, Option.some_inj]
  exact cStr_eq_self_iff

omit [Sha256]

theorem Env.smooth_downloads (sec : Int) : (Env.smooth sec).Downloads := ⟨rfl, rfl, rfl, rfl, rfl, rfl⟩

/-- A server that has the given bytes at `/f`, and a client without copies. -/
def sampleStored (content : Bytes) : World where
  srv := ⟨(Fs.empty ⟨[], default, default⟩).create (getServerPath (ascii "/f")) ⟨content, ⟨3, 0⟩, default⟩, []⟩
  cl := ⟨.empty ⟨[], default, default⟩, [], ∅, []⟩
  errno := 0

theorem download_exact_iff_sample :
    letI := sampleSha256
    let w' := (AFSClient.fetchAndSyncServerFile (.smooth 5) sampleF ⟨O_RDONLY, 0⟩ (sampleStored (ascii "data"))).2
    cacheAt w'.files sampleF = some (ascii "data") ∧ tempAt w'.files sampleF = some (ascii "data") := by
  let _ := sampleSha256
  have hstored : contentAt (sampleStored (ascii "data")).srv sampleF.bytes = some (ascii "data") := by decide
  exact (download_exact_iff (Env.smooth_downloads 5) hstored ⟨O_RDONLY, 0⟩).mpr (by decide)

/-- Of the three bytes `a`, NUL, `b` only the first comes through. -/
theorem download_stops_at_nul :
    letI := sampleSha256
    let w' := (AFSClient.fetchAndSyncServerFile (.smooth 5) sampleF ⟨O_RDONLY, 0⟩ (sampleStored [97, 0, 98])).2
    (Env.smooth 5).Downloads ∧ contentAt (sampleStored [97, 0, 98]).srv sampleF.bytes = some [97, 0, 98] ∧
      cacheAt w'.files sampleF = some [97] ∧ tempAt w'.files sampleF = some [97] ∧
      ¬ (cacheAt w'.files sampleF = some [97, 0, 98] ∧ tempAt w'.files sampleF = some [97, 0, 98]) := by
  let _ := sampleSha256
  refine ⟨Env.smooth_downloads 5, by decide, ?_⟩
  decide +kernel

end Download

section Upload

variable {E : Env} {path : CString} {w : World} {content : Bytes}

/-- `utime` that does not fail. -/
theorem posixUtime_run {site : Site} (hok : E.fails site = none) {name : Bytes} {i : Nat}
    (hname : w.files.names name = some i) (t : Int) : (posixUtime E site name t w).2 =
      w.setFiles (w.files.setInode i { w.files.inode i with
        mtime := ⟨t, 0⟩, attr := { (w.files.inode i).attr with atim := ⟨t, 0⟩ } }) := by
  simp only [posixUtime, onFile, attempt, hok, hname]

/-- A complete upload is answered with the time of the file it left at the path. -/
theorem putFile_reply (hrel : E.Reliable) (path : Bytes) (chunks : List Bytes) (srv : Server) :
    ∃ file, (putFile E (uploadRequests path chunks) srv).2.files.find (getServerPath path) = some file ∧
      file.content = chunks.flatten ∧
      (putFile E (uploadRequests path chunks) srv).1 = some ⟨0, toUInt64 file.mtime.tv_sec⟩ := by
  have hcontent := putFile_contentAt path hrel chunks srv
  obtain ⟨file, hfind, hfile⟩ := Option.map_eq_some_iff.mp hcontent
  refine ⟨file, hfind, hfile, ?_⟩
  rcases putFile_cases E ⟨path, []⟩ (chunks.map fun chunk => ⟨path, chunk⟩) srv with
    ⟨hfails | hmissing, _⟩ | ⟨_, _, _, hreply, _⟩
  · rw [hrel.calls] at hfails
    cases hfails
  · obtain ⟨ino, hname, _⟩ := writeUpload_of_opened E ⟨path, []⟩
      (chunks.map fun chunk => ⟨path, chunk⟩) srv.files (hrel.calls _)
    rw [hname] at hmissing
    cases hmissing
  · rw [uploadRequests, hreply, hrel.calls, uploadLstat]
    rw [uploadRequests] at hfind
    show Option.map _ (Option.map _ (Fs.find _ (getServerPath path))) = _
    rw [hfind]
    rfl

variable [Sha256]

/-- The two times set after the copy. -/
theorem stampCopies_run (htemp : E.fails .commitToCacheUtimeTemp = none)
    (hcache : E.fails .commitToCacheUtimeCache = none) {i j : Nat}
    (hi : w.files.names (getTempPath path) = some i) (hj : w.files.names (getCachePath path) = some j)
    (hne : i ≠ j) (t : Int) :
    let w' := (stampCopies E path t w).2
    (∃ kept, w'.files.find (getTempPath path) = some ⟨(w.files.inode i).content, ⟨t, 0⟩, kept⟩) ∧
      (∃ kept, w'.files.find (getCachePath path) = some ⟨(w.files.inode j).content, ⟨t, 0⟩, kept⟩) ∧
      w'.cl.dirty_files = w.cl.dirty_files ∧ w'.srv = w.srv := by
  intro w'
  let stamp : File → File := fun file => { file with mtime := ⟨t, 0⟩, attr := { file.attr with atim := ⟨t, 0⟩ } }
  have hw' : w' = w.setFiles ((w.files.setInode i (stamp (w.files.inode i))).setInode j
      (stamp (w.files.inode j))) := by
    have hfirst := posixUtime_run (w := w) htemp hi t
    have hj' : (posixUtime E .commitToCacheUtimeTemp (getTempPath path) t w).2.files.names
        (getCachePath path) = some j := by rw [hfirst]; exact hj
    have hsecond := posixUtime_run hcache hj' t
    show (stampCopies E path t w).2 = _
    unfold stampCopies
    simp only [bind_run, pure_run]
    rw [hsecond, hfirst]
    simp only [World.setFiles_files, Fs.setInode_of_ne _ _ hne.symm]
    rfl
  have hitemp : ((w.files.setInode i (stamp (w.files.inode i))).setInode j
      (stamp (w.files.inode j))).names (getTempPath path) = some i := hi
  have hicache : ((w.files.setInode i (stamp (w.files.inode i))).setInode j
      (stamp (w.files.inode j))).names (getCachePath path) = some j := hj
  have htempFile := Fs.find_of_names hitemp
  rw [Fs.setInode_of_ne _ _ hne, Fs.setInode_self] at htempFile
  have hcacheFile := Fs.find_of_names hicache
  rw [Fs.setInode_self] at hcacheFile
  rw [hw', World.setFiles_files]
  exact ⟨⟨_, htempFile⟩, ⟨_, hcacheFile⟩, rfl, rfl⟩

/-- A commit that goes well: both copies have the bytes of the temporary one and the time handed over, and the
mark is gone. -/
theorem commitToCache_copies (hrel : E.Reliable) {i : Nat}
    (hname : w.files.names (getTempPath path) = some i)
    (hapart : w.files.names (getTempPath path) ≠ w.files.names (getCachePath path)) (t : Int) :
    let w' := (commitToCache E path t w).2
    (∃ kept, w'.files.find (getTempPath path) = some ⟨(w.files.inode i).content, ⟨t, 0⟩, kept⟩) ∧
      (∃ kept, w'.files.find (getCachePath path) = some ⟨(w.files.inode i).content, ⟨t, 0⟩, kept⟩) ∧
      getHashedPath path ∉ w'.cl.dirty_files ∧ w'.srv = w.srv := by
  intro w'
  obtain ⟨hcopied, hfiles, _, hsrv⟩ :=
    copyTemp_run E path (hrel.calls _) (hrel.calls _) hname hapart
  have hw' : w' = (eraseDirty path (stampCopies E path t (copyTemp E path w).2).2).2 := by
    show (commitToCache E path t w).2 = _
    rw [commitToCache_world, hcopied]
    rfl
  have hwritten := Fs.overwrite_rewritten trivial w.files (getCachePath path) (w.files.inode i).content
    (E.now .commitToCacheCp) (E.attr .commitToCacheCp)
  rw [← hfiles] at hwritten
  have htemp : (copyTemp E path w).2.files.names (getTempPath path) = some i :=
    (hwritten.names _ (getTempPath_ne_getCachePath path path)).trans hname
  have hold : (copyTemp E path w).2.files.inode i = w.files.inode i := by
    have hfind := hwritten.apart _ (Ne.symm hapart)
    rw [Fs.find_of_names htemp, Fs.find_of_names hname] at hfind
    exact Option.some.inj hfind
  obtain ⟨kept, hcopy⟩ := Fs.find_overwrite_self w.files (getCachePath path) (w.files.inode i).content
    (E.now .commitToCacheCp) (E.attr .commitToCacheCp)
  rw [← hfiles] at hcopy
  obtain ⟨j, hcache, hj⟩ := Fs.find_eq_some_iff.mp hcopy
  have hne : i ≠ j := by
    rintro rfl
    rcases Fs.openTrunc_ino w.files (getCachePath path) (E.now .commitToCacheCp)
      (E.attr .commitToCacheCp) with hsame | ⟨_, hnew⟩
    · rw [hfiles, Fs.overwrite_names_self] at hcache
      exact hapart (hname.trans (hcache.symm.trans hsame.symm))
    · rw [hfiles, Fs.overwrite_names_self, hnew] at hcache
      have hlt := w.files.named_lt _ i hname
      have heq := Option.some.inj hcache
      omega
  obtain ⟨hstamped, hstampedCache, _, hkept⟩ :=
    stampCopies_run (hrel.calls _) (hrel.calls _) htemp hcache hne t
  rw [hw']
  rw [hold] at hstamped
  rw [hj] at hstampedCache
  exact ⟨hstamped, hstampedCache, Finset.notMem_erase _ _, hkept.trans hsrv⟩

/-- The server has the bytes of the temporary copy, both copies have them too with the second of the server's
file as their time, and the path is clean. A time is handed over as an `int`. -/
structure UploadedExactly (path : CString) (content : Bytes) (w' : World) : Prop where
  server : contentAt w'.srv path.bytes = some content
  cache : cacheAt w'.files path = some content
  temp : tempAt w'.files path = some content
  times : ∀ file copy, w'.srv.files.find (getServerPath path.bytes) = some file →
    -2 ^ 31 ≤ file.mtime.tv_sec → file.mtime.tv_sec < 2 ^ 31 →
    (w'.files.find (getTempPath path) = some copy ∨ w'.files.find (getCachePath path) = some copy) →
    copy.mtime = ⟨file.mtime.tv_sec, 0⟩
  clean : getHashedPath path ∉ w'.cl.dirty_files

/-- A flush of a dirty path, with nothing failing, delivers exactly the bytes of the temporary copy and returns
0. That `cp` does not fail takes that the two copies are not two names of one file. -/
theorem upload_exact (hrel : E.Reliable) (hdirty : getHashedPath path ∈ w.cl.dirty_files)
    (htemp : tempAt w.files path = some content)
    (hapart : w.files.names (getTempPath path) ≠ w.files.names (getCachePath path)) :
    (AFSClient.flush E path w).1 = 0 ∧ UploadedExactly path content (AFSClient.flush E path w).2 := by
  obtain ⟨i, hname⟩ := tempAt_ne_none htemp
  have hcontent : (w.files.inode i).content = content := by
    rw [tempAt, Fs.find_of_names hname] at htemp
    exact Option.some.inj htemp
  obtain ⟨file, hfind, hfile, hreply⟩ :=
    putFile_reply hrel path.bytes (Chunks.pieces BUFSIZE content) w.srv
  rw [Chunks.pieces_flatten] at hfile
  have hflush : AFSClient.flush E path w = (0, (commitToCache E path (toInt (toUInt64 file.mtime.tv_sec))
      { w with srv := (putFile E (uploadRequests path.bytes (Chunks.pieces BUFSIZE content)) w.srv).2 }).2) := by
    unfold AFSClient.flush
    rw [bind_run, ifstreamRead_reliable hrel htemp]
    simp only [bind_run, isFileDirty, hdirty, decide_true]
    rw [if_neg (by decide), if_neg (by rw [hrel.writes]; decide), sentChunks_all hrel.writes, bind_run,
      putFileStream_reliable hrel]
    simp only [hreply]
    rfl
  obtain ⟨⟨_, hcopy⟩, ⟨_, hcached⟩, hclean, hsrv⟩ := commitToCache_copies
    (w := { w with srv := (putFile E (uploadRequests path.bytes (Chunks.pieces BUFSIZE content)) w.srv).2 })
    hrel hname hapart (toInt (toUInt64 file.mtime.tv_sec))
  rw [hflush]
  refine ⟨rfl, ?_, ?_, ?_, fun found copy hfound hlow hhigh hlocal => ?_, hclean⟩
  · rw [hsrv, contentAt, hfind, Option.map_some, hfile]
  · rw [cacheAt, hcached]
    exact congrArg some hcontent
  · rw [tempAt, hcopy]
    exact congrArg some hcontent
  · rw [hsrv, hfind] at hfound
    cases hfound
    have htime : toInt (toUInt64 file.mtime.tv_sec) = file.mtime.tv_sec := by
      rw [toInt_toUInt64, toInt_of_range hlow hhigh]
    have hstamped : copy.mtime = ⟨toInt (toUInt64 file.mtime.tv_sec), 0⟩ := by
      rcases hlocal with hlocal | hlocal
      · exact (congrArg (·.mtime) (Option.some.inj (hcopy.symm.trans hlocal))).symm
      · exact (congrArg (·.mtime) (Option.some.inj (hcached.symm.trans hlocal))).symm
    rw [hstamped, htime]

omit [Sha256] in
/-- `/f` is dirty with four bytes and goes to a server that does not have it. -/
theorem upload_exact_sample :
    letI := sampleSha256
    (AFSClient.flush (.smooth 7) sampleF sampleDirty).1 = 0 ∧
      UploadedExactly sampleF (ascii "data") (AFSClient.flush (.smooth 7) sampleF sampleDirty).2 := by
  let _ := sampleSha256
  exact upload_exact (Env.smooth_reliable 7) (by decide) (by decide) (by decide)

end Upload

end Bnfs
