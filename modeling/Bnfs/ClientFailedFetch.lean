import Bnfs.ClientOpenCopies

/-! An open for which the fetch does not go well. `Open` does not look at what `fetchAndSyncServerFile` returns, and
the fetch does not look at `file_exists`: whatever is under the name of the temporary copy by then is opened. -/

namespace Bnfs

open FileSystem Programs FileServer

section Missing

variable {E : Env} {path : CString} {fi : FuseFileInfo} {w : World}

variable [Sha256]

/-- The open fails, and there is no copy of the path that was not there before. -/
structure Refused (path : CString) (w : World) (result : Int × World) : Prop where
  negative : result.1 < 0
  temp : w.files.names (getTempPath path) = none → result.2.files.names (getTempPath path) = none
  cache : w.files.names (getCachePath path) = none → result.2.files.names (getCachePath path) = none

/-- The last call fails by itself, or finds no temporary copy since the empty one could not be made; and of the two
empty copies of the fetch none is new, or the temporary one is removed again. -/
structure RefusesMissing (E : Env) (path : CString) (w : World) : Prop where
  taken : TempTaken E path w → E.fails .clientOpenOpen ≠ none
  opens : ¬ TempTaken E path w → E.fails .clientOpenOpen ≠ none ∨
    (w.files.names (getTempPath path) = none ∧ E.fails .writeFileToTempOpen ≠ none)
  temp : ¬ TempTaken E path w → w.files.names (getTempPath path) ≠ none ∨
    E.fails .writeFileToTempOpen ≠ none ∨ E.fails .deleteFromTempRemove = none
  cache : ¬ TempTaken E path w → w.files.names (getCachePath path) ≠ none ∨ E.fails .writeFileToCacheOpen ≠ none

theorem not_finalOpens_iff {w : World} (hflags : fi.flags.has O_CREAT = false) :
    ¬ FinalOpens E path fi.flags w ↔
      E.fails .clientOpenOpen ≠ none ∨ w.files.names (getTempPath path) = none := by
  unfold FinalOpens
  rw [hflags, not_and_or, or_iff_left Bool.false_ne_true, not_ne_iff]

/-- An open that fails leaves no temporary copy that was not there before it, unless one was made that cannot be
removed; the persistent one is left alone. -/
theorem openTemp_leaves {w : World} (hfails : ¬ FinalOpens E path fi.flags w) :
    ((openTemp E path fi w).2.files.names (getTempPath path) = none ↔
      w.files.names (getTempPath path) = none ∨ E.fails .deleteFromTempRemove = none) ∧
    (openTemp E path fi w).2.files.names (getCachePath path) = w.files.names (getCachePath path) := by
  obtain ⟨htemp, hrest⟩ := openTemp_failed_names hfails
  exact ⟨htemp, hrest _ (getTempPath_ne_getCachePath path path).symm⟩

theorem refused_used_iff (hflags : fi.flags.has O_CREAT = false)
    (hverdict : verdict E path fi false w = 2) (htaken : TempTaken E path w) :
    Refused path w (AFSClient.Open E path fi false w) ↔ E.fails .clientOpenOpen ≠ none := by
  have hsame := prepared_using hverdict
  obtain ⟨hreadable, _⟩ := htaken
  have hthere : (prepared E path fi false w).files.names (getTempPath path) ≠ none := by
    rw [hsame.files]
    exact hreadable.2.1
  rw [Open_eq]
  constructor
  · intro h
    have hfinal := (not_finalOpens_iff hflags).mp (openTemp_neg_iff.mp h.negative)
    exact hfinal.resolve_right hthere
  · intro hfails
    have hfinal : ¬ FinalOpens E path fi.flags (prepared E path fi false w) := fun hopens => hfails hopens.1
    obtain ⟨_, hcache⟩ := openTemp_leaves hfinal
    refine ⟨openTemp_neg_iff.mpr hfinal, fun hnone => absurd hnone hreadable.2.1, fun hnone => ?_⟩
    rw [hcache, hsame.files]
    exact hnone

/-- A fetch of nothing leaves empty copies where it can; the open fails if the last call does, or finds none. -/
theorem refused_fetched_iff (hflags : fi.flags.has O_CREAT = false) (hverdict : verdict E path fi false w = 1)
    (hreceived : received E path fi.flags w = some []) :
    Refused path w (AFSClient.Open E path fi false w) ↔
      (E.fails .clientOpenOpen ≠ none ∨
        (w.files.names (getTempPath path) = none ∧ E.fails .writeFileToTempOpen ≠ none)) ∧
      (w.files.names (getTempPath path) ≠ none ∨ E.fails .writeFileToTempOpen ≠ none ∨
        E.fails .deleteFromTempRemove = none) ∧
      (w.files.names (getCachePath path) ≠ none ∨ E.fails .writeFileToCacheOpen ≠ none) := by
  obtain ⟨htemp, hcache⟩ := prepared_fetching_taken hverdict
  rw [hreceived, and_iff_right (Option.some_ne_none _)] at htemp hcache
  have hfinal : ¬ FinalOpens E path fi.flags (prepared E path fi false w) ↔ E.fails .clientOpenOpen ≠ none ∨
      (w.files.names (getTempPath path) = none ∧ E.fails .writeFileToTempOpen ≠ none) := by
    rw [not_finalOpens_iff hflags, ← not_ne_iff, htemp, not_or, not_ne_iff]
  rw [Open_eq]
  by_cases hfails : FinalOpens E path fi.flags (prepared E path fi false w)
  · refine iff_of_false (fun h => openTemp_neg_iff.mp h.negative hfails) fun h => hfinal.mpr h.1 hfails
  · obtain ⟨hleft, hkept⟩ := openTemp_leaves hfails
    rw [and_iff_right (hfinal.mp hfails)]
    constructor
    · intro h
      refine ⟨?_, ?_⟩
      · by_cases hbefore : w.files.names (getTempPath path) = none
        · rcases hleft.mp (h.temp hbefore) with hnone | hremoved
          · exact Or.inr (Or.inl fun hok => htemp.mpr (Or.inr hok) hnone)
          · exact Or.inr (Or.inr hremoved)
        · exact Or.inl hbefore
      · by_cases hbefore : w.files.names (getCachePath path) = none
        · have hnone := h.cache hbefore
          rw [hkept] at hnone
          exact Or.inr fun hok => hcache.mpr (Or.inr hok) hnone
        · exact Or.inl hbefore
    · rintro ⟨hnotTemp, hnotCache⟩
      refine ⟨openTemp_neg_iff.mpr hfails, fun hbefore => hleft.mpr ?_, fun hbefore => hkept.trans ?_⟩
      · rcases hnotTemp with hthere | hfailed | hremoved
        · exact absurd hbefore hthere
        · left
          by_contra hnew
          rcases htemp.mp hnew with hthere | hok
          · exact hthere hbefore
          · exact hfailed hok
        · exact Or.inr hremoved
      · by_contra hnew
        rcases hcache.mp hnew with hthere | hok
        · exact hthere hbefore
        · rcases hnotCache with hthere | hfailed
          · exact hthere hbefore
          · exact hfailed hok

/-- An open that may not create, of a path the server does not have, is refused exactly in these cases. -/
theorem missing_refused_iff (hflags : fi.flags.has O_CREAT = false)
    (hstream : E.download = ⟨true, none, true⟩)
    (hmissing : w.srv.files.names (getServerPath path.bytes) = none) :
    Refused path w (AFSClient.Open E path fi false w) ↔ RefusesMissing E path w := by
  have hnot : ¬ MadeAnew E path fi.flags false w := by
    rintro ⟨_, hcreate⟩
    rw [Bool.false_or, AFSClient.isOpenWithCreate, hflags] at hcreate
    cases hcreate
  rcases verdict_cases E path fi false w with ⟨_, hanew⟩ | ⟨hverdict, _, htaken⟩ | ⟨hverdict, _, htaken⟩
  · exact absurd hanew hnot
  · rw [refused_used_iff hflags hverdict htaken]
    exact ⟨fun h => ⟨fun _ => h, fun hnew => absurd htaken hnew, fun hnew => absurd htaken hnew,
      fun hnew => absurd htaken hnew⟩, fun h => h.taken htaken⟩
  · rw [refused_fetched_iff hflags hverdict (received_of_missing hstream hmissing fi.flags)]
    exact ⟨fun h => ⟨fun hnew => absurd hnew htaken, fun _ => h.1, fun _ => h.2.1, fun _ => h.2.2⟩,
      fun h => ⟨h.opens htaken, h.temp htaken, h.cache htaken⟩⟩

end Missing

section MissingSample

/-- A client without copies, and a server without files. -/
def sampleNothing : World where
  srv := ⟨.empty ⟨[], default, default⟩, []⟩
  cl := ⟨.empty ⟨[], default, default⟩, [], ∅, []⟩
  errno := 0

/-- No local file can be opened. -/
theorem missing_refused_iff_sample :
    letI := sampleSha256
    let E : Env := { Env.smooth 5 with fails := fun _ => some EIO, fails_pos := fun _ _ h => Option.some.inj h ▸ by decide }
    Refused sampleF sampleNothing (AFSClient.Open E sampleF ⟨O_RDONLY, 0⟩ false sampleNothing) := by
  let _ := sampleSha256
  intro E
  have hfails : ∀ site, E.fails site ≠ none := fun _ => Option.some_ne_none EIO
  refine (missing_refused_iff (E := E) (by decide) rfl (by decide)).mpr
    ⟨fun _ => hfails _, fun _ => Or.inl (hfails _), fun _ => Or.inr (Or.inl (hfails _)), fun _ => Or.inr (hfails _)⟩

/-- Where nothing fails, `/f` is opened although nobody has it, and there are two empty copies of it now. -/
theorem missing_opened :
    letI := sampleSha256
    let opened := AFSClient.Open (.smooth 5) sampleF ⟨O_RDONLY, 0⟩ false sampleNothing
    contentAt sampleNothing.srv sampleF.bytes = none ∧ opened.1 = 0 ∧
      tempAt opened.2.files sampleF = some [] ∧ cacheAt opened.2.files sampleF = some [] ∧
      ¬ Refused sampleF sampleNothing opened := by
  let _ := sampleSha256
  intro opened
  have hzero : opened.1 = 0 := by decide +kernel
  refine ⟨by decide, hzero, by decide +kernel, by decide +kernel, fun h => ?_⟩
  have hneg := h.negative
  rw [hzero] at hneg
  exact absurd hneg (by decide)

end MissingSample

section Fetch

variable [Sha256] {E : Env} {path : CString} {fi : FuseFileInfo} {is_create : Bool} {w : World} {buf : Bytes}

/-- All messages of the server arrive, the status is OK, and what arrived is written to both copies. -/
structure FetchedWhole (E : Env) (path : CString) (fi : FuseFileInfo) (w : World) (buf : Bytes) : Prop where
  arrives : (AFSClient.openStream E ⟨path.bytes, fi.flags, false⟩ w).1 =
    (FileServer.Open E ⟨path.bytes, fi.flags, false⟩ w.srv).1
  received : received E path fi.flags w = some buf
  cacheOpen : E.fails .writeFileToCacheOpen = none
  cacheWrite : savedBytes E .writeFileToCacheWrite (cStr buf) = cStr buf
  tempOpen : E.fails .writeFileToTempOpen = none
  tempWrite : savedBytes E .writeFileToTempWrite (cStr buf) = cStr buf

/-- If the fetch fails so does the open, and a descriptor is one of the temporary copy with the bytes received. -/
structure NeverStale (E : Env) (path : CString) (fi : FuseFileInfo) (w : World) (result : Int × World) : Prop where
  refused : (∀ buf, ¬ FetchedWhole E path fi w buf) → result.1 < 0
  fresh : 0 ≤ result.1 → ∃ d, result.2.cl.fds.get result.1 = some d ∧
    result.2.files.names (getTempPath path) = some d.ino ∧
    received E path fi.flags w = some (result.2.files.inode d.ino).content

/-- After a fetch in full the last call finds what was received up to its first NUL. -/
theorem FetchedWhole.prepared (h : FetchedWhole E path fi w buf) (hverdict : verdict E path fi is_create w = 1) :
    tempAt (prepared E path fi is_create w).files path = some (cStr buf) := by
  have hfetching := (prepared_fetching hverdict).2
  rw [h.received] at hfetching
  obtain ⟨files, _, htemp⟩ := hfetching
  have hself := htemp.self h.tempOpen
  rw [h.tempWrite] at hself
  exact hself

theorem FetchedWhole.fresh_iff (h : FetchedWhole E path fi w buf) (hverdict : verdict E path fi is_create w = 1)
    (htrunc : fi.flags.has O_TRUNC = false) (hok : E.fails .clientOpenOpen = none) :
    NeverStale E path fi w (AFSClient.Open E path fi is_create w) ↔ 0 ∉ buf := by
  have htemp := h.prepared hverdict
  obtain ⟨i, hname⟩ := tempAt_ne_none htemp
  have hcontent : ((Bnfs.prepared E path fi is_create w).files.inode i).content = cStr buf := by
    rw [tempAt, Fs.find_of_names hname] at htemp
    exact Option.some.inj htemp
  have hopen : AFSClient.Open E path fi is_create w =
      newFd i (AFSClient.localFlags fi.flags) (Bnfs.prepared E path fi is_create w) := by
    rw [Open_eq, openTemp_eq fi hok hname, htrunc]
    rfl
  have hget : (AFSClient.Open E path fi is_create w).2.cl.fds.get (AFSClient.Open E path fi is_create w).1 =
      some ⟨i, AFSClient.localFlags fi.flags⟩ := by
    rw [hopen]
    exact Descriptors.get_insert_self _ _
  have hfiles : (AFSClient.Open E path fi is_create w).2.files = (Bnfs.prepared E path fi is_create w).files := by
    rw [hopen]
    rfl
  rw [← cStr_eq_self_iff]
  constructor
  · intro hstale
    have hnonneg : 0 ≤ (AFSClient.Open E path fi is_create w).1 := by
      rw [hopen]
      exact newFd_nonneg _ _
    obtain ⟨d, hd, _, hreceived⟩ := hstale.fresh hnonneg
    obtain rfl : ⟨i, AFSClient.localFlags fi.flags⟩ = d := Option.some.inj (hget.symm.trans hd)
    rw [hfiles, hcontent, h.received] at hreceived
    exact (Option.some.inj hreceived).symm
  · intro hwhole
    refine ⟨fun hnot => absurd h (hnot buf), fun _ => ⟨_, hget, ?_, ?_⟩⟩
    · rw [hfiles]
      exact hname
    · rw [hfiles, hcontent, h.received, hwhole]

/-- An open that fetches hands out no stale copy exactly if the last call fails, by itself or for lack of a temporary
copy; or the fetch goes well in full, and what it brought has no NUL byte. -/
theorem never_stale_iff (hverdict : verdict E path fi is_create w = 1) (htrunc : fi.flags.has O_TRUNC = false) :
    NeverStale E path fi w (AFSClient.Open E path fi is_create w) ↔
      E.fails .clientOpenOpen ≠ none ∨
      (w.files.names (getTempPath path) = none ∧ fi.flags.has O_CREAT = false ∧
        (received E path fi.flags w = none ∨ E.fails .writeFileToTempOpen ≠ none)) ∨
      ∃ buf, FetchedWhole E path fi w buf ∧ 0 ∉ buf := by
  have hneg : (AFSClient.Open E path fi is_create w).1 < 0 ↔ E.fails .clientOpenOpen ≠ none ∨
      (w.files.names (getTempPath path) = none ∧ fi.flags.has O_CREAT = false ∧
        (received E path fi.flags w = none ∨ E.fails .writeFileToTempOpen ≠ none)) := by
    rw [Open_eq, openTemp_neg_iff, FinalOpens, (prepared_fetching_taken hverdict).1, not_and_or, not_or, not_or,
      not_and_or, not_ne_iff, not_ne_iff, Bool.not_eq_true, and_assoc]
    exact or_congr_right (and_congr_right fun _ => and_comm)
  by_cases hopens : (AFSClient.Open E path fi is_create w).1 < 0
  · refine iff_of_true ⟨fun _ => hopens, fun hnonneg => absurd hopens (by omega)⟩ ?_
    rw [← or_assoc]
    exact Or.inl (hneg.mp hopens)
  · rw [← or_assoc, ← hneg, or_iff_right hopens]
    have hok : E.fails .clientOpenOpen = none := by
      by_contra hfails
      exact hopens (hneg.mpr (Or.inl hfails))
    constructor
    · intro hstale
      have hwhole : ∃ buf, FetchedWhole E path fi w buf := by
        by_contra hnot
        exact hopens (hstale.refused (not_exists.mp hnot))
      obtain ⟨buf, hbuf⟩ := hwhole
      exact ⟨buf, hbuf, (hbuf.fresh_iff hverdict htrunc hok).mp hstale⟩
    · rintro ⟨buf, hbuf, hnul⟩
      exact (hbuf.fresh_iff hverdict htrunc hok).mpr hnul

end Fetch

section FetchSample

/-- `/f` is fetched in full. -/
theorem never_stale_iff_sample :
    letI := sampleSha256
    NeverStale (.smooth 5) sampleF ⟨O_RDONLY, 0⟩ (sampleStored (ascii "data"))
      (AFSClient.Open (.smooth 5) sampleF ⟨O_RDONLY, 0⟩ false (sampleStored (ascii "data"))) := by
  let _ := sampleSha256
  have hwhole : FetchedWhole (.smooth 5) sampleF ⟨O_RDONLY, 0⟩ (sampleStored (ascii "data")) (ascii "data") :=
    ⟨rfl, received_of_stored rfl rfl (by decide) _, rfl, rfl, rfl, rfl⟩
  exact (never_stale_iff (by decide) (by decide)).mpr (Or.inr (Or.inr ⟨_, hwhole, by decide⟩))

/-- A clean `/f` with two old copies. -/
def sampleOld [Sha256] : World where
  srv := ⟨(Fs.empty ⟨[], default, default⟩).create (getServerPath (ascii "/f"))
    ⟨ascii "data", ⟨3, 0⟩, default⟩, []⟩
  cl := {
    files := ((Fs.empty ⟨[], default, default⟩).create (getTempPath sampleF)
      ⟨ascii "old", ⟨1, 0⟩, default⟩).create (getCachePath sampleF) ⟨ascii "old", ⟨1, 0⟩, default⟩
    fds := []
    dirty_files := ∅
    op_queue := [] }
  errno := 0

/-- The server has a newer version and does not answer the fetch: the old copy is opened. -/
theorem stale_handle :
    letI := sampleSha256
    let E : Env := { Env.smooth 5 with download := ⟨false, none, false⟩ }
    let opened := AFSClient.Open E sampleF ⟨O_RDONLY, 0⟩ false sampleOld
    verdict E sampleF ⟨O_RDONLY, 0⟩ false sampleOld = 1 ∧
      (∀ buf, ¬ FetchedWhole E sampleF ⟨O_RDONLY, 0⟩ sampleOld buf) ∧ opened.1 = 1 ∧
      tempAt opened.2.files sampleF = some (ascii "old") ∧
      ¬ NeverStale E sampleF ⟨O_RDONLY, 0⟩ sampleOld opened := by
  let _ := sampleSha256
  intro E opened
  have hnot : ∀ buf, ¬ FetchedWhole E sampleF ⟨O_RDONLY, 0⟩ sampleOld buf := fun buf h => by
    have hnone : none = some buf := h.received
    cases hnone
  have hgiven : opened.1 = 1 := by decide +kernel
  refine ⟨by decide +kernel, hnot, hgiven, by decide +kernel, fun h => ?_⟩
  have hneg := h.refused hnot
  rw [hgiven] at hneg
  exact absurd hneg (by decide)

end FetchSample

end Bnfs
