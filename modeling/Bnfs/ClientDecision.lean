import Bnfs.ClientUninitialised

/-! Which copy an open uses, against the times of the copies. The decision knows four outcomes and gives three of them:
what says whether the persistent copy is fresh is only set where the temporary copy was opened, so that a persistent
copy alone is never used. The times themselves are compared in seconds of type `int`. -/

namespace Bnfs

open FileSystem Programs FileServer

section Comparison

variable [Sha256] {E : Env} {path : CString} {w : World} {theirs ours : File}

omit [Sha256] in
/-- The server's second after the reply and the conversion to `int`. -/
theorem serverSecond_of_find (hanswered : E.rpc .getAttr = .answered) (hok : E.fails .getAttrLstat = none)
    (htheirs : w.srv.files.find (getServerPath path.bytes) = some theirs) :
    serverSecond E path w = toInt theirs.mtime.tv_sec := by
  unfold serverSecond
  simp only [hanswered, hok, htheirs, if_true]

/-- The comparison `getOpenFlags` makes once the temporary copy is open. -/
def comparedStale (E : Env) (path : CString) (w : World) : Bool :=
  (isOutOfDate E (reportedTime E path w) (checkedTemp E path w).1 (checkedTemp E path w).2).1

/-- The two seconds are compared after the narrowing. -/
theorem comparedStale_iff_narrowed (hanswered : E.rpc .getAttr = .answered) (hok : E.fails .getAttrLstat = none)
    (htheirs : w.srv.files.find (getServerPath path.bytes) = some theirs) (hfd : 0 < (checkedTemp E path w).1)
    (hours : w.files.find (getTempPath path) = some ours) :
    comparedStale E path w = true ↔ toInt ours.mtime.tv_sec < toInt theirs.mtime.tv_sec := by
  obtain ⟨file, hfind, hcompare⟩ := isOutOfDate_checkedTemp E path w hfd (reportedTime E path w)
  obtain rfl : file = ours := Option.some.inj (hfind.symm.trans hours)
  rw [comparedStale, hcompare, reportedTime_eq, serverSecond_of_find hanswered hok htheirs, decide_eq_true_iff,
    gt_iff_lt]

/-- For seconds of the type `int` the copy counts as stale exactly if the server's second is the later one. -/
theorem comparedStale_iff (hanswered : E.rpc .getAttr = .answered) (hok : E.fails .getAttrLstat = none)
    (htheirs : w.srv.files.find (getServerPath path.bytes) = some theirs) (hfd : 0 < (checkedTemp E path w).1)
    (hours : w.files.find (getTempPath path) = some ours)
    (htheirsLow : -2 ^ 31 ≤ theirs.mtime.tv_sec) (htheirsHigh : theirs.mtime.tv_sec < 2 ^ 31)
    (hoursLow : -2 ^ 31 ≤ ours.mtime.tv_sec) (hoursHigh : ours.mtime.tv_sec < 2 ^ 31) :
    comparedStale E path w = true ↔ ours.mtime.tv_sec < theirs.mtime.tv_sec := by
  rw [comparedStale_iff_narrowed hanswered hok htheirs hfd hours, toInt_of_range htheirsLow htheirsHigh,
    toInt_of_range hoursLow hoursHigh]

end Comparison

/-- A local file that is not older than the second of the server. -/
def Fresh (name : Bytes) (second : Int) (w : World) : Prop :=
  ∃ file, w.files.find name = some file ∧ second ≤ file.mtime.tv_sec

section Decision

variable [Sha256] {E : Env} {path : CString} {w : World}

/-- There is no temporary copy, but a fresh persistent one. -/
def OnlyCacheFresh (path : CString) (second : Int) (w : World) : Prop :=
  w.files.names (getTempPath path) = none ∧ Fresh (getCachePath path) second w

/-- An open that succeeds without truncating has the bytes of the persistent copy, whatever a fetch would bring. -/
def ServesCache (E : Env) (path : CString) (fi : FuseFileInfo) (is_create : Bool) (w : World) : Prop :=
  fi.flags.has O_TRUNC = false → ∀ download,
    let opened := AFSClient.Open { E with download } path fi is_create w
    0 ≤ opened.1 → tempAt opened.2.files path = cacheAt w.files path

/-- The decision uses the fresh copies, all of them and no others. -/
structure DecidesRight (E : Env) (path : CString) (fi : FuseFileInfo) (is_create : Bool) (second : Int)
    (w : World) : Prop where
  temp : verdict E path fi is_create w = 2 ↔ Fresh (getTempPath path) second w
  cached : verdict E path fi is_create w = 4 ↔ OnlyCacheFresh path second w
  served : verdict E path fi is_create w = 4 → ServesCache E path fi is_create w
  fetched : verdict E path fi is_create w = 1 ↔
    ¬ Fresh (getTempPath path) second w ∧ ¬ OnlyCacheFresh path second w

/-- Where it does: no persistent copy stands alone and fresh, a fresh temporary copy can be opened under a descriptor
other than 0, and the narrowing to `int` keeps the order of the two seconds. -/
structure CopiesSeen (E : Env) (path : CString) (second : Int) (w : World) : Prop where
  cached : ¬ OnlyCacheFresh path second w
  opened : Fresh (getTempPath path) second w → TempReadable E path w
  narrowed : TempReadable E path w → ∀ file, w.files.find (getTempPath path) = some file →
    (toInt second ≤ toInt file.mtime.tv_sec ↔ second ≤ file.mtime.tv_sec)

/-- On a file that is there the verdict is 2 or 1, by whether the temporary copy is taken. -/
theorem verdict_of_found (hfinds : LstatFinds E path w) (fi : FuseFileInfo) (is_create : Bool) :
    (verdict E path fi is_create w = 2 ∧ TempTaken E path w) ∨
      (verdict E path fi is_create w = 1 ∧ ¬ TempTaken E path w) := by
  have hnew : ¬ MadeAnew E path fi.flags is_create w := by
    rintro ⟨⟨_, hmissing⟩, _⟩
    rcases hmissing with hfails | ⟨_, hnone⟩
    · exact absurd (hfails.symm.trans hfinds.1) (Option.some_ne_none _)
    · exact hfinds.2 hnone
  rcases verdict_cases E path fi is_create w with ⟨_, hmade⟩ | ⟨hverdict, _, htaken⟩ | ⟨hverdict, _, htaken⟩
  · exact absurd hmade hnew
  · exact Or.inl ⟨hverdict, htaken⟩
  · exact Or.inr ⟨hverdict, htaken⟩

/-- What is taken is what is fresh. -/
theorem CopiesSeen.taken_iff {second : Int} (h : CopiesSeen E path second w)
    (hsecond : serverSecond E path w = toInt second) : TempTaken E path w ↔ Fresh (getTempPath path) second w := by
  rw [TempTaken, hsecond]
  constructor
  · rintro ⟨hread, file, hfind, hle⟩
    exact ⟨file, hfind, (h.narrowed hread file hfind).mp hle⟩
  · rintro ⟨file, hfind, hle⟩
    have hread : TempReadable E path w := h.opened ⟨file, hfind, hle⟩
    exact ⟨hread, file, hfind, (h.narrowed hread file hfind).mpr hle⟩

theorem decides_right_iff {theirs : File} (hanswered : E.rpc .getAttr = .answered)
    (hok : E.fails .getAttrLstat = none)
    (htheirs : w.srv.files.find (getServerPath path.bytes) = some theirs) (fi : FuseFileInfo) (is_create : Bool) :
    DecidesRight E path fi is_create theirs.mtime.tv_sec w ↔ CopiesSeen E path theirs.mtime.tv_sec w := by
  obtain ⟨ino, hname, _⟩ := Fs.find_eq_some_iff.mp htheirs
  have hfinds : LstatFinds E path w := ⟨hok, hname ▸ Option.some_ne_none ino⟩
  have hsecond := serverSecond_of_find hanswered hok htheirs
  have hverdict := verdict_of_found hfinds fi is_create
  have htwo : verdict E path fi is_create w = 2 ↔ TempTaken E path w := by
    rcases hverdict with ⟨heq, htaken⟩ | ⟨heq, htaken⟩
    · exact iff_of_true heq htaken
    · exact iff_of_false (by rw [heq]; decide) htaken
  have hone : verdict E path fi is_create w = 1 ↔ ¬ TempTaken E path w := by
    rcases hverdict with ⟨heq, htaken⟩ | ⟨heq, htaken⟩
    · exact iff_of_false (by rw [heq]; decide) (not_not_intro htaken)
    · exact iff_of_true heq htaken
  have hfour : verdict E path fi is_create w ≠ 4 := by
    rcases hverdict with ⟨heq, _⟩ | ⟨heq, _⟩ <;> rw [heq] <;> decide
  constructor
  · intro h
    have htaken : TempTaken E path w ↔ Fresh (getTempPath path) theirs.mtime.tv_sec w := htwo.symm.trans h.temp
    refine ⟨fun halone => hfour (h.cached.mpr halone), fun hfresh => (htaken.mpr hfresh).1, ?_⟩
    intro hread file hfind
    have hours : TempTaken E path w ↔ toInt theirs.mtime.tv_sec ≤ toInt file.mtime.tv_sec := by
      rw [TempTaken, hsecond, and_iff_right hread, hfind]
      simp only [Option.some.injEq, exists_eq_left']
    have hfresh : Fresh (getTempPath path) theirs.mtime.tv_sec w ↔ theirs.mtime.tv_sec ≤ file.mtime.tv_sec := by
      rw [Fresh, hfind]
      simp only [Option.some.injEq, exists_eq_left']
    exact hours.symm.trans (htaken.trans hfresh)
  · intro h
    have htaken := h.taken_iff hsecond
    refine ⟨htwo.trans htaken, iff_of_false hfour h.cached, fun heq => absurd heq hfour, ?_⟩
    rw [hone, htaken, and_iff_left h.cached]

end Decision

/-- The server has `/f` with one time, the client the one local file `name` with another; descriptor 0 is in use. -/
def sampleTimes (name : Bytes) (theirs ours : Timespec) : World where
  srv := ⟨(Fs.empty ⟨[], default, default⟩).create (getServerPath (ascii "/f")) ⟨ascii "data", theirs, default⟩, []⟩
  cl := {
    files := (Fs.empty ⟨[], default, default⟩).create name ⟨ascii "data", ours, default⟩
    fds := [some ⟨0, O_RDWR⟩]
    dirty_files := ∅
    op_queue := [] }
  errno := 0

theorem comparedStale_iff_sample :
    letI := sampleSha256
    comparedStale (.smooth 9) sampleF (sampleTimes (getTempPath sampleF) ⟨4, 0⟩ ⟨3, 7⟩) = true ↔ (3 : Int) < 4 := by
  let _ := sampleSha256
  have hfd : 0 < (checkedTemp (.smooth 9) sampleF (sampleTimes (getTempPath sampleF) ⟨4, 0⟩ ⟨3, 7⟩)).1 := by
    decide +kernel
  have htheirs : (sampleTimes (getTempPath sampleF) ⟨4, 0⟩ ⟨3, 7⟩).srv.files.find
      (getServerPath sampleF.bytes) = some ⟨ascii "data", ⟨4, 0⟩, default⟩ := by decide +kernel
  have hours : (sampleTimes (getTempPath sampleF) ⟨4, 0⟩ ⟨3, 7⟩).files.find (getTempPath sampleF) =
      some ⟨ascii "data", ⟨3, 7⟩, default⟩ := by decide +kernel
  exact comparedStale_iff rfl rfl htheirs hfd hours (by decide) (by decide) (by decide) (by decide)

/-- A server's time that is later by nanoseconds is not noticed, nor is one beyond the seconds of an `int`. -/
theorem later_not_stale :
    letI := sampleSha256
    comparedStale (.smooth 9) sampleF (sampleTimes (getTempPath sampleF) ⟨1, 5⟩ ⟨1, 0⟩) = false ∧
      comparedStale (.smooth 9) sampleF (sampleTimes (getTempPath sampleF) ⟨2 ^ 31, 0⟩ ⟨1, 0⟩) = false := by
  let _ := sampleSha256
  decide +kernel

theorem decides_right_iff_sample :
    letI := sampleSha256
    DecidesRight (.smooth 9) sampleF ⟨O_RDONLY, 0⟩ false 3
      (sampleTimes (getTempPath sampleF) ⟨3, 0⟩ ⟨5, 0⟩) := by
  let _ := sampleSha256
  have htheirs : (sampleTimes (getTempPath sampleF) ⟨3, 0⟩ ⟨5, 0⟩).srv.files.find
      (getServerPath sampleF.bytes) = some ⟨ascii "data", ⟨3, 0⟩, default⟩ := by decide +kernel
  refine (decides_right_iff (E := .smooth 9) rfl rfl htheirs ⟨O_RDONLY, 0⟩ false).mpr ⟨?_, fun _ => ?_, ?_⟩
  · rintro ⟨hnone, _⟩
    exact absurd hnone (by decide +kernel)
  · exact ⟨rfl, by decide +kernel, Or.inl (Option.some_ne_none _)⟩
  · intro _ file hfile
    obtain rfl : file = ⟨ascii "data", ⟨5, 0⟩, default⟩ :=
      Option.some.inj (hfile.symm.trans (by decide +kernel))
    decide

/-- The only copy of `/f` is a fresh persistent one, and the decision is to fetch. -/
theorem cache_copy_ignored :
    letI := sampleSha256
    OnlyCacheFresh sampleF 3 (sampleTimes (getCachePath sampleF) ⟨3, 0⟩ ⟨5, 0⟩) ∧
      verdict (.smooth 9) sampleF ⟨O_RDONLY, 0⟩ false (sampleTimes (getCachePath sampleF) ⟨3, 0⟩ ⟨5, 0⟩) = 1 ∧
      ¬ DecidesRight (.smooth 9) sampleF ⟨O_RDONLY, 0⟩ false 3
        (sampleTimes (getCachePath sampleF) ⟨3, 0⟩ ⟨5, 0⟩) := by
  let _ := sampleSha256
  have hfresh : OnlyCacheFresh sampleF 3 (sampleTimes (getCachePath sampleF) ⟨3, 0⟩ ⟨5, 0⟩) :=
    ⟨by decide +kernel, ⟨ascii "data", ⟨5, 0⟩, default⟩, by decide +kernel, by decide⟩
  have hone : verdict (.smooth 9) sampleF ⟨O_RDONLY, 0⟩ false
      (sampleTimes (getCachePath sampleF) ⟨3, 0⟩ ⟨5, 0⟩) = 1 := by decide +kernel
  refine ⟨hfresh, hone, fun h => ?_⟩
  have hfour := h.cached.mpr hfresh
  rw [hone] at hfour
  exact absurd hfour (by decide)

end Bnfs
