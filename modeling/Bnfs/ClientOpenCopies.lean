import Bnfs.ClientMountRuns
import Bnfs.ClientRename
import Bnfs.ClientTransfers

/-! What an open does to the two local copies whatever fails on the way, and when it returns a descriptor. What
was fetched is saved as far as the local files can be written; a file to be created is emptied as far as it can
be; and the call at the end succeeds exactly if there is a temporary copy by then or it may make one. -/

namespace Bnfs

open FileSystem Programs

section Final

variable [Sha256] {E : Env} {path : CString} {fi : FuseFileInfo} {w : World}

/-- A copy is there after an open that succeeds. -/
theorem openTemp_there (h : FinalOpens E path fi.flags w) : tempAt (openTemp E path fi w).2.files path ≠ none := by
  have hthere : ∀ {files : Files} {i : Nat}, files.names (getTempPath path) = some i →
      tempAt files path ≠ none := by
    intro files i hi
    rw [tempAt, Fs.find_of_names hi]
    exact Option.some_ne_none _
  cases hname : w.files.names (getTempPath path) with
  | some i =>
      rw [openTemp_eq fi h.1 hname]
      cases fi.flags.has O_TRUNC with
      | true => exact hthere (i := i) hname
      | false => exact hthere (i := i) hname
  | none =>
      rw [openTemp_made h.1 hname (h.2.resolve_left fun hnot => hnot hname)]
      exact hthere (Fs.create_names_self _ _ _)

/-- A failed open has the path unmarked. -/
theorem openTemp_unmarks (h : ¬ FinalOpens E path fi.flags w) :
    getHashedPath path ∉ (openTemp E path fi w).2.cl.dirty_files := by
  obtain ⟨e, _, heq⟩ := openTemp_failed h
  rw [heq]
  exact Finset.notMem_erase _ _

/-- What is left after a failed open: the temporary copy is gone if it could be removed or was not there. -/
theorem openTemp_failed_names (h : ¬ FinalOpens E path fi.flags w) :
    ((openTemp E path fi w).2.files.names (getTempPath path) = none ↔
      w.files.names (getTempPath path) = none ∨ E.fails .deleteFromTempRemove = none) ∧
    ∀ name, name ≠ getTempPath path →
      (openTemp E path fi w).2.files.names name = w.files.names name := by
  obtain ⟨e, _, heq⟩ := openTemp_failed h
  have hfiles : (openTemp E path fi w).2.files =
      (posixRemove E .deleteFromTempRemove (getTempPath path) { w with errno := e }).2.files := by
    rw [heq]
    rfl
  rw [hfiles]
  cases hfails : E.fails .deleteFromTempRemove with
  | some e' =>
      rw [posixRemove_of_fails hfails]
      exact ⟨⟨Or.inl, fun hor => hor.resolve_right (Option.some_ne_none e')⟩, fun _ _ => rfl⟩
  | none =>
      rw [(posixRemove_files hfails (getTempPath path) { w with errno := e }).1]
      exact ⟨iff_of_true (Fs.remove_names_self _ _) (Or.inr rfl),
        fun name hne => Fs.remove_names_of_ne _ hne⟩

end Final

section Prepared

variable [Sha256] {E : Env} {path : CString} {fi : FuseFileInfo} {is_create : Bool} {w : World}

/-- The server answers that there is no such file, and the caller asks for one. -/
def MadeAnew (E : Env) (path : CString) (flags : OpenFlags) (is_create : Bool) (w : World) : Prop :=
  AnswersMissing E path w ∧ (is_create || AFSClient.isOpenWithCreate flags) = true

/-- The temporary copy can be looked at, and the server's second is not a later one. -/
def TempTaken (E : Env) (path : CString) (w : World) : Prop :=
  TempReadable E path w ∧ ∃ file, w.files.find (getTempPath path) = some file ∧
    serverSecond E path w ≤ toInt file.mtime.tv_sec

omit [Sha256] in
theorem createsLocally_iff_madeAnew (flags : OpenFlags) :
    CreatesLocally E path flags is_create w ↔ MadeAnew E path flags is_create w :=
  createsLocally_iff E path w flags is_create

theorem tempUsed_iff_taken : TempUsed E path w ↔ TempTaken E path w := by
  unfold TempUsed TempTaken
  rw [checkedTemp_pos_iff, reportedTime_eq]

theorem verdict_cases (E : Env) (path : CString) (fi : FuseFileInfo) (is_create : Bool) (w : World) :
    (verdict E path fi is_create w = 3 ∧ MadeAnew E path fi.flags is_create w) ∨
    (verdict E path fi is_create w = 2 ∧ ¬ MadeAnew E path fi.flags is_create w ∧ TempTaken E path w) ∨
    (verdict E path fi is_create w = 1 ∧ ¬ MadeAnew E path fi.flags is_create w ∧ ¬ TempTaken E path w) := by
  have hresult := getOpenFlags_result E path fi.flags is_create w
  rw [createsLocally_iff_madeAnew, tempUsed_iff_taken] at hresult
  exact hresult

/-- Verdict 1: what was received is saved in the persistent copy and then in the temporary one. -/
theorem prepared_fetching (hverdict : verdict E path fi is_create w = 1) :
    (prepared E path fi is_create w).cl.dirty_files = w.cl.dirty_files ∧
      match received E path fi.flags w with
      | none => (prepared E path fi is_create w).files = w.files
      | some buf => ∃ files,
          Fs.Rewritten (E.fails .writeFileToCacheOpen = none) (getCachePath path)
            (savedBytes E .writeFileToCacheWrite (cStr buf)) w.files files ∧
          Fs.Rewritten (E.fails .writeFileToTempOpen = none) (getTempPath path)
            (savedBytes E .writeFileToTempWrite (cStr buf)) files (prepared E path fi is_create w).files := by
  obtain ⟨checked, hsame, hprepared⟩ := prepared_saves fi hverdict
  rw [hprepared]
  cases received E path fi.flags w with
  | none => exact ⟨hsame.dirty, hsame.files⟩
  | some buf =>
      have hframe := saveFetched_frame E path (cStr buf) checked
      have hsaved := saveFetched_rewritten E path (cStr buf) checked
      rw [hsame.files] at hsaved
      exact ⟨hframe.dirty.trans hsame.dirty, hsaved⟩

/-- Which names are taken then: those that were, and those under which something that was received is saved. -/
theorem prepared_fetching_taken (hverdict : verdict E path fi is_create w = 1) :
    ((prepared E path fi is_create w).files.names (getTempPath path) ≠ none ↔
      w.files.names (getTempPath path) ≠ none ∨
        (received E path fi.flags w ≠ none ∧ E.fails .writeFileToTempOpen = none)) ∧
    ((prepared E path fi is_create w).files.names (getCachePath path) ≠ none ↔
      w.files.names (getCachePath path) ≠ none ∨
        (received E path fi.flags w ≠ none ∧ E.fails .writeFileToCacheOpen = none)) := by
  have hfetching := (prepared_fetching hverdict).2
  cases hreceived : received E path fi.flags w with
  | none =>
      rw [hreceived] at hfetching
      rw [hfetching]
      simp only [ne_eq, not_true_eq_false, false_and, or_false, and_self]
  | some buf =>
      rw [hreceived] at hfetching
      obtain ⟨files, hcache, htemp⟩ := hfetching
      have hname := hcache.names _ (getTempPath_ne_getCachePath path path)
      have hkept := htemp.names _ (getTempPath_ne_getCachePath path path).symm
      have hsome : some buf ≠ none := Option.some_ne_none buf
      refine ⟨?_, ?_⟩
      · rw [htemp.taken_iff, hname, and_iff_right hsome]
      · rw [hkept, hcache.taken_iff, and_iff_right hsome]

/-- Verdict 3: both copies are emptied, the temporary one first, and the path is marked. -/
theorem prepared_creating (hverdict : verdict E path fi is_create w = 3) :
    getHashedPath path ∈ (prepared E path fi is_create w).cl.dirty_files ∧ ∃ files,
      Fs.Rewritten (E.fails .clientOpenCreatTemp = none) (getTempPath path) [] w.files files ∧
      Fs.Rewritten (E.fails .clientOpenCreatCache = none) (getCachePath path) [] files
        (prepared E path fi is_create w).files := by
  refine ⟨prepared_create hverdict, ?_⟩
  have hcreat : ∀ site name w₁, Fs.Rewritten (E.fails site = none) name [] w₁.files
      (posixCreat E site name w₁).2.files := by
    intro site name w₁
    cases hfails : E.fails site with
    | some e =>
        have heq : posixCreat E site name w₁ = failWith e w₁ := by
          simp only [posixCreat, posixOpen, attempt, hfails]
        rw [heq]
        exact .of_failed (Option.some_ne_none e)
    | none =>
        rw [(posixCreat_files hfails name w₁).1]
        exact Fs.openTrunc_rewritten rfl w₁.files name _ _
  have hsame := getOpenFlags_same E path fi.flags is_create w
  let created := posixCreat E .clientOpenCreatTemp (getTempPath path)
    (AFSClient.getOpenFlags E is_create fi.flags path w).2
  have hprepared : (prepared E path fi is_create w).files = (posixCreat E .clientOpenCreatCache
      (getCachePath path) (posixClose created.1 created.2).2).2.files := by
    unfold prepared
    rw [show (AFSClient.getOpenFlags E is_create fi.flags path w).1 = 3 from hverdict, prepareTemp_create,
      bind_run]
    unfold afterCreat
    simp only [bind_run, pure_run, createOnServer_world]
    rw [World.files, openStream_cl]
    exact (same_posixClose _ _).files
  have hclosed := (same_posixClose created.1 created.2).files
  refine ⟨created.2.files, hsame.files ▸ hcreat _ _ _, ?_⟩
  rw [hprepared, ← hclosed]
  exact hcreat _ _ _

/-- Verdict 2: nothing happens. -/
theorem prepared_using (hverdict : verdict E path fi is_create w = 2) :
    World.Same w (prepared E path fi is_create w) :=
  prepared_used fi hverdict

end Prepared

end Bnfs
