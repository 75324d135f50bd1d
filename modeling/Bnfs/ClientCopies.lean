import Bnfs.ClientFrames

/-! What the operations of the cache helper do to the temporary copy of a path, and to its mark. -/

namespace Bnfs

open FileSystem Programs

/-- `utime` changes the time of one file and nothing else that is looked at. -/
theorem posixUtime_holds (E : Env) (site : Site) {name : Bytes} (t : Int) {w : World} {ino : Nat}
    (hw : w.Holds name ino) :
    (posixUtime E site name t w).2.Holds name ino ∧
    ((posixUtime E site name t w).2.files.inode ino).content = (w.files.inode ino).content ∧
    ((posixUtime E site name t w).2.files.inode ino).mtime =
      if (E.fails site).isSome then (w.files.inode ino).mtime else ⟨t, 0⟩ := by
  cases hfails : E.fails site with
  | some e =>
      simp only [posixUtime, onFile, attempt, hfails]
      exact ⟨⟨hw.names, hw.sole⟩, rfl, rfl⟩
  | none =>
      simp only [posixUtime, onFile, attempt, hfails, hw.names]
      refine ⟨⟨hw.names, hw.sole.of_names_eq rfl⟩, ?_, ?_⟩ <;> simp

variable [Sha256]

/-- The names of the two local copies of a path. -/
def localNames (path : CString) : Set Bytes :=
  fun name => name = getTempPath path ∨ name = getCachePath path

theorem getTempPath_mem_localNames (path : CString) : getTempPath path ∈ localNames path :=
  Or.inl rfl

theorem getCachePath_mem_localNames (path : CString) : getCachePath path ∈ localNames path :=
  Or.inr rfl

theorem getTempPath_not_mem_localNames {p q : CString} (h : getTempPath q ≠ getTempPath p) :
    getTempPath q ∉ localNames p := by
  rintro (heq | heq)
  · exact h heq
  · exact getTempPath_ne_getCachePath q p heq

theorem getTempPath_ne_cache (path : CString) :
    getTempPath path ∉ ({getCachePath path} : Set Bytes) :=
  fun hmem => getTempPath_ne_getCachePath path path hmem

theorem cache_subset_localNames (path : CString) :
    ∀ name, name ∈ ({getCachePath path} : Set Bytes) → name ∈ localNames path :=
  fun _ hname => Or.inr hname

variable (E : Env) (path : CString)

/-- The part of a commit before the copy. -/
theorem commitToCache_opened (w : World) : World.Same w
    (posixClose (posixOpen E .commitToCacheOpen (getTempPath path) O_RDWR w).1
      (posixOpen E .commitToCacheOpen (getTempPath path) O_RDWR w).2).2 :=
  trans_of World.Same (same_posixOpen (by decide) (by decide) w) (same_posixClose _ _)

/-- The part of a commit after the copy, on the temporary copy: it keeps its bytes, and it has the
time handed over unless `utime` failed. -/
theorem commitToCache_stamped {w : World} (t : Int) {ino : Nat} (hw : w.Holds (getTempPath path) ino) :
    let w' := (posixUtime E .commitToCacheUtimeCache (getCachePath path) t
      (posixUtime E .commitToCacheUtimeTemp (getTempPath path) t w).2).2
    World.Frame (localNames path) w w' ∧ w'.Holds (getTempPath path) ino ∧
      (w'.files.inode ino).content = (w.files.inode ino).content ∧
      (w'.files.inode ino).mtime =
        if (E.fails .commitToCacheUtimeTemp).isSome then (w.files.inode ino).mtime else ⟨t, 0⟩ := by
  intro w'
  obtain ⟨hholds, hcontent, hmtime⟩ := posixUtime_holds E .commitToCacheUtimeTemp t hw
  have hcache : World.Frame {getCachePath path} (posixUtime E .commitToCacheUtimeTemp
      (getTempPath path) t w).2 w' := keeps_onFile (Set.mem_singleton _) _
  obtain ⟨hholds', hinode⟩ := hcache.holds (getTempPath_ne_cache path) hholds
  have htemp : World.Frame (localNames path) w (posixUtime E .commitToCacheUtimeTemp
      (getTempPath path) t w).2 := keeps_onFile (getTempPath_mem_localNames path) _
  refine ⟨trans_of _ htemp (hcache.mono (cache_subset_localNames path)), hholds', ?_, ?_⟩
  · rw [hinode, hcontent]
  · rw [hinode, hmtime]

/-- A commit leaves everything as it is, or it takes the mark away: then the temporary copy still has
its bytes, and it has the time handed over unless `utime` failed. -/
theorem commitToCache_cases (w : World) (t : Int) (hsole : w.files.Sole (getTempPath path)) :
    World.Same w (commitToCache E path t w).2 ∨
    (Fs.Within (localNames path) w.files (commitToCache E path t w).2.files ∧
      (commitToCache E path t w).2.cl.dirty_files = w.cl.dirty_files.erase (getHashedPath path) ∧
      (commitToCache E path t w).2.srv = w.srv ∧
      ∃ ino, w.Holds (getTempPath path) ino ∧
        (commitToCache E path t w).2.Holds (getTempPath path) ino ∧
        ((commitToCache E path t w).2.files.inode ino).content = (w.files.inode ino).content ∧
        ((commitToCache E path t w).2.files.inode ino).mtime =
          if (E.fails .commitToCacheUtimeTemp).isSome then (w.files.inode ino).mtime else ⟨t, 0⟩) := by
  have hopened := commitToCache_opened E path w
  unfold commitToCache
  simp only [bind_run]
  by_cases hfd : (posixOpen E .commitToCacheOpen (getTempPath path) O_RDWR w).1 < 0
  · rw [if_pos hfd]
    exact Or.inl (same_posixOpen (by decide) (by decide) w)
  · rw [if_neg hfd]
    simp only [bind_run]
    revert hopened
    generalize (posixClose (posixOpen E .commitToCacheOpen (getTempPath path) O_RDWR w).1
      (posixOpen E .commitToCacheOpen (getTempPath path) O_RDWR w).2).2 = w₁
    intro hopened
    have hcopied : World.Frame {getCachePath path} w₁
        (systemCp E .commitToCacheCp (getTempPath path) (getCachePath path) w₁).2 :=
      keeps_systemCp (Set.mem_singleton _) w₁
    by_cases hfailure : (systemCp E .commitToCacheCp (getTempPath path) (getCachePath path) w₁).1.isFailure = true
    · rw [if_pos hfailure, systemCp_of_failure hfailure]
      exact Or.inl hopened
    · rw [if_neg hfailure]
      right
      obtain ⟨ino, hname, _⟩ := posixOpen_opened (not_lt.mp hfd)
      rw [(same_posixOpen (by decide) (by decide) w : World.Same _ _).files] at hname
      have hw : w.Holds (getTempPath path) ino := ⟨hname, hsole⟩
      have hw₁ : w₁.Holds (getTempPath path) ino := ⟨hopened.files ▸ hname, hopened.files ▸ hsole⟩
      obtain ⟨hholds, hinode⟩ := hcopied.holds (getTempPath_ne_cache path) hw₁
      obtain ⟨hframe, hholds', hcontent, hmtime⟩ := commitToCache_stamped E path t hholds
      have hall := trans_of (World.Frame (localNames path)) (hopened.frame (localNames path))
        (trans_of (World.Frame (localNames path))
          (hcopied.mono (cache_subset_localNames path)) hframe)
      refine ⟨hall.files, ?_, hall.srv, ino, hw, ⟨hholds'.names, hholds'.sole⟩, ?_, ?_⟩
      · exact congrArg (fun dirty => Finset.erase dirty (getHashedPath path)) hall.dirty
      · rw [← hopened.files, ← hinode]
        exact hcontent
      · rw [← hopened.files, ← hinode]
        exact hmtime

/-- `commitToCache` up to the copy, and whether it goes on from there. -/
def copyTemp : Prog Bool := do
  let temp_file_fd ← posixOpen E .commitToCacheOpen (getTempPath path) O_RDWR
  if temp_file_fd < 0 then return false
  else
    let _ ← posixClose temp_file_fd
    let status ← systemCp E .commitToCacheCp (getTempPath path) (getCachePath path)
    if status.isFailure then return false else return true

theorem keeps_copyTemp : Keeps (World.Frame {getCachePath path}) (copyTemp E path) := by
  refine ((same_posixOpen (by decide) (by decide)).mono fun _ _ h => h.frame _).bind fun fd =>
    .ite (fun _ => .pure _) fun _ => ?_
  refine ((same_posixClose fd).mono fun _ _ h => h.frame _).bind fun _ => ?_
  exact (keeps_systemCp (Set.mem_singleton _)).bind fun status =>
    .ite (fun _ => .pure _) fun _ => .pure _

/-- The two calls of `setFileModifiedTime`. -/
def stampCopies (server_modified_at_epoch : Int) : Prog Unit := do
  let _ ← posixUtime E .commitToCacheUtimeTemp (getTempPath path) server_modified_at_epoch
  let _ ← posixUtime E .commitToCacheUtimeCache (getCachePath path) server_modified_at_epoch

theorem commitToCache_world (t : Int) (w : World) : (commitToCache E path t w).2 =
    bif (copyTemp E path w).1 then
      (eraseDirty path (stampCopies E path t (copyTemp E path w).2).2).2
    else (copyTemp E path w).2 := by
  unfold commitToCache copyTemp
  simp only [bind_run]
  by_cases hfd : (posixOpen E .commitToCacheOpen (getTempPath path) O_RDWR w).1 < 0
  · rw [if_pos hfd, if_pos hfd]
    rfl
  · rw [if_neg hfd, if_neg hfd]
    simp only [bind_run]
    by_cases hstatus : (systemCp E .commitToCacheCp (getTempPath path) (getCachePath path)
        (posixClose (posixOpen E .commitToCacheOpen (getTempPath path) O_RDWR w).1
          (posixOpen E .commitToCacheOpen (getTempPath path) O_RDWR w).2).2).1.isFailure = true
    · rw [if_pos hstatus, if_pos hstatus]
      rfl
    · rw [if_neg hstatus, if_neg hstatus]
      rfl

/-- The temporary copy is there and can be opened: it is up to `cp` then. -/
theorem copyTemp_opened {w : World} {ino : Nat} (hopen : E.fails .commitToCacheOpen = none)
    (hname : w.files.names (getTempPath path) = some ino) :
    ∃ w₁, World.Same w w₁ ∧
      copyTemp E path w =
        (!(systemCp E .commitToCacheCp (getTempPath path) (getCachePath path) w₁).1.isFailure,
          (systemCp E .commitToCacheCp (getTempPath path) (getCachePath path) w₁).2) := by
  have hfd : ¬ (posixOpen E .commitToCacheOpen (getTempPath path) O_RDWR w).1 < 0 := by
    simp only [posixOpen, attempt, hopen, hname]
    exact not_lt.mpr (newFd_nonneg ino w)
  refine ⟨_, commitToCache_opened E path w, ?_⟩
  unfold copyTemp
  rw [bind_run, if_neg hfd, bind_run, bind_run]
  cases (systemCp E .commitToCacheCp (getTempPath path) (getCachePath path)
    (posixClose (posixOpen E .commitToCacheOpen (getTempPath path) O_RDWR w).1
      (posixOpen E .commitToCacheOpen (getTempPath path) O_RDWR w).2).2).1.isFailure <;> rfl

/-- The copy is made in full if the temporary copy is there, is not the persistent one under another name, and
nothing fails. -/
theorem copyTemp_run {w : World} {ino : Nat} (hopen : E.fails .commitToCacheOpen = none)
    (hcp : E.fails .commitToCacheCp = none) (hname : w.files.names (getTempPath path) = some ino)
    (hne : w.files.names (getTempPath path) ≠ w.files.names (getCachePath path)) :
    (copyTemp E path w).1 = true ∧
      (copyTemp E path w).2.files = w.files.overwrite (getCachePath path) (w.files.inode ino).content
        (E.now .commitToCacheCp) (E.attr .commitToCacheCp) ∧
      (copyTemp E path w).2.cl.dirty_files = w.cl.dirty_files ∧ (copyTemp E path w).2.srv = w.srv := by
  obtain ⟨w₁, hsame, hrun⟩ := copyTemp_opened E path hopen hname
  have hcopied : systemCp E .commitToCacheCp (getTempPath path) (getCachePath path) w₁ =
      (.exited 0, w₁.setFiles (w.files.overwrite (getCachePath path) (w.files.inode ino).content
        (E.now .commitToCacheCp) (E.attr .commitToCacheCp))) := by
    simp only [systemCp, copyFile, hcp, hsame.files, Fs.find_of_names hname, if_neg hne, id]
  rw [hrun, hcopied]
  exact ⟨rfl, rfl, hsame.dirty, hsame.srv⟩

theorem copyTemp_of_ok {w : World} {ino : Nat} (hopen : E.fails .commitToCacheOpen = none)
    (hcp : E.fails .commitToCacheCp = none) (hw : w.Holds (getTempPath path) ino) :
    (copyTemp E path w).1 = true := by
  refine (copyTemp_run E path hopen hcp hw.names fun heq => ?_).1
  have hcache := heq.symm.trans hw.names
  exact getTempPath_ne_getCachePath path path (hw.sole ino hw.names _ hcache).symm

/-- A commit that goes on takes the mark away. -/
theorem commitToCache_unmarks (t : Int) {w : World} (hcopied : (copyTemp E path w).1 = true) :
    getHashedPath path ∉ (commitToCache E path t w).2.cl.dirty_files := by
  rw [commitToCache_world, hcopied]
  exact Finset.notMem_erase _ _

end Bnfs
