import Bnfs.UploadStore

/-! Last writer wins. When no call of a handler fails, the open stream holds exactly the chunks read so
far, the closed temporary file holds the whole upload, and so does what every rename puts in place.
Together with the refinement the bytes at a path are those of the last upload renamed onto it. -/

namespace Bnfs.Handlers

open FileSystem

variable {ι : Type}

/-- The bytes of the chunks still to come. -/
def remaining (rest : List PutFileReq) : Bytes := (rest.map (·.contents)).flatten

/-- How far the uploads are, with no call failing: an open stream and what is still to come make up
the upload, a closed file is the upload, and so is every version put in place. -/
structure Whole (calls : ι → PutCall) (s : Handlers ι) : Prop where
  writing : ∀ i out rest, s.pc i = .writing out rest →
    ∃ ino, out = some ino ∧ (s.files.inode ino).content ++ remaining rest = (calls i).content
  closed : ∀ i, s.pc i = .closed → ∃ ino, s.files.names (calls i).temp = some ino ∧
    (s.files.inode ino).content = (calls i).content
  versions : ∀ version ∈ s.versions, version.path = (calls version.who).target ∧
    version.dated.map Prod.fst = some (calls version.who).content

variable {calls : ι → PutCall} {paths : Set Bytes} {s t : Handlers ι} {turn : Turn ι}

theorem Idle.whole (h : s.Idle) : Whole calls s := by
  refine ⟨fun i out rest hpc => ?_, fun i hpc => ?_, fun version hversion => ?_⟩
  · rw [h.pc i] at hpc
    cases hpc
  · rw [h.pc i] at hpc
    cases hpc
  · rw [h.versions] at hversion
    cases hversion

variable [DecidableEq ι]

/-- A turn that leaves files and versions alone and does not bring its handler to an open or a closed
temporary file keeps the uploads whole. -/
theorem Whole.of_files_eq (hs : Whole calls s) (hfiles : t.files = s.files)
    (hversions : t.versions = s.versions) (hother : ∀ j, j ≠ turn.who → t.pc j = s.pc j)
    (hwriting : ∀ out rest, t.pc turn.who ≠ .writing out rest) (hclosed : t.pc turn.who ≠ .closed) :
    Whole calls t := by
  refine ⟨fun j out rest hpc => ?_, fun j hpc => ?_, hversions ▸ hs.versions⟩
  · by_cases hj : j = turn.who
    · exact absurd (hj ▸ hpc) (hwriting out rest)
    · rw [hother j hj] at hpc
      exact hfiles ▸ hs.writing j out rest hpc
  · by_cases hj : j = turn.who
    · exact absurd (hj ▸ hpc) hclosed
    · rw [hother j hj] at hpc
      exact hfiles ▸ hs.closed j hpc

/-- A turn in the critical section only has to answer for its own temporary file and for a version of
its own. -/
theorem Whole.of_critical (hexcl : s.Exclusive) (hcritical : (s.pc turn.who).critical)
    (hother : ∀ j, j ≠ turn.who → t.pc j = s.pc j)
    (hwriting : ∀ out rest, t.pc turn.who = .writing out rest → ∃ ino, out = some ino ∧
      (t.files.inode ino).content ++ remaining rest = (calls turn.who).content)
    (hclosed : t.pc turn.who = .closed → ∃ ino, t.files.names (calls turn.who).temp = some ino ∧
      (t.files.inode ino).content = (calls turn.who).content)
    (hversions : ∀ version ∈ t.versions, version.path = (calls version.who).target ∧
      version.dated.map Prod.fst = some (calls version.who).content) : Whole calls t := by
  refine ⟨fun j out rest hpc => ?_, fun j hpc => ?_, hversions⟩
  · by_cases hj : j = turn.who
    · subst hj
      exact hwriting out rest hpc
    · rw [hother j hj] at hpc
      exact absurd hpc (hexcl.not_writing hcritical hj)
  · by_cases hj : j = turn.who
    · subst hj
      exact hclosed hpc
    · rw [hother j hj] at hpc
      exact absurd (hexcl.eq_of_critical (by rw [hpc]; rfl) hcritical) hj

/-- An append that does not fail adds its chunk to the bytes of the open file. -/
theorem uploadWrite_content (now : Timespec) (chunk : Bytes) (files : Files) (ino : Nat) :
    (uploadWrite none now chunk (files, some ino)).2 = some ino ∧
      ((uploadWrite none now chunk (files, some ino)).1.inode ino).content =
        (files.inode ino).content ++ chunk := by
  by_cases hempty : chunk = []
  · subst hempty
    simp [uploadWrite]
  · simp [uploadWrite, hempty]

theorem Whole.step (hs : Whole calls s) (hcoh : Coherent calls paths s)
    (hwhole : ∀ i, (calls i).requests ≠ []) (hok : turn.fails = none) (h : Moves calls s turn t) :
    Whole calls t := by
  have hother : ∀ j, j ≠ turn.who → t.pc j = s.pc j := fun j hj => h.pc_of_ne hj
  cases h with
  | read hpc => exact hs.of_files_eq rfl rfl hother (by simp) (by simp)
  | acquire hpc hfree => exact hs.of_files_eq rfl rfl hother (by simp) (by simp)
  | renameFails hpc hfails => exact hs.of_files_eq rfl rfl hother (by simp) (by simp)
  | release hpc => exact hs.of_files_eq rfl rfl hother (by simp) (by simp)
  | lstat reply hpc hreply => exact hs.of_files_eq rfl rfl hother (by simp) (by simp)
  | chmod hpc =>
      exact Whole.of_critical hcoh.exclusive (by rw [hpc]; rfl) hother (by simp) (by simp) hs.versions
  | openTemp out hpc hout =>
      have htemp := PutCall.temp_ne_nil (hwhole turn.who)
      have hopen : out = ((s.files.openTrunc (calls turn.who).temp turn.now turn.attr).1,
          some (s.files.openTrunc (calls turn.who).temp turn.now turn.attr).2) := by
        rw [hout, uploadOpen, if_neg (by simp [hok, htemp])]
      refine Whole.of_critical hcoh.exclusive (by rw [hpc]; rfl) hother ?_ (by simp) hs.versions
      intro ino rest hself
      obtain ⟨hino, hrest⟩ := PutPc.writing.inj ((goto_pc_self s turn.who _).symm.trans hself)
      refine ⟨(s.files.openTrunc (calls turn.who).temp turn.now turn.attr).2, ?_, ?_⟩
      · rw [← hino, hopen]
      · have hcontent := (Fs.openTrunc_inode_self s.files (calls turn.who).temp turn.now turn.attr).1
        simp only [hopen, hcontent, List.nil_append, ← hrest]
        rfl
  | close hpc =>
      refine Whole.of_critical hcoh.exclusive (by rw [hpc]; rfl) hother (by simp) ?_ hs.versions
      intro _
      obtain ⟨ino, hino, hcontent⟩ := hs.writing turn.who _ _ hpc
      obtain ⟨_, hname⟩ := hcoh.out turn.who ino _ (hino ▸ hpc)
      refine ⟨ino, hname, ?_⟩
      simpa [remaining] using hcontent
  | write out hpc hout =>
      rename_i before request after
      refine Whole.of_critical hcoh.exclusive (by rw [hpc]; rfl) hother ?_ (by simp) hs.versions
      obtain ⟨ino, hino, hcontent⟩ := hs.writing turn.who _ _ hpc
      intro out' rest hself
      obtain ⟨hout', hrest⟩ := PutPc.writing.inj ((goto_pc_self s turn.who _).symm.trans hself)
      rw [hino, hok] at hout
      obtain ⟨hsame, hadded⟩ := uploadWrite_content turn.now request.contents s.files ino
      refine ⟨ino, ?_, ?_⟩
      · rw [← hout', hout, hsame]
      · rw [hout, hadded, ← hrest, ← hcontent, List.append_assoc]
        rfl
  | rename files hpc _ htemp htarget hfiles =>
      refine Whole.of_critical hcoh.exclusive (by rw [hpc]; rfl) hother (by simp) (by simp) ?_
      intro version hversion
      rcases List.mem_cons.mp hversion with rfl | hold
      · refine ⟨rfl, ?_⟩
        obtain ⟨ino, hname, hcontent⟩ := hs.closed turn.who hpc
        have hfound : files.find (calls turn.who).target = some (s.files.inode ino) := by
          rw [hfiles, Fs.find_rename_new, Fs.find_of_names hname]
        simp only [Version.dated, hfound, Option.map_some, hcontent]
      · exact hs.versions version hold

/-- Without a failing call the runs keep to the registers, and every version is a whole upload. -/
theorem Interleaving.whole {start : Handlers ι} {trace : List (Handlers ι × Turn ι)}
    (hstart : start.Idle) (hnames : TempNames calls paths start.files)
    (hwhole : ∀ i, (calls i).requests ≠ []) (hrun : Interleaving calls start trace t)
    (hok : ∀ entry ∈ trace, entry.2.fails = none) :
    Refines calls paths start t ∧ Whole calls t := by
  have hguard : Runs.Guarded (fun _ turn => turn.fails = none) trace := hok
  refine Runs.Run.guarded_invariant (fun s => Refines calls paths start s ∧ Whole calls s) ?_ ?_
    hrun hguard
  · exact ⟨Interleaving.refines hstart hnames .nil, hstart.whole⟩
  · intro s turn t hs hfails hstep
    have hmoves := step_moves hstep
    exact ⟨hs.1.step hmoves, hs.2.step hs.1.coherent hwhole hfails hmoves⟩

/-- At every moment the bytes at every path of a client are the whole content of the upload renamed
onto it last, and what they were at the start if there was none. -/
theorem last_upload_wins {start : Handlers ι} {trace : List (Handlers ι × Turn ι)}
    (hstart : start.Idle) (hnames : TempNames calls paths start.files)
    (hwhole : ∀ i, (calls i).requests ≠ []) (hrun : Interleaving calls start trace t)
    (hok : ∀ entry ∈ trace, entry.2.fails = none) :
    ∀ p ∈ paths, (t.files.find p).map (·.content) =
      match Register.last Version.path t.versions p with
      | some version => some (calls version.who).content
      | none => (start.files.find p).map (·.content) := by
  intro p hp
  obtain ⟨hrefines, hversions⟩ := Interleaving.whole hstart hnames hwhole hrun hok
  rw [find_content, hrefines.registers p hp, Register.replay_eq_last]
  cases hlast : Register.last Version.path t.versions p with
  | none => exact (find_content start.files p).symm
  | some version => exact (hversions.versions version (Register.mem_of_last _ hlast)).2

/-- Two uploads to one path with one temporary name; the second reads its path before the first has the
mutex and gets in after it. -/
theorem last_upload_wins_same_name :
    ∃ trace t, Interleaving twoUploads emptyServer trace t ∧
      (twoUploads false).temp = (twoUploads true).temp ∧
      (t.files.find (getServerPath (ascii "/f"))).map (·.content) = some (ascii "bb") := by
  have hrun : Interleaving twoUploads emptyServer _ _ :=
    .of_advance ([turnAt true 10, turnAt false 10] ++ List.replicate 7 (turnAt false 10) ++
      List.replicate 5 (turnAt true 20)) .nil rfl
  have hsame : ∀ i, (twoUploads i).requests ≠ [] →
      (twoUploads i).target = getServerPath (ascii "/f") := by
    intro i _
    cases i <;> rfl
  have hnames : TempNames twoUploads {getServerPath (ascii "/f")} (emptyServer : Handlers Bool).files :=
    .of_same_path hsame fun i _ ino hino => nomatch hino
  refine ⟨_, _, hrun, rfl, ?_⟩
  exact (last_upload_wins emptyServer_idle hnames (fun i => List.cons_ne_nil _ _) hrun (by decide) _
    (Set.mem_singleton _)).trans rfl

end Bnfs.Handlers
