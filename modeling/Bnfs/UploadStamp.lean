import Bnfs.ClientCopies
import Bnfs.UploadStore

/-! The time in the reply of `PutFile`. The handler asks for it by path and after it has given the
mutex back, so the answer is the time of the version its own rename put in place as long as no other
rename onto the path came in between, and the time of somebody else's version if one did. -/

namespace Bnfs

open FileSystem

/-- Past its rename, or returned without one. -/
def PutPc.installed : PutPc → Bool
  | .renamed | .chmodded | .unlocked | .returned _ => true
  | _ => false

namespace Handlers

variable {ι : Type}

/-- The time in a reply is that of the version its handler put in place. -/
def RepliesOwn (s : Handlers ι) : Prop :=
  ∀ i reply, s.pc i = .returned (some reply) → ∃ version ∈ s.versions, version.who = i ∧
    (∀ other ∈ s.versions, other.who = i → other = version) ∧
    ∃ file, version.file = some file ∧ reply.lastModifiedTime = toUInt64 file.mtime.tv_sec

/-- A handler about to ask for the time of its path is the last that renamed onto it. -/
def NotOvertaken (calls : ι → PutCall) (s : Handlers ι) (turn : Turn ι) : Prop :=
  s.pc turn.who = .unlocked →
    (Register.last Version.path s.versions (calls turn.who).target).map Version.who = some turn.who

instance [DecidableEq ι] (calls : ι → PutCall) (s : Handlers ι) (turn : Turn ι) :
    Decidable (NotOvertaken calls s turn) := inferInstanceAs (Decidable (_ → _))

/-- What the versions and the replies have to do with the handlers. -/
structure Attributed (calls : ι → PutCall) (s : Handlers ι) : Prop where
  path : ∀ version ∈ s.versions, version.path = (calls version.who).target ∧ version.path ≠ []
  installed : ∀ version ∈ s.versions, (s.pc version.who).installed
  once : ∀ version ∈ s.versions, ∀ other ∈ s.versions, other.who = version.who → other = version
  replies : ∀ i reply, s.pc i = .returned (some reply) → ∃ version ∈ s.versions,
    version.who = i ∧ ∃ file, version.file = some file ∧
      reply.lastModifiedTime = toUInt64 file.mtime.tv_sec

variable {calls : ι → PutCall} {paths : Set Bytes} {s t : Handlers ι} {turn : Turn ι}

theorem Idle.attributed (h : s.Idle) : Attributed calls s := by
  have hnone : ∀ version, version ∉ s.versions := by
    intro version
    rw [h.versions]
    exact List.not_mem_nil
  refine ⟨fun v hv => absurd hv (hnone v), fun v hv => absurd hv (hnone v),
    fun v hv => absurd hv (hnone v), fun i reply hpc => ?_⟩
  rw [h.pc i] at hpc
  cases hpc

theorem Attributed.repliesOwn (h : Attributed calls s) : s.RepliesOwn := by
  intro i reply hpc
  obtain ⟨version, hmem, hwho, hfile⟩ := h.replies i reply hpc
  exact ⟨version, hmem, hwho, fun other hother heq =>
    h.once version hmem other hother (heq.trans hwho.symm), hfile⟩

/-- The `lstat` of a handler nobody has overtaken finds the version of its own rename. -/
theorem lstat_own {start : Handlers ι} (hs : Refines calls paths start s)
    (hattr : Attributed calls s) (hpc : s.pc turn.who = .unlocked)
    (hlast : NotOvertaken calls s turn) {reply : PutFileResp}
    (hreply : some reply = (uploadLstat turn.fails (calls turn.who).target s.files).map
      fun mtime => ⟨0, toUInt64 mtime⟩) :
    ∃ version ∈ s.versions, version.who = turn.who ∧ ∃ file, version.file = some file ∧
      reply.lastModifiedTime = toUInt64 file.mtime.tv_sec := by
  obtain ⟨version, hversion, hwho⟩ := Option.map_eq_some_iff.mp (hlast hpc)
  have hmem := Register.mem_of_last _ hversion
  obtain ⟨hpath, hne⟩ := hattr.path version hmem
  rw [hwho] at hpath
  have hreq := PutCall.requests_ne_nil_of_target (hpath ▸ hne)
  have hdated := hs.registers _ (hs.coherent.names.target turn.who hreq)
  rw [Register.replay_eq_last, hversion] at hdated
  obtain ⟨mtime, hmtime, hmk⟩ := Option.map_eq_some_iff.mp hreply.symm
  unfold uploadLstat at hmtime
  split at hmtime
  · cases hmtime
  · obtain ⟨found, hfound, hsec⟩ := Option.map_eq_some_iff.mp hmtime
    simp only [dated, hfound, Version.dated] at hdated
    obtain ⟨file, hfile, hpair⟩ := Option.map_eq_some_iff.mp hdated.symm
    refine ⟨version, hmem, hwho, file, hfile, ?_⟩
    rw [← hmk, ← hsec, (Prod.mk.inj hpair).2]

variable [DecidableEq ι]

/-- A turn that puts no version in place and answers nothing but what its own version says. -/
theorem Attributed.of_versions_eq (hs : Attributed calls s) (hversions : t.versions = s.versions)
    (hother : ∀ j, j ≠ turn.who → t.pc j = s.pc j)
    (hself : (s.pc turn.who).installed → (t.pc turn.who).installed)
    (hreply : ∀ reply, t.pc turn.who = .returned (some reply) → ∃ version ∈ s.versions,
      version.who = turn.who ∧ ∃ file, version.file = some file ∧
        reply.lastModifiedTime = toUInt64 file.mtime.tv_sec) : Attributed calls t := by
  refine ⟨hversions ▸ hs.path, fun version hmem => ?_, hversions ▸ hs.once, fun i reply hpc => ?_⟩
  · rw [hversions] at hmem
    by_cases hwho : version.who = turn.who
    · exact hwho ▸ hself (hwho ▸ hs.installed version hmem)
    · exact hother _ hwho ▸ hs.installed version hmem
  · rw [hversions]
    by_cases hi : i = turn.who
    · subst hi
      exact hreply reply hpc
    · exact hs.replies i reply (hother i hi ▸ hpc)

theorem Attributed.step {start : Handlers ι} (hs : Refines calls paths start s)
    (hattr : Attributed calls s) (hlast : NotOvertaken calls s turn) (h : Moves calls s turn t) :
    Attributed calls t := by
  have hother : ∀ j, j ≠ turn.who → t.pc j = s.pc j := fun j hj => h.pc_of_ne hj
  cases h with
  | read hpc => exact hattr.of_versions_eq rfl hother (by simp [hpc, PutPc.installed]) (by simp)
  | acquire hpc hfree =>
      exact hattr.of_versions_eq rfl hother (by simp [hpc, PutPc.installed]) (by simp)
  | openTemp out hpc hout =>
      exact hattr.of_versions_eq rfl hother (by simp [hpc, PutPc.installed]) (by simp)
  | close hpc => exact hattr.of_versions_eq rfl hother (by simp [hpc, PutPc.installed]) (by simp)
  | write out hpc hout =>
      exact hattr.of_versions_eq rfl hother (by simp [hpc, PutPc.installed]) (by simp)
  | renameFails hpc hfails =>
      exact hattr.of_versions_eq rfl hother (by simp [PutPc.installed]) (by simp)
  | chmod hpc => exact hattr.of_versions_eq rfl hother (by simp [PutPc.installed]) (by simp)
  | release hpc => exact hattr.of_versions_eq rfl hother (by simp [PutPc.installed]) (by simp)
  | lstat reply hpc hreply =>
      refine hattr.of_versions_eq rfl hother (by simp [PutPc.installed]) ?_
      intro reply' hreturned
      have heq := PutPc.returned.inj ((goto_pc_self s turn.who _).symm.trans hreturned)
      exact lstat_own hs hattr hpc hlast (heq.symm.trans hreply)
  | rename files hpc hok htemp htarget hfiles =>
      -- a handler that has not renamed before has no version yet
      have hnew : ∀ version ∈ s.versions, version.who ≠ turn.who := by
        intro version hmem hwho
        have hinstalled := hattr.installed version hmem
        rw [hwho, hpc] at hinstalled
        cases hinstalled
      refine ⟨fun version hmem => ?_, fun version hmem => ?_, fun version hmem other hmem' heq => ?_,
        fun i reply hreturned => ?_⟩
      · rcases List.mem_cons.mp hmem with rfl | hold
        · exact ⟨rfl, htarget⟩
        · exact hattr.path version hold
      · rcases List.mem_cons.mp hmem with rfl | hold
        · simp [PutPc.installed]
        · rw [hother _ (hnew version hold)]
          exact hattr.installed version hold
      · rcases List.mem_cons.mp hmem with rfl | hold <;> rcases List.mem_cons.mp hmem' with rfl | hold'
        · rfl
        · exact absurd heq (hnew other hold')
        · exact absurd heq.symm (hnew version hold)
        · exact hattr.once version hold other hold' heq
      · have hi : i ≠ turn.who := by
          rintro rfl
          simp at hreturned
        obtain ⟨version, hmem, hrest⟩ := hattr.replies i reply (hother i hi ▸ hreturned)
        exact ⟨version, List.mem_cons_of_mem _ hmem, hrest⟩

theorem Interleaving.attributed {start : Handlers ι} {trace : List (Handlers ι × Turn ι)}
    (hstart : start.Idle) (hnames : TempNames calls paths start.files)
    (hrun : Interleaving calls start trace t) (hlast : Runs.Guarded (NotOvertaken calls) trace) :
    Attributed calls t := by
  have hboth : Refines calls paths start t ∧ Attributed calls t := by
    refine Runs.Run.guarded_invariant (fun s => Refines calls paths start s ∧ Attributed calls s)
      ⟨Interleaving.refines hstart hnames .nil, hstart.attributed⟩ ?_ hrun hlast
    intro s turn t hs hguard hstep
    exact ⟨hs.1.step (step_moves hstep), hs.2.step hs.1 hguard (step_moves hstep)⟩
  exact hboth.2

/-- A client that commits with the time of a reply leaves the time of its temporary copy as it was or
sets it to the time of the version its own request put in place; the bytes stay. -/
def CommitsOwn [Sha256] (s : Handlers ι) : Prop :=
  ∀ i reply, s.pc i = .returned (some reply) → ∀ version ∈ s.versions, version.who = i →
    ∀ file, version.file = some file → ∀ (E : Env) (path : CString) (w : World) (ino : Nat),
      w.Holds (getTempPath path) ino →
      let w' := (commitToCache E path (toInt reply.lastModifiedTime) w).2
      (w'.files.inode ino).content = (w.files.inode ino).content ∧
        ((w'.files.inode ino).mtime = (w.files.inode ino).mtime ∨
          (w'.files.inode ino).mtime = ⟨toInt file.mtime.tv_sec, 0⟩)

omit [DecidableEq ι] in
theorem RepliesOwn.commitsOwn [Sha256] (h : s.RepliesOwn) : s.CommitsOwn := by
  intro i reply hpc version hmem hwho file hfile E path w ino hw w'
  obtain ⟨own, _, _, honly, file', hfile', htime⟩ := h i reply hpc
  rw [honly version hmem hwho, hfile'] at hfile
  cases Option.some.inj hfile
  have hstamp : toInt reply.lastModifiedTime = toInt file.mtime.tv_sec := by
    rw [htime, toInt_toUInt64]
  rcases commitToCache_cases E path w (toInt reply.lastModifiedTime) hw.sole with
    hsame | ⟨_, _, _, ino', hw', _, hcontent, hmtime⟩
  · rw [show w'.files = w.files from hsame.files]
    exact ⟨rfl, Or.inl rfl⟩
  · have hino : ino' = ino := Option.some.inj (hw'.names.symm.trans hw.names)
    rw [hino] at hcontent hmtime
    refine ⟨hcontent, ?_⟩
    split_ifs at hmtime
    · exact Or.inl hmtime
    · exact Or.inr (hstamp ▸ hmtime)

/-- In a run of uploads to one path in which no handler is overtaken between its rename and its
`lstat`, every reply carries the time of the version its own request put in place, and so does what a
client makes of it. -/
theorem replies_own_of_not_overtaken [Sha256] {p : Bytes} {start : Handlers ι}
    {trace : List (Handlers ι × Turn ι)} (hstart : start.Idle)
    (hsame : ∀ i, (calls i).requests ≠ [] → (calls i).target = p)
    (hsole : ∀ i, (calls i).requests ≠ [] → start.files.Sole (calls i).temp)
    (hrun : Interleaving calls start trace t) (hlast : Runs.Guarded (NotOvertaken calls) trace) :
    ∀ s, Runs.Visits trace t s → s.RepliesOwn ∧ s.CommitsOwn := by
  intro s hvisit
  refine Runs.Run.visits (fun s => s.RepliesOwn ∧ s.CommitsOwn) ?_ hrun hlast hvisit
  intro trace t hrun hguard
  have hattr := Interleaving.attributed hstart (.of_same_path hsame hsole) hrun hguard
  exact ⟨hattr.repliesOwn, hattr.repliesOwn.commitsOwn⟩

/-- An upload alone. -/
theorem replies_own_of_not_overtaken_alone :
    letI := sampleSha256
    ∃ trace t, Interleaving twoUploads emptyServer trace t ∧
      t.pc false = .returned (some ⟨0, 10⟩) ∧ t.RepliesOwn ∧ t.CommitsOwn := by
  let _ := sampleSha256
  have hrun : Interleaving twoUploads emptyServer _ _ :=
    .of_advance (List.replicate 9 (turnAt false 10)) .nil rfl
  have hsame : ∀ i, (twoUploads i).requests ≠ [] →
      (twoUploads i).target = getServerPath (ascii "/f") := by
    intro i _
    cases i <;> rfl
  refine ⟨_, _, hrun, rfl, ?_⟩
  exact replies_own_of_not_overtaken emptyServer_idle hsame (fun i _ ino hino => nomatch hino) hrun
    (by decide) _ (Or.inl rfl)

/-- The second upload renames between the rename and the `lstat` of the first; the reply to the first
carries the time of the second version. -/
theorem overtaken_reply :
    ∃ trace t, Interleaving twoUploads emptyServer trace t ∧
      t.pc false = .returned (some ⟨0, 20⟩) ∧
      t.versions.map (fun version => (version.who, version.dated)) =
        [(true, some (ascii "bb", ⟨20, 0⟩)), (false, some (ascii "aa", ⟨10, 0⟩))] ∧
      ¬ t.RepliesOwn := by
  have hrun : Interleaving twoUploads emptyServer _ _ :=
    .of_advance (List.replicate 8 (turnAt false 10) ++ List.replicate 6 (turnAt true 20) ++
      [turnAt false 30]) .nil rfl
  refine ⟨_, _, hrun, rfl, rfl, ?_⟩
  intro h
  obtain ⟨version, hmem, hwho, _, file, hfile, htime⟩ := h false ⟨0, 20⟩ rfl
  rcases List.mem_cons.mp hmem with rfl | hmem
  · cases hwho
  · cases List.mem_singleton.mp hmem
    cases hfile
    exact absurd htime (by decide)

end Handlers

end Bnfs
