import Bnfs.ClientFetchRace
import Bnfs.ClientReturns
import Bnfs.ClientMetadata
import Bnfs.ClientDirtyRuns
import Bnfs.TheoryTwins

/-! One operation of two clients that work on the same server and differ in their local copies. Nothing fails.
The second may lack temporary copies the first has, and have other persistent ones; where both have a temporary
copy, or a file that is open, it has the same bytes. -/

namespace Bnfs

open FileSystem Programs

variable [Sha256]

/-- The names of the temporary copies. -/
def tempNames : Set Bytes := Set.range getTempPath

theorem getTempPath_mem_tempNames (path : CString) : getTempPath path ∈ tempNames := ⟨path, rfl⟩

theorem getCachePath_notMem_tempNames (path : CString) : getCachePath path ∉ tempNames := by
  rintro ⟨other, heq⟩
  exact getTempPath_ne_getCachePath other path heq

/-- The same server and dirty paths, and twin copies. -/
structure World.Twins (link : Nat → Nat → Prop) (w w' : World) : Prop where
  srv : w'.srv = w.srv
  dirty : w'.cl.dirty_files = w.cl.dirty_files
  files : Fs.Twins tempNames link w.files w'.files

/-- The two handles are open on linked files, with the same flags. -/
def World.SameHandle (link : Nat → Nat → Prop) (w w' : World) (fi fi' : FuseFileInfo) : Prop :=
  ∃ d d', w.cl.fds.get fi.fh = some d ∧ w'.cl.fds.get fi'.fh = some d' ∧ d'.flags = d.flags ∧
    link d.ino d'.ino

/-- Where an operation of both leads: they are twins again, and what was linked and open still is. -/
structure World.Keep (link link' : Nat → Nat → Prop) (w w' w₁ w₁' : World) : Prop where
  twins : World.Twins link' w₁ w₁'
  grows : ∀ i j, link i j → link' i j
  kept : World.FdsKept w w₁
  kept_right : World.FdsKept w' w₁'

section Twins

variable {link link' : Nat → Nat → Prop} {w w' w₁ w₁' : World}

/-- What has to be shown of an operation. -/
theorem World.Keep.of_parts (hgrows : ∀ i j, link i j → link' i j)
    (hsrv : w₁'.srv = w₁.srv) (hdirty : w₁'.cl.dirty_files = w₁.cl.dirty_files)
    (hfiles : Fs.Twins tempNames link' w₁.files w₁'.files) (hkept : World.FdsKept w w₁)
    (hkept' : World.FdsKept w' w₁') : World.Keep link link' w w' w₁ w₁' :=
  ⟨⟨hsrv, hdirty, hfiles⟩, hgrows, hkept, hkept'⟩

/-- Nothing of what counts has changed in either. -/
theorem World.Twins.keep_same (h : World.Twins link w w') (hsame : World.Same w w₁)
    (hsame' : World.Same w' w₁') (hkept : World.FdsKept w w₁) (hkept' : World.FdsKept w' w₁') :
    World.Keep link link w w' w₁ w₁' := by
  refine .of_parts (fun _ _ hlink => hlink) ?_ ?_ ?_ hkept hkept'
  · rw [hsame'.srv, hsame.srv, h.srv]
  · rw [hsame'.dirty, hsame.dirty, h.dirty]
  · rw [hsame'.files, hsame.files]
    exact h.files

theorem World.Keep.handle (h : World.Keep link link' w w' w₁ w₁') {fi fi' : FuseFileInfo}
    (hfi : World.SameHandle link w w' fi fi') : World.SameHandle link' w₁ w₁' fi fi' := by
  obtain ⟨d, d', hget, hget', hflags, hlink⟩ := hfi
  exact ⟨d, d', h.kept _ d hget, h.kept_right _ d' hget', hflags, h.grows _ _ hlink⟩

theorem World.Keep.trans {link'' : Nat → Nat → Prop} {w₂ w₂' : World}
    (h : World.Keep link link' w w' w₁ w₁') (h' : World.Keep link' link'' w₁ w₁' w₂ w₂') :
    World.Keep link link'' w w' w₂ w₂' where
  twins := h'.twins
  grows i j hlink := h'.grows i j (h.grows i j hlink)
  kept := trans_of World.FdsKept h.kept h'.kept
  kept_right := trans_of World.FdsKept h.kept_right h'.kept_right

/-- A temporary copy that both have has the same bytes in both. -/
theorem World.Twins.tempAt_eq (h : World.Twins link w w') {path : CString} {bytes : Bytes}
    (htemp : tempAt w'.files path = some bytes) : tempAt w.files path = some bytes := by
  obtain ⟨j, hj⟩ := tempAt_ne_none htemp
  obtain ⟨i, hi, hlink⟩ := h.files.forward _ (getTempPath_mem_tempNames path) j hj
  rw [tempAt, Fs.find_of_names hj] at htemp
  rw [tempAt, Fs.find_of_names hi, ← htemp]
  exact congrArg some (h.files.content i j hlink)

/-- The second has a temporary copy only where the first has one. -/
theorem World.Twins.names_ne_none (h : World.Twins link w w') {path : CString}
    (hne : w'.files.names (getTempPath path) ≠ none) : w.files.names (getTempPath path) ≠ none :=
  h.files.names_ne_none (getTempPath_mem_tempNames path) hne

end Twins

section Open

variable {E : Env} {path : CString} {fi : FuseFileInfo} {is_create : Bool} {w : World}

/-- Verdict 3: both copies are made anew, the path is marked, and the server is told. -/
theorem prepared_of_create (hrel : E.Reliable) (hcreate : CreatesLocally E path fi.flags is_create w) :
    (prepared E path fi is_create w).files =
        ((w.files.openTrunc (getTempPath path) (E.now .clientOpenCreatTemp)
          (E.attr .clientOpenCreatTemp)).1.openTrunc (getCachePath path) (E.now .clientOpenCreatCache)
            (E.attr .clientOpenCreatCache)).1 ∧
      (prepared E path fi is_create w).cl.dirty_files = insert (getHashedPath path) w.cl.dirty_files ∧
      (prepared E path fi is_create w).srv =
        (AFSClient.openStream E ⟨path.bytes, fi.flags, true⟩ w).2.srv := by
  have htemp := posixCreat_files (hrel.calls .clientOpenCreatTemp) (getTempPath path) w
  unfold prepared
  rw [getOpenFlags_of_create E path fi.flags is_create hcreate, prepareTemp_create, bind_run]
  revert htemp
  generalize posixCreat E .clientOpenCreatTemp (getTempPath path) w = created
  rintro ⟨hfiles, hdirty, hsrv⟩
  have hclosed := same_posixClose created.1 created.2
  have hcache := posixCreat_files (hrel.calls .clientOpenCreatCache) (getCachePath path)
    (posixClose created.1 created.2).2
  unfold afterCreat
  simp only [bind_run, pure_run, createOnServer_world]
  revert hcache
  generalize posixCreat E .clientOpenCreatCache (getCachePath path) (posixClose created.1 created.2).2 =
    cached
  rintro ⟨hfiles', hdirty', hsrv'⟩
  have hclosed' := same_posixClose cached.1 cached.2
  have hcl := @openStream_cl E ⟨path.bytes, fi.flags, true⟩
    (markFileDirty path (posixClose cached.1 cached.2).2).2
  refine ⟨?_, ?_, ?_⟩
  · rw [World.files, hcl]
    show (posixClose cached.1 cached.2).2.files = _
    rw [hclosed'.files, hfiles', hclosed.files, hfiles]
  · rw [hcl]
    show insert _ (posixClose cached.1 cached.2).2.cl.dirty_files = _
    rw [hclosed'.dirty, hdirty', hclosed.dirty, hdirty]
  · have hmarked : (markFileDirty path (posixClose cached.1 cached.2).2).2.srv = w.srv := by
      show (posixClose cached.1 cached.2).2.srv = _
      rw [hclosed'.srv, hsrv', hclosed.srv, hsrv]
    unfold AFSClient.openStream
    rw [hmarked]
    split_ifs
    · rfl
    · exact hmarked

/-- The bytes in the temporary copy once it is there to be opened. -/
noncomputable def preparedBytes (E : Env) (path : CString) (flags : OpenFlags) (is_create : Bool)
    (w : World) : Bytes :=
  open Classical in
  if CreatesLocally E path flags is_create w then []
  else if TempUsed E path w then (tempAt w.files path).getD []
  else cStr ((contentAt w.srv path.bytes).getD [])

/-- The server after an open. -/
def openedServer (E : Env) (path : CString) (flags : OpenFlags) (is_create : Bool) (w : World) : Server :=
  if CreatesLocally E path flags is_create w then
    (AFSClient.openStream E ⟨path.bytes, flags, true⟩ w).2.srv
  else w.srv

/-- The dirty paths after an open. -/
def openedDirty (E : Env) (path : CString) (flags : OpenFlags) (is_create : Bool) (w : World) :
    Finset Bytes :=
  if CreatesLocally E path flags is_create w then insert (getHashedPath path) w.cl.dirty_files
  else w.cl.dirty_files

/-- The local files once the fetched bytes are saved. -/
theorem saveFetched_files (path : CString) (hrel : E.Reliable) (data : Bytes) (w : World) :
    ∃ now now', (saveFetched E path data w).2.files =
      (w.files.overwrite (getCachePath path) data now (E.attr .writeFileToCacheOpen)).overwrite
        (getTempPath path) data now' (E.attr .writeFileToTempOpen) := by
  unfold saveFetched writeFileToCache writeFileToTemp ofstreamSave
  simp only [bind_run, hrel.calls, Option.isSome_none, Bool.false_eq_true, if_false]
  exact ⟨_, _, rfl⟩

/-- Up to the last open of `Open`: of the temporary copies only that of the path is concerned. -/
theorem prepared_sets (hrel : E.Reliable) (hsole : w.files.Sole (getTempPath path)) :
    (∃ i, Fs.Sets tempNames (getTempPath path) i w.files (prepared E path fi is_create w).files ∧
      ((prepared E path fi is_create w).files.inode i).content =
        preparedBytes E path fi.flags is_create w) ∧
      (prepared E path fi is_create w).srv = openedServer E path fi.flags is_create w ∧
      (prepared E path fi is_create w).cl.dirty_files = openedDirty E path fi.flags is_create w := by
  have htemp := getTempPath_mem_tempNames path
  have hcache := getCachePath_notMem_tempNames path
  unfold preparedBytes openedServer openedDirty
  rcases getOpenFlags_result E path fi.flags is_create w with
    ⟨_, hcreate⟩ | ⟨heq, hnot, hused⟩ | ⟨heq, hnot, hunused⟩
  · obtain ⟨hfiles, hdirty, hsrv⟩ := prepared_of_create hrel hcreate
    simp only [if_pos hcreate]
    refine ⟨⟨(w.files.openTrunc (getTempPath path) (E.now .clientOpenCreatTemp)
      (E.attr .clientOpenCreatTemp)).2, ?_⟩, hsrv, hdirty⟩
    have hsets : Fs.Sets tempNames (getTempPath path) _ w.files _ :=
      Fs.sets_openTrunc (E.now .clientOpenCreatTemp) (E.attr .clientOpenCreatTemp) htemp
    rw [hfiles]
    refine ⟨hsets.aside htemp (Fs.aside_openTrunc _ _ hcache), ?_⟩
    rw [hsets.inode_aside htemp hsole (Fs.aside_openTrunc _ _ hcache)]
    exact (Fs.openTrunc_inode_self w.files _ _ _).1
  · have hsame := prepared_used fi heq
    simp only [if_neg hnot, if_pos hused]
    obtain ⟨_, file, hfind, _⟩ := hused
    obtain ⟨i, hname, hi⟩ := Fs.find_eq_some_iff.mp hfind
    refine ⟨⟨i, ?_⟩, hsame.srv, hsame.dirty⟩
    rw [hsame.files]
    refine ⟨.refl tempNames hname, ?_⟩
    rw [tempAt, hfind, hi]
    rfl
  · obtain ⟨hsrv, hdirty, _⟩ := prepared_fetched fi hrel heq
    obtain ⟨checked, hsame, hprepared⟩ := prepared_saves fi heq
    rw [received_of_reliable hrel] at hprepared
    simp only [if_neg hnot, if_neg hunused]
    refine ⟨?_, hsrv, hdirty⟩
    obtain ⟨now, now', hfiles⟩ := saveFetched_files path hrel
      (cStr ((contentAt w.srv path.bytes).getD [])) checked
    rw [hprepared, hfiles, hsame.files]
    refine ⟨_, (Fs.aside_overwrite _ _ _ hcache).sets htemp (Fs.sets_overwrite _ _ _ htemp), ?_⟩
    rw [Fs.overwrite, Fs.put_self]

/-- An open without a failure: the descriptor is on the temporary copy of the path, and of the temporary copies
only that one is concerned. -/
structure Reached (E : Env) (path : CString) (fi : FuseFileInfo) (is_create : Bool) (w w' : World) (fd : Int)
    (i : Nat) : Prop where
  sets : Fs.Sets tempNames (getTempPath path) i w.files w'.files
  content : (w'.files.inode i).content =
    if fi.flags.has O_TRUNC then [] else preparedBytes E path fi.flags is_create w
  opened : w'.cl.fds.get fd = some ⟨i, AFSClient.localFlags fi.flags⟩
  nonneg : 0 ≤ fd
  kept : World.FdsKept w w'
  srv : w'.srv = openedServer E path fi.flags is_create w
  dirty : w'.cl.dirty_files = openedDirty E path fi.flags is_create w

theorem Open_reached (hrel : E.Reliable) (hsole : w.files.Sole (getTempPath path)) :
    ∃ i, Reached E path fi is_create w (AFSClient.Open E path fi is_create w).2
      (AFSClient.Open E path fi is_create w).1 i := by
  obtain ⟨⟨i, hsets, hcontent⟩, hsrv, hdirty⟩ := @prepared_sets _ E path fi is_create w hrel hsole
  have hkept := @fdsKept_prepared E path _ fi is_create w
  have hname := hsets.self
  rw [Open_eq, openTemp_eq fi (hrel.calls _) hname]
  revert hsets hcontent hsrv hdirty hkept hname
  generalize prepared E path fi is_create w = w₁
  intro hsets hcontent hsrv hdirty hkept hname
  have hgiven : World.FdsKept w₁ (newFd i (AFSClient.localFlags fi.flags) w₁).2 :=
    fun _ _ hget => Descriptors.get_insert_of_some hget
  refine ⟨i, ?_⟩
  split_ifs with htrunc
  · refine ⟨hsets.trans (Fs.sets_setInode tempNames _ hname), ?_, Descriptors.get_insert_self _ _,
      Int.natCast_nonneg _, trans_of World.FdsKept hkept hgiven, hsrv, hdirty⟩
    rw [if_pos htrunc]
    exact congrArg (·.content) (Fs.put_self w₁.files i [] (E.now .clientOpenOpen))
  · refine ⟨hsets, ?_, Descriptors.get_insert_self _ _, Int.natCast_nonneg _,
      trans_of World.FdsKept hkept hgiven, hsrv, hdirty⟩
    rw [if_neg htrunc]
    exact hcontent

/-- If the temporary copy is used, it has what a fetch would bring. -/
def UsesServed (E : Env) (path : CString) (w : World) : Prop :=
  TempUsed E path w → tempAt w.files path = some (cStr ((contentAt w.srv path.bytes).getD []))

/-- The file is made anew or truncated, or both use their copy or both fetch, or what is used is what is
fetched. -/
def OpensAlike (E : Env) (path : CString) (flags : OpenFlags) (is_create : Bool) (w w' : World) : Prop :=
  CreatesLocally E path flags is_create w ∨ flags.has O_TRUNC = true ∨
    (TempUsed E path w ↔ TempUsed E path w') ∨ (UsesServed E path w ∧ UsesServed E path w')

omit [Sha256] in
theorem getAttr_of_srv {w w' : World} (h : w'.srv = w.srv) (stbuf : Stat) :
    (AFSClient.getAttr E path stbuf w').1 = (AFSClient.getAttr E path stbuf w).1 := by
  rw [getAttr_reply, getAttr_reply, h]

omit [Sha256] in
theorem createsLocally_of_srv {flags : OpenFlags} {w w' : World} (h : w'.srv = w.srv) :
    CreatesLocally E path flags is_create w' ↔ CreatesLocally E path flags is_create w := by
  rw [CreatesLocally, CreatesLocally, getAttr_of_srv h]

omit [Sha256] in
theorem openedServer_of_srv {flags : OpenFlags} {w w' : World} (h : w'.srv = w.srv) :
    openedServer E path flags is_create w' = openedServer E path flags is_create w := by
  unfold openedServer AFSClient.openStream
  simp only [createsLocally_of_srv h, h]
  split_ifs <;> simp only [h]

end Open

section Pair

variable {E : Env} {link : Nat → Nat → Prop} {w w' : World}

/-- The bytes that are opened. -/
theorem World.Twins.preparedBytes_eq (h : World.Twins link w w') {path : CString} {flags : OpenFlags}
    {is_create : Bool} (htrunc : flags.has O_TRUNC = false)
    (halike : OpensAlike E path flags is_create w w') :
    preparedBytes E path flags is_create w' = preparedBytes E path flags is_create w := by
  have hfetched : (contentAt w'.srv path.bytes) = contentAt w.srv path.bytes := by rw [h.srv]
  have hused : TempUsed E path w' → tempAt w'.files path = tempAt w.files path := by
    rintro ⟨_, file, hfind, _⟩
    have htemp : tempAt w'.files path = some file.content := by rw [tempAt, hfind]; rfl
    rw [htemp, h.tempAt_eq htemp]
  unfold preparedBytes
  simp only [createsLocally_of_srv h.srv, hfetched]
  by_cases hcreate : CreatesLocally E path flags is_create w
  · rw [if_pos hcreate, if_pos hcreate]
  · rw [if_neg hcreate, if_neg hcreate]
    by_cases hw : TempUsed E path w <;> by_cases hw' : TempUsed E path w'
    · rw [if_pos hw, if_pos hw', hused hw']
    · rw [if_pos hw, if_neg hw']
      rcases halike with hmade | hcut | hiff | ⟨hserved, _⟩
      · exact absurd hmade hcreate
      · rw [htrunc] at hcut
        cases hcut
      · exact absurd (hiff.mp hw) hw'
      · rw [hserved hw, Option.getD_some]
    · rw [if_neg hw, if_pos hw']
      rcases halike with hmade | hcut | hiff | ⟨_, hserved⟩
      · exact absurd hmade hcreate
      · rw [htrunc] at hcut
        cases hcut
      · exact absurd (hiff.mpr hw') hw
      · rw [hserved hw', Option.getD_some, hfetched]
    · rw [if_neg hw, if_neg hw']

/-- An open of both. -/
theorem World.Twins.openHandle (h : World.Twins link w w') (hrel : E.Reliable) {path : CString}
    {fi : FuseFileInfo} {is_create : Bool} (halike : OpensAlike E path fi.flags is_create w w') :
    (Bnfs.openHandle E path fi is_create w).1.1 = 0 ∧ (Bnfs.openHandle E path fi is_create w').1.1 = 0 ∧
      ∃ link', World.Keep link link' w w' (Bnfs.openHandle E path fi is_create w).2
          (Bnfs.openHandle E path fi is_create w').2 ∧
        World.SameHandle link' (Bnfs.openHandle E path fi is_create w).2
          (Bnfs.openHandle E path fi is_create w').2 (Bnfs.openHandle E path fi is_create w).1.2
          (Bnfs.openHandle E path fi is_create w').1.2 := by
  have hname := getTempPath_mem_tempNames path
  obtain ⟨i, hi⟩ := @Open_reached _ E path fi is_create w hrel (h.files.sole _ hname)
  obtain ⟨j, hj⟩ := @Open_reached _ E path fi is_create w' hrel (h.files.sole_right _ hname)
  rw [openHandle_of_nonneg hrel.plain hi.nonneg, openHandle_of_nonneg hrel.plain hj.nonneg]
  have hcontent : ((AFSClient.Open E path fi is_create w).2.files.inode i).content =
      ((AFSClient.Open E path fi is_create w').2.files.inode j).content := by
    rw [hi.content, hj.content]
    split_ifs with htrunc
    · rfl
    · exact (h.preparedBytes_eq (Bool.eq_false_iff.mpr htrunc) halike).symm
  refine ⟨rfl, rfl, fun a b => link a b ∨ (a = i ∧ b = j), .of_parts (fun _ _ => Or.inl) ?_ ?_
    (h.files.sets hname hi.sets hj.sets hcontent) hi.kept hj.kept, ?_⟩
  · rw [hi.srv, hj.srv, openedServer_of_srv h.srv]
  · rw [hi.dirty, hj.dirty, openedDirty, openedDirty, h.dirty]
    simp only [createsLocally_of_srv h.srv]
  · refine ⟨⟨i, AFSClient.localFlags fi.flags⟩, ⟨j, AFSClient.localFlags fi.flags⟩, ?_, ?_, rfl,
      Or.inr ⟨rfl, rfl⟩⟩
    · show (AFSClient.Open E path fi is_create w).2.cl.fds.get
        (((AFSClient.Open E path fi is_create w).1.toNat : Nat) : Int) = _
      rw [Int.toNat_of_nonneg hi.nonneg]
      exact hi.opened
    · show (AFSClient.Open E path fi is_create w').2.cl.fds.get
        (((AFSClient.Open E path fi is_create w').1.toNat : Nat) : Int) = _
      rw [Int.toNat_of_nonneg hj.nonneg]
      exact hj.opened

end Pair

end Bnfs
