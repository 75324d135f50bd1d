import Bnfs.ClientOperations

/-! What concerns one path only, whatever fails: the files under the names of its two copies and its own
mark. No two names come to share a file, so a path with another name keeps its temporary copy. -/

namespace Bnfs

open FileSystem Programs

variable [Sha256]

/-- Only the copies and the mark of the path are concerned. -/
structure World.Concerns (path : CString) (w w' : World) : Prop where
  files : Fs.Within (localNames path) w.files w'.files
  sole : ∀ name, w.files.Sole name → w'.files.Sole name
  marks : ∀ h, h ≠ getHashedPath path → (h ∈ w'.cl.dirty_files ↔ h ∈ w.cl.dirty_files)

instance (path : CString) : IsPreorder World (World.Concerns path) where
  refl w := ⟨.refl _ w.files, fun _ h => h, fun _ _ => Iff.rfl⟩
  trans _ _ _ h h' :=
    ⟨h.files.trans h'.files, fun name hsole => h'.sole name (h.sole name hsole),
      fun hash hne => (h'.marks hash hne).trans (h.marks hash hne)⟩

section Calls

variable {E : Env} {path : CString} {name : Bytes} {site : Site}

theorem World.Same.concerns {w w' : World} (h : World.Same w w') (path : CString) :
    World.Concerns path w w' := by
  refine ⟨?_, fun name hsole => ?_, fun hash _ => ?_⟩
  · rw [h.files]
    exact .refl _ w.files
  · rw [h.files]
    exact hsole
  · rw [h.dirty]

theorem concerns_of_same {α : Type} {x : Prog α} (h : Keeps World.Same x) (path : CString) :
    Keeps (World.Concerns path) x :=
  h.mono fun _ _ hsame => hsame.concerns path

/-- A path of another name has the temporary copy it had. -/
theorem World.Concerns.tempAt_of_ne {w w' : World} (h : World.Concerns path w w') {q : CString}
    (hne : getTempPath q ≠ getTempPath path) (hsole : w.files.Sole (getTempPath q)) :
    tempAt w'.files q = tempAt w.files q := by
  rw [tempAt, h.files.find_eq (getTempPath_not_mem_localNames hne) hsole]
  rfl

theorem World.Frame.concerns {w w' : World} (h : World.Frame (localNames path) w w')
    (hsole : ∀ name, w.files.Sole name → w'.files.Sole name) : World.Concerns path w w' :=
  ⟨h.files, hsole, fun _ _ => by rw [h.dirty]⟩

theorem concerns_posixOpen (hname : name ∈ localNames path) (flags : OpenFlags) :
    Keeps (World.Concerns path) (posixOpen E site name flags) := fun w => by
  refine World.Frame.concerns (keeps_posixOpen hname w) fun other hsole => ?_
  rcases posixOpen_opens E site w name flags with ⟨files, ino, hfiles, _, heq⟩ | ⟨e, _, heq⟩
  · rw [heq]
    rcases hfiles with rfl | rfl
    · exact hsole
    · exact Fs.openTrunc_sole (E.now site) (E.attr site) hsole
  · rw [heq]
    exact hsole

theorem concerns_posixRemove (hname : name ∈ localNames path) :
    Keeps (World.Concerns path) (posixRemove E site name) := fun w => by
  refine World.Frame.concerns (keeps_posixRemove hname w) fun other hsole => ?_
  rcases posixRemove_run E site w name with ⟨_, _, heq⟩ | ⟨_, _, _, heq⟩
  · rw [heq]
    exact Fs.remove_sole name hsole
  · rw [heq]
    exact hsole

theorem concerns_onFile (change : File → File) (hname : name ∈ localNames path) :
    Keeps (World.Concerns path) (onFile E site name change) := fun w => by
  refine World.Frame.concerns (keeps_onFile hname w) fun other hsole => ?_
  rcases onFile_run E site w name change with ⟨_, _, heq⟩ | ⟨_, _, _, heq⟩
  · rw [heq]
    exact hsole.of_names_eq rfl
  · rw [heq]
    exact hsole

theorem concerns_ofstreamSave (openSite writeSite : Site) (data : Bytes)
    (hname : name ∈ localNames path) :
    Keeps (World.Concerns path) (ofstreamSave E openSite writeSite name data) := fun w => by
  refine World.Frame.concerns (keeps_ofstreamSave hname w) fun other hsole => ?_
  unfold ofstreamSave
  split
  · exact hsole
  · exact Fs.overwrite_sole _ _ _ hsole

theorem concerns_systemCp (source : Bytes) (hname : name ∈ localNames path) :
    Keeps (World.Concerns path) (systemCp E site source name) := fun w => by
  refine World.Frame.concerns (keeps_systemCp hname w) fun other hsole => ?_
  rcases systemCp_cases E site source name w with ⟨_, _, heq⟩ | ⟨_, _, _, _, _, _, heq⟩
  · rw [heq]
    exact hsole
  · rw [heq]
    exact Fs.overwrite_sole _ _ _ hsole

theorem concerns_markFileDirty (path : CString) :
    Keeps (World.Concerns path) (markFileDirty path) := fun w =>
  ⟨.refl _ w.files, fun _ h => h, fun _ hne => by simp [markFileDirty, hne]⟩

theorem concerns_eraseDirty (path : CString) : Keeps (World.Concerns path) (eraseDirty path) :=
  fun w => ⟨.refl _ w.files, fun _ h => h, fun _ hne => by simp [eraseDirty, hne]⟩

/-- What only the server notices. -/
theorem concerns_of_cl {w w' : World} (h : w'.cl = w.cl) : World.Concerns path w w' := by
  refine ⟨?_, fun name hsole => ?_, fun hash _ => by rw [h]⟩
  · rw [World.files, World.files, h]
    exact .refl _ w.cl.files
  · rw [World.files, h]
    exact hsole

theorem concerns_deleteFromTemp (E : Env) (path : CString) :
    Keeps (World.Concerns path) (deleteFromTemp E path) :=
  (concerns_posixRemove (getTempPath_mem_localNames path)).bind fun _ => concerns_eraseDirty path

theorem concerns_commitToCache (E : Env) (path : CString) (t : Int) :
    Keeps (World.Concerns path) (commitToCache E path t) := by
  have htemp := getTempPath_mem_localNames path
  have hcache := getCachePath_mem_localNames path
  exact commitToCache_keeps (concerns_posixOpen htemp _) (concerns_of_same same_getErrno path)
    (fun fd => concerns_of_same (same_posixClose fd) path) (concerns_systemCp _ hcache) (concerns_onFile _ htemp)
    (concerns_onFile _ hcache) (concerns_eraseDirty path)

theorem concerns_putFileStream (path : CString) (requests : List PutFileReq) :
    Keeps (World.Concerns path) (AFSClient.putFileStream E requests) :=
  fun w => concerns_of_cl (putFileStream_cl E requests w)

theorem concerns_openStream (path : CString) (request : OpenReq) :
    Keeps (World.Concerns path) (AFSClient.openStream E request) :=
  fun w => concerns_of_cl (openStream_cl request w)

theorem concerns_flush (E : Env) (path : CString) :
    Keeps (World.Concerns path) (AFSClient.flush E path) :=
  flush_keeps (concerns_of_same (ifstreamRead_same E _ _) path) (concerns_putFileStream path)
    (concerns_deleteFromTemp E path) (concerns_commitToCache E path)

theorem concerns_creation (E : Env) (path : CString) (fi : FuseFileInfo) :
    Keeps (World.Concerns path) (AFSClient.prepareTemp E path fi 3) := by
  have hserver : Keeps (World.Concerns path) (AFSClient.createOnServer E path fi) :=
    createOnServer_keeps (concerns_openStream path _)
  rw [prepareTemp_create]
  exact (concerns_posixOpen (getTempPath_mem_localNames path) _).bind
    (afterCreat_keeps fi (fun fd => concerns_of_same (same_posixClose fd) path)
      (concerns_posixOpen (getCachePath_mem_localNames path) _) (concerns_markFileDirty path) hserver)

theorem concerns_fetch (E : Env) (path : CString) (fi : FuseFileInfo) :
    Keeps (World.Concerns path) (AFSClient.fetchAndSyncServerFile E path fi) :=
  fetchAndSyncServerFile_keeps (concerns_openStream path _)
    (fun data => concerns_ofstreamSave _ _ data (getCachePath_mem_localNames path))
    (fun data => concerns_ofstreamSave _ _ data (getTempPath_mem_localNames path))

theorem concerns_prepared (E : Env) (path : CString) (fi : FuseFileInfo) (is_create : Bool) (w : World) :
    World.Concerns path w (prepared E path fi is_create w) :=
  prepared_keeps fi ((getOpenFlags_same E path fi.flags is_create w).concerns path) (concerns_creation E path fi)
    (concerns_fetch E path fi)

theorem concerns_Open (E : Env) (path : CString) (fi : FuseFileInfo) (is_create : Bool) :
    Keeps (World.Concerns path) (AFSClient.Open E path fi is_create) := fun w => by
  rw [Open_eq]
  refine trans_of (World.Concerns path) (concerns_prepared E path fi is_create w) (Keeps.bind
    (concerns_posixOpen (getTempPath_mem_localNames path) _) (fun temp_fd =>
      .ite (fun _ => .pure _) fun _ => ?_) _)
  exact (concerns_deleteFromTemp E path).bind fun _ =>
    (concerns_of_same same_getErrno path).bind fun _ => .pure _

end Calls

end Bnfs
