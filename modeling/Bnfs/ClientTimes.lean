import Bnfs.ClientOpen
import Bnfs.UploadBroken
import Bnfs.TheoryVersions

/-! One clock for all machines. An operation runs in a period of its own, and whatever file it touches,
on the client or on the server, is stamped in that period; a file that is not is as it was before. -/

namespace Bnfs

open FileSystem Programs FileServer

/-- Every time the operation stamps is after `lo` and not after `hi`. -/
def Env.During (E : Env) (lo hi : Int) : Prop :=
  ∀ site, lo < (E.now site).tv_sec ∧ (E.now site).tv_sec ≤ hi

/-- The file, if there is one, was written in the period. -/
def WrittenIn (lo hi : Int) (file : Option (Bytes × Timespec)) : Prop :=
  ∀ content t, file = some (content, t) → lo < t.tv_sec ∧ t.tv_sec ≤ hi

/-- Every file is as it was or was written in the period. -/
def Renewed (lo hi : Int) (fs fs' : Files) : Prop :=
  ∀ name, dated fs' name = dated fs name ∨ WrittenIn lo hi (dated fs' name)

instance (lo hi : Int) : IsPreorder Files (Renewed lo hi) where
  refl _ _ := Or.inl rfl
  trans _ _ _ h h' name := by
    rcases h' name with heq | hnew
    · rw [heq]
      exact h name
    · exact Or.inr hnew

theorem writtenIn_none (lo hi : Int) : WrittenIn lo hi none := fun _ _ h => nomatch h

section Renewed

variable {lo hi : Int} {fs fs' : Files}

theorem WrittenIn.of_renewed {name : Bytes} (h : WrittenIn lo hi (dated fs name))
    (hrenewed : Renewed lo hi fs fs') : WrittenIn lo hi (dated fs' name) := by
  rcases hrenewed name with heq | hnew
  · rw [heq]
    exact h
  · exact hnew

theorem writtenIn_of_find {name : Bytes} {file : File} (h : fs.find name = some file)
    (hnow : lo < file.mtime.tv_sec ∧ file.mtime.tv_sec ≤ hi) : WrittenIn lo hi (dated fs name) := by
  intro content t heq
  rw [dated, h] at heq
  cases heq
  exact hnow

theorem setInode_renewed (fs : Files) (ino : Nat) {file : File}
    (hnow : lo < file.mtime.tv_sec ∧ file.mtime.tv_sec ≤ hi) :
    Renewed lo hi fs (fs.setInode ino file) := by
  intro name
  by_cases hname : fs.names name = some ino
  · exact Or.inr (writtenIn_of_find (Fs.find_setInode_self fs file hname) hnow)
  · exact Or.inl (dated_of_find_eq (Fs.find_setInode_of_ne fs file hname))

theorem create_renewed (fs : Files) (name : Bytes) {file : File}
    (hnow : lo < file.mtime.tv_sec ∧ file.mtime.tv_sec ≤ hi) :
    Renewed lo hi fs (fs.create name file) := by
  intro other
  by_cases hname : other = name
  · subst hname
    exact Or.inr (writtenIn_of_find (Fs.find_create_self fs other file) hnow)
  · exact Or.inl (dated_of_find_eq (Fs.find_create_of_ne fs file hname))

theorem openTrunc_renewed (fs : Files) (name : Bytes) {now : Timespec} (attr : Attr)
    (hnow : lo < now.tv_sec ∧ now.tv_sec ≤ hi) :
    Renewed lo hi fs (fs.openTrunc name now attr).1 := by
  unfold Fs.openTrunc
  split
  · exact setInode_renewed fs _ hnow
  · exact create_renewed fs name hnow

/-- A file just written keeps its time when it is moved. -/
theorem rename_renewed {old new : Bytes} (h : WrittenIn lo hi (dated fs old)) :
    Renewed lo hi fs (fs.rename old new) := by
  intro name
  by_cases hnew : name = new
  · rw [hnew, dated_of_find_eq (Fs.find_rename_new fs old new)]
    exact Or.inr h
  · by_cases hold : name = old
    · by_cases hsame : fs.names old = fs.names new
      · rw [Fs.rename, if_pos hsame]
        exact Or.inl rfl
      · right
        rw [Fs.rename, if_neg hsame, hold, dated, Fs.find_remove_self]
        exact writtenIn_none lo hi
    · exact Or.inl (dated_of_find_eq (Fs.find_rename_of_ne fs hold hnew))

end Renewed

section Server

variable {E : Env} {lo hi : Int}

theorem uploadWrite_renewed (fails : Option Int) {now : Timespec}
    (hnow : lo < now.tv_sec ∧ now.tv_sec ≤ hi) (chunk : Bytes) (files : Files) (out : Option Nat) :
    Renewed lo hi files (uploadWrite fails now chunk (files, out)).1 := by
  rcases uploadWrite_cases fails now chunk files out with heq | ⟨ino, _, heq⟩
  · rw [heq]
    exact refl_of (Renewed lo hi) files
  · rw [heq]
    exact setInode_renewed files ino hnow

theorem writeChunks_renewed (hduring : E.During lo hi) (n : Nat) (rest : List PutFileReq)
    (files : Files) (out : Option Nat) :
    Renewed lo hi files (writeChunks E n rest (files, out)).1 := by
  induction rest generalizing n files out with
  | nil => exact refl_of (Renewed lo hi) files
  | cons request rest ih =>
      exact trans_of (Renewed lo hi) (uploadWrite_renewed _ (hduring _) request.contents files out)
        (ih (n + 1) _ _)

/-- The files before the rename: the temporary file was written in the period. -/
theorem writeUpload_renewed (hduring : E.During lo hi) (hopen : E.fails .putFileOpen = none)
    (request : PutFileReq) (rest : List PutFileReq) (files : Files) :
    Renewed lo hi files (writeUpload E (request :: rest) files) ∧
      WrittenIn lo hi (dated (writeUpload E (request :: rest) files) (uploadTemp E request.path)) := by
  have htemp : tempFilePath (randomString E.rand 20) (request :: rest) = uploadTemp E request.path :=
    rfl
  have hopened : uploadOpen (E.fails .putFileOpen) (E.now .putFileOpen) (E.attr .putFileOpen)
      (uploadTemp E request.path) files =
      ((files.openTrunc (uploadTemp E request.path) (E.now .putFileOpen) (E.attr .putFileOpen)).1,
        some (files.openTrunc (uploadTemp E request.path) (E.now .putFileOpen)
          (E.attr .putFileOpen)).2) := by
    rw [uploadOpen, if_neg (by simp [hopen, uploadTemp_isEmpty])]
  rw [writeUpload, htemp, hopened]
  have hchunks := writeChunks_renewed hduring 0 rest
    (files.openTrunc (uploadTemp E request.path) (E.now .putFileOpen) (E.attr .putFileOpen)).1
    (some (files.openTrunc (uploadTemp E request.path) (E.now .putFileOpen) (E.attr .putFileOpen)).2)
  refine ⟨trans_of (Renewed lo hi) (openTrunc_renewed files _ _ (hduring _)) hchunks, ?_⟩
  refine WrittenIn.of_renewed (writtenIn_of_find
    (Fs.find_of_names (Fs.openTrunc_names_self files _ _ _)) ?_) hchunks
  rw [(Fs.openTrunc_inode_self files _ _ _).2]
  exact hduring _

/-- An upload to the end: every file of the server is as it was or new, the one at the path is new, and
the reply has its time. -/
theorem putFile_renewed (hrel : E.Reliable) (hduring : E.During lo hi) (request : PutFileReq)
    (rest : List PutFileReq) (srv : Server) :
    Renewed lo hi srv.files (putFile E (request :: rest) srv).2.files ∧
      ∀ reply, (putFile E (request :: rest) srv).1 = some reply →
        ∃ content t, dated (putFile E (request :: rest) srv).2.files (getServerPath request.path) =
          some (content, t) ∧ lo < t.tv_sec ∧ t.tv_sec ≤ hi ∧
          reply.lastModifiedTime = toUInt64 t.tv_sec := by
  obtain ⟨hwritten, htemp⟩ := writeUpload_renewed hduring (hrel.calls _) request rest srv.files
  rcases putFile_cases E request rest srv with ⟨_, hput⟩ | ⟨_, _, _, hreply, hdated⟩
  · rw [hput]
    exact ⟨hwritten, fun reply h => nomatch h⟩
  · have hrenamed : Renewed lo hi (writeUpload E (request :: rest) srv.files)
        (putFile E (request :: rest) srv).2.files := by
      intro name
      rw [hdated name]
      exact rename_renewed htemp name
    refine ⟨trans_of (Renewed lo hi) hwritten hrenamed, fun reply h => ?_⟩
    rw [hreply, hrel.calls, uploadLstat, Option.map_map, Option.map_eq_some_iff] at h
    obtain ⟨file, hfind, hfile⟩ := h
    have htarget : dated (putFile E (request :: rest) srv).2.files (getServerPath request.path) =
        some (file.content, file.mtime) := by
      rw [dated, hfind]
      rfl
    have hperiod : WrittenIn lo hi (dated (putFile E (request :: rest) srv).2.files
        (getServerPath request.path)) := by
      rw [hdated, dated_of_find_eq (Fs.find_rename_new _ _ _)]
      exact htemp
    obtain ⟨hlo, hhi⟩ := hperiod _ _ htarget
    exact ⟨file.content, file.mtime, htarget, hlo, hhi, hfile ▸ rfl⟩

end Server

/-- What an operation may do to the local files: only names of the set are touched, no name is taken
away or moved, one that was the only name of its inode still is, and what was written was written in
the period. -/
structure Evolves (allowed : Set Bytes) (lo hi : Int) (fs fs' : Files) : Prop where
  within : Fs.Within allowed fs fs'
  names : ∀ name ino, fs.names name = some ino → fs'.names name = some ino
  sole : ∀ name, fs.Sole name → fs'.Sole name
  renewed : Renewed lo hi fs fs'

instance (allowed : Set Bytes) (lo hi : Int) : IsPreorder Files (Evolves allowed lo hi) where
  refl fs := ⟨.refl allowed fs, fun _ _ h => h, fun _ h => h, refl_of (Renewed lo hi) fs⟩
  trans _ _ _ h h' :=
    ⟨h.within.trans h'.within, fun name ino hname => h'.names name ino (h.names name ino hname),
      fun name hsole => h'.sole name (h.sole name hsole),
      trans_of (Renewed lo hi) h.renewed h'.renewed⟩

section Evolves

variable {allowed : Set Bytes} {lo hi : Int} {fs : Files} {name : Bytes}

theorem setInode_evolves {ino : Nat} {file : File} (hname : fs.names name = some ino)
    (hmem : name ∈ allowed) (hnow : lo < file.mtime.tv_sec ∧ file.mtime.tv_sec ≤ hi) :
    Evolves allowed lo hi fs (fs.setInode ino file) :=
  ⟨Fs.setInode_within file hname hmem, fun _ _ h => h, fun _ hsole => hsole.of_names_eq rfl,
    setInode_renewed fs ino hnow⟩

theorem openTrunc_evolves {now : Timespec} (attr : Attr) (hmem : name ∈ allowed)
    (hnow : lo < now.tv_sec ∧ now.tv_sec ≤ hi) :
    Evolves allowed lo hi fs (fs.openTrunc name now attr).1 where
  within := Fs.openTrunc_within now attr hmem
  names other ino hother := by
    by_cases hname : other = name
    · subst hname
      rw [Fs.openTrunc_names_self]
      rcases Fs.openTrunc_ino fs other now attr with hold | ⟨hnone, _⟩
      · exact hold.symm.trans hother
      · rw [hnone] at hother
        cases hother
    · rw [Fs.openTrunc_names_of_ne fs now attr hname, hother]
  sole _ hsole := Fs.openTrunc_sole now attr hsole
  renewed := openTrunc_renewed fs name attr hnow

theorem overwrite_evolves (content : Bytes) {now : Timespec} (attr : Attr) (hmem : name ∈ allowed)
    (hnow : lo < now.tv_sec ∧ now.tv_sec ≤ hi) :
    Evolves allowed lo hi fs (fs.overwrite name content now attr) :=
  trans_of (Evolves allowed lo hi) (openTrunc_evolves attr hmem hnow)
    (setInode_evolves (Fs.openTrunc_names_self fs name now attr) hmem hnow)

end Evolves

variable [Sha256]

/-- What an operation on a path does in a period, failures aside: to the local copies of the path, to
its mark, and to the server. -/
structure World.Passes (path : CString) (lo hi : Int) (w w' : World) : Prop where
  files : Evolves (localNames path) lo hi w.files w'.files
  marks : ∀ h, h ≠ getHashedPath path → (h ∈ w'.cl.dirty_files ↔ h ∈ w.cl.dirty_files)
  srv : Renewed lo hi w.srv.files w'.srv.files

instance (path : CString) (lo hi : Int) : IsPreorder World (World.Passes path lo hi) where
  refl w := ⟨refl_of (Evolves _ lo hi) w.files, fun _ _ => Iff.rfl, refl_of (Renewed lo hi) _⟩
  trans _ _ _ h h' :=
    ⟨trans_of (Evolves _ lo hi) h.files h'.files,
      fun hash hne => (h'.marks hash hne).trans (h.marks hash hne),
      trans_of (Renewed lo hi) h.srv h'.srv⟩

section Passes

variable {E : Env} {path : CString} {lo hi : Int} {name : Bytes} {site : Site}

theorem World.Same.passes {w w' : World} (h : World.Same w w') (path : CString) (lo hi : Int) :
    World.Passes path lo hi w w' where
  files := by
    rw [h.files]
    exact refl_of (Evolves _ lo hi) w.files
  marks _ _ := by rw [h.dirty]
  srv := by
    rw [h.srv]
    exact refl_of (Renewed lo hi) w.srv.files

theorem passes_of_same {α : Type} {x : Prog α} (h : Keeps World.Same x) (path : CString)
    (lo hi : Int) : Keeps (World.Passes path lo hi) x :=
  h.mono fun _ _ hsame => hsame.passes path lo hi

/-- A change of the local files alone. -/
theorem Evolves.passes {w : World} {files : Files}
    (h : Evolves (localNames path) lo hi w.files files) :
    World.Passes path lo hi w (w.setFiles files) :=
  ⟨h, fun _ _ => Iff.rfl, refl_of (Renewed lo hi) _⟩

theorem passes_attempt {call : Prog Int} (h : Keeps (World.Passes path lo hi) call) :
    Keeps (World.Passes path lo hi) (attempt E site call) :=
  attempt_keeps (fun e => passes_of_same (same_failWith e) path lo hi) h

theorem passes_posixOpen (hduring : E.During lo hi) (hmem : name ∈ localNames path)
    (flags : OpenFlags) : Keeps (World.Passes path lo hi) (posixOpen E site name flags) := by
  intro w
  rcases posixOpen_opens E site w name flags with ⟨files, ino, hfiles, _, heq⟩ | ⟨e, _, heq⟩
  · rw [heq]
    rcases hfiles with rfl | rfl
    · exact (same_newFd ino flags w).passes path lo hi
    · exact trans_of (World.Passes path lo hi) (openTrunc_evolves (E.attr site) hmem (hduring site)).passes
        ((same_newFd ino flags _).passes path lo hi)
  · rw [heq]
    exact (same_failWith e w).passes path lo hi

theorem passes_ofstreamSave {openSite writeSite : Site} {data : Bytes} (hduring : E.During lo hi)
    (hmem : name ∈ localNames path) :
    Keeps (World.Passes path lo hi) (ofstreamSave E openSite writeSite name data) := fun w => by
  unfold ofstreamSave
  split
  · rename_i e _
    exact (same_failWith e w).passes path lo hi
  · refine (overwrite_evolves _ _ hmem ?_).passes
    split_ifs
    all_goals exact hduring _

theorem passes_systemCp {source : Bytes} (hduring : E.During lo hi) (hmem : name ∈ localNames path) :
    Keeps (World.Passes path lo hi) (systemCp E site source name) := fun w => by
  rcases systemCp_cases E site source name w with ⟨_, _, heq⟩ | ⟨_, _, _, _, _, _, heq⟩
  · rw [heq]
    exact refl_of (World.Passes path lo hi) w
  · rw [heq]
    exact (overwrite_evolves _ _ hmem (hduring site)).passes

theorem passes_posixUtime {t : Int} (ht : lo < t ∧ t ≤ hi) (hmem : name ∈ localNames path) :
    Keeps (World.Passes path lo hi) (posixUtime E site name t) := by
  refine passes_attempt fun w => ?_
  cases hname : w.files.names name with
  | none => exact (same_failWith ENOENT w).passes path lo hi
  | some ino => exact (setInode_evolves hname hmem ht).passes

theorem passes_markFileDirty (path : CString) (lo hi : Int) :
    Keeps (World.Passes path lo hi) (markFileDirty path) := fun w =>
  ⟨refl_of (Evolves _ lo hi) w.files, fun _ hne => by simp [markFileDirty, hne],
    refl_of (Renewed lo hi) _⟩

theorem passes_eraseDirty (path : CString) (lo hi : Int) :
    Keeps (World.Passes path lo hi) (eraseDirty path) := fun w =>
  ⟨refl_of (Evolves _ lo hi) w.files, fun _ hne => by simp [eraseDirty, hne],
    refl_of (Renewed lo hi) _⟩

/-- A stream of `Open` may create the file on the server. -/
theorem passes_openStream (hduring : E.During lo hi) (path : CString) (request : OpenReq) :
    Keeps (World.Passes path lo hi) (AFSClient.openStream E request) := fun w => by
  have hsrv : Renewed lo hi w.srv.files (FileServer.Open E request w.srv).2.files := by
    unfold FileServer.Open
    dsimp only
    split
    · split_ifs
      · unfold FileServer.openCreate
        dsimp only
        split
        · exact refl_of (Renewed lo hi) _
        · split_ifs
          · exact create_renewed _ _ (hduring _)
          · exact refl_of (Renewed lo hi) _
        · split_ifs
          · exact refl_of (Renewed lo hi) _
          · exact setInode_renewed _ _ (hduring _)
          · exact refl_of (Renewed lo hi) _
      · exact refl_of (Renewed lo hi) _
    · exact refl_of (Renewed lo hi) _
  unfold AFSClient.openStream
  split
  · exact ⟨refl_of (Evolves _ lo hi) w.files, fun _ _ => Iff.rfl, hsrv⟩
  · exact refl_of (World.Passes path lo hi) w

end Passes

end Bnfs
