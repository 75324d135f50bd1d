import Bnfs.ClientPlain
import Bnfs.TheoryPrograms

/-! What the calls of a client leave alone: the files under other names, the dirty paths, the server,
and the descriptors that were open before. -/

namespace Bnfs

open FileSystem Programs

/-- Neither the local files, nor the dirty paths, nor the server have changed. -/
structure World.Same (w w' : World) : Prop where
  files : w'.files = w.files
  dirty : w'.cl.dirty_files = w.cl.dirty_files
  srv : w'.srv = w.srv

instance : IsPreorder World World.Same where
  refl _ := ⟨rfl, rfl, rfl⟩
  trans _ _ _ h h' := ⟨h'.files.trans h.files, h'.dirty.trans h.dirty, h'.srv.trans h.srv⟩

/-- Of the local files only those under the allowed names have changed, and neither the dirty paths
nor the server have. -/
structure World.Frame (allowed : Set Bytes) (w w' : World) : Prop where
  files : Fs.Within allowed w.files w'.files
  dirty : w'.cl.dirty_files = w.cl.dirty_files
  srv : w'.srv = w.srv

instance (allowed : Set Bytes) : IsPreorder World (World.Frame allowed) where
  refl w := ⟨.refl allowed w.files, rfl, rfl⟩
  trans _ _ _ h h' := ⟨h.files.trans h'.files, h'.dirty.trans h.dirty, h'.srv.trans h.srv⟩

theorem World.Frame.mono {allowed allowed' : Set Bytes} {w w' : World} (h : World.Frame allowed w w')
    (hle : ∀ name, name ∈ allowed → name ∈ allowed') : World.Frame allowed' w w' :=
  ⟨h.files.mono hle, h.dirty, h.srv⟩

theorem World.Same.frame {w w' : World} (h : World.Same w w') (allowed : Set Bytes) :
    World.Frame allowed w w' :=
  ⟨h.files ▸ .refl allowed w.files, h.dirty, h.srv⟩

/-- The name leads to the inode, and no other name does. -/
structure World.Holds (w : World) (name : Bytes) (ino : Nat) : Prop where
  names : w.files.names name = some ino
  sole : w.files.Sole name

/-- A file of a name that is not allowed to change stays where and what it is. -/
theorem World.Frame.holds {allowed : Set Bytes} {w w' : World} (h : World.Frame allowed w w')
    {name : Bytes} (hname : name ∉ allowed) {ino : Nat} (hw : w.Holds name ino) :
    w'.Holds name ino ∧ w'.files.inode ino = w.files.inode ino :=
  ⟨⟨(h.files.names name hname).trans hw.names, h.files.sole name hname hw.sole⟩,
    h.files.inode name hname hw.sole ino hw.names⟩

section Cases

variable (E : Env) (site : Site) (w : World)

/-- A call that looks something up first is made on what it finds, or fails. -/
theorem attempt_run {α : Type} {found : Prog Int} {sought : Option α} {call : α → Int × World} {missing : Int}
    (hmissing : 0 < missing) (hnone : sought = none → found w = failWith missing w)
    (hsome : ∀ x, sought = some x → found w = call x) :
    (∃ x, (E.fails site = none ∧ sought = some x) ∧ attempt E site found w = call x) ∨
    ((E.fails site = none → sought = none) ∧ ∃ e, 0 < e ∧ attempt E site found w = failWith e w) := by
  unfold attempt
  cases hfails : E.fails site with
  | some e => exact Or.inr ⟨(fun h => nomatch h), e, E.fails_pos site e hfails, rfl⟩
  | none =>
      cases sought with
      | none => exact Or.inr ⟨fun _ => rfl, missing, hmissing, hnone rfl⟩
      | some x => exact Or.inl ⟨x, ⟨rfl, rfl⟩, hsome x rfl⟩

/-- The file of a name is changed. -/
theorem onFile_run (name : Bytes) (change : File → File) :
    (∃ ino, (E.fails site = none ∧ w.files.names name = some ino) ∧ onFile E site name change w =
      (0, w.setFiles (w.files.setInode ino (change (w.files.inode ino))))) ∨
    ((E.fails site = none → w.files.names name = none) ∧ ∃ e, 0 < e ∧ onFile E site name change w = failWith e w) :=
  attempt_run E site w (by decide : 0 < ENOENT) (fun hname => by simp only [hname]) fun ino hname => by simp only [hname]

theorem posixRemove_run (name : Bytes) :
    (∃ ino, (E.fails site = none ∧ w.files.names name = some ino) ∧
      posixRemove E site name w = (0, w.setFiles (w.files.remove name))) ∨
    ((E.fails site = none → w.files.names name = none) ∧ ∃ e, 0 < e ∧ posixRemove E site name w = failWith e w) :=
  attempt_run E site w (by decide : 0 < ENOENT) (fun hname => by simp only [hname]) fun ino hname => by simp only [hname]

theorem onFd_run (fd : Int) (call : Descriptor → Prog Int) :
    (∃ d, (E.fails site = none ∧ w.cl.fds.get fd = some d) ∧ onFd E site fd call w = call d w) ∨
    ((E.fails site = none → w.cl.fds.get fd = none) ∧ ∃ e, 0 < e ∧ onFd E site fd call w = failWith e w) :=
  attempt_run E site w (by decide : 0 < EBADF) (fun hget => by simp only [hget]) fun d hget => by simp only [hget]

/-- The bytes that are taken are written through a descriptor that is open for writing. -/
theorem posixPwrite_run (fd : Int) (data : Bytes) (offset : Nat) :
    (∃ d, (E.fails site = none ∧ w.cl.fds.get fd = some d ∧ d.flags &&& O_ACCMODE ≠ O_RDONLY) ∧
      posixPwrite E site fd data offset w = (((E.takes data).length : Int), if E.takes data = [] then w
        else w.setFiles (w.files.put d.ino
          (written d.flags (w.files.inode d.ino).content offset (E.takes data)) (E.now site)))) ∨
    ∃ e, 0 < e ∧ posixPwrite E site fd data offset w = failWith e w := by
  have hrun : (∃ d, (E.fails site = none ∧ w.cl.fds.get fd = some d) ∧ posixPwrite E site fd data offset w =
        if d.flags &&& O_ACCMODE = O_RDONLY then failWith EBADF w
        else if E.takes data = [] then (0, w)
        else (((E.takes data).length : Int), w.setFiles (w.files.put d.ino
          (written d.flags (w.files.inode d.ino).content offset (E.takes data)) (E.now site)))) ∨
      ((E.fails site = none → w.cl.fds.get fd = none) ∧ ∃ e, 0 < e ∧
        posixPwrite E site fd data offset w = failWith e w) :=
    attempt_run E site w (by decide : 0 < EBADF) (fun hget => by simp only [hget]) fun d hget => by simp only [hget]
  rcases hrun with ⟨d, ⟨hok, hget⟩, heq⟩ | ⟨_, e, hpos, heq⟩
  · by_cases haccess : d.flags &&& O_ACCMODE = O_RDONLY
    · rw [if_pos haccess] at heq
      exact Or.inr ⟨EBADF, by decide, heq⟩
    · rw [if_neg haccess] at heq
      refine Or.inl ⟨d, ⟨hok, hget, haccess⟩, heq.trans ?_⟩
      split_ifs with hnone
      · rw [hnone]
        rfl
      · rfl
  · exact Or.inr ⟨e, hpos, heq⟩

/-- A file is cut or extended. -/
theorem posixTruncate_run (name : Bytes) (length : Int) :
    (∃ ino, (0 ≤ length ∧ E.fails site = none ∧ w.files.names name = some ino) ∧ posixTruncate E site name length w =
      (0, w.setFiles (w.files.setInode ino { w.files.inode ino with
        content := resize (w.files.inode ino).content length.toNat, mtime := E.now site }))) ∨
    ((0 ≤ length → E.fails site = none → w.files.names name = none) ∧
      ∃ e, 0 < e ∧ posixTruncate E site name length w = failWith e w) := by
  unfold posixTruncate
  by_cases hneg : length < 0
  · rw [if_pos hneg]
    exact Or.inr ⟨fun hle => absurd hneg (not_lt.mpr hle), EINVAL, by decide, rfl⟩
  · rw [if_neg hneg]
    rcases onFile_run E site w name _ with ⟨ino, ⟨hok, hname⟩, heq⟩ | ⟨hmissing, hfails⟩
    · exact Or.inl ⟨ino, ⟨not_lt.mp hneg, hok, hname⟩, heq⟩
    · exact Or.inr ⟨fun _ => hmissing, hfails⟩

/-- An open that neither creates nor truncates gives a descriptor on what the name leads to. -/
theorem posixOpen_run (name : Bytes) {flags : OpenFlags} (hcreate : flags.has O_CREAT = false)
    (htrunc : flags.has O_TRUNC = false) :
    (∃ ino, (E.fails site = none ∧ w.files.names name = some ino) ∧
      posixOpen E site name flags w = newFd ino flags w) ∨
    ((E.fails site = none → w.files.names name = none) ∧
      ∃ e, 0 < e ∧ posixOpen E site name flags w = failWith e w) :=
  attempt_run E site w (by decide : 0 < ENOENT) (fun hname => by simp only [hname, hcreate, Bool.false_eq_true, if_false])
    fun ino hname => by simp only [hname, hcreate, htrunc, Bool.false_and, Bool.false_eq_true, if_false]

/-- An open leaves the files as they are, or empties the file of the name or makes it, and gives a descriptor on it. -/
theorem posixOpen_opens (name : Bytes) (flags : OpenFlags) :
    (∃ files ino, (files = w.files ∨ files = (w.files.openTrunc name (E.now site) (E.attr site)).1) ∧
      files.names name = some ino ∧ posixOpen E site name flags w = newFd ino flags (w.setFiles files)) ∨
    ∃ e, 0 < e ∧ posixOpen E site name flags w = failWith e w := by
  unfold posixOpen attempt
  cases hfails : E.fails site with
  | some e => exact Or.inr ⟨e, E.fails_pos site e hfails, rfl⟩
  | none =>
      cases hname : w.files.names name with
      | none =>
          simp only [Fs.openTrunc, hname]
          split_ifs
          · exact Or.inl ⟨_, w.files.next, Or.inr rfl, Fs.create_names_self _ _ _, rfl⟩
          · exact Or.inr ⟨ENOENT, by decide, rfl⟩
      | some ino =>
          simp only [Fs.openTrunc, hname]
          split_ifs
          · exact Or.inr ⟨EEXIST, by decide, rfl⟩
          · exact Or.inl ⟨_, ino, Or.inr rfl, hname, rfl⟩
          · exact Or.inl ⟨w.files, ino, Or.inl rfl, hname, rfl⟩

/-- A new file is made under a free name. -/
theorem newNode_run (name content : Bytes) (attr : Attr) :
    ((E.fails site = none ∧ w.files.names name = none) ∧ newNode E site name content attr w =
      (0, w.setFiles (w.files.create name ⟨content, E.now site, attr⟩))) ∨
    ((E.fails site = none → w.files.names name ≠ none) ∧
      ∃ e, 0 < e ∧ newNode E site name content attr w = failWith e w) := by
  unfold newNode attempt
  cases hfails : E.fails site with
  | some e => exact Or.inr ⟨(fun h => nomatch h), e, E.fails_pos site e hfails, rfl⟩
  | none =>
      cases hname : w.files.names name with
      | none =>
          simp only [hname]
          exact Or.inl ⟨⟨trivial, trivial⟩, trivial⟩
      | some ino =>
          simp only [hname]
          exact Or.inr ⟨fun _ => Option.some_ne_none ino, EEXIST, by decide, rfl⟩

end Cases

theorem unary_cl {Reply : Type} (E : Env) (w : World) (r : Rpc) (handler : Server → Option Reply × Server) :
    (unary E r handler w).2.cl = w.cl := by
  unfold unary
  split <;> rfl

theorem openStream_cl {E : Env} (request : OpenReq) (w : World) : (AFSClient.openStream E request w).2.cl = w.cl := by
  unfold AFSClient.openStream
  split <;> rfl

theorem putFileStream_cl (E : Env) (requests : List PutFileReq) (w : World) :
    (AFSClient.putFileStream E requests w).2.cl = w.cl := by
  unfold AFSClient.putFileStream
  split <;> rfl

section Same

variable {E : Env} {name : Bytes}

theorem same_failWith (e : Int) : Keeps World.Same (failWith e) := fun _ => ⟨rfl, rfl, rfl⟩

theorem same_getErrno : Keeps World.Same getErrno := fun w => refl_of _ w

theorem same_newFd (ino : Nat) (flags : OpenFlags) : Keeps World.Same (newFd ino flags) :=
  fun _ => ⟨rfl, rfl, rfl⟩

/-- What a failing call keeps, and the call itself keeps, it keeps at its site. -/
theorem attempt_keeps {R : World → World → Prop} {site : Site} {call : Prog Int}
    (hfail : ∀ e, Keeps R (failWith e)) (h : Keeps R call) : Keeps R (attempt E site call) := by
  unfold attempt
  split
  · exact hfail _
  · exact h

theorem same_attempt {site : Site} {call : Prog Int} (h : Keeps World.Same call) :
    Keeps World.Same (attempt E site call) :=
  attempt_keeps same_failWith h

/-- An open that neither creates nor truncates changes no file. -/
theorem same_posixOpen {site : Site} {flags : OpenFlags} (hcreate : flags.has O_CREAT = false)
    (htrunc : flags.has O_TRUNC = false) : Keeps World.Same (posixOpen E site name flags) := by
  refine same_attempt fun w => ?_
  cases w.files.names name with
  | none =>
      simp only [hcreate]
      exact same_failWith ENOENT w
  | some ino =>
      simp only [hcreate, htrunc, Bool.false_and]
      exact same_newFd ino flags w

theorem same_posixClose (fd : Int) : Keeps World.Same (posixClose fd) := fun w => by
  unfold posixClose
  split
  · exact same_failWith EBADF w
  · exact ⟨rfl, rfl, rfl⟩

end Same

section Frame

variable {E : Env} {allowed : Set Bytes} {name : Bytes}

theorem keeps_attempt {site : Site} {call : Prog Int} (h : Keeps (World.Frame allowed) call) :
    Keeps (World.Frame allowed) (attempt E site call) :=
  attempt_keeps (fun e => (same_failWith e).mono fun _ _ h => h.frame allowed) h

theorem keeps_posixOpen {site : Site} {flags : OpenFlags} (hname : name ∈ allowed) :
    Keeps (World.Frame allowed) (posixOpen E site name flags) := fun w => by
  rcases posixOpen_opens E site w name flags with ⟨files, ino, hfiles, _, heq⟩ | ⟨e, _, heq⟩
  · rw [heq]
    rcases hfiles with rfl | rfl
    · exact (same_newFd ino flags w).frame allowed
    · exact ⟨Fs.openTrunc_within _ _ hname, rfl, rfl⟩
  · rw [heq]
    exact (same_failWith e w).frame allowed

theorem keeps_posixRemove {site : Site} (hname : name ∈ allowed) :
    Keeps (World.Frame allowed) (posixRemove E site name) := by
  refine keeps_attempt fun w => ?_
  split
  · exact (same_failWith ENOENT w).frame allowed
  · exact ⟨Fs.remove_within hname, rfl, rfl⟩

theorem keeps_onFile {site : Site} {change : File → File} (hname : name ∈ allowed) :
    Keeps (World.Frame allowed) (onFile E site name change) := by
  refine keeps_attempt fun w => ?_
  cases hn : w.files.names name with
  | none => exact (same_failWith ENOENT w).frame allowed
  | some ino => exact ⟨Fs.setInode_within _ hn hname, rfl, rfl⟩

theorem keeps_ofstreamSave {openSite writeSite : Site} {data : Bytes} (hname : name ∈ allowed) :
    Keeps (World.Frame allowed) (ofstreamSave E openSite writeSite name data) := fun w => by
  unfold ofstreamSave
  split
  · exact ⟨.refl allowed w.files, rfl, rfl⟩
  · exact ⟨Fs.overwrite_within _ _ _ hname, rfl, rfl⟩

theorem copyFile_cases (E : Env) (site : Site) (source target : Bytes) (part : Bytes → Bytes) (w : World) :
    copyFile E site source target part w = (.exited 1, w) ∨
    ∃ file, w.files.find source = some file ∧ w.files.names source ≠ w.files.names target ∧
      copyFile E site source target part w = (.exited 0, w.setFiles
        (w.files.overwrite target (part file.content) (E.now site) (E.attr site))) := by
  unfold copyFile
  cases hfind : w.files.find source with
  | none => exact Or.inl rfl
  | some file =>
      by_cases hsame : w.files.names source = w.files.names target
      · exact Or.inl (if_pos hsame)
      · exact Or.inr ⟨file, rfl, hsame, if_neg hsame⟩

/-- `cp` copies nothing, or all bytes and exits with 0, or is ended by a signal when it has written some. -/
theorem systemCp_cases (E : Env) (site : Site) (source target : Bytes) (w : World) :
    (∃ status, status ≠ .exited 0 ∧ systemCp E site source target w = (status, w)) ∨
    ∃ file, w.files.find source = some file ∧ w.files.names source ≠ w.files.names target ∧
      ∃ status data, (E.fails site = none ∧ status = .exited 0 ∧ data = file.content ∨ status = .signaled) ∧
        systemCp E site source target w =
          (status, w.setFiles (w.files.overwrite target data (E.now site) (E.attr site))) := by
  unfold systemCp
  cases hfails : E.fails site with
  | none =>
      rcases copyFile_cases E site source target id w with heq | ⟨file, hfind, hne, heq⟩
      · exact Or.inl ⟨.exited 1, by decide, heq⟩
      · exact Or.inr ⟨file, hfind, hne, .exited 0, file.content, Or.inl ⟨rfl, rfl, rfl⟩, heq⟩
  | some e =>
      cases E.command site with
      | refused => exact Or.inl ⟨.exited 1, by decide, rfl⟩
      | killed written =>
          cases written with
          | none => exact Or.inl ⟨.signaled, by decide, rfl⟩
          | some written =>
              simp only [bind_run]
              rcases copyFile_cases E site source target (·.take written) w with heq | ⟨file, hfind, hne, heq⟩
              · rw [heq]
                exact Or.inl ⟨.signaled, by decide, rfl⟩
              · rw [heq]
                exact Or.inr ⟨file, hfind, hne, .signaled, _, Or.inr rfl, rfl⟩

/-- A `cp` that counts as failed has copied nothing. -/
theorem systemCp_of_failure {site : Site} {source target : Bytes} {w : World}
    (h : (systemCp E site source target w).1.isFailure = true) : (systemCp E site source target w).2 = w := by
  rcases systemCp_cases E site source target w with ⟨_, _, heq⟩ | ⟨_, _, _, _, _, hstatus, heq⟩
  · rw [heq]
  · rw [heq] at h
    rcases hstatus with ⟨_, rfl, _⟩ | rfl <;> cases h

/-- One that does not was not refused: nothing failed, or a signal ended it. -/
theorem systemCp_not_failure {site : Site} {source target : Bytes} {w : World}
    (h : (systemCp E site source target w).1.isFailure = false) :
    (E.fails site = none ∧ w.files.names source ≠ w.files.names target) ∨
      (E.fails site ≠ none ∧ E.command site ≠ .refused) := by
  unfold systemCp at h
  cases hfails : E.fails site with
  | none =>
      rw [hfails] at h
      rcases copyFile_cases E site source target id w with heq | ⟨_, _, hne, _⟩
      · have hexit : (copyFile E site source target id w).1.isFailure = false := h
        rw [heq] at hexit
        cases hexit
      · exact Or.inl ⟨rfl, hne⟩
  | some e =>
      refine Or.inr ⟨Option.some_ne_none e, fun hrefused => ?_⟩
      rw [hfails, hrefused] at h
      cases h

/-- A signal that ends `cp` does not count as a failure. -/
theorem systemCp_of_killed {site : Site} {source target : Bytes} {w : World} (hfails : E.fails site ≠ none)
    (hkilled : E.command site ≠ .refused) : (systemCp E site source target w).1 = .signaled := by
  obtain ⟨e, he⟩ := Option.ne_none_iff_exists'.mp hfails
  unfold systemCp
  cases hcommand : E.command site with
  | refused => exact absurd hcommand hkilled
  | killed written =>
      rw [he]
      cases written <;> rfl

theorem keeps_systemCp {site : Site} {source : Bytes} (hname : name ∈ allowed) :
    Keeps (World.Frame allowed) (systemCp E site source name) := fun w => by
  rcases systemCp_cases E site source name w with ⟨_, _, heq⟩ | ⟨_, _, _, _, _, _, heq⟩ <;> rw [heq]
  · exact refl_of _ w
  · exact ⟨Fs.overwrite_within _ _ _ hname, rfl, rfl⟩

end Frame

/-- Every descriptor that was open is still open on the same file. -/
def World.FdsKept (w w' : World) : Prop :=
  ∀ fd d, w.cl.fds.get fd = some d → w'.cl.fds.get fd = some d

instance : IsPreorder World World.FdsKept where
  refl _ _ _ h := h
  trans _ _ _ h h' fd d hget := h' fd d (h fd d hget)

theorem World.FdsKept.of_eq {w w' : World} (h : w'.cl.fds = w.cl.fds) : World.FdsKept w w' := by
  intro fd d hget
  rw [h]
  exact hget

/-- A descriptor that was not open before may be closed again. -/
theorem World.FdsKept.close {w w' : World} {fd : Int} (h : World.FdsKept w w')
    (hfree : w.cl.fds.get fd = none) : World.FdsKept w (posixClose fd w').2 := by
  intro other d hget
  have hne : other ≠ fd := by
    rintro rfl
    rw [hfree] at hget
    cases hget
  unfold posixClose
  split
  · exact h other d hget
  · rename_i d' hopen
    have hpos : 0 ≤ fd := by
      by_contra hneg
      rw [Descriptors.get_of_none (by omega)] at hopen
      cases hopen
    exact (Descriptors.get_release_of_ne hpos hne).trans (h other d hget)

theorem World.FdsKept.get_eq_none {w w' : World} (h : World.FdsKept w w') {fd : Int}
    (hfree : w'.cl.fds.get fd = none) : w.cl.fds.get fd = none := by
  cases hget : w.cl.fds.get fd with
  | none => rfl
  | some d =>
      rw [h fd d hget] at hfree
      cases hfree

section Opening

variable {E : Env} {site : Site} {name : Bytes} {flags : OpenFlags}

/-- An open either fails and changes no file, or gives the lowest free descriptor on what the name
leads to afterwards. -/
theorem posixOpen_cases (E : Env) (site : Site) (name : Bytes) (flags : OpenFlags) (w : World) :
    ((posixOpen E site name flags w).1 = -1 ∧
      (posixOpen E site name flags w).2.cl = w.cl) ∨
    ∃ ino, (posixOpen E site name flags w).1 = w.cl.fds.lowestFree ∧
      (posixOpen E site name flags w).2.files.names name = some ino ∧
      (posixOpen E site name flags w).2.cl.fds = w.cl.fds.insert ⟨ino, flags⟩ := by
  rcases posixOpen_opens E site w name flags with ⟨files, ino, _, hname, heq⟩ | ⟨e, _, heq⟩
  · rw [heq]
    exact Or.inr ⟨ino, rfl, hname, rfl⟩
  · rw [heq]
    exact Or.inl ⟨rfl, rfl⟩

theorem posixOpen_fdsKept (E : Env) (site : Site) (name : Bytes) (flags : OpenFlags) (w : World) :
    World.FdsKept w (posixOpen E site name flags w).2 := by
  rcases posixOpen_cases E site name flags w with ⟨_, hcl⟩ | ⟨ino, _, _, hfds⟩
  · exact .of_eq (by rw [hcl])
  · intro fd d hget
    rw [hfds]
    exact Descriptors.get_insert_of_some hget

/-- The number an open returns was not open. -/
theorem posixOpen_fd_free (E : Env) (site : Site) (name : Bytes) (flags : OpenFlags) (w : World) :
    w.cl.fds.get (posixOpen E site name flags w).1 = none := by
  rcases posixOpen_cases E site name flags w with ⟨hfd, _⟩ | ⟨ino, hfd, _, _⟩
  · rw [hfd]
    exact Descriptors.get_of_none (by omega)
  · rw [hfd]
    exact Descriptors.get_lowestFree _

theorem newFd_nonneg (ino : Nat) (w : World) : 0 ≤ (newFd ino flags w).1 := Int.natCast_nonneg _

/-- A descriptor that was returned is open on the file of the name. -/
theorem posixOpen_opened {w : World} (h : 0 ≤ (posixOpen E site name flags w).1) :
    ∃ ino, (posixOpen E site name flags w).2.files.names name = some ino ∧
      (posixOpen E site name flags w).2.cl.fds.get (posixOpen E site name flags w).1 =
        some ⟨ino, flags⟩ := by
  rcases posixOpen_cases E site name flags w with ⟨hfd, _⟩ | ⟨ino, hfd, hname, hfds⟩
  · omega
  · refine ⟨ino, hname, ?_⟩
    rw [hfds, hfd]
    exact Descriptors.get_insert_self _ _

/-- One that was not has its errno. -/
theorem posixOpen_errno {w : World} (h : (posixOpen E site name flags w).1 < 0) :
    0 < (posixOpen E site name flags w).2.errno := by
  rcases posixOpen_opens E site w name flags with ⟨files, ino, _, _, heq⟩ | ⟨e, hpos, heq⟩
  · rw [heq] at h
    exact absurd h (not_lt.mpr (newFd_nonneg ino _))
  · rw [heq]
    exact hpos

/-- `remove` that does not fail. -/
theorem posixRemove_files (hok : E.fails site = none) (name : Bytes) (w : World) :
    (posixRemove E site name w).2.files = w.files.remove name ∧
      (posixRemove E site name w).2.cl.dirty_files = w.cl.dirty_files ∧
      (posixRemove E site name w).2.srv = w.srv := by
  simp only [posixRemove, attempt, hok]
  cases hname : w.files.names name with
  | none => exact ⟨(Fs.remove_of_missing hname).symm, rfl, rfl⟩
  | some i => exact ⟨rfl, rfl, rfl⟩

theorem posixRemove_of_fails {e : Int} (hfails : E.fails site = some e) (name : Bytes) (w : World) :
    posixRemove E site name w = failWith e w := by
  simp only [posixRemove, attempt, hfails]

theorem posixRemove_errno {w : World} (h : 0 < w.errno) : 0 < (posixRemove E site name w).2.errno := by
  rcases posixRemove_run E site w name with ⟨_, _, heq⟩ | ⟨_, e, hpos, heq⟩
  · rw [heq]
    exact h
  · rw [heq]
    exact hpos

end Opening

end Bnfs
