import Bnfs.ClientRules
import Bnfs.TheoryConfined
import Bnfs.TheoryRuns

/-! The files of the client's machine outside the directory of the client. The handlers work on the
temporary and the persistent copy of a path, which lie in it, or call the server. A few of them use the path
they were given as a local one. -/

namespace Bnfs

open FileSystem Programs Runs

/-- The names under the directory of the client. -/
def clientDir : Set Bytes := {name | CLIENT_DIR_ROOT ++ ascii "/" <+: name}

instance (name : Bytes) : Decidable (name ∈ clientDir) :=
  inferInstanceAs (Decidable (CLIENT_DIR_ROOT ++ ascii "/" <+: name))

theorem getTempPath_mem_clientDir [Sha256] (path : CString) : getTempPath path ∈ clientDir := by
  refine ⟨ascii "temp/" ++ getHashedPath path, ?_⟩
  rw [getTempPath, tempDir]
  simp [ascii]

theorem getCachePath_mem_clientDir [Sha256] (path : CString) : getCachePath path ∈ clientDir := by
  refine ⟨ascii "cache/" ++ getHashedPath path, ?_⟩
  rw [getCachePath, cacheDir]
  simp [ascii]

namespace Descriptors

/-- Releasing a descriptor opens no other. -/
theorem get_of_get_release {fds : Descriptors} {fd other : Int} {d : Descriptor}
    (h : (fds.release fd).get other = some d) : fds.get other = some d := by
  by_cases hneg : other < 0
  · rw [get_of_none hneg] at h
    cases h
  · obtain ⟨n, rfl⟩ := Int.eq_ofNat_of_zero_le (not_lt.mp hneg)
    rw [get_eq, release, List.getElem?_set] at h
    rw [get_eq]
    split_ifs at h
    · cases h
    · cases h
    · exact h

/-- What is open after an opening was open before, or is the new one. -/
theorem get_insert_cases {fds : Descriptors} {fd : Int} {d d' : Descriptor}
    (h : (fds.insert d').get fd = some d) :
    fds.get fd = some d ∨ fd = fds.lowestFree ∧ d = d' := by
  by_cases hfd : fd = fds.lowestFree
  · rw [hfd, get_insert_self] at h
    exact Or.inr ⟨hfd, (Option.some.inj h).symm⟩
  · left
    by_cases hneg : fd < 0
    · rw [get_of_none hneg] at h
      cases h
    · obtain ⟨n, rfl⟩ := Int.eq_ofNat_of_zero_le (not_lt.mp hneg)
      have hne : fds.lowestFree ≠ n := fun heq => hfd (by rw [heq])
      rw [get_eq, insert] at h
      rw [get_eq]
      split_ifs at h with hlt
      · rwa [List.getElem?_set_ne hne] at h
      · have hend : fds.lowestFree = fds.length := by
          have hle : fds.lowestFree ≤ fds.length := List.findIdx_le_length
          omega
        by_cases hn : n < fds.length
        · rwa [List.getElem?_append_left hn] at h
        · rw [List.getElem?_eq_none (by rw [List.length_append, List.length_singleton]; omega)] at h
          cases h

/-- What is opened and closed again leaves nothing open. -/
theorem get_of_insert_release {fds : Descriptors} {fd : Int} {d d' : Descriptor}
    (h : ((fds.insert d').release fds.lowestFree).get fd = some d) : fds.get fd = some d := by
  rcases get_insert_cases (get_of_get_release h) with hold | ⟨hfd, _⟩
  · exact hold
  · rw [hfd, get_eq, release, Int.toNat_natCast, List.getElem?_set, if_pos rfl] at h
    split_ifs at h <;> cases h

end Descriptors

/-- If the directory of the client shares no file with the rest, the change is confined to it. -/
def World.Spares (w w' : World) : Prop :=
  w.files.Apart clientDir → Fs.Confined clientDir w.files w'.files

instance : IsPreorder World World.Spares where
  refl _ := .refl
  trans _ _ _ h h' hw := (h hw).trans (h' (h hw).apart)

theorem World.Spares.of_files {w w' : World} (h : w'.files = w.files) : World.Spares w w' := fun hw => by
  rw [h]
  exact .refl hw

theorem World.Spares.of_cl {w w' : World} (h : w'.cl = w.cl) : World.Spares w w' :=
  .of_files (congrArg (·.files) h)

theorem World.Spares.setFiles {w : World} {files : Files}
    (h : w.files.Apart clientDir → Fs.Confined clientDir w.files files) :
    World.Spares w (w.setFiles files) := h

section Calls

variable {E : Env} {name : Bytes}

theorem spares_failWith (e : Int) : Keeps World.Spares (failWith e) := fun _ => .of_cl rfl

theorem spares_getErrno : Keeps World.Spares getErrno := fun _ => .of_cl rfl

theorem spares_attempt {site : Site} {call : Prog Int} (h : Keeps World.Spares call) :
    Keeps World.Spares (attempt E site call) :=
  attempt_keeps spares_failWith h

theorem spares_of_same {α : Type} {x : Prog α} (h : Keeps World.Same x) : Keeps World.Spares x :=
  fun w => .of_files (h w).files

theorem spares_posixOpen (site : Site) (flags : OpenFlags) (hname : name ∈ clientDir) :
    Keeps World.Spares (posixOpen E site name flags) := fun w => by
  rcases posixOpen_opens E site w name flags with ⟨files, ino, hfiles, _, heq⟩ | ⟨e, _, heq⟩
  · rw [heq]
    rcases hfiles with rfl | rfl
    · exact .of_files rfl
    · exact fun hw => Fs.confined_openTrunc hw _ _ hname
  · rw [heq]
    exact spares_failWith e w

theorem spares_posixClose (fd : Int) : Keeps World.Spares (posixClose fd) :=
  spares_of_same (same_posixClose fd)

theorem spares_posixRemove (site : Site) (hname : name ∈ clientDir) :
    Keeps World.Spares (posixRemove E site name) := by
  refine spares_attempt fun w => ?_
  split
  · exact spares_failWith ENOENT w
  · exact .setFiles fun hw => Fs.confined_remove hw hname

theorem spares_posixRename (site : Site) {new : Bytes} (hname : name ∈ clientDir)
    (hnew : new ∈ clientDir) : Keeps World.Spares (posixRename E site name new) := by
  refine spares_attempt fun w => ?_
  split
  · exact spares_failWith ENOENT w
  · exact .setFiles fun hw => Fs.confined_rename hw hname hnew

theorem spares_onFile (site : Site) (change : File → File) (hname : name ∈ clientDir) :
    Keeps World.Spares (onFile E site name change) := by
  refine spares_attempt fun w => ?_
  cases hi : w.files.names name with
  | none => exact spares_failWith ENOENT w
  | some ino => exact .setFiles fun hw => Fs.confined_setInode hw _ (hw name hname ino hi)

theorem spares_posixTruncate (site : Site) (length : Int) (hname : name ∈ clientDir) :
    Keeps World.Spares (posixTruncate E site name length) :=
  .ite (fun _ => spares_failWith EINVAL) fun _ => spares_onFile site _ hname

theorem spares_newNode (site : Site) (content : Bytes) (attr : Attr) (hname : name ∈ clientDir) :
    Keeps World.Spares (newNode E site name content attr) := by
  refine spares_attempt fun w => ?_
  split
  · exact spares_failWith EEXIST w
  · exact .setFiles fun hw => Fs.confined_create hw _ hname

theorem spares_ofstreamSave (openSite writeSite : Site) (data : Bytes) (hname : name ∈ clientDir) :
    Keeps World.Spares (ofstreamSave E openSite writeSite name data) := fun w => by
  unfold ofstreamSave
  split
  · exact .of_cl rfl
  · exact .setFiles fun hw => Fs.confined_overwrite hw _ _ _ hname

theorem spares_systemCp (site : Site) (source : Bytes) (hname : name ∈ clientDir) :
    Keeps World.Spares (systemCp E site source name) := fun w => by
  rcases systemCp_cases E site source name w with ⟨_, _, heq⟩ | ⟨_, _, _, _, _, _, heq⟩ <;> rw [heq]
  · exact .of_cl rfl
  · exact .setFiles fun hw => Fs.confined_overwrite hw _ _ _ hname

theorem spares_unary {Reply : Type} (r : Rpc) (handler : Server → Option Reply × Server) :
    Keeps World.Spares (unary E r handler) := fun w => .of_cl (unary_cl E w r handler)

/-- The file is only looked at. -/
theorem spares_onFile_id (site : Site) (name : Bytes) :
    Keeps World.Spares (onFile E site name id) := by
  refine spares_attempt fun w => ?_
  split
  · exact spares_failWith ENOENT w
  · refine .of_files ?_
    show w.files.setInode _ (w.files.inode _) = w.files
    rw [Fs.setInode, Function.update_eq_self]

/-- A write through a descriptor on a file of the client's directory. -/
theorem spares_posixPwrite {site : Site} {fd : Int} {data : Bytes} {offset : Nat} {w : World}
    (hfd : ∀ d, w.cl.fds.get fd = some d → w.files.Hidden clientDir d.ino) :
    World.Spares w (posixPwrite E site fd data offset w).2 := by
  rcases posixPwrite_run E site w fd data offset with ⟨d, ⟨_, hget, _⟩, heq⟩ | ⟨e, _, heq⟩
  · rw [heq]
    split_ifs
    · exact .of_cl rfl
    · exact .setFiles fun hw => Fs.confined_setInode hw _ (hfd d hget)
  · rw [heq]
    exact spares_failWith e w

end Calls

section Operations

variable (E : Env) (path : CString)

theorem spares_closeChecked (fd : Int) (close_file : Bool) :
    Keeps World.Spares (closeChecked fd close_file) := by
  refine .ite (fun _ => .ite (fun _ => ?_) fun _ => .pure _) fun _ => .pure _
  exact (spares_posixClose fd).bind fun _ => .pure _

theorem spares_isOutOfDate (t fd : Int) : Keeps World.Spares (isOutOfDate E t fd) := fun w => by
  unfold isOutOfDate
  split <;> exact refl_of _ w

theorem spares_getAttr (stbuf : Stat) : Keeps World.Spares (AFSClient.getAttr E path stbuf) := by
  refine (spares_unary _ _).bind fun reply => ?_
  cases reply with
  | none => exact .pure _
  | some reply => exact .pure _

theorem spares_readDir : Keeps World.Spares (AFSClient.readDir E path) := by
  refine (spares_unary _ _).bind fun reply => ?_
  cases reply with
  | none => exact .pure _
  | some reply => exact .ite (fun _ => .pure _) fun _ => .ite (fun _ => .pure _) fun _ => .pure _

theorem spares_chooseCopy (cache_fd temp_fd : Int) (outOfDate : Bool) :
    Keeps World.Spares (AFSClient.chooseCopy cache_fd temp_fd outOfDate) := by
  refine .ite (fun _ => .pure _) fun _ => .ite (fun _ => ?_) fun _ => ?_
  · exact (spares_posixClose cache_fd).bind fun _ => .pure _
  · have hverdict : Keeps World.Spares (if outOfDate then pure 1 else pure 2 : Prog Int) :=
      .ite (fun _ => .pure _) fun _ => .pure _
    refine (spares_posixClose temp_fd).bind fun _ => .ite (fun _ => ?_) fun _ => hverdict
    exact (spares_posixClose cache_fd).bind fun _ => hverdict

theorem spares_openStream (request : OpenReq) : Keeps World.Spares (AFSClient.openStream E request) :=
  fun w => .of_cl (openStream_cl request w)

theorem spares_createOnServer (fi : FuseFileInfo) :
    Keeps World.Spares (AFSClient.createOnServer E path fi) :=
  createOnServer_keeps (spares_openStream E _)

theorem spares_putFileStream (requests : List PutFileReq) :
    Keeps World.Spares (AFSClient.putFileStream E requests) :=
  fun w => .of_cl (putFileStream_cl E requests w)

theorem spares_ifstreamRead (site : Site) (name : Bytes) :
    Keeps World.Spares (AFSClient.ifstreamRead E site name) := fun w => by
  unfold AFSClient.ifstreamRead
  split <;> exact .of_cl rfl

variable [Sha256]

theorem spares_eraseDirty : Keeps World.Spares (eraseDirty path) := fun _ => .of_files rfl

theorem spares_markFileDirty : Keeps World.Spares (markFileDirty path) :=
  fun _ => .of_files rfl

theorem spares_deleteFromTemp : Keeps World.Spares (deleteFromTemp E path) :=
  (spares_posixRemove _ (getTempPath_mem_clientDir path)).bind fun _ => spares_eraseDirty path

theorem spares_unmarkFileDirty : Keeps World.Spares (unmarkFileDirty E path) :=
  (spares_posixRemove _ (getTempPath_mem_clientDir path)).bind fun _ => .pure _

theorem spares_getCheckInCache (close_file : Bool) (open_mode : OpenFlags) :
    Keeps World.Spares (getCheckInCache E path close_file open_mode) := by
  refine (spares_posixOpen _ _ (getCachePath_mem_clientDir path)).bind fun fd =>
    .ite (fun _ => .ite (fun _ => ?_) fun _ => .pure _) fun _ => .pure _
  exact (spares_posixClose fd).bind fun _ => .pure _

theorem spares_getCheckInTemp (close_file : Bool) (open_mode : OpenFlags) (create_new : Bool) :
    Keeps World.Spares (getCheckInTemp E path close_file open_mode create_new) := by
  have htemp := getTempPath_mem_clientDir path
  refine (spares_posixOpen _ _ htemp).bind fun fd =>
    .ite (fun _ => ?_) fun _ => spares_closeChecked fd close_file
  have hcreate : Keeps World.Spares (do
      let fd ← posixOpen E .getCheckInTempCreate (getTempPath path) (O_CREAT ||| open_mode)
      closeChecked fd close_file) :=
    (spares_posixOpen _ _ htemp).bind fun fd => spares_closeChecked fd close_file
  refine (spares_getCheckInCache E path true O_RDONLY).bind fun is_cached =>
    .ite (fun _ => ?_) fun _ => (Keeps.pure (WaitStatus.exited 0)).bind fun _ => .ite (fun _ => .pure _) fun _ => hcreate
  exact (spares_systemCp _ _ htemp).bind fun status => .ite (fun _ => .pure _) fun _ => hcreate

theorem spares_commitToCache (t : Int) : Keeps World.Spares (commitToCache E path t) := by
  have htemp := getTempPath_mem_clientDir path
  have hcache := getCachePath_mem_clientDir path
  exact commitToCache_keeps (spares_posixOpen _ _ htemp) spares_getErrno spares_posixClose (spares_systemCp _ _ hcache)
    (spares_onFile _ _ htemp) (spares_onFile _ _ hcache) (spares_eraseDirty path)

theorem spares_getOpenFlags (is_create : Bool) (flags : OpenFlags) :
    Keeps World.Spares (AFSClient.getOpenFlags E is_create flags path) := by
  refine (spares_getAttr E path E.clientStack).bind fun reply => .ite (fun _ => .pure _) fun _ => ?_
  refine (spares_posixOpen _ _ (getCachePath_mem_clientDir path)).bind fun cache_fd =>
    (spares_posixOpen _ _ (getTempPath_mem_clientDir path)).bind fun temp_fd =>
      .ite (fun _ => ?_) fun _ => spares_chooseCopy cache_fd temp_fd true
  exact (spares_isOutOfDate E _ temp_fd).bind (spares_chooseCopy cache_fd temp_fd)

theorem spares_fetchAndSyncServerFile (fi : FuseFileInfo) :
    Keeps World.Spares (AFSClient.fetchAndSyncServerFile E path fi) :=
  fetchAndSyncServerFile_keeps (spares_openStream E _)
    (fun data => spares_ofstreamSave _ _ data (getCachePath_mem_clientDir path))
    (fun data => spares_ofstreamSave _ _ data (getTempPath_mem_clientDir path))

theorem spares_prepareTemp (fi : FuseFileInfo) (o_fl : Int) :
    Keeps World.Spares (AFSClient.prepareTemp E path fi o_fl) := by
  have htemp := getTempPath_mem_clientDir path
  have hcache := getCachePath_mem_clientDir path
  refine .ite (fun _ => ?_) fun _ => .ite (fun _ => ?_) fun _ => .ite (fun _ => ?_) fun _ => .pure _
  · exact (spares_fetchAndSyncServerFile E path fi).bind fun _ => .pure _
  · refine (spares_posixOpen _ _ htemp).bind fun temp_fd => (spares_posixClose temp_fd).bind fun _ => ?_
    refine (spares_posixOpen _ _ hcache).bind fun cache_fd => (spares_posixClose cache_fd).bind fun _ => ?_
    exact (spares_markFileDirty path).bind fun _ => (spares_createOnServer E path fi).bind fun _ => .pure _
  · exact (spares_getCheckInTemp E path true O_RDONLY true).bind fun _ => .pure _

theorem spares_Open (fi : FuseFileInfo) (is_create : Bool) :
    Keeps World.Spares (AFSClient.Open E path fi is_create) := by
  refine (spares_getOpenFlags E path is_create fi.flags).bind fun o_fl =>
    (spares_prepareTemp E path fi o_fl).bind fun _ =>
      (spares_posixOpen _ _ (getTempPath_mem_clientDir path)).bind fun temp_fd =>
        .ite (fun _ => .pure _) fun _ => ?_
  exact (spares_deleteFromTemp E path).bind fun _ => spares_getErrno.bind fun _ => .pure _

theorem spares_unlink : Keeps World.Spares (AFSClient.unlink E path) :=
  unlink_keeps (spares_deleteFromTemp E path) (spares_unary _ _)

theorem spares_rename (new_path : CString) : Keeps World.Spares (AFSClient.rename E path new_path) :=
  rename_keeps (spares_posixOpen _ _ (getCachePath_mem_clientDir path))
    (spares_posixRename _ (getTempPath_mem_clientDir path) (getTempPath_mem_clientDir new_path)) spares_getErrno
    (spares_unmarkFileDirty E path) (spares_markFileDirty new_path) spares_posixClose (spares_unary _ _)

theorem spares_flush : Keeps World.Spares (AFSClient.flush E path) :=
  flush_keeps (spares_ifstreamRead E _ _) (spares_putFileStream E) (spares_deleteFromTemp E path)
    (spares_commitToCache E path)

end Operations

/-- These are the files afterwards, and no descriptor is left that was not there before. -/
structure World.Leaves (w w' : World) (files : Files) : Prop where
  files : w'.files = files
  fds : ∀ fd d, w'.cl.fds.get fd = some d → w.cl.fds.get fd = some d

theorem World.Leaves.spares {w w' : World} (h : World.Leaves w w' w.files) : World.Spares w w' :=
  .of_files h.files

/-- Closing what was opened last. -/
theorem leaves_posixClose {w w' : World} {d : Descriptor} (h : w'.cl.fds = w.cl.fds.insert d) :
    World.Leaves w (posixClose w.cl.fds.lowestFree w').2 w'.files := by
  have hget : w'.cl.fds.get w.cl.fds.lowestFree = some d := by
    rw [h]
    exact Descriptors.get_insert_self _ _
  unfold posixClose
  rw [hget]
  refine ⟨rfl, fun fd d' hd' => ?_⟩
  have hrelease : ((w.cl.fds.insert d).release w.cl.fds.lowestFree).get fd = some d' := h ▸ hd'
  exact Descriptors.get_of_insert_release hrelease

theorem leaves_newFd (w : World) (ino : Nat) (flags : OpenFlags) :
    World.Leaves w (posixClose (newFd ino flags w).1 (newFd ino flags w).2).2 w.files :=
  leaves_posixClose rfl

section Opened

variable {E : Env}

theorem leaves_close (fd : Int) (w : World) : World.Leaves w (posixClose fd w).2 w.files := by
  unfold posixClose
  split
  · exact ⟨rfl, fun _ _ => id⟩
  · exact ⟨rfl, fun _ _ => Descriptors.get_of_get_release⟩

/-- A descriptor that is duplicated and closed. -/
theorem leaves_dupClose (fd : Int) (w : World) :
    World.Leaves w (posixClose (posixDup E fd w).1 (posixDup E fd w).2).2 w.files := by
  have hfail : ∀ e, World.Leaves w (posixClose (failWith e w).1 (failWith e w).2).2 w.files := fun e =>
    have hclose := leaves_close (failWith e w).1 (failWith e w).2
    ⟨hclose.files, hclose.fds⟩
  unfold posixDup
  rcases onFd_run E .dup w fd fun d => newFd d.ino d.flags with ⟨d, _, heq⟩ | ⟨_, e, _, heq⟩
  · rw [heq]
    exact leaves_newFd w d.ino d.flags
  · rw [heq]
    exact hfail e

/-- The files after the file of a name was opened, `data` written at an offset, and closed. -/
def rawWritten (E : Env) (openSite site : Site) (name data : Bytes) (offset : Nat) (files : Files) :
    Files :=
  match E.fails openSite, E.fails site, files.names name with
  | none, none, some ino =>
      if E.takes data = [] then files
      else files.put ino (splice (files.inode ino).content offset (E.takes data)) (E.now site)
  | _, _, _ => files

theorem rawWritten_names (E : Env) (openSite site : Site) (name data : Bytes) (offset : Nat)
    (files : Files) : (rawWritten E openSite site name data offset files).names = files.names := by
  unfold rawWritten
  split
  · split_ifs <;> rfl
  · rfl

/-- The write goes through, and leaves the file of the name with other bytes or another time. -/
def Rewrites (E : Env) (openSite site : Site) (name data : Bytes) (offset : Nat) (files : Files) :
    Prop :=
  E.fails openSite = none ∧ E.fails site = none ∧ E.takes data ≠ [] ∧
    ∃ ino, files.names name = some ino ∧
      (splice (files.inode ino).content offset (E.takes data) ≠ (files.inode ino).content ∨
        E.now site ≠ (files.inode ino).mtime)

theorem rawWritten_sameOutside_iff {openSite site : Site} {name data : Bytes} {offset : Nat}
    {files : Files} (happart : files.Apart clientDir) :
    Fs.SameOutside clientDir files (rawWritten E openSite site name data offset files) ↔
      ¬ (name ∉ clientDir ∧ Rewrites E openSite site name data offset files) := by
  constructor
  · rintro h ⟨hout, hopen, hsite, hsome, ino, hname, hother⟩
    have hinode := h.inode name hout ino hname
    unfold rawWritten at hinode
    rw [hopen, hsite, hname] at hinode
    simp only [if_neg hsome, Fs.put_self] at hinode
    rcases hother with hcontent | hmtime
    · exact hcontent (congrArg (·.content) hinode)
    · exact hmtime (congrArg (·.mtime) hinode)
  · intro h
    unfold rawWritten
    split
    · rename_i ino hopen hsite hname
      split_ifs with hnone
      · exact .refl clientDir files
      · by_cases hin : name ∈ clientDir
        · exact Fs.setInode_sameOutside _ (happart name hin ino hname)
        · have hsame : splice (files.inode ino).content offset (E.takes data) =
              (files.inode ino).content ∧ E.now site = (files.inode ino).mtime := by
            by_contra hdiffer
            rw [not_and_or] at hdiffer
            exact h ⟨hin, hopen, hsite, hnone, ino, hname, hdiffer⟩
          rw [hsame.1, hsame.2, Fs.put, Fs.setInode, Function.update_eq_self]
          exact .refl clientDir files
    · exact .refl clientDir files

theorem rawWritten_of_not {openSite site : Site} {name data : Bytes} {offset : Nat} {files : Files}
    (h : E.fails openSite = none → files.names name = none) :
    rawWritten E openSite site name data offset files = files := by
  unfold rawWritten
  split
  · rename_i hopen _ hname
    rw [h hopen] at hname
    cases hname
  · rfl

/-- A write through the descriptor that was opened last. -/
theorem posixPwrite_newFd {openSite : Site} (site : Site) {name : Bytes} (data : Bytes)
    (offset : Nat) {flags : OpenFlags} (happend : flags.has O_APPEND = false)
    (haccess : flags &&& O_ACCMODE ≠ O_RDONLY) {w : World} {ino : Nat}
    (hopen : E.fails openSite = none) (hname : w.files.names name = some ino) :
    let w' := (posixPwrite E site (newFd ino flags w).1 data offset (newFd ino flags w).2).2
    w'.files = rawWritten E openSite site name data offset w.files ∧
      w'.cl.fds = w.cl.fds.insert ⟨ino, flags⟩ := by
  have hget : (newFd ino flags w).2.cl.fds.get (newFd ino flags w).1 = some ⟨ino, flags⟩ :=
    Descriptors.get_insert_self _ _
  unfold posixPwrite attempt rawWritten
  rw [hopen, hname]
  cases E.fails site with
  | some e => exact ⟨rfl, rfl⟩
  | none =>
      simp only [hget, if_neg haccess, written, happend, Bool.false_eq_true, if_false]
      split_ifs with hnone
      · exact ⟨rfl, rfl⟩
      · exact ⟨rfl, rfl⟩

/-- Opening, writing, closing, as `write` without a handle and the queue do it. -/
theorem leaves_rawWrite {openSite : Site} (site : Site) {name : Bytes} (data : Bytes) (offset : Nat)
    {flags : OpenFlags} (hcreate : flags.has O_CREAT = false) (htrunc : flags.has O_TRUNC = false)
    (happend : flags.has O_APPEND = false) (haccess : flags &&& O_ACCMODE ≠ O_RDONLY) {w : World}
    (hfd : (posixOpen E openSite name flags w).1 ≠ -1) (w₂ : World)
    (hw₂ : w₂.cl.files = (posixPwrite E site (posixOpen E openSite name flags w).1 data offset
      (posixOpen E openSite name flags w).2).2.cl.files ∧
      w₂.cl.fds = (posixPwrite E site (posixOpen E openSite name flags w).1 data offset
        (posixOpen E openSite name flags w).2).2.cl.fds) :
    World.Leaves w (posixClose (posixOpen E openSite name flags w).1 w₂).2
      (rawWritten E openSite site name data offset w.files) := by
  rcases posixOpen_run E openSite w name hcreate htrunc with ⟨ino, ⟨hopen, hname⟩, heq⟩ | ⟨_, e, _, heq⟩
  · rw [heq] at hw₂ ⊢
    obtain ⟨hfiles, hfds⟩ := posixPwrite_newFd site data offset happend haccess hopen hname
    have hclose := leaves_posixClose (w := w) (hw₂.2.trans hfds)
    have hnow : w₂.files = rawWritten E openSite site name data offset w.files := hw₂.1.trans hfiles
    rwa [hnow] at hclose
  · rw [heq] at hfd
    exact absurd rfl hfd

end Opened

end Bnfs
