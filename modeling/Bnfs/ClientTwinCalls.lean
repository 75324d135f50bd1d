import Bnfs.ClientTwins

/-! The other operations of two clients on one server: through a handle, on the temporary copy of a path, and
those that move or remove it. -/

namespace Bnfs

open FileSystem Programs FileServer

variable [Sha256] {E : Env} {link : Nat → Nat → Prop} {w w' : World}

section Handle

variable {path : CString} {fi fi' : FuseFileInfo} {d : Descriptor}

/-- What a read through an open descriptor finds. -/
def World.bytesAt (w : World) (d : Descriptor) (size offset : Nat) : Bytes :=
  ((w.files.inode d.ino).content.drop offset).take size

omit [Sha256] in
theorem unreliableRead_open (hrel : E.Reliable) (hget : w.cl.fds.get fi.fh = some d) (path : CString)
    (size offset : Nat) :
    unreliableRead E path size offset (some fi) w =
      ((((w.bytesAt d size offset).length : Int), w.bytesAt d size offset), w) := by
  have hhandle : handleFd E .readOpen path (some fi) O_RDONLY = pure (fi.fh : Int) := rfl
  have hclose : closeUnlessHandle fi.fh (some fi) = pure () := rfl
  have hfh : ¬ (fi.fh : Int) = -1 := by omega
  unfold unreliableRead
  rw [answer_zero hrel.plain, hhandle, bind_run, pure_run, if_neg hfh]
  simp only [bind_run, hclose, posixPread, hrel.calls, hget]
  rw [if_neg (by omega)]
  rfl

omit [Sha256] in
/-- `pwrite` that does not fail and takes all the bytes. -/
theorem posixPwrite_open (hrel : E.Reliable) (hget : w.cl.fds.get fi.fh = some d) (buf : Bytes)
    (offset : Nat) : posixPwrite E .pwrite fi.fh buf offset w =
      if d.flags &&& O_ACCMODE = O_RDONLY then failWith EBADF w
      else if buf = [] then (0, w)
      else ((buf.length : Int), w.setFiles (w.files.put d.ino
        (written d.flags (w.files.inode d.ino).content offset buf) (E.now .pwrite))) := by
  have htakes : E.takes buf = buf := by rw [Env.takes, hrel.whole]
  simp only [posixPwrite, attempt, hrel.calls, hget, htakes]

theorem writeThrough_result (path : CString) (buf : Bytes) (offset : Nat) (fi : FuseFileInfo) (w : World) :
    (writeThrough E path buf offset (some fi) w).1 =
      if (posixPwrite E .pwrite fi.fh buf offset w).1 = -1 then
        -(posixPwrite E .pwrite fi.fh buf offset w).2.errno
      else (posixPwrite E .pwrite fi.fh buf offset w).1 :=
  congrArg Prod.fst (writeThrough_run path buf offset fi w)

omit [Sha256] in
theorem posixPwrite_fds (hrel : E.Reliable) (hget : w.cl.fds.get fi.fh = some d) (buf : Bytes)
    (offset : Nat) : (posixPwrite E .pwrite fi.fh buf offset w).2.cl.fds = w.cl.fds ∧
      (posixPwrite E .pwrite fi.fh buf offset w).2.cl.dirty_files = w.cl.dirty_files ∧
      (posixPwrite E .pwrite fi.fh buf offset w).2.srv = w.srv := by
  rw [posixPwrite_open hrel hget]
  split_ifs <;> exact ⟨rfl, rfl, rfl⟩

/-- A read of both gives the same bytes. -/
theorem World.Twins.read (h : World.Twins link w w') (hrel : E.Reliable)
    (hfi : World.SameHandle link w w' fi fi') (path : CString) (size offset : Nat) :
    (unreliableRead E path size offset (some fi') w').1 =
        (unreliableRead E path size offset (some fi) w).1 ∧
      World.Keep link link w w' (unreliableRead E path size offset (some fi) w).2
        (unreliableRead E path size offset (some fi') w').2 := by
  obtain ⟨d, d', hget, hget', _, hlink⟩ := hfi
  rw [unreliableRead_open hrel hget, unreliableRead_open hrel hget']
  refine ⟨?_, h.keep_same (refl_of World.Same w) (refl_of World.Same w') (refl_of World.FdsKept w)
    (refl_of World.FdsKept w')⟩
  simp only [World.bytesAt, h.files.content d.ino d'.ino hlink]

/-- A write of both goes to linked files. -/
theorem World.Twins.write (h : World.Twins link w w') (hrel : E.Reliable)
    (hfi : World.SameHandle link w w' fi fi') (path : CString) (buf : Bytes) (offset : Nat) :
    (unreliableWrite E path buf offset (some fi') w').1 =
        (unreliableWrite E path buf offset (some fi) w).1 ∧
      World.Keep link link w w' (unreliableWrite E path buf offset (some fi) w).2
        (unreliableWrite E path buf offset (some fi') w').2 := by
  obtain ⟨d, d', hget, hget', hflags, hlink⟩ := hfi
  obtain ⟨hfds, hdirty, hsrv⟩ := posixPwrite_fds hrel hget buf offset
  obtain ⟨hfds', hdirty', hsrv'⟩ := posixPwrite_fds hrel hget' buf offset
  rw [unreliableWrite_plain path hrel.plain, unreliableWrite_plain path hrel.plain,
    writeThrough_result, writeThrough_result, writeThrough_handle, writeThrough_handle]
  refine ⟨?_, .of_parts (fun _ _ hl => hl) ?_ ?_ ?_ (.of_eq hfds) (.of_eq hfds')⟩
  · rw [posixPwrite_open hrel hget, posixPwrite_open hrel hget', hflags]
    by_cases haccess : d.flags &&& O_ACCMODE = O_RDONLY
    · simp only [if_pos haccess]
      rfl
    · simp only [if_neg haccess]
      by_cases hnone : buf = []
      · simp only [if_pos hnone]
        rw [if_neg (by decide), if_neg (by decide)]
      · simp only [if_neg hnone]
        rw [if_neg (by omega), if_neg (by omega)]
  · exact hsrv'.trans (h.srv.trans hsrv.symm)
  · show insert _ (posixPwrite E .pwrite fi'.fh buf offset w').2.cl.dirty_files =
      insert _ (posixPwrite E .pwrite fi.fh buf offset w).2.cl.dirty_files
    rw [hdirty, hdirty', h.dirty]
  · show Fs.Twins tempNames link (posixPwrite E .pwrite fi.fh buf offset w).2.files
      (posixPwrite E .pwrite fi'.fh buf offset w').2.files
    rw [posixPwrite_open hrel hget, posixPwrite_open hrel hget', hflags]
    split_ifs
    · exact h.files
    · exact h.files
    · refine h.files.rewrite hlink ?_
      simp only [h.files.content d.ino d'.ino hlink]

end Handle

section OnCopy

variable {path : CString}

omit [Sha256] in
theorem onFile_some {site : Site} (hok : E.fails site = none) {name : Bytes} {i : Nat}
    (hname : w.files.names name = some i) (change : File → File) :
    onFile E site name change w = (0, w.setFiles (w.files.setInode i (change (w.files.inode i)))) := by
  simp only [onFile, attempt, hok, hname]

omit [Sha256] in
theorem onFile_none {site : Site} (hok : E.fails site = none) {name : Bytes}
    (hname : w.files.names name = none) (change : File → File) :
    onFile E site name change w = failWith ENOENT w := by
  simp only [onFile, attempt, hok, hname]

/-- A handler that changes the temporary copy of a path in place. -/
theorem World.Twins.onFile (h : World.Twins link w w') (hrel : E.Reliable) (site : Site)
    (halike : w.files.names (getTempPath path) ≠ none → w'.files.names (getTempPath path) ≠ none)
    {change : File → File}
    (hchange : ∀ file file', file.content = file'.content → (change file).content = (change file').content) :
    let handler : Prog Int := unlessInjected E do
      let ret ← Bnfs.onFile E site (getTempPath path) change
      orErrno ret
    (handler w').1 = (handler w).1 ∧ World.Keep link link w w' (handler w).2 (handler w').2 := by
  intro handler
  have hrun : ∀ v, handler v = ((orErrno (Bnfs.onFile E site (getTempPath path) change v).1
      (Bnfs.onFile E site (getTempPath path) change v).2).1,
      (Bnfs.onFile E site (getTempPath path) change v).2) := by
    intro v
    show unlessInjected E _ v = _
    rw [unlessInjected_zero hrel.plain, bind_run]
    exact Prod.ext rfl (orErrno_world _ _)
  rw [hrun, hrun]
  cases hname : w.files.names (getTempPath path) with
  | none =>
      have hname' : w'.files.names (getTempPath path) = none := by
        by_contra hne
        exact h.names_ne_none hne hname
      rw [onFile_none (hrel.calls site) hname, onFile_none (hrel.calls site) hname']
      exact ⟨rfl, h.keep_same (same_failWith ENOENT w) (same_failWith ENOENT w') (.of_eq rfl) (.of_eq rfl)⟩
  | some i =>
      obtain ⟨j, hname'⟩ := Option.ne_none_iff_exists'.mp (halike (hname ▸ Option.some_ne_none i))
      have hlink := h.files.linked (getTempPath_mem_tempNames path) hname hname'
      rw [onFile_some (hrel.calls site) hname, onFile_some (hrel.calls site) hname']
      refine ⟨rfl, .of_parts (fun _ _ hl => hl) h.srv h.dirty ?_ (.of_eq rfl) (.of_eq rfl)⟩
      exact h.files.rewrite hlink (hchange _ _ (h.files.content i j hlink))

theorem World.Twins.chmod (h : World.Twins link w w') (hrel : E.Reliable) (mode : Int)
    (halike : w.files.names (getTempPath path) ≠ none → w'.files.names (getTempPath path) ≠ none) :
    (unreliableChmod E path mode w').1 = (unreliableChmod E path mode w).1 ∧
      World.Keep link link w w' (unreliableChmod E path mode w).2 (unreliableChmod E path mode w').2 :=
  h.onFile hrel .chmod halike fun _ _ hcontent => hcontent

theorem World.Twins.truncate (h : World.Twins link w w') (hrel : E.Reliable) {length : Int}
    (halike : 0 ≤ length → w.files.names (getTempPath path) ≠ none →
      w'.files.names (getTempPath path) ≠ none) :
    (unreliableTruncate E path length w').1 = (unreliableTruncate E path length w).1 ∧
      World.Keep link link w w' (unreliableTruncate E path length w).2
        (unreliableTruncate E path length w').2 := by
  by_cases hneg : length < 0
  · have hrun : ∀ v, unreliableTruncate E path length v = (-EINVAL, { v with errno := EINVAL }) := by
      intro v
      rw [unreliableTruncate, unlessInjected_zero hrel.plain, bind_run, posixTruncate, if_pos hneg]
      rfl
    rw [hrun, hrun]
    exact ⟨rfl, h.keep_same ⟨rfl, rfl, rfl⟩ ⟨rfl, rfl, rfl⟩ (.of_eq rfl) (.of_eq rfl)⟩
  · unfold unreliableTruncate posixTruncate
    rw [if_neg hneg]
    exact h.onFile hrel .truncate (halike (not_lt.mp hneg)) fun file file' hcontent => by
      simp only [hcontent]

end OnCopy

section Names

theorem unlink_run (hrel : E.Reliable) (path : CString) (w : World) : unreliableUnlink E path w =
    let answered := unary E .unlink (FileServer.unlink E path.bytes) (deleteFromTemp E path w).2
    ((if answered.1.isSome then 0 else -1 : Int), answered.2) := by
  have hclient : AFSClient.unlink E path w =
      ((if (unary E .unlink (FileServer.unlink E path.bytes) (deleteFromTemp E path w).2).1.isSome then 0
        else -1 : Int), (unary E .unlink (FileServer.unlink E path.bytes) (deleteFromTemp E path w).2).2) := by
    unfold AFSClient.unlink
    simp only [bind_run]
    split_ifs <;> rfl
  rw [unreliableUnlink, unlessInjected_zero hrel.plain, bind_run, hclient]
  by_cases hsome : (unary E .unlink (FileServer.unlink E path.bytes)
      (deleteFromTemp E path w).2).1.isSome = true
  · simp only [if_pos hsome]
    rfl
  · simp only [if_neg hsome]
    rfl

theorem World.Twins.unlink (h : World.Twins link w w') (hrel : E.Reliable) (path : CString) :
    (unreliableUnlink E path w').1 = (unreliableUnlink E path w).1 ∧
      World.Keep link link w w' (unreliableUnlink E path w).2 (unreliableUnlink E path w').2 := by
  obtain ⟨hfiles, hdirty, hsrv⟩ :=
    posixRemove_files (hrel.calls .deleteFromTempRemove) (getTempPath path) w
  obtain ⟨hfiles', hdirty', hsrv'⟩ :=
    posixRemove_files (hrel.calls .deleteFromTempRemove) (getTempPath path) w'
  have hsame : (deleteFromTemp E path w').2.srv = (deleteFromTemp E path w).2.srv :=
    hsrv'.trans (h.srv.trans hsrv.symm)
  obtain ⟨hreply, hserved⟩ := @unary_of_srv E _ .unlink (FileServer.unlink E path.bytes) _ _ hsame
  rw [unlink_run hrel, unlink_run hrel]
  dsimp only
  rw [hreply]
  refine ⟨rfl, .of_parts (fun _ _ hl => hl) hserved ?_ ?_ (.of_eq ?_) (.of_eq ?_)⟩
  · rw [unary_cl, unary_cl]
    show Finset.erase (posixRemove _ _ _ w').2.cl.dirty_files _ =
      Finset.erase (posixRemove _ _ _ w).2.cl.dirty_files _
    rw [hdirty, hdirty', h.dirty]
  · rw [World.files, World.files, unary_cl, unary_cl]
    show Fs.Twins tempNames link (posixRemove _ _ _ w).2.files (posixRemove _ _ _ w').2.files
    rw [hfiles, hfiles']
    exact h.files.remove _
  · rw [unary_cl]
    exact posixRemove_fds E _ _ w
  · rw [unary_cl]
    exact posixRemove_fds E _ _ w'

end Names

section Rename

variable {old_path new_path : CString}

theorem World.Twins.renameOnServer (h : World.Twins link w w') (old_path new_path : CString) :
    (AFSClient.renameOnServer E old_path new_path w').1 =
        (AFSClient.renameOnServer E old_path new_path w).1 ∧
      World.Keep link link w w' (AFSClient.renameOnServer E old_path new_path w).2
        (AFSClient.renameOnServer E old_path new_path w').2 := by
  obtain ⟨hreply, hserved⟩ := @unary_of_srv E _ .rename
    (FileServer.rename E old_path.bytes new_path.bytes) _ _ h.srv
  have hcl := unary_cl E w .rename (FileServer.rename E old_path.bytes new_path.bytes)
  have hcl' := unary_cl E w' .rename (FileServer.rename E old_path.bytes new_path.bytes)
  rw [renameOnServer_run, renameOnServer_run]
  dsimp only
  rw [hreply]
  refine ⟨rfl, .of_parts (fun _ _ hl => hl) hserved ?_ ?_ (.of_eq (by rw [hcl])) (.of_eq (by rw [hcl']))⟩
  · rw [hcl, hcl']
    exact h.dirty
  · rw [World.files, World.files, hcl, hcl']
    exact h.files

/-- There is a persistent copy, and descriptor 0 is in use: a rename sees the copy. -/
def SeesCached (path : CString) (w : World) : Prop :=
  w.files.names (getCachePath path) ≠ none ∧ w.cl.fds.get 0 ≠ none

/-- The temporary copy is moved, if there is one. -/
theorem moves_iff (hrel : E.Reliable) :
    Moves E old_path w ↔ SeesCached old_path w ∧ w.files.names (getTempPath old_path) ≠ none := by
  rw [Moves, isPresentInCache_pos_iff, and_iff_right (hrel.calls _), and_iff_right (hrel.calls _)]
  rfl

theorem sees_iff (hrel : E.Reliable) : 0 < (isPresentInCache E old_path w).1 ↔ SeesCached old_path w := by
  rw [isPresentInCache_pos_iff, and_iff_right (hrel.calls _)]
  rfl

/-- Both see a persistent copy of the old path, or neither does; and if they do, both have a temporary one,
or neither. -/
def RenamesAlike (old_path : CString) (w w' : World) : Prop :=
  (SeesCached old_path w ↔ SeesCached old_path w') ∧
    (SeesCached old_path w → w.files.names (getTempPath old_path) ≠ none →
      w'.files.names (getTempPath old_path) ≠ none)

/-- The temporary copies and the marks are carried alike. -/
theorem World.Twins.carried (h : World.Twins link w w') (hrel : E.Reliable) (old_path new_path : CString) :
    World.Keep link link w w' (Bnfs.carried E old_path new_path w)
      (Bnfs.carried E old_path new_path w') := by
  have hremove := hrel.calls .unmarkFileDirtyRemove
  have hmoved := h.files.rename (getTempPath_mem_tempNames old_path) (getTempPath_mem_tempNames new_path)
  have hsrv : (Bnfs.carried E old_path new_path w').srv = (Bnfs.carried E old_path new_path w).srv := by
    rw [carried_srv, carried_srv, h.srv]
  by_cases hdirty : getHashedPath old_path ∈ w.cl.dirty_files
  · obtain ⟨hfiles, hmarks⟩ := carried_dirty new_path hremove hdirty
    obtain ⟨hfiles', hmarks'⟩ := carried_dirty (w := w') new_path hremove (h.dirty ▸ hdirty)
    refine .of_parts (fun _ _ hl => hl) hsrv ?_ ?_ (carried_fdsKept E _ _ w) (carried_fdsKept E _ _ w')
    · rw [hmarks', hmarks, h.dirty]
    · rw [hfiles', hfiles]
      exact hmoved.remove _
  · obtain ⟨hfiles, hmarks⟩ := carried_clean (E := E) new_path hdirty
    obtain ⟨hfiles', hmarks'⟩ := carried_clean (E := E) (w := w') new_path (h.dirty ▸ hdirty)
    refine .of_parts (fun _ _ hl => hl) hsrv ?_ ?_ (carried_fdsKept E _ _ w) (carried_fdsKept E _ _ w')
    · rw [hmarks', hmarks, h.dirty]
    · rw [hfiles', hfiles]
      exact hmoved

theorem World.Twins.renameClient (h : World.Twins link w w') (hrel : E.Reliable) (new_path : CString)
    (halike : RenamesAlike old_path w w') :
    (AFSClient.rename E old_path new_path w').1 = (AFSClient.rename E old_path new_path w).1 ∧
      World.Keep link link w w' (AFSClient.rename E old_path new_path w).2
        (AFSClient.rename E old_path new_path w').2 := by
  obtain ⟨hsees, htemps⟩ := halike
  have hopened : World.Keep link link w w' (isPresentInCache E old_path w).2
      (isPresentInCache E old_path w').2 :=
    h.keep_same (isPresentInCache_same E old_path w) (isPresentInCache_same E old_path w')
      (posixOpen_fdsKept E _ _ _ w) (posixOpen_fdsKept E _ _ _ w')
  have hserver : ∀ {v v' : World}, World.Keep link link w w' v v' →
      (AFSClient.renameOnServer E old_path new_path v').1 =
          (AFSClient.renameOnServer E old_path new_path v).1 ∧
        World.Keep link link w w' (AFSClient.renameOnServer E old_path new_path v).2
          (AFSClient.renameOnServer E old_path new_path v').2 := by
    intro v v' hbefore
    obtain ⟨hret, hkeep⟩ := @World.Twins.renameOnServer _ E _ _ _ hbefore.twins old_path new_path
    exact ⟨hret, hbefore.trans hkeep⟩
  have hfd : 0 < (isPresentInCache E old_path w).1 ↔ 0 < (isPresentInCache E old_path w').1 := by
    rw [sees_iff hrel, sees_iff hrel, hsees]
  have hmoves : Moves E old_path w ↔ Moves E old_path w' := by
    rw [moves_iff hrel, moves_iff hrel, ← hsees]
    exact and_congr_right fun hseen =>
      ⟨htemps hseen, h.files.names_ne_none (getTempPath_mem_tempNames old_path)⟩
  rcases rename_cases E old_path new_path w with ⟨hunseen, heq⟩ | ⟨hseen, hfails, heq⟩ | ⟨hgoes, heq⟩
  · rcases rename_cases E old_path new_path w' with ⟨_, heq'⟩ | ⟨hseen, _⟩ | ⟨hgoes, _⟩
    · rw [heq, heq']
      exact hserver hopened
    · exact absurd (hfd.mpr hseen) hunseen
    · exact absurd (hfd.mpr hgoes.1) hunseen
  · rcases rename_cases E old_path new_path w' with ⟨hunseen, _⟩ | ⟨_, _, heq'⟩ | ⟨hgoes, _⟩
    · exact absurd (hfd.mp hseen) hunseen
    · rw [heq, heq']
      exact ⟨rfl, ⟨hopened.twins.srv, hopened.twins.dirty, hopened.twins.files⟩, hopened.grows, hopened.kept,
        hopened.kept_right⟩
    · exact absurd (hmoves.mpr hgoes).2 hfails
  · rcases rename_cases E old_path new_path w' with ⟨hunseen, _⟩ | ⟨_, hfails, _⟩ | ⟨_, heq'⟩
    · exact absurd (hfd.mp hgoes.1) hunseen
    · exact absurd (hmoves.mp hgoes).2 hfails
    · rw [heq, heq']
      exact hserver (h.carried hrel old_path new_path)

theorem World.Twins.rename (h : World.Twins link w w') (hrel : E.Reliable) (newpath : CString)
    {oldpath : CString} (halike : RenamesAlike oldpath w w') :
    (unreliableRename E oldpath newpath w').1 = (unreliableRename E oldpath newpath w).1 ∧
      World.Keep link link w w' (unreliableRename E oldpath newpath w).2
        (unreliableRename E oldpath newpath w').2 := by
  obtain ⟨hret, hkeep⟩ := h.renameClient hrel newpath halike
  rw [unreliableRename_world hrel.plain, unreliableRename_world hrel.plain]
  refine ⟨?_, hkeep⟩
  unfold unreliableRename
  rw [unlessInjected_zero hrel.plain, bind_run, bind_run, hret]
  split_ifs <;> rfl

end Rename

section Flush

variable {path : CString}

theorem aside_onFile (E : Env) (site : Site) {name : Bytes} (hname : name ∉ tempNames)
    (change : File → File) (w : World) :
    Fs.Aside tempNames w.files (onFile E site name change w).2.files := by
  rcases onFile_run E site w name change with ⟨_, ⟨_, hi⟩, heq⟩ | ⟨_, _, _, heq⟩
  · rw [heq]
    exact Fs.aside_setInode _ hname hi
  · rw [heq]
    exact .refl tempNames w.files

/-- The copy into the cache leaves the temporary copies alone. -/
theorem aside_copyTemp (E : Env) (path : CString) (w : World) :
    Fs.Aside tempNames w.files (copyTemp E path w).2.files := by
  have hopened := commitToCache_opened E path w
  unfold copyTemp
  rw [bind_run]
  split_ifs
  · have hsame : World.Same w (posixOpen E .commitToCacheOpen (getTempPath path) O_RDWR w).2 :=
      same_posixOpen (by decide) (by decide) w
    show Fs.Aside tempNames w.files (posixOpen E .commitToCacheOpen (getTempPath path) O_RDWR w).2.files
    rw [hsame.files]
    exact .refl tempNames w.files
  · simp only [bind_run]
    revert hopened
    generalize (posixClose (posixOpen E .commitToCacheOpen (getTempPath path) O_RDWR w).1
      (posixOpen E .commitToCacheOpen (getTempPath path) O_RDWR w).2).2 = w₁
    intro hopened
    have hcopied : Fs.Aside tempNames w.files
        (systemCp E .commitToCacheCp (getTempPath path) (getCachePath path) w₁).2.files := by
      rw [← hopened.files]
      rcases systemCp_cases E .commitToCacheCp (getTempPath path) (getCachePath path) w₁ with
        ⟨_, _, heq⟩ | ⟨_, _, _, _, _, _, heq⟩
      · rw [heq]
        exact .refl tempNames w₁.files
      · rw [heq]
        exact Fs.aside_overwrite _ _ _ (getCachePath_notMem_tempNames path)
    split_ifs <;> exact hcopied

/-- A commit of a temporary copy that is there: it keeps its bytes, and the mark is gone. -/
theorem commitToCache_sets (hrel : E.Reliable) (t : Int) {i : Nat} (hw : w.Holds (getTempPath path) i) :
    Fs.Sets tempNames (getTempPath path) i w.files (commitToCache E path t w).2.files ∧
      ((commitToCache E path t w).2.files.inode i).content = (w.files.inode i).content ∧
      (commitToCache E path t w).2.cl.dirty_files = w.cl.dirty_files.erase (getHashedPath path) := by
  have hname := getTempPath_mem_tempNames path
  have hcopied := copyTemp_of_ok E path (hrel.calls _) (hrel.calls _) hw
  have haside := aside_copyTemp E path w
  have hframe := keeps_copyTemp E path w
  have hhidden := hw.sole.hidden hname hw.names
  rw [commitToCache_world, hcopied]
  revert haside hframe
  generalize (copyTemp E path w).2 = w₁
  intro haside hframe
  have hi : w₁.files.names (getTempPath path) = some i := (haside.names _ hname).trans hw.names
  have hinode : w₁.files.inode i = w.files.inode i :=
    haside.inode i (w.files.named_lt _ i hw.names) hhidden
  have hstamped : ∃ file : File, file.content = (w.files.inode i).content ∧
      posixUtime E .commitToCacheUtimeTemp (getTempPath path) t w₁ =
        (0, w₁.setFiles (w₁.files.setInode i file)) := by
    refine ⟨_, ?_, onFile_some (hrel.calls _) hi _⟩
    rw [hinode]
  obtain ⟨file, hcontent, hutime⟩ := hstamped
  have hsets := Fs.sets_setInode tempNames file hi
  have hsole : w₁.files.Sole (getTempPath path) := hframe.files.sole _ (getTempPath_ne_cache path) hw.sole
  have hstamps : (stampCopies E path t w₁).2 = (posixUtime E .commitToCacheUtimeCache (getCachePath path) t
      (w₁.setFiles (w₁.files.setInode i file))).2 := by
    unfold stampCopies
    rw [bind_run, hutime]
    rfl
  have hcache : Fs.Aside tempNames (w₁.files.setInode i file) (posixUtime E .commitToCacheUtimeCache
      (getCachePath path) t (w₁.setFiles (w₁.files.setInode i file))).2.files :=
    aside_onFile E _ (getCachePath_notMem_tempNames path) _ (w₁.setFiles (w₁.files.setInode i file))
  have hmarks : World.Frame Set.univ (w₁.setFiles (w₁.files.setInode i file)) (posixUtime E
      .commitToCacheUtimeCache (getCachePath path) t (w₁.setFiles (w₁.files.setInode i file))).2 :=
    keeps_onFile (Set.mem_univ _) _
  rw [cond_true, hstamps]
  refine ⟨haside.sets hname (hsets.aside hname hcache), ?_, ?_⟩
  · have hkept := hsets.inode_aside hname hsole hcache
    exact (congrArg (·.content) (hkept.trans (Fs.setInode_self _ _ _))).trans hcontent
  · show Finset.erase (posixUtime _ _ _ _ _).2.cl.dirty_files _ = _
    rw [hmarks.dirty]
    exact congrArg (Finset.erase · (getHashedPath path)) hframe.dirty

/-- Without a temporary copy nothing is sent. -/
theorem flush_missing (hrel : E.Reliable) (hname : w.files.names (getTempPath path) = none) :
    (AFSClient.flush E path w).2 = w := by
  have hread : AFSClient.ifstreamRead E .clientFlushIfstream (getTempPath path) w = (none, w) := by
    unfold AFSClient.ifstreamRead
    rw [hrel.calls, Fs.find_eq_none_iff.mpr hname]
    rfl
  unfold AFSClient.flush
  rw [bind_run, hread]
  rfl

/-- If the path is dirty, both have a temporary copy of it or neither has. -/
def FlushesAlike (path : CString) (w w' : World) : Prop :=
  getHashedPath path ∈ w.cl.dirty_files → w.files.names (getTempPath path) ≠ none →
    w'.files.names (getTempPath path) ≠ none

/-- A commit of both. -/
theorem World.Twins.commitToCache (h : World.Twins link w w') (hrel : E.Reliable) (t : Int) {i j : Nat}
    (hi : w.files.names (getTempPath path) = some i) (hj : w'.files.names (getTempPath path) = some j) :
    ∃ link', World.Keep link link' w w' (Bnfs.commitToCache E path t w).2
      (Bnfs.commitToCache E path t w').2 := by
  have hname := getTempPath_mem_tempNames path
  obtain ⟨hsets, hcontent, hdirty⟩ := commitToCache_sets hrel t ⟨hi, h.files.sole _ hname⟩
  obtain ⟨hsets', hcontent', hdirty'⟩ := commitToCache_sets hrel t ⟨hj, h.files.sole_right _ hname⟩
  have hlink := h.files.linked hname hi hj
  refine ⟨fun a b => link a b ∨ (a = i ∧ b = j), .of_parts (fun _ _ => Or.inl) ?_ ?_
    (h.files.sets hname hsets hsets' ?_) (fdsKept_commitToCache path t w) (fdsKept_commitToCache path t w')⟩
  · exact (srvSame_commitToCache E path t w').trans (h.srv.trans (srvSame_commitToCache E path t w).symm)
  · rw [hdirty, hdirty', h.dirty]
  · rw [hcontent, hcontent', h.files.content i j hlink]

theorem World.Twins.flushClient (h : World.Twins link w w') (hrel : E.Reliable)
    (halike : FlushesAlike path w w') :
    ∃ link', World.Keep link link' w w' (AFSClient.flush E path w).2 (AFSClient.flush E path w').2 := by
  by_cases hdirty : getHashedPath path ∈ w.cl.dirty_files
  · have hdirty' : getHashedPath path ∈ w'.cl.dirty_files := h.dirty ▸ hdirty
    cases hi : w.files.names (getTempPath path) with
    | none =>
        have hi' : w'.files.names (getTempPath path) = none := by
          by_contra hne
          exact h.names_ne_none hne hi
        rw [flush_missing hrel hi, flush_missing hrel hi']
        exact ⟨link, h.keep_same (refl_of _ w) (refl_of _ w') (refl_of _ w) (refl_of _ w')⟩
    | some i =>
        obtain ⟨j, hj⟩ := Option.ne_none_iff_exists'.mp (halike hdirty (hi ▸ Option.some_ne_none i))
        have hlink := h.files.linked (getTempPath_mem_tempNames path) hi hj
        have htemp : tempAt w.files path = some (w.files.inode i).content := by
          rw [tempAt, Fs.find_of_names hi]
          rfl
        have htemp' : tempAt w'.files path = some (w.files.inode i).content := by
          rw [tempAt, Fs.find_of_names hj, h.files.content i j hlink]
          rfl
        rw [flush_dirty hrel hdirty htemp, flush_dirty hrel hdirty' htemp', h.srv]
        generalize putFile E (uploadRequests path.bytes (Chunks.pieces BUFSIZE (w.files.inode i).content))
          w.srv = sent
        have hsent : World.Keep link link w w' { w with srv := sent.2 } { w' with srv := sent.2 } :=
          .of_parts (fun _ _ hl => hl) rfl h.dirty h.files (.of_eq rfl) (.of_eq rfl)
        dsimp only
        cases sent.1 with
        | none => exact ⟨link, hsent⟩
        | some reply =>
            obtain ⟨link', hkeep⟩ := hsent.twins.commitToCache hrel (toInt reply.lastModifiedTime) hi hj
            exact ⟨link', hsent.trans hkeep⟩
  · have hclean : getHashedPath path ∉ w'.cl.dirty_files := h.dirty ▸ hdirty
    obtain ⟨hsame, hkept⟩ := flush_clean E hdirty
    obtain ⟨hsame', hkept'⟩ := flush_clean E hclean
    exact ⟨link, h.keep_same hsame hsame' hkept hkept'⟩

theorem World.Twins.flush (h : World.Twins link w w') (hrel : E.Reliable) {fi fi' : FuseFileInfo}
    (hfi : World.SameHandle link w w' fi fi') (halike : FlushesAlike path w w') :
    (unreliableFlush E path fi' w').1 = (unreliableFlush E path fi w).1 ∧
      ∃ link', World.Keep link link' w w' (unreliableFlush E path fi w).2
        (unreliableFlush E path fi' w').2 := by
  obtain ⟨d, d', hget, hget', _, _⟩ := hfi
  have hdup : DupOk E fi w := ⟨hrel.calls _, by rw [hget]; rfl⟩
  have hdup' : DupOk E fi' w' := ⟨hrel.calls _, by rw [hget']; rfl⟩
  obtain ⟨w₁, hsame, hkept, hflush⟩ := flushThrough_of_dupOk path fi hdup
  obtain ⟨w₁', hsame', hkept', hflush'⟩ := flushThrough_of_dupOk path fi' hdup'
  rw [unreliableFlush_plain path fi hrel.plain, unreliableFlush_plain path fi' hrel.plain, hflush, hflush']
  have hduplicated := h.keep_same hsame hsame' hkept hkept'
  have halike₁ : FlushesAlike path w₁ w₁' := by
    intro hdirty hne
    rw [hsame.dirty] at hdirty
    rw [hsame.files] at hne
    rw [hsame'.files]
    exact halike hdirty hne
  obtain ⟨link', hkeep⟩ := hduplicated.twins.flushClient hrel halike₁
  exact ⟨rfl, link', hduplicated.trans hkeep⟩

end Flush

end Bnfs
