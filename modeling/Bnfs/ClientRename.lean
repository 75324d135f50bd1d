import Bnfs.ClientFetchRace

/-! A rename of the client, case by case: it goes to the server at once, or fails at the temporary copy, or takes
the temporary copy and its mark along before it goes to the server. What holds of a rename is shown from these
three cases. -/

namespace Bnfs

open FileSystem Programs

section Server

variable {E : Env}

/-- What an RPC gives and does depends on the server alone. -/
theorem unary_of_srv {Reply : Type} (r : Rpc) (handler : Server → Option Reply × Server) {w w' : World}
    (h : w'.srv = w.srv) : (unary E r handler w').1 = (unary E r handler w).1 ∧
      (unary E r handler w').2.srv = (unary E r handler w).2.srv := by
  unfold unary
  rw [h]
  cases E.rpc r with
  | answered => exact ⟨rfl, rfl⟩
  | lost => exact ⟨rfl, h⟩
  | unanswered => exact ⟨rfl, rfl⟩

end Server

/-- `rename` on names the client has, or one that fails. -/
theorem posixRename_run (E : Env) (site : Site) (old target : Bytes) (w : World) :
    ((E.fails site = none ∧ w.files.names old ≠ none) ∧
      posixRename E site old target w = (0, w.setFiles (w.files.rename old target))) ∨
    (¬ (E.fails site = none ∧ w.files.names old ≠ none) ∧
      posixRename E site old target w = failWith ((E.fails site).getD ENOENT) w) := by
  unfold posixRename attempt
  cases hfails : E.fails site with
  | some e => exact Or.inr ⟨fun h => absurd h.1 (Option.some_ne_none e), rfl⟩
  | none =>
      cases hname : w.files.names old with
      | none =>
          simp only [hname]
          exact Or.inr ⟨fun h => h.2 rfl, rfl⟩
      | some ino =>
          simp only [hname]
          exact Or.inl ⟨⟨trivial, Option.some_ne_none ino⟩, trivial⟩

theorem posixRemove_fds (E : Env) (site : Site) (name : Bytes) (w : World) :
    (posixRemove E site name w).2.cl.fds = w.cl.fds := by
  rcases posixRemove_run E site w name with ⟨_, _, heq⟩ | ⟨_, e, _, heq⟩ <;> (rw [heq]; rfl)

/-- The errno of a call that fails. -/
theorem errno_or_enoent_pos (E : Env) (site : Site) : 0 < (E.fails site).getD ENOENT := by
  cases hfails : E.fails site with
  | none => exact (by decide : (0 : Int) < ENOENT)
  | some e => exact E.fails_pos site e hfails

variable [Sha256]

omit [Sha256] in
theorem renameOnServer_run (E : Env) (old new : CString) (w : World) :
    AFSClient.renameOnServer E old new w =
      let answered := unary E .rename (FileServer.rename E old.bytes new.bytes) w
      ((if answered.1.isSome then 0 else -1 : Int), answered.2) := by
  unfold AFSClient.renameOnServer
  rw [bind_run]
  dsimp only
  split_ifs <;> rfl

omit [Sha256] in
theorem renameOnServer_cl (E : Env) (old new : CString) (w : World) :
    (AFSClient.renameOnServer E old new w).2.cl = w.cl := by
  rw [renameOnServer_run]
  exact unary_cl E w .rename _

section Client

variable (E : Env) (old new : CString) (w : World)

/-- The temporary copy moves: the old path is in the cache, under a descriptor other than 0, and the local
rename goes through. -/
def Moves : Prop :=
  0 < (isPresentInCache E old w).1 ∧ E.fails .clientRenameRename = none ∧
    w.files.names (getTempPath old) ≠ none

/-- The persistent copy is opened under a descriptor above 0. -/
theorem isPresentInCache_pos_iff : 0 < (isPresentInCache E old w).1 ↔
    E.fails .isPresentInCache = none ∧ w.files.names (getCachePath old) ≠ none ∧ w.cl.fds.get 0 ≠ none := by
  unfold isPresentInCache
  rcases posixOpen_rdonly E .isPresentInCache (getCachePath old) w with
    ⟨ino, ⟨hok, hname⟩, heq⟩ | ⟨hmissing, e, _, heq⟩
  · rw [heq, newFd_pos_iff, and_iff_right hok, and_iff_right (hname ▸ Option.some_ne_none ino)]
  · rw [heq]
    exact iff_of_false (by decide : ¬ (0 : Int) < -1) fun h => h.2.1 (hmissing h.1)

theorem isPresentInCache_same : World.Same w (isPresentInCache E old w).2 :=
  same_posixOpen (by decide) (by decide) w

/-- The mark of a path after its temporary copy, and the persistent one closed. -/
def carryMark (fd : Int) : Prog Unit := do
  let dirty ← isFileDirty old
  if dirty then
    unmarkFileDirty E old
    markFileDirty new
  let _ ← posixClose fd

/-- The world in which the server is asked, once the temporary copy was moved. -/
def carried : World :=
  (carryMark E old new (isPresentInCache E old w).1 ((isPresentInCache E old w).2.setFiles
    (w.files.rename (getTempPath old) (getTempPath new)))).2

theorem rename_cases :
    (¬ 0 < (isPresentInCache E old w).1 ∧
      AFSClient.rename E old new w = AFSClient.renameOnServer E old new (isPresentInCache E old w).2) ∨
    (0 < (isPresentInCache E old w).1 ∧
      ¬ (E.fails .clientRenameRename = none ∧ w.files.names (getTempPath old) ≠ none) ∧
      AFSClient.rename E old new w = (-(E.fails .clientRenameRename).getD ENOENT,
        { (isPresentInCache E old w).2 with errno := (E.fails .clientRenameRename).getD ENOENT })) ∨
    (Moves E old w ∧
      AFSClient.rename E old new w = AFSClient.renameOnServer E old new (carried E old new w)) := by
  have hfiles := (isPresentInCache_same E old w).files
  by_cases hfd : (isPresentInCache E old w).1 > 0
  · right
    unfold AFSClient.rename
    rw [bind_run, if_pos hfd, bind_run]
    rcases posixRename_run E .clientRenameRename (getTempPath old) (getTempPath new)
      (isPresentInCache E old w).2 with ⟨hgoes, heq⟩ | ⟨hfails, heq⟩
    · right
      rw [hfiles] at hgoes heq
      refine ⟨⟨hfd, hgoes⟩, ?_⟩
      rw [heq, if_neg (show ¬ (0 : Int) = -1 by decide), carried, carryMark]
      simp only [bind_run]
      split_ifs <;> rfl
    · left
      rw [hfiles] at hfails
      have hret : (failWith ((E.fails .clientRenameRename).getD ENOENT) (isPresentInCache E old w).2).1 = -1 :=
        rfl
      refine ⟨hfd, hfails, ?_⟩
      rw [heq, if_pos hret]
      rfl
  · left
    refine ⟨hfd, ?_⟩
    unfold AFSClient.rename
    rw [bind_run, if_neg hfd]

/-- Where the temporary copy moves, the server is asked after that. -/
theorem rename_of_moves (h : Moves E old w) :
    AFSClient.rename E old new w = AFSClient.renameOnServer E old new (carried E old new w) := by
  rcases rename_cases E old new w with ⟨hfd, _⟩ | ⟨_, hfails, _⟩ | ⟨_, heq⟩
  · exact absurd h.1 hfd
  · exact absurd h.2 hfails
  · exact heq

theorem carried_srv : (carried E old new w).srv = w.srv := by
  have hclosed : ∀ fd (w' : World), w'.srv = w.srv → (posixClose fd w').2.srv = w.srv :=
    fun fd w' h => (same_posixClose fd w').srv.trans h
  have hopened := (isPresentInCache_same E old w).srv
  unfold carried carryMark
  simp only [bind_run]
  split_ifs
  · refine hclosed _ _ ?_
    exact ((keeps_posixRemove (Set.mem_univ _)) _).srv.trans hopened
  · exact hclosed _ _ hopened

variable {E old w}

theorem carried_clean (hclean : getHashedPath old ∉ w.cl.dirty_files) :
    (carried E old new w).files = w.files.rename (getTempPath old) (getTempPath new) ∧
      (carried E old new w).cl.dirty_files = w.cl.dirty_files := by
  have hopened := (isPresentInCache_same E old w).dirty
  have hunmarked : ¬ (isFileDirty old ((isPresentInCache E old w).2.setFiles
      (w.files.rename (getTempPath old) (getTempPath new)))).1 = true := by
    rw [Bool.not_eq_true]
    exact decide_eq_false (by rwa [World.setFiles_dirty, hopened])
  unfold carried carryMark
  rw [bind_run, if_neg hunmarked]
  have hclosed := same_posixClose (isPresentInCache E old w).1 ((isPresentInCache E old w).2.setFiles
    (w.files.rename (getTempPath old) (getTempPath new)))
  exact ⟨hclosed.files, hclosed.dirty.trans hopened⟩

/-- For a dirty path the removal under the old name comes after the move, and the new path is marked. -/
theorem carried_marked (hdirty : getHashedPath old ∈ w.cl.dirty_files) :
    (carried E old new w).files = (posixRemove E .unmarkFileDirtyRemove (getTempPath old)
        ((isPresentInCache E old w).2.setFiles
          (w.files.rename (getTempPath old) (getTempPath new)))).2.files ∧
      (carried E old new w).cl.dirty_files = insert (getHashedPath new) w.cl.dirty_files := by
  have hopened := (isPresentInCache_same E old w).dirty
  let moved := (isPresentInCache E old w).2.setFiles (w.files.rename (getTempPath old) (getTempPath new))
  have hmarked : (isFileDirty old moved).1 = true :=
    decide_eq_true (by rwa [World.setFiles_dirty, hopened])
  have hmarks : (unmarkFileDirty E old moved).2.cl.dirty_files = moved.cl.dirty_files :=
    (keeps_posixRemove (Set.mem_univ _) moved).dirty
  have hclosed := same_posixClose (isPresentInCache E old w).1
    (markFileDirty new (unmarkFileDirty E old moved).2).2
  unfold carried carryMark
  rw [bind_run, if_pos hmarked]
  refine ⟨hclosed.files, hclosed.dirty.trans ?_⟩
  exact congrArg (insert (getHashedPath new)) (hmarks.trans hopened)

/-- The temporary copy of a dirty path is removed again under its old name, where it no longer is unless the two
names had one file. -/
theorem carried_dirty (hremove : E.fails .unmarkFileDirtyRemove = none)
    (hdirty : getHashedPath old ∈ w.cl.dirty_files) :
    (carried E old new w).files =
        (w.files.rename (getTempPath old) (getTempPath new)).remove (getTempPath old) ∧
      (carried E old new w).cl.dirty_files = insert (getHashedPath new) w.cl.dirty_files := by
  obtain ⟨hfiles, hmarks⟩ := carried_marked (E := E) new hdirty
  exact ⟨hfiles.trans (posixRemove_files hremove _ _).1, hmarks⟩

/-- If it cannot be removed there, it stays where the rename put it. -/
theorem carried_dirty_of_fails {e : Int} (hremove : E.fails .unmarkFileDirtyRemove = some e)
    (hdirty : getHashedPath old ∈ w.cl.dirty_files) :
    (carried E old new w).files = w.files.rename (getTempPath old) (getTempPath new) ∧
      (carried E old new w).cl.dirty_files = insert (getHashedPath new) w.cl.dirty_files := by
  obtain ⟨hfiles, hmarks⟩ := carried_marked (E := E) new hdirty
  rw [posixRemove_of_fails hremove] at hfiles
  exact ⟨hfiles, hmarks⟩

theorem carried_fdsKept (E : Env) (old new : CString) (w : World) :
    World.FdsKept w (carried E old new w) := by
  have hopened : World.FdsKept w (isPresentInCache E old w).2 := posixOpen_fdsKept E _ _ _ w
  have hfree : w.cl.fds.get (isPresentInCache E old w).1 = none := posixOpen_fd_free E _ _ _ w
  have hclosed : ∀ w' : World, w'.cl.fds = (isPresentInCache E old w).2.cl.fds →
      World.FdsKept w (posixClose (isPresentInCache E old w).1 w').2 :=
    fun w' h => World.FdsKept.close (trans_of World.FdsKept hopened (.of_eq h)) hfree
  unfold carried carryMark
  simp only [bind_run]
  split_ifs
  · exact hclosed _ (posixRemove_fds E _ _ _)
  · exact hclosed _ rfl

end Client

end Bnfs
