import Bnfs.ClientErrors
import Bnfs.ClientPending

/-! The copies and the marks of all paths, under an unlink and a rename. Both change them before they ask the
server, and do not change them back when it refuses. A rename moves only the temporary copy of the path itself. -/

namespace Bnfs

open FileSystem Programs FileServer

section LocalState

variable [Sha256]

/-- The bytes of both copies of every path are the same, and the marks. -/
structure World.LocalSame (w w' : World) : Prop where
  temp : ∀ path, tempAt w'.files path = tempAt w.files path
  cache : ∀ path, cacheAt w'.files path = cacheAt w.files path
  dirty : w'.cl.dirty_files = w.cl.dirty_files

theorem World.LocalSame.of_same {w w' : World} (hfiles : w'.files = w.files)
    (hdirty : w'.cl.dirty_files = w.cl.dirty_files) : World.LocalSame w w' :=
  ⟨fun path => by rw [hfiles], fun path => by rw [hfiles], hdirty⟩

theorem World.localSame_of_cl {w w' w'' : World} (hcl : w''.cl = w'.cl) :
    World.LocalSame w w'' ↔ World.LocalSame w w' := by
  have hfiles : w''.files = w'.files := congrArg (·.files) hcl
  constructor
  · rintro ⟨htemp, hcache, hdirty⟩
    exact ⟨fun path => hfiles ▸ htemp path, fun path => hfiles ▸ hcache path, hcl ▸ hdirty⟩
  · rintro ⟨htemp, hcache, hdirty⟩
    exact ⟨fun path => hfiles ▸ htemp path, fun path => hfiles ▸ hcache path, hcl ▸ hdirty⟩

theorem tempAt_eq_none_iff {files : Files} {path : CString} :
    tempAt files path = none ↔ files.names (getTempPath path) = none := by
  rw [tempAt, Option.map_eq_none_iff, Fs.find_eq_none_iff]

theorem cacheAt_eq_none_iff {files : Files} {path : CString} :
    cacheAt files path = none ↔ files.names (getCachePath path) = none := by
  rw [cacheAt, Option.map_eq_none_iff, Fs.find_eq_none_iff]

/-- A name that is freed is missed by the path whose copy it was. -/
theorem World.LocalSame.there {w w' : World} (h : World.LocalSame w w') {path : CString}
    (hthere : w.files.names (getTempPath path) ≠ none) : w'.files.names (getTempPath path) ≠ none := by
  rw [ne_eq, ← tempAt_eq_none_iff, h.temp, tempAt_eq_none_iff]
  exact hthere

end LocalState

/-- The call is answered, and the handler's system call does not fail. -/
def RemoteOp.GoesThrough (E : Env) (srv : Server) (op : RemoteOp) : Prop :=
  E.rpc op.rpc = .answered ∧ op.errno E srv = none

instance (E : Env) (srv : Server) (op : RemoteOp) : Decidable (op.GoesThrough E srv) :=
  inferInstanceAs (Decidable (_ ∧ _))

section Unlink

variable [Sha256] {E : Env} {path : CString} {w : World}

/-- An unlink that changes nothing here: the path is clean, and its temporary copy is not there or stays. -/
def UnlinkIdle (E : Env) (path : CString) (w : World) : Prop :=
  getHashedPath path ∉ w.cl.dirty_files ∧
    (w.files.names (getTempPath path) = none ∨ E.fails .deleteFromTempRemove ≠ none)

theorem deleteFromTemp_localSame_iff : World.LocalSame w (deleteFromTemp E path w).2 ↔ UnlinkIdle E path w := by
  have hfiles : (deleteFromTemp E path w).2.files =
      (posixRemove E .deleteFromTempRemove (getTempPath path) w).2.files := rfl
  have hdirty : (deleteFromTemp E path w).2.cl.dirty_files =
      (posixRemove E .deleteFromTempRemove (getTempPath path) w).2.cl.dirty_files.erase (getHashedPath path) := rfl
  have hmarks : (posixRemove E .deleteFromTempRemove (getTempPath path) w).2.cl.dirty_files = w.cl.dirty_files :=
    (keeps_posixRemove (Set.mem_univ _) w).dirty
  rw [hmarks] at hdirty
  constructor
  · intro h
    refine ⟨?_, ?_⟩
    · rw [← h.dirty, hdirty]
      exact Finset.notMem_erase _ _
    · by_contra hnot
      obtain ⟨hthere, hok⟩ := not_or.mp hnot
      refine h.there hthere ?_
      rw [hfiles, (posixRemove_files (not_not.mp hok) _ w).1]
      exact Fs.remove_names_self _ _
  · rintro ⟨hclean, hidle⟩
    refine .of_same ?_ (hdirty.trans (Finset.erase_eq_of_notMem hclean))
    rw [hfiles]
    cases hfails : E.fails .deleteFromTempRemove with
    | some e =>
        rw [posixRemove_of_fails hfails]
        rfl
    | none =>
        rw [(posixRemove_files hfails _ w).1]
        exact Fs.remove_of_missing (hidle.resolve_right fun hne => hne hfails)

/-- An unlink that fails leaves the client as it was exactly if it changes nothing here. -/
theorem unlink_undone_iff :
    ((AFSClient.unlink E path w).1 ≠ 0 → World.LocalSame w (AFSClient.unlink E path w).2) ↔
      (RemoteOp.unlink path).GoesThrough E w.srv ∨ UnlinkIdle E path w := by
  have hresult : (AFSClient.unlink E path w).1 =
      if (RemoteOp.unlink path).GoesThrough E w.srv then 0 else -1 := RemoteOp.result_unlink path
  have hsame : World.LocalSame w (AFSClient.unlink E path w).2 ↔ UnlinkIdle E path w := by
    rw [World.localSame_of_cl (unlink_cl E path w), deleteFromTemp_localSame_iff]
  rw [hresult, hsame]
  split_ifs with hgoes
  · exact iff_of_true (fun hne => absurd rfl hne) (Or.inl hgoes)
  · rw [or_iff_right hgoes]
    exact ⟨fun h => h (by decide), fun h _ => h⟩

end Unlink

section Rename

variable [Sha256] {E : Env} {old new : CString} {w : World}

/-- A move that changes nothing here: both names are of one file, the old path is clean, or the file under the old
name is not removed and the new path is dirty already. -/
def MoveIdle (E : Env) (old new : CString) (w : World) : Prop :=
  w.files.names (getTempPath old) = w.files.names (getTempPath new) ∧
    (getHashedPath old ∉ w.cl.dirty_files ∨
      (E.fails .unmarkFileDirtyRemove ≠ none ∧ getHashedPath new ∈ w.cl.dirty_files))

theorem carried_localSame_iff (hthere : w.files.names (getTempPath old) ≠ none) :
    World.LocalSame w (carried E old new w) ↔ MoveIdle E old new w := by
  have hnames : (carried E old new w).files = w.files.rename (getTempPath old) (getTempPath new) →
      World.LocalSame w (carried E old new w) →
      w.files.names (getTempPath old) = w.files.names (getTempPath new) := by
    intro hfiles h
    by_contra hne
    have hkept := h.there hthere
    rw [hfiles] at hkept
    exact hkept (Fs.rename_names_old hne)
  by_cases hdirty : getHashedPath old ∈ w.cl.dirty_files
  · cases hremove : E.fails .unmarkFileDirtyRemove with
    | none =>
        obtain ⟨hfiles, _⟩ := carried_dirty new hremove hdirty
        refine iff_of_false (fun h => ?_) fun hidle => ?_
        · have hkept := h.there hthere
          rw [hfiles] at hkept
          exact hkept (Fs.remove_names_self _ _)
        · rcases hidle.2 with hclean | ⟨hfails, _⟩
          · exact hclean hdirty
          · exact hfails hremove
    | some e =>
        obtain ⟨hfiles, hmarks⟩ := carried_dirty_of_fails new hremove hdirty
        constructor
        · intro h
          refine ⟨hnames hfiles h, Or.inr ⟨hremove ▸ Option.some_ne_none e, ?_⟩⟩
          rw [← h.dirty, hmarks]
          exact Finset.mem_insert_self _ _
        · rintro ⟨hsame, hclean | ⟨_, hnew⟩⟩
          · exact absurd hdirty hclean
          · exact .of_same (hfiles.trans (Fs.rename_of_same hsame)) (hmarks.trans (Finset.insert_eq_of_mem hnew))
  · obtain ⟨hfiles, hmarks⟩ := carried_clean (E := E) new hdirty
    constructor
    · exact fun h => ⟨hnames hfiles h, Or.inl hdirty⟩
    · exact fun hidle => .of_same (hfiles.trans (Fs.rename_of_same hidle.1)) hmarks

/-- A rename that fails leaves the client as it was exactly if the temporary copy does not move, the server does
its part, or the move changes nothing here. -/
theorem rename_undone_iff :
    ((AFSClient.rename E old new w).1 ≠ 0 → World.LocalSame w (AFSClient.rename E old new w).2) ↔
      ¬ Moves E old w ∨ (RemoteOp.rename old new).GoesThrough E w.srv ∨ MoveIdle E old new w := by
  by_cases hmoves : Moves E old w
  · rw [or_iff_right (not_not.mpr hmoves)]
    have heq := rename_of_moves E old new w hmoves
    have hsome : (unary E .rename (FileServer.rename E old.bytes new.bytes) (carried E old new w)).1.isSome = true ↔
        (RemoteOp.rename old new).GoesThrough E w.srv := by
      rw [← carried_srv E old new w]
      exact RemoteOp.unary_isSome (RemoteOp.rename_reply E _ old new)
    have hsame : World.LocalSame w (AFSClient.renameOnServer E old new (carried E old new w)).2 ↔
        MoveIdle E old new w := by
      rw [World.localSame_of_cl (renameOnServer_cl E old new _), carried_localSame_iff hmoves.2.2]
    rw [heq, hsame, renameOnServer_run]
    dsimp only
    split_ifs with hanswer
    · exact iff_of_true (fun hne => absurd rfl hne) (Or.inl (hsome.mp hanswer))
    · rw [or_iff_right fun hgoes => hanswer (hsome.mpr hgoes)]
      exact ⟨fun h => h (by decide), fun h _ => h⟩
  · obtain ⟨hfiles, hdirty⟩ := rename_stays new hmoves
    exact iff_of_true (fun _ => .of_same hfiles hdirty) (Or.inl hmoves)

/-- The same for both operations. -/
theorem failure_undone_iff (E : Env) (w : World) (path old new : CString) :
    (((AFSClient.unlink E path w).1 ≠ 0 → World.LocalSame w (AFSClient.unlink E path w).2) ↔
      (RemoteOp.unlink path).GoesThrough E w.srv ∨ UnlinkIdle E path w) ∧
    (((AFSClient.rename E old new w).1 ≠ 0 → World.LocalSame w (AFSClient.rename E old new w).2) ↔
      ¬ Moves E old w ∨ (RemoteOp.rename old new).GoesThrough E w.srv ∨ MoveIdle E old new w) :=
  ⟨unlink_undone_iff, rename_undone_iff⟩

end Rename

/-- `/f` is open and dirty, with a temporary and a persistent copy; the server has it too. -/
def sampleBoth [Sha256] : World where
  srv := ⟨(Fs.empty ⟨[], default, default⟩).create (getServerPath (ascii "/f"))
    ⟨ascii "data", ⟨3, 0⟩, default⟩, []⟩
  cl := {
    files := ((Fs.empty ⟨[], default, default⟩).create (getTempPath sampleF)
      ⟨ascii "mine", ⟨6, 0⟩, default⟩).create (getCachePath sampleF) ⟨ascii "data", ⟨5, 0⟩, default⟩
    fds := [some ⟨0, O_RDWR⟩]
    dirty_files := {getHashedPath sampleF}
    op_queue := [] }
  errno := 0

/-- The server cannot be reached: the unlink has thrown away what was written, the rename has put it elsewhere. -/
theorem failure_not_undone :
    letI := sampleSha256
    let E : Env := { Env.smooth 7 with rpc := fun _ => .lost }
    let unlinked := AFSClient.unlink E sampleF sampleBoth
    let renamed := AFSClient.rename E sampleF sampleG sampleBoth
    (unlinked.1 = -1 ∧ tempAt sampleBoth.files sampleF = some (ascii "mine") ∧
      tempAt unlinked.2.files sampleF = none ∧ ¬ World.LocalSame sampleBoth unlinked.2) ∧
    (renamed.1 = -1 ∧ tempAt renamed.2.files sampleF = none ∧
      tempAt renamed.2.files sampleG = some (ascii "mine") ∧ ¬ World.LocalSame sampleBoth renamed.2) := by
  let _ := sampleSha256
  intro E unlinked renamed
  have hbefore : tempAt sampleBoth.files sampleF = some (ascii "mine") := by decide +kernel
  have hunlinked : tempAt unlinked.2.files sampleF = none := by decide +kernel
  have hrenamed : tempAt renamed.2.files sampleF = none := by decide +kernel
  refine ⟨⟨by decide +kernel, hbefore, hunlinked, fun h => ?_⟩,
    by decide +kernel, hrenamed, by decide +kernel, fun h => ?_⟩
  · have hsame := h.temp sampleF
    rw [hunlinked, hbefore] at hsame
    cases hsame
  · have hsame := h.temp sampleF
    rw [hrenamed, hbefore] at hsame
    cases hsame

/-- Two paths with the same rest below two others. -/
def Corresponds (old new q q' : CString) : Prop :=
  ∃ rest, (rest = [] ∨ ascii "/" <+: rest) ∧ q.bytes = old.bytes ++ rest ∧ q'.bytes = new.bytes ++ rest

def AtOrBelow (base q : CString) : Prop :=
  ∃ rest, (rest = [] ∨ ascii "/" <+: rest) ∧ q.bytes = base.bytes ++ rest

theorem Corresponds.old {old new q q' : CString} (h : Corresponds old new q q') : AtOrBelow old q := by
  obtain ⟨rest, hrest, hq, _⟩ := h
  exact ⟨rest, hrest, hq⟩

theorem Corresponds.new {old new q q' : CString} (h : Corresponds old new q q') : AtOrBelow new q' := by
  obtain ⟨rest, hrest, _, hq'⟩ := h
  exact ⟨rest, hrest, hq'⟩

theorem atOrBelow_self (base : CString) : AtOrBelow base base := ⟨[], Or.inl rfl, (List.append_nil _).symm⟩

/-- Whatever is below the new path was below the old one. -/
theorem corresponds_of_below (old : CString) {new q' : CString} (h : AtOrBelow new q') : ∃ q, Corresponds old new q q' := by
  obtain ⟨rest, hrest, hq'⟩ := h
  have hnoNul : 0 ∉ old.bytes ++ rest := by
    intro hmem
    rcases List.mem_append.mp hmem with hmem | hmem
    · exact old.noNul hmem
    · exact q'.noNul (hq' ▸ List.mem_append_right _ hmem)
  exact ⟨⟨old.bytes ++ rest, hnoNul⟩, rest, hrest, rfl, hq'⟩

section Moved

variable [Sha256] {E : Env} {old new : CString} {w w' : World}

/-- There is nothing of the path here. -/
structure NoLocal (path : CString) (w : World) : Prop where
  temp : tempAt w.files path = none
  cache : cacheAt w.files path = none
  clean : getHashedPath path ∉ w.cl.dirty_files

/-- What the old path and all below it had is at the new path and below it, and no longer where it was; nothing
else has changed, and what was to be flushed still is. -/
structure LocalMoved (old new : CString) (w w' : World) : Prop where
  temp : ∀ q q', Corresponds old new q q' → tempAt w'.files q' = tempAt w.files q
  cache : ∀ q q', Corresponds old new q q' → cacheAt w'.files q' = cacheAt w.files q
  dirty : ∀ q q', Corresponds old new q q' →
    (getHashedPath q' ∈ w'.cl.dirty_files ↔ getHashedPath q ∈ w.cl.dirty_files)
  gone : ∀ q, AtOrBelow old q → NoLocal q w'
  apart : ∀ p, ¬ AtOrBelow old p → ¬ AtOrBelow new p →
    tempAt w'.files p = tempAt w.files p ∧ cacheAt w'.files p = cacheAt w.files p ∧
      (getHashedPath p ∈ w'.cl.dirty_files ↔ getHashedPath p ∈ w.cl.dirty_files)
  pending : ∀ q q' content, Corresponds old new q q' → Unflushed q (some content) w → Retryable q' content w'

/-- Where nothing was and nothing has changed, all has moved; and only there. -/
theorem localMoved_of_same_iff (hfiles : w'.files = w.files) (hdirty : w'.cl.dirty_files = w.cl.dirty_files) :
    LocalMoved old new w w' ↔ ∀ path, AtOrBelow old path ∨ AtOrBelow new path → NoLocal path w := by
  constructor
  · intro h
    have hold : ∀ q, AtOrBelow old q → NoLocal q w := fun q hq => by
      obtain ⟨htemp, hcache, hclean⟩ := h.gone q hq
      rw [hfiles] at htemp hcache
      rw [hdirty] at hclean
      exact ⟨htemp, hcache, hclean⟩
    rintro path (hpath | hpath)
    · exact hold path hpath
    · obtain ⟨q, hq⟩ := corresponds_of_below old hpath
      obtain ⟨htemp, hcache, hclean⟩ := hold q hq.old
      have htemp' := h.temp q path hq
      have hcache' := h.cache q path hq
      have hdirty' := h.dirty q path hq
      rw [hfiles] at htemp' hcache'
      rw [hdirty] at hdirty'
      exact ⟨htemp'.trans htemp, hcache'.trans hcache, fun hmem => hclean (hdirty'.mp hmem)⟩
  · intro h
    have hnone : ∀ {q q'}, Corresponds old new q q' → NoLocal q w ∧ NoLocal q' w := fun hq =>
      ⟨h _ (Or.inl hq.old), h _ (Or.inr hq.new)⟩
    refine ⟨fun q q' hq => ?_, fun q q' hq => ?_, fun q q' hq => ?_, fun q hq => ?_, fun p _ _ => ?_,
      fun q q' content hq hpending => ?_⟩
    · rw [hfiles, (hnone hq).1.temp, (hnone hq).2.temp]
    · rw [hfiles, (hnone hq).1.cache, (hnone hq).2.cache]
    · rw [hdirty]
      exact iff_of_false (hnone hq).2.clean (hnone hq).1.clean
    · obtain ⟨htemp, hcache, hclean⟩ := h q (Or.inl hq)
      exact ⟨hfiles ▸ htemp, hfiles ▸ hcache, hdirty ▸ hclean⟩
    · rw [hfiles, hdirty]
      exact ⟨rfl, rfl, Iff.rfl⟩
    · exact absurd hpending.dirty (hnone hq).1.clean

/-- No persistent copy is moved. -/
theorem rename_cache_names (path : CString) :
    (AFSClient.rename E old new w).2.files.names (getCachePath path) = w.files.names (getCachePath path) := by
  have hold : getCachePath path ≠ getTempPath old := fun heq => getTempPath_ne_getCachePath old path heq.symm
  have hnew : getCachePath path ≠ getTempPath new := fun heq => getTempPath_ne_getCachePath new path heq.symm
  by_cases hmoves : Moves E old w
  · have hfiles : (AFSClient.rename E old new w).2.files = (carried E old new w).files := by
      rw [rename_of_moves E old new w hmoves]
      exact congrArg (·.files) (renameOnServer_cl E old new (carried E old new w))
    rw [hfiles]
    by_cases hdirty : getHashedPath old ∈ w.cl.dirty_files
    · cases hremove : E.fails .unmarkFileDirtyRemove with
      | none =>
          rw [(carried_dirty new hremove hdirty).1, Fs.remove_names_of_ne _ hold,
            Fs.rename_names_of_ne _ hold hnew]
      | some e => rw [(carried_dirty_of_fails new hremove hdirty).1, Fs.rename_names_of_ne _ hold hnew]
    · rw [(carried_clean (E := E) new hdirty).1, Fs.rename_names_of_ne _ hold hnew]
  · rw [(rename_stays new hmoves).1]

/-- A rename has moved all local state exactly if there was none: where there is a persistent copy it stays behind,
and where there is none nothing moves. -/
theorem rename_moves_local_iff (E : Env) (old new : CString) (w : World) :
    LocalMoved old new w (AFSClient.rename E old new w).2 ↔
      ∀ path, AtOrBelow old path ∨ AtOrBelow new path → NoLocal path w := by
  by_cases hmoves : Moves E old w
  · have hcached : w.files.names (getCachePath old) ≠ none := (isPresentInCache_pos_iff E old w).mp hmoves.1 |>.2.1
    refine iff_of_false (fun h => ?_) fun h => ?_
    · have hgone := cacheAt_eq_none_iff.mp (h.gone old (atOrBelow_self old)).cache
      rw [rename_cache_names] at hgone
      exact hcached hgone
    · exact hcached (cacheAt_eq_none_iff.mp (h old (Or.inl (atOrBelow_self old))).cache)
  · obtain ⟨hfiles, hdirty⟩ := rename_stays new hmoves
    exact localMoved_of_same_iff hfiles hdirty

end Moved

/-- After a rename of `/f` to `/g` that succeeds, `/f` is still marked and still has its persistent copy, and `/g`
has none. -/
theorem rename_leaves_behind :
    letI := sampleSha256
    let renamed := AFSClient.rename (.smooth 7) sampleF sampleG sampleBoth
    renamed.1 = 0 ∧ ¬ AtOrBelow sampleF sampleG ∧ getHashedPath sampleF ∈ renamed.2.cl.dirty_files ∧
      cacheAt renamed.2.files sampleF = some (ascii "data") ∧ cacheAt renamed.2.files sampleG = none ∧
      ¬ LocalMoved sampleF sampleG sampleBoth renamed.2 := by
  let _ := sampleSha256
  intro renamed
  have hapart : ¬ AtOrBelow sampleF sampleG := by
    rintro ⟨rest, _, hbytes⟩
    rw [show sampleG.bytes = [47, 103] by decide, show sampleF.bytes = [47, 102] by decide] at hbytes
    simp at hbytes
  have hmarked : getHashedPath sampleF ∈ renamed.2.cl.dirty_files := by decide +kernel
  refine ⟨by decide +kernel, hapart, hmarked, by decide +kernel, by decide +kernel, fun h => ?_⟩
  exact (h.gone sampleF (atOrBelow_self sampleF)).clean hmarked

end Bnfs
