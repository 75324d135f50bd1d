import Bnfs.ClientPending

/-! The two truncations of an open file. `unreliable_truncate` cuts the temporary copy, `unreliable_ftruncate` takes
its path for a local one; neither marks what it cut. -/

namespace Bnfs

open FileSystem Programs

theorem resize_eq_self_iff {content : Bytes} {length : Nat} :
    resize content length = content ↔ content.length = length := by
  constructor
  · intro h
    rw [← congrArg List.length h, length_resize]
  · rintro rfl
    exact resize_self content

section Call

variable (E : Env) (site : Site) (name : Bytes) (length : Nat) (w : World)

/-- Both handlers, up to the name they cut. -/
def cutAt : Prog Int :=
  unlessInjected E do
    let ret ← posixTruncate E site name length
    orErrno ret

/-- Nothing is injected, the system call does not fail, and there is such a file. -/
def CarriedOut : Prop := E.injected = 0 ∧ E.fails site = none ∧ w.files.names name ≠ none

theorem cutAt_cases :
    (∃ i, CarriedOut E site name w ∧ w.files.names name = some i ∧ (cutAt E site name length w).2 =
      w.setFiles (w.files.setInode i { w.files.inode i with
        content := resize (w.files.inode i).content length, mtime := E.now site })) ∨
    (¬ CarriedOut E site name w ∧ World.Same w (cutAt E site name length w).2) := by
  by_cases hplain : E.injected = 0
  · have hworld : (cutAt E site name length w).2 = (posixTruncate E site name length w).2 := by
      unfold cutAt
      rw [unlessInjected_zero hplain, bind_run, orErrno_world]
    rw [hworld]
    rcases posixTruncate_run E site w name length with ⟨i, ⟨_, hok, hname⟩, heq⟩ | ⟨hmissing, e, _, heq⟩
    · rw [heq, Int.toNat_natCast]
      exact Or.inl ⟨i, ⟨hplain, hok, hname ▸ Option.some_ne_none i⟩, hname, rfl⟩
    · rw [heq]
      exact Or.inr ⟨fun h => h.2.2 (hmissing (Int.natCast_nonneg length) h.2.1), same_failWith e w⟩
  · have hworld : (cutAt E site name length w).2 = w := unlessInjected_of_ne hplain _ w
    rw [hworld]
    exact Or.inr ⟨fun h => hplain h.1, refl_of World.Same w⟩

end Call

section Truncated

variable [Sha256] {E : Env} {site : Site} {name : Bytes} {path : CString} {content : Bytes} {length : Nat} {w : World}

/-- The temporary copy is cut or extended and will be sent so by the next flush, and no other file has changed. -/
structure TruncatedTo (path : CString) (content : Bytes) (length : Nat) (w w' : World) : Prop where
  pending : Retryable path (resize content length) w'
  names : w'.files.names = w.files.names
  apart : ∀ other, w.files.names other ≠ w.files.names (getTempPath path) →
    (w'.files.find other).map (·.content) = (w.files.find other).map (·.content)

/-- The call is carried out on the file of the temporary copy; or that has the length already, and so has the file
the call is carried out on, if it is. -/
def CutsRight (E : Env) (site : Site) (name : Bytes) (path : CString) (content : Bytes) (length : Nat)
    (w : World) : Prop :=
  (CarriedOut E site name w ∧ w.files.names name = w.files.names (getTempPath path)) ∨
    (content.length = length ∧
      (CarriedOut E site name w → ∀ file, w.files.find name = some file → file.content.length = length))

theorem truncatedTo_of_same_iff {w' : World} (htemp : tempAt w.files path = some content) (hsame : World.Same w w') :
    TruncatedTo path content length w w' ↔
      getHashedPath path ∈ w.cl.dirty_files ∧ content.length = length := by
  constructor
  · intro h
    have hkept := h.pending.kept.temp
    have hdirty := h.pending.kept.dirty
    rw [hsame.files, htemp] at hkept
    rw [hsame.dirty] at hdirty
    exact ⟨hdirty, resize_eq_self_iff.mp (Option.some.inj hkept).symm⟩
  · rintro ⟨hdirty, hlength⟩
    have hkept : Unflushed path (some content) w' :=
      ⟨hsame.files ▸ htemp, hsame.dirty ▸ hdirty⟩
    rw [← resize_eq_self_iff.mpr hlength] at hkept
    exact ⟨hkept.retryable, by rw [hsame.files], fun other _ => by rw [hsame.files]⟩

/-- A call that cuts the file of the temporary copy only lacks the mark. -/
theorem truncatedTo_of_own_iff {i : Nat} (htemp : tempAt w.files path = some content)
    (hname : w.files.names (getTempPath path) = some i) (now : Timespec) :
    TruncatedTo path content length w (w.setFiles (w.files.setInode i { w.files.inode i with
      content := resize (w.files.inode i).content length, mtime := now })) ↔
      getHashedPath path ∈ w.cl.dirty_files := by
  have hcontent : (w.files.inode i).content = content := by
    rw [tempAt, Fs.find_of_names hname] at htemp
    exact Option.some.inj htemp
  refine ⟨fun h => h.pending.kept.dirty, fun hdirty => ⟨Unflushed.retryable ⟨?_, hdirty⟩, rfl, fun other hne => ?_⟩⟩
  · rw [World.setFiles_files, tempAt, Fs.find_setInode_self _ _ hname, hcontent]
    rfl
  · rw [World.setFiles_files, Fs.find_setInode_of_ne _ _ (hname ▸ hne)]

/-- A call that cuts another file does no harm if both have the length already. -/
theorem truncatedTo_of_other_iff {i : Nat} (htemp : tempAt w.files path = some content)
    (hname : w.files.names name = some i) (hne : w.files.names name ≠ w.files.names (getTempPath path))
    (now : Timespec) :
    TruncatedTo path content length w (w.setFiles (w.files.setInode i { w.files.inode i with
      content := resize (w.files.inode i).content length, mtime := now })) ↔
      getHashedPath path ∈ w.cl.dirty_files ∧ content.length = length ∧
        (w.files.inode i).content.length = length := by
  let cut : File := { w.files.inode i with content := resize (w.files.inode i).content length, mtime := now }
  have hother : w.files.names (getTempPath path) ≠ some i := fun h => hne (hname.trans h.symm)
  have hkept : tempAt (w.files.setInode i cut) path = some content := by
    rw [tempAt, Fs.find_setInode_of_ne _ _ hother]
    exact htemp
  constructor
  · intro h
    have htemp' : tempAt (w.files.setInode i cut) path = some (resize content length) := h.pending.kept.temp
    rw [hkept] at htemp'
    have hapart := h.apart name hne
    rw [World.setFiles_files, Fs.find_setInode_self _ _ hname, Fs.find_of_names hname] at hapart
    exact ⟨h.pending.kept.dirty, resize_eq_self_iff.mp (Option.some.inj htemp').symm,
      resize_eq_self_iff.mp (Option.some.inj hapart)⟩
  · rintro ⟨hdirty, hlength, hcut⟩
    have hpending : Unflushed path (some (resize content length)) (w.setFiles (w.files.setInode i cut)) := by
      rw [resize_eq_self_iff.mpr hlength]
      exact ⟨hkept, hdirty⟩
    refine ⟨hpending.retryable, rfl, fun other _ => ?_⟩
    rw [World.setFiles_files]
    by_cases hshared : w.files.names other = some i
    · rw [Fs.find_setInode_self _ _ hshared, Fs.find_of_names hshared, Option.map_some, Option.map_some,
        resize_eq_self_iff.mpr hcut]
    · rw [Fs.find_setInode_of_ne _ _ hshared]

theorem cutAt_truncates_iff (htemp : tempAt w.files path = some content) :
    TruncatedTo path content length w (cutAt E site name length w).2 ↔
      getHashedPath path ∈ w.cl.dirty_files ∧ CutsRight E site name path content length w := by
  rcases cutAt_cases E site name length w with ⟨i, hcarried, hname, heq⟩ | ⟨hnot, hsame⟩
  · rw [heq]
    by_cases hshared : w.files.names name = w.files.names (getTempPath path)
    · rw [truncatedTo_of_own_iff htemp (hshared ▸ hname)]
      exact (and_iff_left (Or.inl ⟨hcarried, hshared⟩)).symm
    · rw [truncatedTo_of_other_iff htemp hname hshared]
      refine and_congr_right fun _ => ?_
      unfold CutsRight
      rw [or_iff_right fun h => hshared h.2, Fs.find_of_names hname]
      exact and_congr_right fun _ => ⟨fun h _ file hfile => Option.some.inj hfile ▸ h, fun h => h hcarried _ rfl⟩
  · rw [truncatedTo_of_same_iff htemp hsame]
    refine and_congr_right fun _ => ?_
    unfold CutsRight
    rw [or_iff_right fun h => hnot h.1]
    exact (and_iff_left fun h => absurd h hnot).symm

/-- Both truncations do what they are to do exactly if the path is dirty already and each of them cuts the right
file, or has nothing to cut. -/
theorem truncations_agree_iff (E E' : Env) (htemp : tempAt w.files path = some content) (length : Nat) :
    (TruncatedTo path content length w (unreliableTruncate E path length w).2 ∧
      TruncatedTo path content length w (unreliableFtruncate E' path length w).2) ↔
    getHashedPath path ∈ w.cl.dirty_files ∧
      CutsRight E .truncate (getTempPath path) path content length w ∧
      CutsRight E' .ftruncate path.bytes path content length w := by
  have hpath : TruncatedTo path content length w (unreliableTruncate E path length w).2 ↔
      getHashedPath path ∈ w.cl.dirty_files ∧ CutsRight E .truncate (getTempPath path) path content length w :=
    cutAt_truncates_iff htemp
  have hfd : TruncatedTo path content length w (unreliableFtruncate E' path length w).2 ↔
      getHashedPath path ∈ w.cl.dirty_files ∧ CutsRight E' .ftruncate path.bytes path content length w :=
    cutAt_truncates_iff htemp
  rw [hpath, hfd]
  exact and_and_left.symm

end Truncated

section Sample

/-- `/f` is dirty and has four bytes; it is cut to four. -/
theorem truncations_agree_iff_sample :
    letI := sampleSha256
    TruncatedTo sampleF (ascii "data") 4 sampleDirty (unreliableTruncate (.smooth 7) sampleF 4 sampleDirty).2 ∧
      TruncatedTo sampleF (ascii "data") 4 sampleDirty
        (unreliableFtruncate (.smooth 7) sampleF 4 sampleDirty).2 := by
  let _ := sampleSha256
  have hmissing : ¬ CarriedOut (.smooth 7) .ftruncate sampleF.bytes sampleDirty := fun h => h.2.2 (by decide)
  refine (truncations_agree_iff (.smooth 7) (.smooth 7) (by decide) 4).mpr ⟨by decide, Or.inl ⟨?_, rfl⟩, ?_⟩
  · exact ⟨rfl, rfl, by decide⟩
  · exact Or.inr ⟨rfl, fun h => absurd h hmissing⟩

/-- The same file is cut to one byte by its path. Through the handle it is not: there is no local file `/f`. -/
theorem ftruncate_misses :
    letI := sampleSha256
    let byPath := unreliableTruncate (.smooth 7) sampleF 1 sampleDirty
    let byHandle := unreliableFtruncate (.smooth 7) sampleF 1 sampleDirty
    byPath.1 = 0 ∧ tempAt byPath.2.files sampleF = some (ascii "d") ∧
      byHandle.1 = -ENOENT ∧ tempAt byHandle.2.files sampleF = some (ascii "data") ∧
      ¬ (TruncatedTo sampleF (ascii "data") 1 sampleDirty byPath.2 ∧
        TruncatedTo sampleF (ascii "data") 1 sampleDirty byHandle.2) := by
  let _ := sampleSha256
  intro byPath byHandle
  have hkept : tempAt byHandle.2.files sampleF = some (ascii "data") := by decide +kernel
  refine ⟨by decide +kernel, by decide +kernel, by decide +kernel, hkept, fun h => ?_⟩
  have hcut := h.2.pending.kept.temp
  rw [hkept] at hcut
  exact absurd hcut (by decide)

end Sample

end Bnfs
