import Bnfs.ClientFetchRace
import Bnfs.ClientReturns

/-! A rename by one client and the next open of the new name by another. The server moves the file with the time
it has, which may be older than that of the file it replaces: a copy of what was under the new name before can
then be taken for the file that is there now. -/

namespace Bnfs

open FileSystem Programs

section Rename

variable [Sha256] {E : Env} {old_path new_path : CString} {w : World}

/-- A rename comes to the server as it found it, or fails before. -/
theorem rename_through (E : Env) (old_path new_path : CString) (w : World) :
    (∃ w' : World, w'.srv = w.srv ∧
      AFSClient.rename E old_path new_path w = AFSClient.renameOnServer E old_path new_path w') ∨
    (AFSClient.rename E old_path new_path w).1 < 0 := by
  rcases rename_cases E old_path new_path w with ⟨_, heq⟩ | ⟨_, _, heq⟩ | ⟨_, heq⟩
  · exact Or.inl ⟨_, (isPresentInCache_same E old_path w).srv, heq⟩
  · right
    rw [heq]
    exact Int.neg_neg_of_pos (errno_or_enoent_pos E .clientRenameRename)
  · exact Or.inl ⟨_, carried_srv E old_path new_path w, heq⟩

omit [Sha256] in
theorem served_rename {old new : Bytes} {srv : Server} (h : (FileServer.rename E old new srv).1.isSome) :
    (FileServer.rename E old new srv).2.files =
      srv.files.rename (getServerPath old) (getServerPath new) := by
  simp only [FileServer.rename] at h ⊢
  split at h
  · rfl
  · cases h

/-- A rename that returns 0 has moved the server's file. -/
theorem rename_zero (hret : (AFSClient.rename E old_path new_path w).1 = 0) :
    (AFSClient.rename E old_path new_path w).2.srv.files =
      w.srv.files.rename (getServerPath old_path.bytes) (getServerPath new_path.bytes) := by
  rcases rename_through E old_path new_path w with ⟨w', hsrv, heq⟩ | hneg
  · rw [heq] at hret ⊢
    unfold AFSClient.renameOnServer unary at hret ⊢
    rw [bind_run] at hret ⊢
    cases hrpc : E.rpc .rename with
    | answered =>
        simp only [hrpc] at hret ⊢
        split_ifs at hret ⊢ with hsome
        · rw [← hsrv]
          exact served_rename hsome
        · exact absurd hret (by decide : ¬ (-1 : Int) = 0)
    | lost =>
        simp only [hrpc] at hret
        exact absurd hret (by decide : ¬ (-1 : Int) = 0)
    | unanswered =>
        simp only [hrpc] at hret
        exact absurd hret (by decide : ¬ (-1 : Int) = 0)
  · omega

end Rename

section Open

variable [Sha256] {E : Env} {path : CString} {fi : FuseFileInfo} {is_create : Bool} {w : World}

/-- An open of a file of the server leaves the server as it is; the temporary copy is the one that was there if
that is used, and the server's bytes if not. -/
theorem Open_tempAt (hrel : E.Reliable) (htrunc : fi.flags.has O_TRUNC = false) {content : Bytes}
    (hcontent : contentAt w.srv path.bytes = some content) (hnul : 0 ∉ content) :
    (AFSClient.Open E path fi is_create w).2.srv = w.srv ∧
      (TempUsed E path w → tempAt (AFSClient.Open E path fi is_create w).2.files path = tempAt w.files path) ∧
      (¬ TempUsed E path w → tempAt (AFSClient.Open E path fi is_create w).2.files path = some content) := by
  rcases getOpenFlags_result E path fi.flags is_create w with
    ⟨heq, hcreate⟩ | ⟨heq, _, hused⟩ | ⟨heq, _, hunused⟩
  · have hmissing := missing_of_enoent hrel hcreate.1
    rw [contentAt, Fs.find_eq_none_iff.mpr hmissing] at hcontent
    cases hcontent
  · have hsame := prepared_used fi heq
    obtain ⟨ino, hname⟩ := hused.names
    have hprepared : (prepared E path fi is_create w).files = w.files := hsame.files
    rw [Open_of_prepared fi hrel htrunc (hprepared ▸ hname)]
    exact ⟨hsame.srv, fun _ => congrArg (tempAt · path) hprepared, fun h => absurd hused h⟩
  · obtain ⟨hsrv, _, htemp⟩ := prepared_fetched fi hrel heq
    obtain ⟨ino, hname⟩ := tempAt_ne_none htemp
    rw [Open_of_prepared fi hrel htrunc hname]
    rw [hcontent, Option.getD_some, cStr_of_noNul hnul] at htemp
    exact ⟨hsrv, fun h => absurd h hunused, fun _ => htemp⟩

end Open

section Seen

variable [Sha256]

/-- The client's temporary copy of a path can be looked at, under a descriptor other than 0, and is not older
than the file. -/
structure TakenFor (cl : Client) (path : CString) (copy source : File) : Prop where
  there : cl.files.find (getTempPath path) = some copy
  readable : cl.fds.get 0 ≠ none ∨ cl.files.names (getCachePath path) ≠ none
  fresh : toInt source.mtime.tv_sec ≤ toInt copy.mtime.tv_sec

/-- One client renames, and another opens the new name: its temporary copy has the bytes the server has there. -/
def RenameSeen (E E' : Env) (old_path new_path : CString) (fi : FuseFileInfo) (is_create : Bool) (w : World)
    (cl : Client) (errno : Int) : Prop :=
  let renamed := AFSClient.rename E old_path new_path w
  let opened := AFSClient.Open E' new_path fi is_create ⟨renamed.2.srv, cl, errno⟩
  ∃ content, contentAt opened.2.srv new_path.bytes = some content ∧
    tempAt opened.2.files new_path = some content

variable {E E' : Env} {old_path new_path : CString} {fi : FuseFileInfo} {is_create : Bool} {w : World}
  {cl : Client} {errno : Int} {source : File}

/-- With nothing failing, a copy is used exactly if it is taken for the file. -/
theorem tempUsed_iff (hrel : E.Reliable) {path : CString}
    (hsource : w.srv.files.find (getServerPath path.bytes) = some source) :
    TempUsed E path w ↔ ∃ copy, TakenFor w.cl path copy source := by
  have hdated : dated w.srv.files (getServerPath path.bytes) = some (source.content, source.mtime) := by
    rw [dated, hsource]
    rfl
  have htime : reportedTime E path w = toInt source.mtime.tv_sec := reportedTime_of_reliable hrel hdated
  unfold TempUsed
  rw [checkedTemp_pos_iff, TempReadable, htime, hrel.calls, hrel.calls]
  constructor
  · rintro ⟨⟨_, _, hreadable⟩, copy, hfind, hle⟩
    exact ⟨copy, hfind, hreadable.imp_right And.right, hle⟩
  · rintro ⟨copy, hfind, hreadable, hle⟩
    refine ⟨⟨rfl, fun hnone => ?_, hreadable.imp_right fun h => ⟨rfl, h⟩⟩, copy, hfind, hle⟩
    have hmissing : w.cl.files.find (getTempPath path) = none := Fs.find_eq_none_iff.mpr hnone
    rw [hfind] at hmissing
    cases hmissing

/-- After a rename by one client the open of the new name by another gives the server's bytes exactly if a copy
that is taken for the file has its bytes. -/
theorem rename_seen_iff (hret : (AFSClient.rename E old_path new_path w).1 = 0) (hrel : E'.Reliable)
    (htrunc : fi.flags.has O_TRUNC = false)
    (hsource : w.srv.files.find (getServerPath old_path.bytes) = some source) (hnul : 0 ∉ source.content) :
    RenameSeen E E' old_path new_path fi is_create w cl errno ↔
      ∀ copy, TakenFor cl new_path copy source → copy.content = source.content := by
  have hmoved : (AFSClient.rename E old_path new_path w).2.srv.files.find
      (getServerPath new_path.bytes) = some source := by
    rw [rename_zero hret, Fs.find_rename_new, hsource]
  have hcontent : contentAt (AFSClient.rename E old_path new_path w).2.srv new_path.bytes =
      some source.content := by rw [contentAt, hmoved]; rfl
  obtain ⟨hsrv, hused, hfetched⟩ := @Open_tempAt _ _ _ fi is_create
    ⟨(AFSClient.rename E old_path new_path w).2.srv, cl, errno⟩ hrel htrunc _ hcontent hnul
  have hiff : TempUsed E' new_path ⟨(AFSClient.rename E old_path new_path w).2.srv, cl, errno⟩ ↔
      ∃ copy, TakenFor cl new_path copy source := tempUsed_iff hrel hmoved
  simp only [RenameSeen, hsrv, hcontent]
  constructor
  · rintro ⟨content, heq, htemp⟩ copy htaken
    rw [hused (hiff.mpr ⟨copy, htaken⟩), tempAt] at htemp
    have hcopy : (cl.files.find (getTempPath new_path)).map (·.content) = some content := htemp
    rw [htaken.there, Option.map_some, ← heq] at hcopy
    exact Option.some.inj hcopy
  · intro h
    refine ⟨source.content, rfl, ?_⟩
    by_cases htaken : TempUsed E' new_path ⟨(AFSClient.rename E old_path new_path w).2.srv, cl, errno⟩
    · obtain ⟨copy, hcopy⟩ := hiff.mp htaken
      rw [hused htaken, ← h copy hcopy]
      show (cl.files.find (getTempPath new_path)).map (·.content) = _
      rw [hcopy.there]
      rfl
    · exact hfetched htaken

end Seen

section Sample

/-- The server has `/g` from second 1 and `/f` from second 5, and the renaming client has no copies. -/
def sampleTwoFiles : World where
  srv := ⟨((Fs.empty ⟨[], default, default⟩).create (getServerPath (ascii "/g"))
    ⟨ascii "moved", ⟨1, 0⟩, default⟩).create (getServerPath (ascii "/f"))
    ⟨ascii "before", ⟨5, 0⟩, default⟩, []⟩
  cl := ⟨.empty ⟨[], default, default⟩, [], ∅, []⟩
  errno := 0

/-- A client that fetched `/f` at a second. -/
def sampleFetched [Sha256] (sec : Int) : Client where
  files := ((Fs.empty ⟨[], default, default⟩).create (getCachePath sampleF)
    ⟨ascii "before", ⟨sec, 0⟩, default⟩).create (getTempPath sampleF) ⟨ascii "before", ⟨sec, 0⟩, default⟩
  fds := []
  dirty_files := ∅
  op_queue := []

/-- A copy older than the file that is moved is fetched anew. -/
theorem rename_seen_iff_sample :
    letI := sampleSha256
    RenameSeen (.smooth 10) (.smooth 20) sampleG sampleF ⟨O_RDONLY, 0⟩ false sampleTwoFiles
      (sampleFetched 0) 0 := by
  let _ := sampleSha256
  have hret : (AFSClient.rename (.smooth 10) sampleG sampleF sampleTwoFiles).1 = 0 := by decide +kernel
  have hsource : sampleTwoFiles.srv.files.find (getServerPath sampleG.bytes) =
      some ⟨ascii "moved", ⟨1, 0⟩, default⟩ := by decide +kernel
  refine (rename_seen_iff hret (Env.smooth_reliable 20) (by decide) hsource (by decide)).mpr
    fun copy htaken => ?_
  have hcopy : (sampleFetched 0).files.find (getTempPath sampleF) =
      some ⟨ascii "before", ⟨0, 0⟩, default⟩ := by decide +kernel
  cases hcopy.symm.trans htaken.there
  exact absurd htaken.fresh (by decide)

/-- A copy fetched after the file that is moved was written is taken for it. -/
theorem rename_not_seen :
    letI := sampleSha256
    let renamed := AFSClient.rename (.smooth 10) sampleG sampleF sampleTwoFiles
    let opened := AFSClient.Open (.smooth 20) sampleF ⟨O_RDONLY, 0⟩ false ⟨renamed.2.srv, sampleFetched 6, 0⟩
    renamed.1 = 0 ∧ getHashedPath sampleF ∉ (sampleFetched 6).dirty_files ∧ opened.1 = 1 ∧
      contentAt opened.2.srv sampleF.bytes = some (ascii "moved") ∧
      tempAt opened.2.files sampleF = some (ascii "before") ∧
      ¬ RenameSeen (.smooth 10) (.smooth 20) sampleG sampleF ⟨O_RDONLY, 0⟩ false sampleTwoFiles
        (sampleFetched 6) 0 := by
  let _ := sampleSha256
  intro renamed opened
  have hserver : contentAt opened.2.srv sampleF.bytes = some (ascii "moved") := by decide +kernel
  have hcopy : tempAt opened.2.files sampleF = some (ascii "before") := by decide +kernel
  refine ⟨by decide +kernel, by decide +kernel, by decide +kernel, hserver, hcopy, ?_⟩
  rintro ⟨content, hcontent, htemp⟩
  have hsame : ascii "moved" = ascii "before" :=
    Option.some.inj ((hserver.symm.trans hcontent).trans (htemp.symm.trans hcopy))
  exact absurd hsame (by decide)

end Sample

end Bnfs
