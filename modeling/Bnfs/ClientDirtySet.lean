import Bnfs.ClientConcerns
import Bnfs.TheoryRuns

/-! The set of dirty paths over whole runs. It should have every path whose temporary copy is not the version
last fetched or committed, and no path whose temporary copy was left alone since. Both are kept next to the
state: the version of each path, and the paths whose copy was created, written or truncated since. -/

namespace Bnfs

open FileSystem Programs Runs

variable [Sha256]

/-- A temporary copy that is not the given version is marked, and one that was not touched is not. -/
structure Agrees (base : Option Bytes) (touched : Prop) (path : CString) (w : World) : Prop where
  changed : ∀ bytes, tempAt w.files path = some bytes → base ≠ some bytes →
    getHashedPath path ∈ w.cl.dirty_files
  untouched : ¬ touched → getHashedPath path ∉ w.cl.dirty_files

namespace Agrees

variable {base : Option Bytes} {touched : Prop} {path : CString} {w w' : World} {E : Env}

/-- All that counts is the temporary copy and the mark. -/
theorem of_eq (h : Agrees base touched path w) (htemp : tempAt w'.files path = tempAt w.files path)
    (hdirty : getHashedPath path ∈ w'.cl.dirty_files ↔ getHashedPath path ∈ w.cl.dirty_files) :
    Agrees base touched path w' :=
  ⟨fun bytes hbytes hne => hdirty.mpr (h.changed bytes (htemp ▸ hbytes) hne),
    fun hnot hmem => h.untouched hnot (hdirty.mp hmem)⟩

theorem of_same (h : Agrees base touched path w) (hsame : World.Same w w') :
    Agrees base touched path w' :=
  h.of_eq (by rw [hsame.files]) (by rw [hsame.dirty])

theorem of_cl (h : Agrees base touched path w) (hcl : w'.cl = w.cl) : Agrees base touched path w' :=
  h.of_eq (by rw [World.files, World.files, hcl]) (by rw [hcl])

/-- No new version has come. -/
theorem keep (h : Agrees base touched path w) {version : Option Bytes} (hnone : version = none) :
    Agrees (version.or base) (touched ∧ version = none) path w := by
  subst hnone
  exact ⟨h.changed, fun hnot => h.untouched fun ht => hnot ⟨ht, rfl⟩⟩

/-- An operation on another path. -/
theorem of_concerns {q : CString} (h : Agrees base touched q w) (hw : World.Concerns path w w')
    (hne : getHashedPath q ≠ getHashedPath path) (hsole : w.files.Sole (getTempPath q)) :
    Agrees base touched q w' :=
  h.of_eq (hw.tempAt_of_ne (fun heq => hne (getTempPath_eq_iff.mp heq)) hsole) (hw.marks _ hne)

theorem touch (h : Agrees base touched path w) (also : Prop) : Agrees base (touched ∨ also) path w :=
  ⟨h.changed, fun hnot => h.untouched fun ht => hnot (Or.inl ht)⟩

/-- Nothing more can be asked of a marked path that was touched. -/
theorem of_dirty (hdirty : getHashedPath path ∈ w.cl.dirty_files) (ht : touched) :
    Agrees base touched path w :=
  ⟨fun _ _ _ => hdirty, fun hnot => absurd ht hnot⟩

theorem touched_of_dirty (h : Agrees base touched path w)
    (hdirty : getHashedPath path ∈ w.cl.dirty_files) : touched := by
  by_contra hnot
  exact h.untouched hnot hdirty

end Agrees

section Delete

variable {E : Env} {path : CString} {w : World}

omit [Sha256] in
theorem posixRemove_find (E : Env) (site : Site) (name : Bytes) (w : World) :
    (posixRemove E site name w).2.files.find name = none ∨
      (E.fails site ≠ none ∧ (posixRemove E site name w).2.files = w.files) := by
  cases hfails : E.fails site with
  | some e =>
      rw [posixRemove_of_fails hfails]
      exact Or.inr ⟨Option.some_ne_none e, rfl⟩
  | none =>
      rw [(posixRemove_files hfails name w).1]
      exact Or.inl (Fs.find_remove_self _ _)

/-- Taking the mark away with the copy is right, unless a copy that is marked stays. -/
theorem Agrees.afterDelete {base : Option Bytes} {touched : Prop}
    (h : Agrees base touched path w)
    (hok : ∀ bytes, tempAt w.files path = some bytes → getHashedPath path ∈ w.cl.dirty_files →
      E.fails .deleteFromTempRemove = none) :
    Agrees base touched path (deleteFromTemp E path w).2 := by
  refine ⟨fun bytes hbytes hne => ?_, fun _ => Finset.notMem_erase _ _⟩
  have hafter : tempAt (posixRemove E .deleteFromTempRemove (getTempPath path) w).2.files path =
      some bytes := hbytes
  rcases posixRemove_find E .deleteFromTempRemove (getTempPath path) w with hgone | ⟨hfails, hsame⟩
  · rw [tempAt, hgone] at hafter
    cases hafter
  · rw [hsame] at hafter
    exact absurd (hok bytes hafter (h.changed bytes hafter hne)) hfails

end Delete

section Open

variable {E : Env} {path : CString} {fi : FuseFileInfo} {w : World}

/-- The last open of `Open` creates the temporary copy, or truncates it. -/
def FinalMakes (E : Env) (path : CString) (flags : OpenFlags) (w : World) : Prop :=
  E.fails .clientOpenOpen = none ∧
    ((tempAt w.files path = none ∧ flags.has O_CREAT = true) ∨
      (tempAt w.files path ≠ none ∧ flags.has O_TRUNC = true))

/-- What the last open may do: create only a marked copy, truncate only a marked or an empty one; and if it
fails, a marked copy can be removed. -/
structure FinalTidy (E : Env) (path : CString) (flags : OpenFlags) (w : World) : Prop where
  create : tempAt w.files path = none → flags.has O_CREAT = true →
    getHashedPath path ∈ w.cl.dirty_files
  truncate : ∀ bytes, tempAt w.files path = some bytes → flags.has O_TRUNC = true →
    bytes = [] ∨ getHashedPath path ∈ w.cl.dirty_files
  delete : E.fails .clientOpenOpen = none ∨ E.fails .deleteFromTempRemove = none ∨
    getHashedPath path ∉ w.cl.dirty_files

theorem Agrees.afterFinal {base : Option Bytes} {touched : Prop} (h : Agrees base touched path w)
    (htidy : FinalTidy E path fi.flags w) :
    Agrees base (touched ∨ FinalMakes E path fi.flags w) path (openTemp E path fi w).2 := by
  by_cases hopens : FinalOpens E path fi.flags w
  · cases hname : w.files.names (getTempPath path) with
    | none =>
        have hnone : tempAt w.files path = none := by rw [tempAt, Fs.find_eq_none_iff.mpr hname]; rfl
        have hcreat := hopens.2.resolve_left fun hthere => hthere hname
        rw [openTemp_made hopens.1 hname hcreat]
        exact .of_dirty (htidy.create hnone hcreat) (Or.inr ⟨hopens.1, Or.inl ⟨hnone, hcreat⟩⟩)
    | some ino =>
        have htemp : tempAt w.files path = some (w.files.inode ino).content := by
          rw [tempAt, Fs.find_of_names hname]
          rfl
        rw [openTemp_eq fi hopens.1 hname]
        cases hflag : fi.flags.has O_TRUNC with
        | false => exact (h.of_same (same_newFd ino _ w)).touch _
        | true =>
            have hmakes : FinalMakes E path fi.flags w := ⟨hopens.1, Or.inr ⟨by rw [htemp]; simp, hflag⟩⟩
            refine ⟨fun bytes hbytes hne => ?_, fun hnot => absurd (Or.inr hmakes) hnot⟩
            have hput : (w.files.put ino [] (E.now .clientOpenOpen)).names (getTempPath path) = some ino := hname
            have hfound : tempAt (w.files.put ino [] (E.now .clientOpenOpen)) path = some [] := by
              rw [tempAt, Fs.find_of_names hput, Fs.put_self]
              rfl
            have hempty : bytes = [] := Option.some.inj (hbytes.symm.trans hfound)
            rcases htidy.truncate _ htemp hflag with hold | hdirty
            · rw [hold] at htemp
              exact h.changed [] htemp (hempty ▸ hne)
            · exact hdirty
  · obtain ⟨e, _, heq⟩ := openTemp_failed hopens
    rw [heq]
    refine ((h.of_same (same_failWith e w)).afterDelete fun bytes hbytes hdirty => ?_).touch _
    rcases htidy.delete with hok | hok | hclean
    · have hthere : w.files.names (getTempPath path) ≠ none := by
        obtain ⟨ino, hname⟩ := tempAt_ne_none hbytes
        exact hname ▸ Option.some_ne_none ino
      exact absurd ⟨hok, Or.inl hthere⟩ hopens
    · exact hok
    · exact absurd hdirty hclean

variable (E path fi)

/-- The verdict on which `Open` acts. -/
def verdict (is_create : Bool) (w : World) : Int :=
  (AFSClient.getOpenFlags E is_create fi.flags path w).1

/-- The version an open fetches. -/
def brought (is_create : Bool) (w : World) : Option Bytes :=
  if verdict E path fi is_create w = 1 then received E path fi.flags w else none

/-- An open makes a new temporary copy because the server has no such file. -/
def Creates (is_create : Bool) (w : World) : Prop :=
  verdict E path fi is_create w = 3 ∧ E.fails .clientOpenCreatTemp = none

variable {E path fi} {is_create : Bool}

/-- Verdict 3: the path is dirty, and it was touched, unless no copy could be made. -/
theorem prepared_create (hverdict : verdict E path fi is_create w = 3) :
    getHashedPath path ∈ (prepared E path fi is_create w).cl.dirty_files := by
  unfold prepared
  rw [show (AFSClient.getOpenFlags E is_create fi.flags path w).1 = 3 from hverdict,
    prepareTemp_create, bind_run]
  generalize posixCreat E .clientOpenCreatTemp (getTempPath path)
    (AFSClient.getOpenFlags E is_create fi.flags path w).2 = created
  unfold afterCreat
  simp only [bind_run, pure_run, createOnServer_world, openStream_cl]
  exact Finset.mem_insert_self _ _

/-- Verdict 1 with all the bytes: they are in the temporary copy, and the marks are as they were. -/
theorem prepared_brought {buf : Bytes} (hbuf : brought E path fi is_create w = some buf)
    (hnul : 0 ∉ buf) (hopen : E.fails .writeFileToTempOpen = none)
    (hwrite : E.fails .writeFileToTempWrite = none) :
    tempAt (prepared E path fi is_create w).files path = some buf ∧
      (prepared E path fi is_create w).cl.dirty_files = w.cl.dirty_files := by
  unfold brought at hbuf
  split_ifs at hbuf with hverdict
  obtain ⟨checked, hsame, hprepared⟩ := prepared_saves fi hverdict
  rw [hbuf] at hprepared
  dsimp only at hprepared
  rw [hprepared, cStr_of_noNul hnul]
  exact ⟨saveFetched_tempAt hopen hwrite buf _, (saveFetched_frame E path buf _).dirty.trans hsame.dirty⟩

/-- Otherwise nothing has happened yet. -/
theorem prepared_same (hverdict : verdict E path fi is_create w ≠ 3)
    (hbuf : brought E path fi is_create w = none) :
    World.Same w (prepared E path fi is_create w) := by
  rcases getOpenFlags_result E path fi.flags is_create w with ⟨heq, _⟩ | ⟨heq, _⟩ | ⟨heq, _⟩
  · exact absurd heq hverdict
  · exact prepared_used fi heq
  · have hone : verdict E path fi is_create w = 1 := heq
    rw [brought, if_pos hone] at hbuf
    obtain ⟨checked, hsame, hprepared⟩ := prepared_saves fi heq
    rw [hbuf] at hprepared
    rw [hprepared]
    exact hsame

/-- What an open may meet. A fetch finds the path clean, brings no NUL byte and can be saved, and an open
that truncates brings nothing; a copy that is to be created can be, or the path is dirty; without either
the last open creates and truncates only what is marked or empty. -/
structure OpenTidy (E : Env) (path : CString) (fi : FuseFileInfo) (is_create : Bool) (w : World) :
    Prop where
  fetch : ∀ buf, brought E path fi is_create w = some buf → getHashedPath path ∉ w.cl.dirty_files ∧
    0 ∉ buf ∧ E.fails .writeFileToTempOpen = none ∧ E.fails .writeFileToTempWrite = none ∧
    (fi.flags.has O_TRUNC = true → buf = [])
  create : verdict E path fi is_create w = 3 →
    E.fails .clientOpenCreatTemp = none ∨ getHashedPath path ∈ w.cl.dirty_files
  use : verdict E path fi is_create w ≠ 3 → brought E path fi is_create w = none →
    FinalTidy E path fi.flags w
  delete : E.fails .clientOpenOpen = none ∨ E.fails .deleteFromTempRemove = none ∨
    verdict E path fi is_create w ≠ 3

theorem Agrees.afterPrepared {base : Option Bytes} {touched : Prop} (h : Agrees base touched path w)
    (htidy : OpenTidy E path fi is_create w) :
    Agrees ((brought E path fi is_create w).or base)
      ((touched ∧ brought E path fi is_create w = none) ∨ Creates E path fi is_create w) path
      (prepared E path fi is_create w) ∧
      FinalTidy E path fi.flags (prepared E path fi is_create w) := by
  by_cases hverdict : verdict E path fi is_create w = 3
  · have hdirty := prepared_create hverdict
    have hnone : brought E path fi is_create w = none := by
      unfold brought
      rw [hverdict]
      rfl
    refine ⟨.of_dirty hdirty ?_, fun _ _ => hdirty, fun _ _ _ => Or.inr hdirty, ?_⟩
    · rcases htidy.create hverdict with hok | hold
      · exact Or.inr ⟨hverdict, hok⟩
      · exact Or.inl ⟨h.touched_of_dirty hold, hnone⟩
    · rcases htidy.delete with hok | hok | hne
      · exact Or.inl hok
      · exact Or.inr (Or.inl hok)
      · exact absurd hverdict hne
  · cases hbuf : brought E path fi is_create w with
    | some buf =>
        obtain ⟨hclean, hnul, hopen, hwrite, htrunc⟩ := htidy.fetch buf hbuf
        obtain ⟨htemp, hmarks⟩ := prepared_brought hbuf hnul hopen hwrite
        rw [← hmarks] at hclean
        refine ⟨⟨fun bytes hbytes hne => ?_, fun _ => hclean⟩, fun hnone => ?_, fun bytes hbytes hflag => ?_,
          Or.inr (Or.inr hclean)⟩
        · exact absurd (htemp.symm.trans hbytes) hne
        · rw [htemp] at hnone
          cases hnone
        · exact Or.inl (Option.some.inj (hbytes.symm.trans htemp) ▸ htrunc hflag)
    | none =>
        have hsame := prepared_same hverdict hbuf
        have huse := htidy.use hverdict hbuf
        refine ⟨⟨fun bytes hbytes hne => ?_, fun hnot hmem => ?_⟩, ?_, ?_, ?_⟩
        · rw [hsame.files] at hbytes
          rw [hsame.dirty]
          exact h.changed bytes hbytes hne
        · rw [hsame.dirty] at hmem
          exact h.untouched (fun ht => hnot (Or.inl ⟨ht, rfl⟩)) hmem
        · rw [hsame.files, hsame.dirty]
          exact huse.create
        · rw [hsame.files, hsame.dirty]
          exact huse.truncate
        · rw [hsame.dirty]
          exact huse.delete

/-- `Open` on a path that agrees, as long as it is tidy. -/
theorem Agrees.afterOpen {base : Option Bytes} {touched : Prop} (h : Agrees base touched path w)
    (htidy : OpenTidy E path fi is_create w) :
    Agrees ((brought E path fi is_create w).or base)
      (((touched ∧ brought E path fi is_create w = none) ∨ Creates E path fi is_create w) ∨
        FinalMakes E path fi.flags (prepared E path fi is_create w)) path
      (AFSClient.Open E path fi is_create w).2 := by
  obtain ⟨hprepared, hfinal⟩ := h.afterPrepared htidy
  rw [Open_eq]
  exact hprepared.afterFinal hfinal

end Open

section Flush

variable {E : Env} {path : CString} {w : World} {base : Option Bytes} {touched : Prop}

/-- The version a flush commits: the bytes it sent, if the server acknowledged them. -/
def committed (E : Env) (path : CString) (w : World) : Option Bytes :=
  if getHashedPath path ∈ w.cl.dirty_files ∧ E.writeOk 0 = true then
    match (AFSClient.ifstreamRead E .clientFlushIfstream (getTempPath path) w).1 with
    | none => none
    | some content =>
        let chunks := AFSClient.sentChunks E.writeOk 1 (Chunks.pieces BUFSIZE content)
        if (AFSClient.putFileStream E (uploadRequests path.bytes chunks) w).1.isSome then
          some chunks.flatten
        else none
  else none

omit [Sha256] in
theorem putFileStream_of_srv (E : Env) (requests : List PutFileReq) {w w' : World} (h : w'.srv = w.srv) :
    (AFSClient.putFileStream E requests w').1 = (AFSClient.putFileStream E requests w).1 := by
  unfold AFSClient.putFileStream
  rw [h]
  split_ifs <;> rfl

omit [Sha256] in
theorem ifstreamRead_of_files (E : Env) (site : Site) (name : Bytes) {w w' : World}
    (h : w'.files = w.files) :
    (AFSClient.ifstreamRead E site name w').1 = (AFSClient.ifstreamRead E site name w).1 := by
  unfold AFSClient.ifstreamRead
  rw [h]
  split <;> rfl

theorem committed_of_same {w' : World} (h : World.Same w w') :
    committed E path w' = committed E path w := by
  unfold committed
  rw [h.dirty, ifstreamRead_of_files E _ _ h.files]
  simp only [putFileStream_of_srv E _ h.srv]

/-- What a flush of a dirty path may meet: a stream that cannot be written to and a copy that can be
removed, or an acknowledged upload and a copy that can be put into the cache. -/
structure FlushTidy (E : Env) (path : CString) (w : World) : Prop where
  delete : getHashedPath path ∈ w.cl.dirty_files → E.writeOk 0 = false →
    E.fails .deleteFromTempRemove = none
  commit : ∀ bytes, committed E path w = some bytes →
    E.fails .commitToCacheOpen = none ∧ E.fails .commitToCacheCp = none

omit [Sha256] in
/-- A status that is OK comes after every message was written. -/
def Env.Acknowledges (E : Env) : Prop := E.upload.finished = true → ∀ n, E.writeOk n = true

omit [Sha256] in
theorem finished_of_reply {requests : List PutFileReq} {reply : PutFileResp}
    (h : (AFSClient.putFileStream E requests w).1 = some reply) : E.upload.finished = true := by
  unfold AFSClient.putFileStream at h
  split_ifs at h with _ hfinished
  exact hfinished

/-- Once the copy is in the cache, the path is clean and has the version that was committed. -/
theorem agrees_commit {content : Bytes} {w' : World}
    (hcommitted : committed E path w = some content)
    (hsites : E.fails .commitToCacheOpen = none ∧ E.fails .commitToCacheCp = none)
    (htemp : tempAt w'.files path = some content) (hsole : w'.files.Sole (getTempPath path)) (t : Int) :
    Agrees ((committed E path w).or base) (touched ∧ committed E path w = none) path
      (commitToCache E path t w').2 := by
  obtain ⟨ino, hname⟩ := tempAt_ne_none htemp
  have hclean := commitToCache_unmarks E path t (copyTemp_of_ok E path hsites.1 hsites.2 ⟨hname, hsole⟩)
  refine ⟨fun bytes hbytes hne => ?_, fun _ => hclean⟩
  rw [commitToCache_tempAt t hsole, htemp] at hbytes
  rw [hcommitted] at hne
  exact absurd hbytes hne

theorem Agrees.afterFlush (h : Agrees base touched path w) (htidy : FlushTidy E path w)
    (hgrpc : E.Acknowledges) (hsole : w.files.Sole (getTempPath path)) :
    Agrees ((committed E path w).or base) (touched ∧ committed E path w = none) path
      (AFSClient.flush E path w).2 := by
  have hsame := ifstreamRead_same E .clientFlushIfstream (getTempPath path) w
  unfold AFSClient.flush
  rw [bind_run]
  cases hfile : (AFSClient.ifstreamRead E .clientFlushIfstream (getTempPath path) w).1 with
  | none =>
      have hnone : committed E path w = none := by
        unfold committed
        rw [hfile]
        split_ifs <;> rfl
      exact (h.of_same hsame).keep hnone
  | some content =>
      have htemp := ((ifstreamRead_eq_some_iff E _ _ content w).mp hfile).2
      revert hsame
      generalize (AFSClient.ifstreamRead E .clientFlushIfstream (getTempPath path) w).2 = w₁
      intro hsame
      have h₁ := h.of_same hsame
      by_cases hsend : getHashedPath path ∈ w.cl.dirty_files ∧ E.writeOk 0 = true
      · have hsrv := putFileStream_of_srv E (uploadRequests path.bytes
          (AFSClient.sentChunks E.writeOk 1 (Chunks.pieces BUFSIZE content))) hsame.srv
        have hcommitted : committed E path w = if (AFSClient.putFileStream E (uploadRequests path.bytes
            (AFSClient.sentChunks E.writeOk 1 (Chunks.pieces BUFSIZE content))) w₁).1.isSome then
              some (AFSClient.sentChunks E.writeOk 1 (Chunks.pieces BUFSIZE content)).flatten
            else none := by
          unfold committed
          rw [if_pos hsend, hfile, hsrv]
        have hcl := putFileStream_cl E (uploadRequests path.bytes
          (AFSClient.sentChunks E.writeOk 1 (Chunks.pieces BUFSIZE content))) w₁
        simp only [bind_run, isFileDirty, hsame.dirty, hsend.1, decide_true, Bool.true_eq_false, hsend.2,
          if_false]
        cases hreply : (AFSClient.putFileStream E (uploadRequests path.bytes
            (AFSClient.sentChunks E.writeOk 1 (Chunks.pieces BUFSIZE content))) w₁).1 with
        | none =>
            rw [hreply] at hcommitted
            exact (h₁.of_cl hcl).keep hcommitted
        | some reply =>
            have hall := sentChunks_all (hgrpc (finished_of_reply hreply)) 1 (Chunks.pieces BUFSIZE content)
            rw [hreply, hall, Chunks.pieces_flatten] at hcommitted
            have hsites := htidy.commit content hcommitted
            have hfiles : (AFSClient.putFileStream E (uploadRequests path.bytes (AFSClient.sentChunks
                E.writeOk 1 (Chunks.pieces BUFSIZE content))) w₁).2.files = w.files :=
              (congrArg (·.files) hcl).trans hsame.files
            exact agrees_commit hcommitted hsites (hfiles ▸ htemp) (hfiles ▸ hsole) _
      · have hnone : committed E path w = none := by
          unfold committed
          rw [if_neg hsend]
        refine Agrees.keep ?_ hnone
        simp only [bind_run, isFileDirty, hsame.dirty]
        by_cases hdirty : getHashedPath path ∈ w.cl.dirty_files
        · have hfirst : E.writeOk 0 = false := by simpa using fun hok => hsend ⟨hdirty, hok⟩
          simp only [hdirty, decide_true, hfirst, Bool.true_eq_false, if_false, if_true, bind_run]
          have hsent : Agrees base touched path (AFSClient.putFileStream E [] w₁).2 :=
            h₁.of_cl (putFileStream_cl E [] w₁)
          exact hsent.afterDelete fun _ _ _ => htidy.delete hdirty hfirst
        · simp only [hdirty, decide_false, if_true]
          exact h₁

end Flush

/-! ### Truncate, write and unlink -/

section Truncate

variable {E : Env} {path : CString} {w : World} {base : Option Bytes} {touched : Prop}

/-- The temporary copy is cut or extended. -/
def Truncates (E : Env) (path : CString) (length : Int) (w : World) : Prop :=
  0 ≤ length ∧ E.fails .truncate = none ∧ tempAt w.files path ≠ none

/-- It is marked, or has the length already. -/
def TruncateTidy (E : Env) (path : CString) (length : Int) (w : World) : Prop :=
  Truncates E path length w → ∀ bytes, tempAt w.files path = some bytes →
    getHashedPath path ∈ w.cl.dirty_files ∨ length.toNat = bytes.length

theorem Agrees.afterTruncate (h : Agrees base touched path w) {length : Int}
    (htidy : TruncateTidy E path length w) : Agrees base (touched ∨ Truncates E path length w) path
      (posixTruncate E .truncate (getTempPath path) length w).2 := by
  rcases posixTruncate_run E .truncate w (getTempPath path) length with ⟨ino, ⟨hle, hok, hname⟩, heq⟩ | ⟨_, e, _, heq⟩
  · rw [heq]
    have htemp : tempAt w.files path = some (w.files.inode ino).content := by
      rw [tempAt, Fs.find_of_names hname]
      rfl
    have hcuts : Truncates E path length w := ⟨hle, hok, htemp ▸ Option.some_ne_none _⟩
    rcases htidy hcuts _ htemp with hdirty | hlength
    · exact .of_dirty hdirty (Or.inr hcuts)
    · have hsame : tempAt (w.files.setInode ino { w.files.inode ino with
          content := resize (w.files.inode ino).content length.toNat, mtime := E.now .truncate })
          path = tempAt w.files path := by
        rw [hlength, resize_self, htemp, tempAt]
        exact congrArg (Option.map (·.content)) (Fs.find_setInode_self w.files _ hname)
      have hcut : Agrees base touched path (w.setFiles (w.files.setInode ino { w.files.inode ino with
          content := resize (w.files.inode ino).content length.toNat, mtime := E.now .truncate })) :=
        h.of_eq hsame Iff.rfl
      exact hcut.touch _
  · rw [heq]
    exact (h.of_same (same_failWith e w)).touch _

theorem unlink_cl (E : Env) (path : CString) (w : World) :
    (AFSClient.unlink E path w).2.cl = (deleteFromTemp E path w).2.cl := by
  unfold AFSClient.unlink unary
  simp only [bind_run]
  split <;> split_ifs <;> rfl

theorem Agrees.afterUnlink (h : Agrees base touched path w)
    (htidy : getHashedPath path ∈ w.cl.dirty_files → E.fails .deleteFromTempRemove = none) :
    Agrees base touched path (AFSClient.unlink E path w).2 := by
  have hdelete := h.afterDelete fun _ _ => htidy
  exact hdelete.of_cl (unlink_cl E path w)

end Truncate

section Write

variable {E : Env} {path : CString} {fi : FuseFileInfo} {w : World}

omit [Sha256] in
/-- A write through the handle goes through, to this inode. -/
def WritesTo (E : Env) (fi : FuseFileInfo) (w : World) (ino : Nat) : Prop :=
  E.fails .pwrite = none ∧ ∃ d, w.cl.fds.get fi.fh = some d ∧ d.ino = ino ∧
    d.flags &&& O_ACCMODE ≠ O_RDONLY

/-- A write through the handle goes through, to the temporary copy of the path. -/
def Writes (E : Env) (fi : FuseFileInfo) (w : World) (path : CString) : Prop :=
  ∃ ino, w.files.names (getTempPath path) = some ino ∧ WritesTo E fi w ino

omit [Sha256] in
/-- It changes that inode only, and no name. -/
theorem posixPwrite_files (E : Env) (fi : FuseFileInfo) (buf : Bytes) (offset : Nat) (w : World) :
    (posixPwrite E .pwrite fi.fh buf offset w).2.files.names = w.files.names ∧
      (∀ ino, ¬ WritesTo E fi w ino →
        (posixPwrite E .pwrite fi.fh buf offset w).2.files.inode ino = w.files.inode ino) ∧
      (posixPwrite E .pwrite fi.fh buf offset w).2.cl.dirty_files = w.cl.dirty_files := by
  rcases posixPwrite_run E .pwrite w fi.fh buf offset with ⟨d, ⟨hok, hget, haccess⟩, heq⟩ | ⟨_, _, heq⟩
  · rw [heq]
    split_ifs
    · exact ⟨rfl, fun _ _ => rfl, rfl⟩
    · refine ⟨rfl, fun ino hnot => Fs.put_of_ne _ _ _ ?_, rfl⟩
      rintro rfl
      exact hnot ⟨hok, d, hget, rfl, haccess⟩
  · rw [heq]
    exact ⟨rfl, fun _ _ => rfl, rfl⟩

/-- A path whose copy the write does not reach has the copy it had. -/
theorem posixPwrite_tempAt {q : CString} (hnot : ¬ Writes E fi w q) (buf : Bytes) (offset : Nat) :
    tempAt (posixPwrite E .pwrite fi.fh buf offset w).2.files q = tempAt w.files q := by
  obtain ⟨hnames, hinode, _⟩ := posixPwrite_files E fi buf offset w
  cases hname : w.files.names (getTempPath q) with
  | none =>
      rw [tempAt, tempAt, Fs.find_eq_none_iff.mpr hname, Fs.find_eq_none_iff.mpr (by rw [hnames, hname])]
  | some ino =>
      have hkeep := hinode ino fun hwrites => hnot ⟨ino, hname, hwrites⟩
      rw [tempAt, tempAt, Fs.find_of_names hname, Fs.find_of_names (hnames ▸ hname), hkeep]

end Write

end Bnfs
