import Bnfs.ClientSessions

/-! A file that only one client flushes. Its temporary copy then never falls behind the server's file, so every later open
takes it as it is: nothing is fetched, and what was written and not flushed is still there. -/

namespace Bnfs

open FileSystem Programs Runs Stamped FileServer Sessions

section Client

variable [Sha256] {paths : Set CString} {E : Env} {w : World} {path p : CString} {fi : FuseFileInfo} {lo hi : Int}
  {handles : List (CString × FuseFileInfo)} {request : Request}

/-- The server has the file and the client has a copy of it, of no earlier second. -/
def Abreast (srv : Server) (files : Files) (path : CString) : Prop :=
  ∃ content t content' t', dated srv.files (getServerPath path.bytes) = some (content, t) ∧
    dated files (getTempPath path) = some (content', t') ∧ t.tv_sec ≤ t'.tv_sec

/-- There is a copy. -/
theorem Abreast.names {srv : Server} {files : Files} (h : Abreast srv files path) :
    ∃ ino, files.names (getTempPath path) = some ino := by
  obtain ⟨_, _, _, _, _, hcopied, _⟩ := h
  obtain ⟨file, hfind, _⟩ := Option.map_eq_some_iff.mp hcopied
  obtain ⟨ino, hname, _⟩ := Fs.find_eq_some_iff.mp hfind
  exact ⟨ino, hname⟩

theorem Abreast.of_same {w' : World} (h : Abreast w.srv w.files path) (hsame : World.Same w w') :
    Abreast w'.srv w'.files path := by
  rw [hsame.srv, hsame.files]
  exact h

/-- The file of the server stays, and the copy stays or is written anew in a later period. -/
theorem Abreast.renewed {srv' : Server} {files' : Files} (h : Abreast w.srv w.files path)
    (hsrv : ∀ file, dated w.srv.files (getServerPath path.bytes) = some file →
      dated srv'.files (getServerPath path.bytes) = some file)
    (hbound : WrittenIn (-2 ^ 31 - 1) lo (dated w.srv.files (getServerPath path.bytes)))
    (hcopy : dated files' (getTempPath path) = dated w.files (getTempPath path) ∨
      WrittenIn lo hi (dated files' (getTempPath path)))
    (hthere : files'.names (getTempPath path) ≠ none) : Abreast srv' files' path := by
  obtain ⟨content, t, content', t', hfile, hcopied, hle⟩ := h
  rcases hcopy with heq | hnew
  · exact ⟨content, t, content', t', hsrv _ hfile, heq.trans hcopied, hle⟩
  · obtain ⟨ino, hname⟩ := Option.ne_none_iff_exists'.mp hthere
    have hfound : dated files' (getTempPath path) = some ((files'.inode ino).content, (files'.inode ino).mtime) := by
      rw [dated, Fs.find_of_names hname]
      rfl
    have hearly := hbound _ _ hfile
    have hlate := hnew _ _ hfound
    exact ⟨content, t, _, _, hsrv _ hfile, hfound, by omega⟩

/-- What was fetched is saved in the period. -/
theorem saveFetched_written (path : CString) (hrel : E.Reliable) (hduring : E.During lo hi) (data : Bytes) :
    WrittenIn lo hi (dated (saveFetched E path data w).2.files (getTempPath path)) := by
  unfold saveFetched
  simp only [bind_run]
  generalize (writeFileToCache E path data w).2 = w₁
  unfold writeFileToTemp ofstreamSave
  simp only [bind_run, hrel.calls, Option.isSome_none, Bool.false_eq_true, if_false]
  obtain ⟨kept, hfind⟩ := Fs.find_overwrite_self w₁.files (getTempPath path) data
    (if data = [] then E.now .writeFileToTempOpen else E.now .writeFileToTempWrite) (E.attr .writeFileToTempOpen)
  refine writtenIn_of_find hfind ?_
  split_ifs
  · exact hduring _
  · exact hduring _

omit [Sha256] in
theorem not_createsLocally (hrel : E.Reliable) (hthere : contentAt w.srv path.bytes ≠ none) (flags : OpenFlags)
    (is_create : Bool) : ¬ CreatesLocally E path flags is_create w := fun hcreate =>
  hthere (Option.map_eq_none_iff.mpr (Fs.find_eq_none_iff.mpr (missing_of_enoent hrel hcreate.1)))

section Opens

variable (hrel : E.Reliable) (hok : ClientOk paths w.srv lo w.cl handles) (hlo : lo < 2 ^ 31)
  (hsrv : WrittenIn (-2 ^ 31 - 1) lo (dated w.srv.files (getServerPath path.bytes)))

include hrel hok hlo hsrv

/-- The test compares the seconds as they are. -/
theorem reportedTime_le_iff {content : Bytes} {t : Timespec} {file : File}
    (hfile : dated w.srv.files (getServerPath path.bytes) = some (content, t))
    (hcopy : w.files.find (getTempPath path) = some file) :
    reportedTime E path w ≤ toInt file.mtime.tv_sec ↔ t.tv_sec ≤ file.mtime.tv_sec := by
  have hcopied : dated w.cl.files (getTempPath path) = some (file.content, file.mtime) := by
    rw [dated, show w.cl.files.find (getTempPath path) = some file from hcopy]
    rfl
  have ht := hsrv _ _ hfile
  have ht' := hok.times path _ _ hcopied
  rw [reportedTime_of_reliable hrel hfile, toInt_of_range (by omega) (by omega), toInt_of_range (by omega) (by omega)]

/-- A copy that is abreast is taken, as long as descriptor 0 is open. -/
theorem Abreast.used (h : Abreast w.srv w.files path) (hstdin : w.cl.fds.get 0 ≠ none) : TempUsed E path w := by
  obtain ⟨ino, hname⟩ := h.names
  obtain ⟨content, t, content', t', hfile, hcopied, hle⟩ := h
  obtain ⟨file, hfind, hdated⟩ := Option.map_eq_some_iff.mp hcopied
  have hreadable : TempReadable E path w :=
    ⟨hrel.calls _, hname ▸ Option.some_ne_none ino, Or.inl hstdin⟩
  cases hdated
  exact ⟨(checkedTemp_pos_iff E path w).mpr hreadable, file, hfind,
    (reportedTime_le_iff hrel hok hlo hsrv hfile hfind).mpr hle⟩

/-- So an open changes neither a file nor a mark. -/
theorem Abreast.reopened (h : Abreast w.srv w.files path) (hstdin : w.cl.fds.get 0 ≠ none)
    (htrunc : fi.flags.has O_TRUNC = false) (is_create : Bool) :
    World.Same w (openHandle E path fi is_create w).2 := by
  have hused := h.used hrel hok hlo hsrv hstdin
  have hthere : contentAt w.srv path.bytes ≠ none := by
    obtain ⟨content, t, _, _, hfile, _⟩ := h
    rw [Net.contentAt_eq_some_iff.mpr ⟨t, hfile⟩]
    exact Option.some_ne_none content
  obtain ⟨ino, hname⟩ := hused.names
  rw [openHandle_world hrel.plain]
  rcases getOpenFlags_result E path fi.flags is_create w with ⟨_, hcreate⟩ | ⟨heq, _⟩ | ⟨_, _, hnot⟩
  · exact absurd hcreate (not_createsLocally hrel hthere fi.flags is_create)
  · have hsame := prepared_used fi heq
    rw [Open_of_prepared fi hrel htrunc (hsame.files ▸ hname)]
    exact trans_of World.Same hsame (same_newFd ino _ _)
  · exact absurd hused hnot

/-- After an open of a file of the server the copy is abreast, and descriptor 0 is taken. -/
theorem openHandle_abreast (hduring : E.During lo hi) (hthere : contentAt w.srv path.bytes ≠ none)
    (htrunc : fi.flags.has O_TRUNC = false) (is_create : Bool) :
    Abreast (openHandle E path fi is_create w).2.srv (openHandle E path fi is_create w).2.files path ∧
      (openHandle E path fi is_create w).2.cl.fds.get 0 ≠ none := by
  obtain ⟨content, hcontent⟩ := Option.ne_none_iff_exists'.mp hthere
  obtain ⟨t, hfile⟩ := Net.contentAt_eq_some_iff.mp hcontent
  have hprepared : Abreast (prepared E path fi is_create w).srv (prepared E path fi is_create w).files path := by
    rcases getOpenFlags_result E path fi.flags is_create w with ⟨_, hcreate⟩ | ⟨heq, _, hused⟩ | ⟨heq, _⟩
    · exact absurd hcreate (not_createsLocally hrel hthere fi.flags is_create)
    · obtain ⟨_, file, hfind, hle⟩ := hused
      have hcopied : dated w.files (getTempPath path) = some (file.content, file.mtime) := by
        rw [dated, hfind]
        rfl
      have habreast : Abreast w.srv w.files path :=
        ⟨content, t, _, _, hfile, hcopied, (reportedTime_le_iff hrel hok hlo hsrv hfile hfind).mp hle⟩
      exact habreast.of_same (prepared_used fi heq)
    · obtain ⟨hkept, _, htemp⟩ := prepared_fetched fi hrel heq
      obtain ⟨checked, hsame, hsaved⟩ := prepared_saves fi heq
      rw [received_of_reliable hrel] at hsaved
      dsimp only at hsaved
      obtain ⟨ino, hname⟩ := tempAt_ne_none htemp
      have hfound : dated (prepared E path fi is_create w).files (getTempPath path) =
          some (((prepared E path fi is_create w).files.inode ino).content,
            ((prepared E path fi is_create w).files.inode ino).mtime) := by
        rw [dated, Fs.find_of_names hname]
        rfl
      have hwritten := saveFetched_written path hrel hduring (cStr ((contentAt w.srv path.bytes).getD []))
        (w := checked)
      rw [← hsaved] at hwritten
      have hlate := hwritten _ _ hfound
      have hearly := hsrv _ _ hfile
      rw [hkept]
      exact ⟨content, t, _, _, hfile, hfound, by omega⟩
  obtain ⟨ino, hname⟩ := hprepared.names
  rw [openHandle_world hrel.plain, Open_of_prepared fi hrel htrunc hname]
  exact ⟨hprepared.of_same (same_newFd ino _ _), Descriptors.get_insert_zero_ne _ _⟩

end Opens

section Requests

variable (hrel : E.Reliable) (hok : ClientOk paths w.srv lo w.cl handles) (hflags : Flagged w.cl.fds handles)
  (hthrough : ∀ handle, request.through = some handle → handle ∈ handles)

include hrel hok hflags hthrough

/-- But for a flush of its path a file of the server stays, its time included. -/
theorem Request.file_kept (hduring : E.During lo hi) (hlo : -2 ^ 31 ≤ lo) (hhi : hi < 2 ^ 31)
    (htrunc : request.truncates = false)
    (hfresh : ∀ path fi, request = .flush path fi → w.srv.files.names (uploadTemp E path.bytes) = none)
    (hnot : ∀ fi, request ≠ .flush p fi) {file : Bytes × Timespec}
    (hfile : dated w.srv.files (getServerPath p.bytes) = some file) :
    dated (request.effect E w).srv.files (getServerPath p.bytes) = some file := by
  cases request with
  | openFile path fi is_create =>
      obtain ⟨_, _, hopened, _⟩ := openHandle_spec fi path hrel hduring htrunc is_create w
      show dated (openHandle E path fi is_create w).2.srv.files _ = some file
      cases hopened with
      | created _ hmissing hsrv =>
          have hne : getServerPath p.bytes ≠ getServerPath path.bytes := by
            intro heq
            rw [heq, dated, Fs.find_eq_none_iff.mpr hmissing] at hfile
            cases hfile
          rw [dated_of_find_eq (hsrv _ hne)]
          exact hfile
      | fetched hsrv _ _ => rwa [hsrv]
      | used hsame _ => rwa [hsame.srv]
  | write path fi buf offset =>
      obtain ⟨ino, hget, hname⟩ := hok.descriptor hflags (hthrough _ rfl)
      obtain ⟨_, _, hsrv, _⟩ := unreliableWrite_spec hrel hduring buf offset hget hname
      show dated (unreliableWrite E path buf offset (some fi) w).2.srv.files _ = some file
      rwa [hsrv]
  | flush path fi =>
      obtain ⟨ino, hget, hname⟩ := hok.descriptor hflags (hthrough _ rfl)
      obtain ⟨_, _, hflush⟩ := unreliableFlush_spec hrel hduring hlo hhi hget ⟨hname, hok.sole path⟩
      show dated (unreliableFlush E path fi w).2.srv.files _ = some file
      rcases hflush with ⟨_, hsame⟩ | ⟨_, hflushed⟩
      · rwa [hsame.srv]
      · obtain ⟨chunks, hsrv⟩ := hflushed.srv
        have hne : getServerPath p.bytes ≠ getServerPath path.bytes := fun heq =>
          hnot fi (by rw [getServerPath_injective heq])
        rw [hsrv]
        exact dated_putFile_of_ne hrel ⟨path.bytes, []⟩ _ w.srv (hfresh path fi rfl) hne hfile

end Requests

/-- A flush of what is clean changes nothing. -/
theorem unreliableFlush_clean (hrel : E.Reliable) {d : Descriptor} (hfd : w.cl.fds.get fi.fh = some d)
    (hclean : getHashedPath path ∉ w.cl.dirty_files) : World.Same w (unreliableFlush E path fi w).2 := by
  have hdup : DupOk E fi w := ⟨hrel.calls _, by rw [hfd]; rfl⟩
  obtain ⟨w₁, hsame, _, hflush⟩ := flushThrough_of_dupOk path fi hdup
  rw [unreliableFlush_plain path fi hrel.plain, hflush]
  exact trans_of World.Same hsame (flush_clean E (hsame.dirty ▸ hclean)).1

/-- A flush of what is dirty gives both files the same second. -/
theorem flushed_abreast (hrel : E.Reliable) (hdirty : getHashedPath path ∈ w.cl.dirty_files) {d : Descriptor}
    (hfd : w.cl.fds.get fi.fh = some d) (hname : w.files.names (getTempPath path) = some d.ino)
    (hsole : w.files.Sole (getTempPath path)) (hhi : hi < 2 ^ 31)
    (hsrv : WrittenIn (-2 ^ 31 - 1) hi
      (dated (unreliableFlush E path fi w).2.srv.files (getServerPath path.bytes))) :
    Abreast (unreliableFlush E path fi w).2.srv (unreliableFlush E path fi w).2.files path := by
  have hdup : DupOk E fi w := ⟨hrel.calls _, by rw [hfd]; rfl⟩
  obtain ⟨w₁, hsame, _, hflush⟩ := flushThrough_of_dupOk path fi hdup
  rw [unreliableFlush_plain path fi hrel.plain, hflush] at hsrv ⊢
  revert hsrv
  show WrittenIn (-2 ^ 31 - 1) hi (dated (AFSClient.flush E path w₁).2.srv.files (getServerPath path.bytes)) →
    Abreast (AFSClient.flush E path w₁).2.srv (AFSClient.flush E path w₁).2.files path
  intro hsrv
  obtain ⟨file, kept, hfind, _, hcopy, _⟩ :=
    flush_uploads hrel (hsame.dirty ▸ hdirty) (hsame.files ▸ hname) (hsame.files ▸ hsole)
  have hdated : dated (AFSClient.flush E path w₁).2.srv.files (getServerPath path.bytes) =
      some (file.content, file.mtime) := by
    rw [dated, hfind]
    rfl
  have hcopied : dated (AFSClient.flush E path w₁).2.files (getTempPath path) =
      some ((w₁.files.inode d.ino).content, ⟨toInt (toUInt64 file.mtime.tv_sec), 0⟩) := by
    rw [dated, hcopy]
    rfl
  have hbound := hsrv _ _ hdated
  refine ⟨_, _, _, _, hdated, hcopied, ?_⟩
  rw [toInt_toUInt64, toInt_of_range (by omega) (by omega)]

/-- The client's own flush leaves the copy abreast. -/
theorem Abreast.flushed (hrel : E.Reliable) (h : Abreast w.srv w.files path) {d : Descriptor}
    (hfd : w.cl.fds.get fi.fh = some d) (hname : w.files.names (getTempPath path) = some d.ino)
    (hsole : w.files.Sole (getTempPath path)) (hhi : hi < 2 ^ 31)
    (hsrv : WrittenIn (-2 ^ 31 - 1) hi
      (dated (unreliableFlush E path fi w).2.srv.files (getServerPath path.bytes))) :
    Abreast (unreliableFlush E path fi w).2.srv (unreliableFlush E path fi w).2.files path := by
  by_cases hdirty : getHashedPath path ∈ w.cl.dirty_files
  · exact flushed_abreast hrel hdirty hfd hname hsole hhi hsrv
  · exact h.of_same (unreliableFlush_clean hrel hfd hdirty)

end Client

namespace Net

variable {ι : Type} [DecidableEq ι] [Sha256] {paths : Set CString} {s t u : Net ι} {c : Call ι} {i : ι} {p : CString}

/-- Another client flushes the path. -/
def FlushedByOther (i : ι) (p : CString) (c : Call ι) : Prop := c.client ≠ i ∧ ∃ fi, c.request = .flush p fi

omit [DecidableEq ι] in
/-- A client is abreast of a file, and its descriptor 0 is open. -/
structure KeepsUp (s : Net ι) (i : ι) (p : CString) : Prop where
  abreast : Abreast s.srv (s.clients i).files p
  stdin : (s.clients i).fds.get 0 ≠ none

/-- A client stays abreast of a file that no other client flushes. -/
theorem KeepsUp.step (h : s.KeepsUp i p) (hs : InOrder paths s) (hpaths : NoCollision paths) (hc : Assumed paths s c)
    (hfresh : s.FreshTemp c) (hother : ¬ FlushedByOther i p c) (hstep : s.step c t) : t.KeepsUp i p := by
  obtain ⟨hsrv, hclients, hclock, hthrough⟩ := step_effect hstep
  have hok := hs.consistent.clients c.client
  have hafter := (hs.step hpaths hc hstep).consistent.server
  rw [hclock, hsrv] at hafter
  have hkeptFile : (∀ fi, c.request ≠ .flush p fi) → ∀ file, dated s.srv.files (getServerPath p.bytes) = some file →
      dated t.srv.files (getServerPath p.bytes) = some file := by
    intro hnot file hfile
    rw [hsrv]
    exact Request.file_kept (w := s.world c.client) hc.reliable hok (hs.flags c.client) hthrough hc.during
      hs.consistent.clock hc.below hc.noTrunc hfresh hnot hfile
  by_cases hi : c.client = i
  · subst hi
    obtain ⟨hpasses, hkept, _⟩ := Request.leaves (w := s.world c.client) hc.reliable hok (hs.flags c.client) hthrough
      hc.during hs.consistent.clock hc.below hc.noTrunc
    have hown : t.clients c.client = (c.request.effect c.E (s.world c.client)).cl := by
      rw [hclients, Function.update_self]
    refine ⟨?_, ?_⟩
    · by_cases hflush : ∃ fi, c.request = .flush p fi
      · obtain ⟨fi, hrequest⟩ := hflush
        obtain ⟨ino, hget, hname⟩ := hok.descriptor (w := s.world c.client) (hs.flags c.client)
          (hthrough (p, fi) (by rw [hrequest]; rfl))
        rw [hsrv, hown]
        rw [hrequest] at hafter ⊢
        exact Abreast.flushed (w := s.world c.client) hc.reliable h.abreast hget hname (hok.sole p) hc.below (hafter _)
      · have hnot : ∀ fi, c.request ≠ .flush p fi := fun fi heq => hflush ⟨fi, heq⟩
        have hcopy : dated (t.clients c.client).files (getTempPath p) =
              dated (s.clients c.client).files (getTempPath p) ∨
            WrittenIn s.clock c.ends (dated (t.clients c.client).files (getTempPath p)) := by
          rw [hown]
          exact hpasses.files.renewed _
        have hthere : (t.clients c.client).files.names (getTempPath p) ≠ none := by
          obtain ⟨ino, hname⟩ := h.abreast.names
          rw [hown, show (c.request.effect c.E (s.world c.client)).cl.files.names (getTempPath p) = some ino from
            hpasses.files.names _ _ hname]
          exact Option.some_ne_none ino
        exact Abreast.renewed (w := s.world c.client) h.abreast (hkeptFile hnot) (hs.consistent.server _) hcopy hthere
    · obtain ⟨d, hd⟩ := Option.ne_none_iff_exists'.mp h.stdin
      rw [hown, hkept _ _ hd]
      exact Option.some_ne_none d
  · have hsame : t.clients i = s.clients i := by rw [hclients, Function.update_of_ne (Ne.symm hi)]
    have hnot : ∀ fi, c.request ≠ .flush p fi := fun fi heq => hother ⟨hi, fi, heq⟩
    obtain ⟨content, time, content', time', hfile, hcopied, hle⟩ := h.abreast
    rw [← hsame] at hcopied
    exact ⟨⟨content, time, content', time', hkeptFile hnot _ hfile, hcopied, hle⟩, hsame ▸ h.stdin⟩

/-- An open of the file by the client changes nothing. -/
theorem KeepsUp.reopened (h : s.KeepsUp i p) (hs : InOrder paths s) (hc : Assumed paths s c)
    (hopens : c.act.Opens i p) (hstep : s.step c t) :
    World.Same (s.world i) (t.world i) := by
  obtain ⟨hclient, hpath, hkind⟩ := hopens
  have hend := hc.clock_le
  have hbelow := hc.below
  have htrunc := hc.noTrunc
  obtain ⟨hsrv, hclients, _, _⟩ := step_effect hstep
  cases hrequest : c.request with
  | openFile path fi is_create =>
      have hclient : c.client = i := hclient
      have hpath : path = p := by
        have hpath : c.request.path = p := hpath
        rwa [hrequest] at hpath
      subst hclient hpath
      rw [hrequest] at htrunc hsrv hclients
      have hsame := Abreast.reopened (w := s.world c.client) hc.reliable (hs.consistent.clients c.client) (by omega)
        (hs.consistent.server _) h.abreast h.stdin htrunc is_create
      have hworld : t.world c.client = ⟨(openHandle c.E path fi is_create (s.world c.client)).2.srv,
          (openHandle c.E path fi is_create (s.world c.client)).2.cl, t.errno c.client⟩ := by
        rw [Net.world, hsrv, hclients, Function.update_self]
        rfl
      rw [hworld]
      exact ⟨hsame.files, hsame.dirty, hsame.srv⟩
  | write path fi buf offset =>
      have hkind : c.request.kind = .opens := hkind
      rw [hrequest] at hkind
      cases hkind
  | flush path fi =>
      have hkind : c.request.kind = .opens := hkind
      rw [hrequest] at hkind
      cases hkind

/-- The copy of a file that no other client flushes has the client's writes, over any number of opens. -/
theorem KeepsUp.run (h : s.KeepsUp i p) (hs : InOrder paths s) (hpaths : NoCollision paths) (hp : p ∈ paths)
    {trace : List (Net ι × Call ι)} (hrun : Run Net.step s trace t) (hassumed : Guarded (Assumed paths) trace)
    (hfresh : Guarded FreshTemp trace) (halone : Guarded (fun _ d => ¬ FlushedByOther i p d) trace) :
    InOrder paths t ∧ t.KeepsUp i p ∧ tempAt (t.clients i).files p =
      (tempAt (s.clients i).files p).map (edits i p (trace.map fun entry => entry.2.act)) := by
  induction hrun with
  | nil => exact ⟨hs, h, Option.map_id'.symm⟩
  | @cons trace s' c t hrun hstep ih =>
      obtain ⟨hs', h', hcopy⟩ := ih hassumed.tail hfresh.tail halone.tail
      have hc : Assumed paths s' c := hassumed.head
      refine ⟨hs'.step hpaths hc hstep, h'.step hs' hpaths hc hfresh.head halone.head hstep, ?_⟩
      have hown : tempAt (t.clients i).files p = (tempAt (s'.clients i).files p).map (c.act.own i p) := by
        by_cases hopens : c.act.Opens i p
        · have hid : c.act.own i p = id := by
            funext content
            simp only [Act.own, hopens.2.2, id]
          have hsame := (h'.reopened hs' hc hopens hstep).files
          rw [hid, Option.map_id, id]
          exact congrArg (tempAt · p) hsame
        · have hcopy := (hs'.act hpaths hc hfresh.head hstep).copy hopens
          simp only [service, if_pos hp] at hcopy
          exact hcopy
      rw [hown, hcopy, Option.map_map]
      rfl

/-- A client that opened a file of the server keeps up with it. -/
theorem keepsUp_of_open (hs : InOrder paths s) (hc : Assumed paths s c) (hopen : s.step c t) {path : CString}
    {fi : FuseFileInfo} {is_create : Bool} (hrequest : c.request = .openFile path fi is_create)
    (hthere : contentAt s.srv path.bytes ≠ none) : t.KeepsUp c.client path := by
  have hend := hc.clock_le
  have hbelow := hc.below
  have htrunc := hc.noTrunc
  obtain ⟨hsrv, hclients, _, _⟩ := step_effect hopen
  rw [hrequest] at htrunc hsrv hclients
  obtain ⟨habreast, hstdin⟩ := openHandle_abreast (w := s.world c.client) hc.reliable (hs.consistent.clients c.client)
    (by omega) (hs.consistent.server _) hc.during hthere htrunc is_create
  refine ⟨?_, ?_⟩
  · rw [hsrv, hclients, Function.update_self]
    exact habreast
  · rw [hclients, Function.update_self]
    exact hstdin

/-- A file of the server that a client has opened and that no other client flushes from then on: over any number of
further opens the client's copy is what it opened with all its writes, flushed or not; an open transfers nothing and
changes nothing; and a flush puts exactly these bytes on the server. -/
theorem unshared_kept (hpaths : NoCollision paths) {start : Net ι} (hstart : start.Start)
    {before : List (Net ι × Call ι)} (hbefore : Run Net.step start before s) (hassumed : Guarded (Assumed paths) before)
    (hc : Assumed paths s c) (hopen : s.step c t) {path : CString} {fi : FuseFileInfo} {is_create : Bool}
    (hrequest : c.request = .openFile path fi is_create) (hthere : contentAt s.srv path.bytes ≠ none)
    {content : Bytes} (hcontent : tempAt (t.clients c.client).files path = some content) {trace : List (Net ι × Call ι)}
    (hrun : Run Net.step t trace u) (hassumed' : Guarded (Assumed paths) trace) (hfresh : Guarded FreshTemp trace)
    (halone : Guarded (fun _ d => ¬ FlushedByOther c.client path d) trace) :
    let bytes := edits c.client path (trace.map fun entry => entry.2.act) content
    tempAt (u.clients c.client).files path = some bytes ∧
    (∀ d v, Assumed paths u d → u.step d v → d.act.Opens c.client path →
      World.Same (u.world c.client) (v.world c.client)) ∧
    ∀ d v fi', Assumed paths u d → u.FreshTemp d → u.step d v → d.client = c.client → d.request = .flush path fi' →
      getHashedPath path ∈ (u.clients c.client).dirty_files → contentAt v.srv path.bytes = some bytes := by
  intro bytes
  have hpath : path ∈ paths := by
    have hpath := hc.path
    rwa [hrequest] at hpath
  have hs := InOrder.of_run hpaths hstart.inOrder hbefore hassumed
  have ht := hs.step hpaths hc hopen
  have hkeeps := keepsUp_of_open hs hc hopen hrequest hthere
  obtain ⟨hu, hkeeps', hcopy⟩ := hkeeps.run ht hpaths hpath hrun hassumed' hfresh halone
  rw [hcontent, Option.map_some] at hcopy
  refine ⟨hcopy, fun d v hd hstep hopens => hkeeps'.reopened hu hd hopens hstep, ?_⟩
  intro d v fi' hd hdfresh hflush hclient hrequest' hdirty
  have hact : d.act = ⟨c.client, path, .publishes⟩ := by rw [Call.act, hclient, hrequest']; rfl
  have hpublish := hu.act hpaths hd hdfresh hflush
  rw [hact] at hpublish
  have hcopied : (service paths u).copies c.client path = some bytes := (if_pos hpath).trans hcopy
  have hpublished := (hpublish.published ⟨hpath, hdirty⟩ hcopied).1
  rw [← show (service paths v).files path = _ from if_pos hpath]
  exact hpublished

end Net

/-! ### A file opened twice -/

namespace Net

/-- The client writes and flushes, another one opens the file, and the first one writes again. -/
def sampleAlone : List (Call Bool) :=
  [callAt true (.write sampleF ⟨O_RDWR, 1⟩ (ascii "s") 3) 2,
    callAt true (.flush sampleF ⟨O_RDWR, 1⟩) 3,
    callAt false (.openFile sampleF ⟨O_RDWR, 0⟩ false) 4,
    callAt true (.write sampleF ⟨O_RDWR, 1⟩ (ascii "t") 3) 5]

/-- It opens the file again. -/
def sampleAgain : Call Bool := callAt true (.openFile sampleF ⟨O_RDWR, 0⟩ false) 6

set_option maxRecDepth 1000 in
theorem sampleAlone_run :
    letI := sampleSha256
    ∃ trace u v, Run step sampleOpened trace u ∧ u.step sampleAgain v ∧ Guarded (Assumed {sampleF}) trace ∧
      Guarded FreshTemp trace ∧ Guarded (fun _ d => ¬ FlushedByOther true sampleF d) trace ∧
      Assumed {sampleF} u sampleAgain ∧
      edits true sampleF (trace.map fun entry => entry.2.act) (ascii "old") = ascii "oldt" := by
  have hrun : Run (@step _ _ sampleSha256) sampleOpened _ _ := .of_advance sampleAlone .nil rfl
  refine ⟨_, _, _, hrun, rfl, ?_, ?_, ?_, .of_smooth rfl (by decide) (by decide) rfl rfl (by decide), by decide⟩
  · refine .cons (.of_smooth rfl ?_ ?_ rfl rfl ?_) (.cons (.of_smooth rfl ?_ ?_ rfl rfl ?_)
      (.cons (.of_smooth rfl ?_ ?_ rfl rfl ?_) (.cons (.of_smooth rfl ?_ ?_ rfl rfl ?_) (guarded_nil _))))
    all_goals decide
  · refine .cons (fun _ _ h => ?_) (.cons (fun _ _ h => ?_) (.cons (fun _ _ h => ?_) (.cons (fun _ _ h => ?_)
      (guarded_nil _))))
    · cases h
    · cases h
    · cases h
      decide
    · cases h
  · refine .cons (fun h => h.1 rfl) (.cons (fun h => ?_) (.cons (fun h => h.1 rfl) (.cons (fun h => h.1 rfl)
      (guarded_nil _))))
    obtain ⟨_, _, h⟩ := h
    cases h

/-- The second open fetches nothing: the write that was not flushed is still there. -/
theorem unshared_kept_sample :
    letI := sampleSha256
    ∃ trace u v, Run step sampleOpened trace u ∧ u.step sampleAgain v ∧
      World.Same (u.world true) (v.world true) ∧ tempAt (v.clients true).files sampleF = some (ascii "oldt") := by
  let _ := sampleSha256
  obtain ⟨trace, u, v, hrun, hagain, hassumed, hfresh, halone, hc, hbytes⟩ := sampleAlone_run
  have hthere : contentAt sampleNet.srv sampleF.bytes ≠ none := by decide
  obtain ⟨hcopy, hsame, _⟩ := unshared_kept (Set.injOn_singleton _ sampleF) sampleNet_start .nil (guarded_nil _)
    sampleFirst_assumed sampleFirst_step rfl hthere
    (show tempAt (sampleOpened.clients true).files sampleF = some (ascii "old") by decide) hrun hassumed hfresh halone
  have hworld := hsame sampleAgain v hc hagain ⟨rfl, rfl, rfl⟩
  refine ⟨trace, u, v, hrun, hagain, hworld, ?_⟩
  have hfiles : (v.clients true).files = (u.clients true).files := hworld.files
  rw [hfiles]
  exact hcopy.trans (congrArg some hbytes)

end Net

end Bnfs
