import Bnfs.ClientUnshared

/-! When an open fetches. The clients keep no list of who has a file; an open compares the two seconds. Over any run
this comes to: a client that has opened a file of the server fetches it again exactly if another client has flushed
it since the client itself last opened it, wrote bytes of it, or flushed them. -/

namespace Bnfs

open FileSystem Programs Runs Stamped FileServer Sessions

/-- A write through the handle changes the file. -/
def WritesBytes (fi : FuseFileInfo) (buf : Bytes) : Prop :=
  AFSClient.localFlags fi.flags &&& O_ACCMODE ≠ O_RDONLY ∧ buf ≠ []

section Client

variable [Sha256] {paths : Set CString} {E : Env} {w : World} {path : CString} {fi : FuseFileInfo} {lo hi : Int}

/-- A write that changes the file leaves the time of the `pwrite`, any other leaves the file. -/
theorem unreliableWrite_dated (hrel : E.Reliable) {i : Nat} (hfd : w.cl.fds.get fi.fh =
    some ⟨i, AFSClient.localFlags fi.flags⟩) (hname : w.files.names (getTempPath path) = some i) (buf : Bytes)
    (offset : Nat) :
    (WritesBytes fi buf → ∃ content, dated (unreliableWrite E path buf offset (some fi) w).2.files (getTempPath path) =
      some (content, E.now .pwrite)) ∧
    (¬ WritesBytes fi buf → (unreliableWrite E path buf offset (some fi) w).2.files = w.files) := by
  rw [unreliableWrite_plain path hrel.plain, writeThrough_handle]
  show (_ → ∃ content, dated (posixPwrite E .pwrite fi.fh buf offset w).2.files _ = _) ∧
    (_ → (posixPwrite E .pwrite fi.fh buf offset w).2.files = w.files)
  rw [posixPwrite_open hrel hfd]
  dsimp only
  unfold WritesBytes
  split_ifs with haccess hempty
  · exact ⟨fun h => absurd haccess h.1, fun _ => rfl⟩
  · exact ⟨fun h => absurd hempty h.2, fun _ => rfl⟩
  · refine ⟨fun _ => ⟨written (AFSClient.localFlags fi.flags) (w.files.inode i).content offset buf, ?_⟩,
      fun h => absurd ⟨haccess, hempty⟩ h⟩
    show dated (w.files.put i _ (E.now .pwrite)) (getTempPath path) = _
    rw [dated, Fs.find_of_names ((Fs.put_names w.files i _ _).symm ▸ hname), Fs.put_self]
    rfl

/-- A flush of what is dirty puts a file of the period on the server. -/
theorem flush_renews (hrel : E.Reliable) (hduring : E.During lo hi) (hlo : -2 ^ 31 ≤ lo) (hhi : hi < 2 ^ 31)
    {d : Descriptor} (hfd : w.cl.fds.get fi.fh = some d) (hw : w.Holds (getTempPath path) d.ino)
    (hdirty : getHashedPath path ∈ w.cl.dirty_files) :
    ∃ content t, dated (unreliableFlush E path fi w).2.srv.files (getServerPath path.bytes) = some (content, t) ∧
      lo < t.tv_sec := by
  obtain ⟨_, _, hflush⟩ := unreliableFlush_spec hrel hduring hlo hhi hfd hw
  rcases hflush with ⟨hclean, _⟩ | ⟨_, hflushed⟩
  · exact absurd hdirty hclean
  · obtain ⟨chunks, hsrv⟩ := hflushed.srv
    obtain ⟨_, _, _, hreply⟩ := putFile_reply hrel path.bytes chunks w.srv
    obtain ⟨content, t, hfile, hlate, _⟩ := (putFile_renewed hrel hduring ⟨path.bytes, []⟩
      (chunks.map fun chunk => ⟨path.bytes, chunk⟩) w.srv).2 _ hreply
    rw [hsrv]
    exact ⟨content, t, hfile, hlate⟩

/-- An open that fetches leaves the text of the server's file in the copy. -/
theorem openHandle_fetched (hrel : E.Reliable) (htrunc : fi.flags.has O_TRUNC = false) {is_create : Bool}
    (heq : (AFSClient.getOpenFlags E is_create fi.flags path w).1 = 1) :
    (openHandle E path fi is_create w).2.srv = w.srv ∧
      tempAt (openHandle E path fi is_create w).2.files path =
        some (cStr ((contentAt w.srv path.bytes).getD [])) := by
  obtain ⟨hkept, _, htemp⟩ := prepared_fetched fi hrel heq
  obtain ⟨ino, hname⟩ := tempAt_ne_none htemp
  rw [openHandle_world hrel.plain, Open_of_prepared fi hrel htrunc hname]
  exact ⟨hkept, htemp⟩

end Client

namespace Net

variable {ι : Type} [DecidableEq ι] [Sha256] {paths : Set CString} {s t u : Net ι} {c : Call ι} {i : ι} {p : CString}

/-- The client opens the path, writes bytes of it, or flushes them. -/
def Stamps (i : ι) (p : CString) (s : Net ι) (c : Call ι) : Prop :=
  c.client = i ∧ c.request.path = p ∧
    match c.request with
    | .openFile .. => True
    | .write _ fi buf _ => WritesBytes fi buf
    | .flush .. => getHashedPath p ∈ (s.clients i).dirty_files

/-- Another client flushes what it wrote of the path. -/
def Overtakes (i : ι) (p : CString) (s : Net ι) (c : Call ι) : Prop :=
  FlushedByOther i p c ∧ getHashedPath p ∈ (s.clients c.client).dirty_files

/-- Another client has flushed the path, and the client has not stamped its copy since. -/
def Overtaken (i : ι) (p : CString) : List (Net ι × Call ι) → Prop
  | [] => False
  | (s, c) :: trace => Overtakes i p s c ∨ (¬ Stamps i p s c ∧ Overtaken i p trace)

omit [DecidableEq ι] in
/-- The server has the file, the client has a copy, and the copy is of an earlier second exactly if it was
overtaken. -/
structure Tracks (s : Net ι) (i : ι) (p : CString) (overtaken : Prop) : Prop where
  times : ∃ content t content' t', dated s.srv.files (getServerPath p.bytes) = some (content, t) ∧
    dated (s.clients i).files (getTempPath p) = some (content', t') ∧ (overtaken ↔ t'.tv_sec < t.tv_sec)
  stdin : (s.clients i).fds.get 0 ≠ none

omit [DecidableEq ι] in
theorem tracks_of_abreast (h : Abreast s.srv (s.clients i).files p) (hstdin : (s.clients i).fds.get 0 ≠ none)
    {overtaken : Prop} (hnot : ¬ overtaken) : Tracks s i p overtaken := by
  obtain ⟨content, t, content', t', hfile, hcopy, hle⟩ := h
  exact ⟨⟨content, t, content', t', hfile, hcopy, iff_of_false hnot (not_lt.mpr hle)⟩, hstdin⟩

omit [DecidableEq ι] in
/-- Where neither file changes, nothing does. -/
theorem Tracks.of_same {overtaken overtaken' : Prop} (h : Tracks s i p overtaken)
    (hfile : ∀ file, dated s.srv.files (getServerPath p.bytes) = some file →
      dated t.srv.files (getServerPath p.bytes) = some file)
    (hcopy : dated (t.clients i).files (getTempPath p) = dated (s.clients i).files (getTempPath p))
    (hstdin : (t.clients i).fds.get 0 ≠ none) (hsame : overtaken' ↔ overtaken) : Tracks t i p overtaken' := by
  obtain ⟨content, time, content', time', hthere, hcopied, hiff⟩ := h.times
  exact ⟨⟨content, time, content', time', hfile _ hthere, hcopy.trans hcopied, hsame.trans hiff⟩, hstdin⟩

/-- An operation of the client on the path. -/
theorem Tracks.own {overtaken : Prop} (h : Tracks s c.client p overtaken) (hs : InOrder paths s) (hc : Assumed paths s c)
    (hstep : s.step c t) (hpath : c.request.path = p) (hstdin : (t.clients c.client).fds.get 0 ≠ none)
    (hkeptFile : (∀ fi, c.request ≠ .flush p fi) → ∀ file, dated s.srv.files (getServerPath p.bytes) = some file →
      dated t.srv.files (getServerPath p.bytes) = some file)
    (hafter : WrittenIn (-2 ^ 31 - 1) c.ends (dated t.srv.files (getServerPath p.bytes))) :
    Tracks t c.client p (Overtakes c.client p s c ∨ (¬ Stamps c.client p s c ∧ overtaken)) := by
  obtain ⟨hsrv, hclients, hclock, hthrough⟩ := step_effect hstep
  have hok := hs.consistent.clients c.client
  have hown : t.clients c.client = (c.request.effect c.E (s.world c.client)).cl := by
    rw [hclients, Function.update_self]
  have hover : ¬ Overtakes c.client p s c := fun hover => hover.1.1 rfl
  have hstamped : Stamps c.client p s c → ¬ (Overtakes c.client p s c ∨ (¬ Stamps c.client p s c ∧ overtaken)) := by
    tauto
  have hunstamped : ¬ Stamps c.client p s c →
      ((Overtakes c.client p s c ∨ (¬ Stamps c.client p s c ∧ overtaken)) ↔ overtaken) := by
    tauto
  cases hrequest : c.request with
  | openFile path fi is_create =>
      rw [hrequest] at hpath
      obtain rfl : path = p := hpath
      obtain ⟨content, time, _, _, hfile, _⟩ := h.times
      have hthere : contentAt s.srv path.bytes ≠ none := by
        rw [contentAt_eq_some_iff.mpr ⟨time, hfile⟩]
        exact Option.some_ne_none content
      have hkeeps := keepsUp_of_open hs hc hstep hrequest hthere
      exact tracks_of_abreast hkeeps.abreast hkeeps.stdin
        (hstamped ⟨rfl, by rw [hrequest]; rfl, by simp only [hrequest]⟩)
  | write path fi buf offset =>
      obtain ⟨ino, hget, hname⟩ := hok.descriptor (w := s.world c.client) (hs.flags c.client)
        (hthrough (path, fi) (by rw [hrequest]; rfl))
      have hkept := hkeptFile fun fi heq => by rw [hrequest] at heq; cases heq
      rw [hrequest] at hpath hown
      obtain rfl : path = p := hpath
      obtain ⟨hwrites, hidle⟩ := unreliableWrite_dated hc.reliable hget hname buf offset
      by_cases hbytes : WritesBytes fi buf
      · obtain ⟨content, hcopied⟩ := hwrites hbytes
        obtain ⟨content', time, _, _, hfile, _⟩ := h.times
        have hearly := hs.consistent.server _ _ _ hfile
        have hlate := hc.during .pwrite
        have hcopied' : dated (t.clients c.client).files (getTempPath path) = some (content, c.E.now .pwrite) := by
          rw [hown]
          exact hcopied
        have habreast : Abreast t.srv (t.clients c.client).files path :=
          ⟨content', time, content, _, hkept _ hfile, hcopied', by omega⟩
        exact tracks_of_abreast habreast hstdin
          (hstamped ⟨rfl, by rw [hrequest]; rfl, by simpa only [hrequest] using hbytes⟩)
      · have hnot : ¬ Stamps c.client path s c := fun hstamps => hbytes (by simpa only [hrequest] using hstamps.2.2)
        refine h.of_same hkept ?_ hstdin (hunstamped hnot)
        rw [hown]
        exact congrArg (dated · (getTempPath path)) (hidle hbytes)
  | flush path fi =>
      obtain ⟨ino, hget, hname⟩ := hok.descriptor (w := s.world c.client) (hs.flags c.client)
        (hthrough (path, fi) (by rw [hrequest]; rfl))
      rw [hrequest] at hpath hsrv hown
      obtain rfl : path = p := hpath
      by_cases hdirty : getHashedPath path ∈ (s.clients c.client).dirty_files
      · rw [hsrv] at hafter
        have habreast := flushed_abreast (w := s.world c.client) hc.reliable hdirty hget hname (hok.sole path) hc.below
          hafter
        refine tracks_of_abreast ?_ hstdin
          (hstamped ⟨rfl, by rw [hrequest]; rfl, by simpa only [hrequest] using hdirty⟩)
        rw [hsrv, hown]
        exact habreast
      · have hnot : ¬ Stamps c.client path s c := fun hstamps => hdirty (by simpa only [hrequest] using hstamps.2.2)
        have hclean := unreliableFlush_clean (w := s.world c.client) hc.reliable hget hdirty
        refine h.of_same (fun file hfile => ?_) ?_ hstdin (hunstamped hnot)
        · rw [hsrv]
          show dated (unreliableFlush c.E path fi (s.world c.client)).2.srv.files _ = some file
          rw [hclean.srv]
          exact hfile
        · rw [hown]
          exact congrArg (dated · (getTempPath path)) hclean.files

/-- An operation of another client. -/
theorem Tracks.other {overtaken : Prop} (h : Tracks s i p overtaken) (hs : InOrder paths s) (hc : Assumed paths s c)
    (hstep : s.step c t) (hi : c.client ≠ i)
    (hkeptFile : (∀ fi, c.request ≠ .flush p fi) → ∀ file, dated s.srv.files (getServerPath p.bytes) = some file →
      dated t.srv.files (getServerPath p.bytes) = some file) :
    Tracks t i p (Overtakes i p s c ∨ (¬ Stamps i p s c ∧ overtaken)) := by
  obtain ⟨hsrv, hclients, hclock, hthrough⟩ := step_effect hstep
  have hsame : t.clients i = s.clients i := by rw [hclients, Function.update_of_ne (Ne.symm hi)]
  have hunstamped : ¬ Stamps i p s c := fun hstamps => hi hstamps.1
  by_cases hflush : ∃ fi, c.request = .flush p fi
  · obtain ⟨fi, hrequest⟩ := hflush
    obtain ⟨ino, hget, hname⟩ := (hs.consistent.clients c.client).descriptor (w := s.world c.client)
      (hs.flags c.client) (hthrough (p, fi) (by rw [hrequest]; rfl))
    rw [hrequest] at hsrv
    by_cases hdirty : getHashedPath p ∈ (s.clients c.client).dirty_files
    · have hover : Overtakes i p s c := ⟨⟨hi, fi, hrequest⟩, hdirty⟩
      obtain ⟨content, time, hfile, hlate⟩ := flush_renews (w := s.world c.client) hc.reliable hc.during
        hs.consistent.clock hc.below hget ⟨hname, (hs.consistent.clients c.client).sole p⟩ hdirty
      obtain ⟨_, _, content', time', _, hcopied, _⟩ := h.times
      have hearly := (hs.consistent.clients i).times p _ _ hcopied
      refine ⟨⟨content, time, content', time', hsrv ▸ hfile, hsame ▸ hcopied, ?_⟩, hsame ▸ h.stdin⟩
      exact iff_of_true (Or.inl hover) (by omega)
    · have hover : ¬ Overtakes i p s c := fun hover => hdirty hover.2
      have hclean := unreliableFlush_clean (w := s.world c.client) hc.reliable hget hdirty
      refine h.of_same (fun file hfile => ?_) (by rw [hsame]) (hsame ▸ h.stdin) (by tauto)
      rw [hsrv]
      show dated (unreliableFlush c.E p fi (s.world c.client)).2.srv.files _ = some file
      rw [hclean.srv]
      exact hfile
  · have hnot : ¬ Overtakes i p s c := fun hover => hflush hover.1.2
    exact h.of_same (hkeptFile fun fi heq => hflush ⟨fi, heq⟩) (by rw [hsame]) (hsame ▸ h.stdin) (by tauto)

theorem Tracks.step {overtaken : Prop} (h : Tracks s i p overtaken) (hs : InOrder paths s) (hpaths : NoCollision paths)
    (hp : p ∈ paths) (hc : Assumed paths s c) (hfresh : s.FreshTemp c) (hstep : s.step c t) :
    Tracks t i p (Overtakes i p s c ∨ (¬ Stamps i p s c ∧ overtaken)) := by
  obtain ⟨hsrv, hclients, hclock, hthrough⟩ := step_effect hstep
  have hok := hs.consistent.clients c.client
  have hafter := (hs.step hpaths hc hstep).consistent.server
  rw [hclock] at hafter
  have hkeptFile : (∀ fi, c.request ≠ .flush p fi) → ∀ file, dated s.srv.files (getServerPath p.bytes) = some file →
      dated t.srv.files (getServerPath p.bytes) = some file := by
    intro hnot file hfile
    rw [hsrv]
    exact Request.file_kept (w := s.world c.client) hc.reliable hok (hs.flags c.client) hthrough hc.during
      hs.consistent.clock hc.below hc.noTrunc hfresh hnot hfile
  by_cases hi : c.client = i
  · subst hi
    have hown : t.clients c.client = (c.request.effect c.E (s.world c.client)).cl := by
      rw [hclients, Function.update_self]
    obtain ⟨hpasses, hkept, _⟩ := Request.leaves (w := s.world c.client) hc.reliable hok (hs.flags c.client) hthrough
      hc.during hs.consistent.clock hc.below hc.noTrunc
    have hstdin : (t.clients c.client).fds.get 0 ≠ none := by
      obtain ⟨d, hd⟩ := Option.ne_none_iff_exists'.mp h.stdin
      rw [hown, hkept _ _ hd]
      exact Option.some_ne_none d
    by_cases hpath : c.request.path = p
    · exact h.own hs hc hstep hpath hstdin hkeptFile (hafter _)
    · have hnot : ¬ Overtakes c.client p s c := fun hover => hover.1.1 rfl
      have hunstamped : ¬ Stamps c.client p s c := fun hstamps => hpath hstamps.2.1
      have hname : getTempPath p ∉ localNames c.request.path :=
        getTempPath_not_mem_localNames fun heq => hpath (hpaths.temp hp hc.path heq).symm
      refine h.of_same (hkeptFile fun fi heq => hpath (by rw [heq]; rfl)) ?_ hstdin (by tauto)
      rw [hown]
      exact dated_of_find_eq (hpasses.files.within.find_eq hname (hok.sole p))
  · exact h.other hs hc hstep hi hkeptFile

/-- Over a run the copy is of an earlier second exactly if it was overtaken. -/
theorem Tracks.run (h : Tracks s i p False) (hs : InOrder paths s) (hpaths : NoCollision paths) (hp : p ∈ paths)
    {trace : List (Net ι × Call ι)} (hrun : Run Net.step s trace t) (hassumed : Guarded (Assumed paths) trace)
    (hfresh : Guarded FreshTemp trace) : Tracks t i p (Overtaken i p trace) := by
  induction hrun with
  | nil => exact h
  | cons hrun hstep ih =>
      have hs' := InOrder.of_run hpaths hs hrun hassumed.tail
      exact (ih hassumed.tail hfresh.tail).step hs' hpaths hp hassumed.head hfresh.head hstep

omit [DecidableEq ι] in
/-- A copy that was not overtaken keeps up. -/
theorem Tracks.keepsUp {overtaken : Prop} (h : Tracks s i p overtaken) (hnot : ¬ overtaken) : s.KeepsUp i p := by
  obtain ⟨content, time, content', time', hfile, hcopied, hiff⟩ := h.times
  exact ⟨⟨content, time, content', time', hfile, hcopied, not_lt.mp fun hlt => hnot (hiff.mpr hlt)⟩, h.stdin⟩

omit [DecidableEq ι] in
theorem Tracks.used_iff {overtaken : Prop} (h : Tracks s i p overtaken) (hs : InOrder paths s) {E : Env}
    (hrel : E.Reliable) (hclock : s.clock < 2 ^ 31) : TempUsed E p (s.world i) ↔ ¬ overtaken := by
  have hok := hs.consistent.clients i
  constructor
  · intro hused hovertaken
    obtain ⟨content, time, content', time', hfile, hcopied, hiff⟩ := h.times
    obtain ⟨_, file, hfind, hle⟩ := hused
    have hcopied' : dated (s.clients i).files (getTempPath p) = some (file.content, file.mtime) := by
      rw [dated, show (s.clients i).files.find (getTempPath p) = some file from hfind]
      rfl
    have hle' := (reportedTime_le_iff (w := s.world i) hrel hok hclock (hs.consistent.server _) hfile hfind).mp hle
    have hsame : (content', time') = (file.content, file.mtime) := Option.some.inj (hcopied.symm.trans hcopied')
    obtain ⟨rfl, rfl⟩ := Prod.mk.inj hsame
    exact absurd (hiff.mp hovertaken) (not_lt.mpr hle')
  · intro hnot
    exact Abreast.used (w := s.world i) hrel hok hclock (hs.consistent.server _) (h.keepsUp hnot).abreast h.stdin

omit [DecidableEq ι] in
/-- The next open fetches exactly if the copy was overtaken. -/
theorem Tracks.fetches_iff {overtaken : Prop} (h : Tracks s i p overtaken) (hs : InOrder paths s) {E : Env}
    (hrel : E.Reliable) (hclock : s.clock < 2 ^ 31) (flags : OpenFlags) (is_create : Bool) :
    (AFSClient.getOpenFlags E is_create flags p (s.world i)).1 = 1 ↔ overtaken := by
  obtain ⟨content, time, _, _, hfile, _⟩ := h.times
  have hthere : contentAt s.srv p.bytes ≠ none := by
    rw [contentAt_eq_some_iff.mpr ⟨time, hfile⟩]
    exact Option.some_ne_none content
  have hused := h.used_iff hs hrel hclock
  rcases getOpenFlags_result E p flags is_create (s.world i) with ⟨_, hcreate⟩ | ⟨heq, _, hyes⟩ | ⟨heq, _, hno⟩
  · exact absurd hcreate (not_createsLocally (w := s.world i) hrel hthere flags is_create)
  · rw [heq]
    exact iff_of_false (by decide) (hused.mp hyes)
  · rw [heq]
    exact iff_of_true rfl (not_not.mp fun hnot => hno (hused.mpr hnot))

/-- A client that has opened a file of the server opens it again, after any run of all clients. It fetches exactly if
its copy was overtaken: another client has flushed the file since the client last opened it, wrote bytes of it, or
flushed them. If so its copy is the server's file, as far as it is text; if not, the open leaves everything as it is. -/
theorem fetches_iff_overtaken (hpaths : NoCollision paths) {start : Net ι} (hstart : start.Start)
    {before : List (Net ι × Call ι)} (hbefore : Run Net.step start before s) (hassumed : Guarded (Assumed paths) before)
    (hc : Assumed paths s c) (hopen : s.step c t) {path : CString} {fi : FuseFileInfo} {is_create : Bool}
    (hrequest : c.request = .openFile path fi is_create) (hthere : contentAt s.srv path.bytes ≠ none)
    {trace : List (Net ι × Call ι)} (hrun : Run Net.step t trace u)
    (hassumed' : Guarded (Assumed paths) trace) (hfresh : Guarded FreshTemp trace) {d : Call ι} {v : Net ι}
    (hd : Assumed paths u d) (hagain : u.step d v) (hclient : d.client = c.client) {fi' : FuseFileInfo}
    {is_create' : Bool} (hrequest' : d.request = .openFile path fi' is_create') :
    ((AFSClient.getOpenFlags d.E is_create' fi'.flags path (u.world c.client)).1 = 1 ↔
      Overtaken c.client path trace) ∧
    (Overtaken c.client path trace →
      tempAt (v.clients c.client).files path = (contentAt v.srv path.bytes).map cStr) ∧
    (¬ Overtaken c.client path trace → World.Same (u.world c.client) (v.world c.client)) := by
  have hpath : path ∈ paths := by
    have hpath := hc.path
    rwa [hrequest] at hpath
  have hs := InOrder.of_run hpaths hstart.inOrder hbefore hassumed
  have ht := hs.step hpaths hc hopen
  have hu := InOrder.of_run hpaths ht hrun hassumed'
  have hkeeps := keepsUp_of_open hs hc hopen hrequest hthere
  have htracks := (tracks_of_abreast hkeeps.abreast hkeeps.stdin id).run ht hpaths hpath hrun hassumed' hfresh
  have hbound : u.clock < 2 ^ 31 := lt_of_le_of_lt hd.clock_le hd.below
  have hfetches := htracks.fetches_iff hu hd.reliable hbound fi'.flags is_create'
  refine ⟨hfetches, fun hovertaken => ?_, fun hnot => ?_⟩
  · obtain ⟨content, time, _, _, hfile, _⟩ := htracks.times
    have hcontent : contentAt u.srv path.bytes = some content := contentAt_eq_some_iff.mpr ⟨time, hfile⟩
    have htrunc := hd.noTrunc
    obtain ⟨hsrv, hclients, _, _⟩ := step_effect hagain
    rw [hrequest'] at htrunc hsrv hclients
    rw [hclient] at hsrv hclients
    obtain ⟨hkept, hcopy⟩ := openHandle_fetched (w := u.world c.client) hd.reliable htrunc (hfetches.mpr hovertaken)
    rw [hsrv, hclients, Function.update_self]
    show tempAt (openHandle d.E path fi' is_create' (u.world c.client)).2.files path =
      (contentAt (openHandle d.E path fi' is_create' (u.world c.client)).2.srv path.bytes).map cStr
    rw [hcopy, hkept, show contentAt (u.world c.client).srv path.bytes = some content from hcontent]
    rfl
  · refine (htracks.keepsUp hnot).reopened hu hd ⟨hclient, ?_, ?_⟩ hagain
    · show d.request.path = path
      rw [hrequest']
      rfl
    · show d.request.kind = .opens
      rw [hrequest']
      rfl

end Net

/-! ### A copy that is overtaken -/

namespace Net

/-- Both clients have `/f` open, and the other one writes it and flushes. -/
def sampleOvertaking : List (Call Bool) :=
  [callAt false (.openFile sampleF ⟨O_RDWR, 0⟩ false) 2,
    callAt false (.write sampleF ⟨O_RDWR, 1⟩ (ascii "new") 0) 3,
    callAt false (.flush sampleF ⟨O_RDWR, 1⟩) 4]

set_option maxRecDepth 1000 in
theorem sampleOvertaking_run :
    letI := sampleSha256
    ∃ trace u v, Run Net.step sampleOpened trace u ∧ u.step sampleAgain v ∧ Guarded (Assumed {sampleF}) trace ∧
      Guarded FreshTemp trace ∧ Assumed {sampleF} u sampleAgain ∧ Overtaken true sampleF trace ∧
      (contentAt v.srv sampleF.bytes).map cStr = some (ascii "new") := by
  have hrun : Run (@Net.step _ _ sampleSha256) sampleOpened _ _ := .of_advance sampleOvertaking .nil rfl
  refine ⟨_, _, _, hrun, rfl, ?_, ?_, .of_smooth rfl (by decide) (by decide) rfl rfl (by decide), ?_, by decide⟩
  · refine .cons (.of_smooth rfl ?_ ?_ rfl rfl ?_) (.cons (.of_smooth rfl ?_ ?_ rfl rfl ?_)
      (.cons (.of_smooth rfl ?_ ?_ rfl rfl ?_) (guarded_nil _)))
    all_goals decide
  · refine .cons (fun _ _ h => ?_) (.cons (fun _ _ h => ?_) (.cons (fun _ _ h => ?_) (guarded_nil _)))
    · cases h
      decide
    · cases h
    · cases h
  · refine Or.inl ⟨⟨by decide, _, rfl⟩, ?_⟩
    decide

/-- The open fetches the other client's bytes. -/
theorem fetches_iff_overtaken_sample :
    letI := sampleSha256
    ∃ trace u v, Run Net.step sampleOpened trace u ∧ u.step sampleAgain v ∧
      (AFSClient.getOpenFlags (.smooth 6) false O_RDWR sampleF (u.world true)).1 = 1 ∧
      tempAt (v.clients true).files sampleF = some (ascii "new") := by
  let _ := sampleSha256
  obtain ⟨trace, u, v, hrun, hagain, hassumed, hfresh, hc, hovertaken, hbytes⟩ := sampleOvertaking_run
  have hthere : contentAt sampleNet.srv sampleF.bytes ≠ none := by decide
  obtain ⟨hfetches, hcopy, _⟩ := fetches_iff_overtaken (Set.injOn_singleton _ sampleF) sampleNet_start .nil
    (guarded_nil _) sampleFirst_assumed sampleFirst_step rfl hthere hrun hassumed hfresh hc hagain rfl rfl
  exact ⟨trace, u, v, hrun, hagain, hfetches.mpr hovertaken, (hcopy hovertaken).trans hbytes⟩

end Net

end Bnfs
