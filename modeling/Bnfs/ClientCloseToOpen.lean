import Bnfs.ClientOperations
import Bnfs.TheoryRuns

/-! Close-to-open consistency. Any number of clients open, write and flush, one operation after the
other, each in a period of its own of one clock. A clean temporary copy is then usable: where the server's
file is not newer, it has the server's bytes. So an open that takes the copy as it is takes the right one,
and any other fetches. -/

namespace Bnfs

open FileSystem Programs Runs Stamped FileServer

/-- What a client is asked to do. -/
inductive Request where
  | openFile (path : CString) (fi : FuseFileInfo) (is_create : Bool)
  | write (path : CString) (fi : FuseFileInfo) (buf : Bytes) (offset : Nat)
  | flush (path : CString) (fi : FuseFileInfo)

def Request.path : Request → CString
  | .openFile path _ _ => path
  | .write path _ _ _ => path
  | .flush path _ => path

/-- Whether an open would truncate. -/
def Request.truncates : Request → Bool
  | .openFile _ fi _ => fi.flags.has O_TRUNC
  | _ => false

/-- A request to a client, how it turns out, and the second in which it ends. -/
structure Call (ι : Type) where
  client : ι
  request : Request
  E : Env
  ends : Int

/-- The server and the clients between two operations: the handles every client has got from its opens,
the bytes the last flush of a path has sent, and the second in which the last operation ended. -/
structure Net (ι : Type) where
  srv : Server
  clients : ι → Client
  errno : ι → Int
  handles : ι → List (CString × FuseFileInfo)
  sent : CString → Option Bytes
  clock : Int

namespace Net

variable {ι : Type}

/-- What an operation of a client runs on. -/
def world (s : Net ι) (i : ι) : World := ⟨s.srv, s.clients i, s.errno i⟩

variable [DecidableEq ι]

/-- The state once an operation of a client has ended. -/
def put (s : Net ι) (i : ι) (w : World) (clock : Int) : Net ι :=
  { s with
    srv := w.srv
    clients := Function.update s.clients i w.cl
    errno := Function.update s.errno i w.errno
    clock }

variable [Sha256]

/-- Writes and flushes go through a handle the client got for the path. -/
def next (s : Net ι) (c : Call ι) : Option (Net ι) :=
  let w := s.world c.client
  let handles := s.handles c.client
  match c.request with
  | .openFile path fi is_create =>
      let result := openHandle c.E path fi is_create w
      let handles := if result.1.1 = 0 then (path, result.1.2) :: handles else handles
      some { s.put c.client result.2 c.ends with
        handles := Function.update s.handles c.client handles }
  | .write path fi buf offset =>
      if (path, fi) ∈ handles then
        some (s.put c.client (unreliableWrite c.E path buf offset (some fi) w).2 c.ends)
      else none
  | .flush path fi =>
      if (path, fi) ∈ handles then
        some { s.put c.client (unreliableFlush c.E path fi w).2 c.ends with
          sent := if getHashedPath path ∈ w.cl.dirty_files then
              Function.update s.sent path (tempAt w.files path)
            else s.sent }
      else none

/-- The steps of the clients. -/
def step (s : Net ι) (c : Call ι) (t : Net ι) : Prop := s.next c = some t

omit [DecidableEq ι] in
/-- The clients have no temporary copies, no marks and no handles yet; the server's files may be any,
with times before the clock. -/
structure Start (s : Net ι) : Prop where
  empty : ∀ i p, (s.clients i).files.names (getTempPath p) = none
  clean : ∀ i, (s.clients i).dirty_files = ∅
  closed : ∀ i, s.handles i = []
  unsent : ∀ p, s.sent p = none
  clock : -2 ^ 31 ≤ s.clock
  server : ∀ name, WrittenIn (-2 ^ 31 - 1) s.clock (dated s.srv.files name)

/-- What is assumed of an operation: nothing fails, it runs in a period after the clock, it is about one
of the paths, it does not truncate, and the bytes it may fetch have no NUL among them. -/
structure Assumed (paths : Set CString) (s : Net ι) (c : Call ι) : Prop where
  reliable : c.E.Reliable
  during : c.E.During s.clock c.ends
  below : c.ends < 2 ^ 31
  path : c.request.path ∈ paths
  noTrunc : c.request.truncates = false
  noNul : ∀ content, contentAt s.srv c.request.path.bytes = some content → 0 ∉ content

/-- The name a flush uploads under is not taken. -/
def FreshTemp (s : Net ι) (c : Call ι) : Prop :=
  ∀ path fi, c.request = .flush path fi → s.srv.files.names (uploadTemp c.E path.bytes) = none

end Net

/-- The bytes of a file and the second of their time. -/
def seconds (file : Option (Bytes × Timespec)) : Option (Bytes × Int) :=
  file.map fun file => (file.1, file.2.tv_sec)

section Usable

variable {lo mid hi : Int} {source source' copy : Option (Bytes × Timespec)}

theorem seconds_eq_some_iff {content : Bytes} {sec : Int} : seconds copy = some (content, sec) ↔
    ∃ t, copy = some (content, t) ∧ t.tv_sec = sec := by
  rw [seconds, Option.map_eq_some_iff]
  constructor
  · rintro ⟨⟨content', t⟩, hcopy, heq⟩
    cases heq
    exact ⟨t, hcopy, rfl⟩
  · rintro ⟨t, hcopy, rfl⟩
    exact ⟨_, hcopy, rfl⟩

theorem WrittenIn.extend (h : WrittenIn lo mid source) (hlo : lo ≤ mid) (hhi : mid ≤ hi)
    (hnew : source' = source ∨ WrittenIn mid hi source') : WrittenIn lo hi source' := by
  intro content t heq
  rcases hnew with rfl | hnew
  · have ht := h content t heq
    omega
  · have ht := hnew content t heq
    omega

/-- A change of the server in a later period never makes an older copy unusable. -/
theorem usable_renewed (h : Usable (seconds source) (seconds copy)) (hcopy : WrittenIn lo mid copy)
    (hnew : source' = source ∨ WrittenIn mid hi source') :
    Usable (seconds source') (seconds copy) := by
  rcases hnew with rfl | hnew
  · exact h
  · refine usable_of_bound mid (fun content sec heq => ?_) fun content sec heq => ?_
    · obtain ⟨t, hfile, rfl⟩ := seconds_eq_some_iff.mp heq
      exact (hcopy content t hfile).2
    · obtain ⟨t, hfile, rfl⟩ := seconds_eq_some_iff.mp heq
      exact (hnew content t hfile).1

/-- A copy of the same bytes is usable. -/
theorem usable_of_bytes (h : ∀ content content', source.map Prod.fst = some content →
    copy.map Prod.fst = some content' → content = content') :
    Usable (seconds source) (seconds copy) := by
  intro content sec content' sec' hsource hcopy _
  obtain ⟨t, hsource, _⟩ := seconds_eq_some_iff.mp hsource
  obtain ⟨t', hcopy, _⟩ := seconds_eq_some_iff.mp hcopy
  exact h content content' (by rw [hsource]; rfl) (by rw [hcopy]; rfl)

end Usable

variable [Sha256]

/-- The server's file and the temporary copy of a path, as the staleness test sees them. -/
def UsableCopy (srv : Server) (files : Files) (path : CString) : Prop :=
  Usable (seconds (dated srv.files (getServerPath path.bytes)))
    (seconds (dated files (getTempPath path)))

/-- A client's copies against the server at a second of the clock: its clean copies are usable, and its
handles are on its temporary copies. -/
structure ClientOk (paths : Set CString) (srv : Server) (clock : Int) (cl : Client)
    (handles : List (CString × FuseFileInfo)) : Prop where
  sole : ∀ p, cl.files.Sole (getTempPath p)
  times : ∀ p, WrittenIn (-2 ^ 31 - 1) clock (dated cl.files (getTempPath p))
  usable : ∀ p ∈ paths, getHashedPath p ∉ cl.dirty_files → UsableCopy srv cl.files p
  handles : ∀ p fi, (p, fi) ∈ handles → ∃ d, cl.fds.get fi.fh = some d ∧
    cl.files.names (getTempPath p) = some d.ino

section Client

variable {paths : Set CString} {srv : Server} {cl : Client} {w w' : World} {path : CString}
  {handles : List (CString × FuseFileInfo)} {lo hi : Int}

theorem UsableCopy.of_bytes (h : ∀ content, contentAt srv path.bytes = some content →
    tempAt cl.files path = some content) : UsableCopy srv cl.files path := by
  refine usable_of_bytes fun content content' hsource hcopy => ?_
  rw [← find_content] at hsource hcopy
  exact Option.some.inj ((h content hsource).symm.trans hcopy)

/-- An operation of another client makes no copy unusable. -/
theorem ClientOk.of_renewed (h : ClientOk paths srv lo cl handles) (hlo : -2 ^ 31 ≤ lo)
    (hle : lo ≤ hi) {srv' : Server} (hsrv : Renewed lo hi srv.files srv'.files) :
    ClientOk paths srv' hi cl handles where
  sole := h.sole
  times p := (h.times p).extend (by omega) hle (Or.inl rfl)
  usable p hp hclean := usable_renewed (h.usable p hp hclean) (h.times p) (hsrv _)
  handles := h.handles

/-- An operation of the client itself leaves its copies in order if it leaves the one of its path so. -/
theorem ClientOk.of_passes (hpaths : NoCollision paths)
    (h : ClientOk paths w.srv lo w.cl handles) (hlo : -2 ^ 31 ≤ lo) (hle : lo ≤ hi)
    (hpath : path ∈ paths) (hpasses : World.Passes path lo hi w w') (hkept : World.FdsKept w w')
    (hown : getHashedPath path ∉ w'.cl.dirty_files → UsableCopy w'.srv w'.cl.files path) :
    ClientOk paths w'.srv hi w'.cl handles where
  sole p := hpasses.files.sole _ (h.sole p)
  times p := (h.times p).extend (by omega) hle (hpasses.files.renewed _)
  usable p hp hclean := by
    by_cases hsame : p = path
    · subst hsame
      exact hown hclean
    · have hhash : getHashedPath p ≠ getHashedPath path := fun heq => hsame (hpaths.hashed hp hpath heq)
      have hname : getTempPath p ∉ localNames path :=
        getTempPath_not_mem_localNames fun heq => hsame (hpaths.temp hp hpath heq)
      have hcopy : dated w'.cl.files (getTempPath p) = dated w.cl.files (getTempPath p) :=
        dated_of_find_eq (hpasses.files.within.find_eq hname (h.sole p))
      have hclean' : getHashedPath p ∉ w.cl.dirty_files := (hpasses.marks _ hhash).not.mp hclean
      rw [UsableCopy, hcopy]
      exact usable_renewed (h.usable p hp hclean') (h.times p) (hpasses.srv _)
  handles p fi hmem := by
    obtain ⟨d, hget, hname⟩ := h.handles p fi hmem
    exact ⟨d, hkept _ _ hget, hpasses.files.names _ _ hname⟩

theorem World.Same.usableCopy (hsame : World.Same w w') (h : UsableCopy w.srv w.cl.files path) :
    UsableCopy w'.srv w'.cl.files path := by
  have hfiles : w'.cl.files = w.cl.files := hsame.files
  rw [hsame.srv, hfiles]
  exact h

/-- What the test on a usable copy lets through has the server's bytes. -/
theorem tempAt_of_used {E : Env} (hrel : E.Reliable) (h : ClientOk paths w.srv lo w.cl handles)
    (hpath : path ∈ paths) (hclean : getHashedPath path ∉ w.cl.dirty_files)
    (hsrv : WrittenIn (-2 ^ 31 - 1) lo (dated w.srv.files (getServerPath path.bytes)))
    (hlo : lo < 2 ^ 31) (hused : TempUsed E path w) {content : Bytes}
    (hcontent : contentAt w.srv path.bytes = some content) :
    tempAt w.files path = some content := by
  obtain ⟨_, file, hfind, hle⟩ := hused
  rw [contentAt, find_content, Option.map_eq_some_iff] at hcontent
  obtain ⟨⟨bytes, t⟩, hsource, rfl⟩ := hcontent
  have hcopy : dated w.cl.files (getTempPath path) = some (file.content, file.mtime) := by
    rw [dated, show w.cl.files.find (getTempPath path) = some file from hfind]
    rfl
  have ht := hsrv _ _ hsource
  have ht' := h.times path _ _ hcopy
  rw [reportedTime_of_reliable hrel hsource, toInt_of_range (by omega) (by omega),
    toInt_of_range (by omega) (by omega)] at hle
  have husable := h.usable path hpath hclean
  rw [UsableCopy, hsource, hcopy] at husable
  have hbytes := husable bytes t.tv_sec file.content file.mtime.tv_sec rfl rfl hle
  rw [tempAt, hfind, hbytes]
  rfl

/-- After an open of a clean path that is on the server, the temporary copy has the server's bytes. -/
theorem Opened.tempAt_eq {E : Env} (hopened : Opened E path w w') (hrel : E.Reliable)
    (h : ClientOk paths w.srv lo w.cl handles) (hpath : path ∈ paths)
    (hclean : getHashedPath path ∉ w.cl.dirty_files)
    (hsrv : WrittenIn (-2 ^ 31 - 1) lo (dated w.srv.files (getServerPath path.bytes)))
    (hlo : lo < 2 ^ 31) {content : Bytes} (hcontent : contentAt w.srv path.bytes = some content)
    (hnul : 0 ∉ content) :
    tempAt w'.files path = some content ∧ contentAt w'.srv path.bytes = some content := by
  cases hopened with
  | created _ hmissing _ =>
      rw [contentAt, Fs.find_eq_none_iff.mpr hmissing] at hcontent
      cases hcontent
  | fetched hsame _ htemp =>
      rw [hcontent, Option.getD_some, cStr_of_noNul hnul] at htemp
      exact ⟨htemp, by rw [hsame, hcontent]⟩
  | used hsame hused =>
      rw [hsame.files, hsame.srv]
      exact ⟨tempAt_of_used hrel h hpath hclean hsrv hlo hused hcontent, hcontent⟩

/-- An open leaves a clean path with a usable copy. -/
theorem Opened.usable {E : Env} (hopened : Opened E path w w')
    (h : ClientOk paths w.srv lo w.cl handles) (hpath : path ∈ paths)
    (hnul : ∀ content, contentAt w.srv path.bytes = some content → 0 ∉ content)
    (hclean : getHashedPath path ∉ w'.cl.dirty_files) : UsableCopy w'.srv w'.cl.files path := by
  cases hopened with
  | created hdirty _ _ => exact absurd hdirty hclean
  | fetched hsame _ htemp =>
      refine .of_bytes fun content hcontent => ?_
      rw [hsame] at hcontent
      rw [hcontent, Option.getD_some, cStr_of_noNul (hnul content hcontent)] at htemp
      exact htemp
  | used hsame _ => exact hsame.usableCopy (h.usable path hpath (hsame.dirty ▸ hclean))

/-- A flush leaves it with one. -/
theorem Flushed.usable {E : Env} (hflushed : Flushed E path w w') :
    UsableCopy w'.srv w'.cl.files path := by
  obtain ⟨content, _, htemp, hcontent⟩ := hflushed.sent
  refine .of_bytes fun content' hcontent' => ?_
  rw [← hcontent', hcontent]
  exact htemp

end Client

namespace Net

variable {ι : Type} [DecidableEq ι] {paths : Set CString} {s t : Net ι} {c : Call ι}

omit [DecidableEq ι] in
/-- The invariant of the runs. -/
structure Consistent (paths : Set CString) (s : Net ι) : Prop where
  clock : -2 ^ 31 ≤ s.clock
  server : ∀ name, WrittenIn (-2 ^ 31 - 1) s.clock (dated s.srv.files name)
  clients : ∀ i, ClientOk paths s.srv s.clock (s.clients i) (s.handles i)

omit [DecidableEq ι] in
theorem Start.consistent (h : s.Start) : Consistent paths s where
  clock := h.clock
  server := h.server
  clients i :=
    { sole := fun p ino hname => by
        rw [h.empty i p] at hname
        cases hname
      times := fun p => by
        rw [dated, Fs.find_eq_none_iff.mpr (h.empty i p)]
        exact writtenIn_none _ _
      usable := fun p _ _ => by
        rw [UsableCopy, dated, dated, Fs.find_eq_none_iff.mpr (h.empty i p)]
        exact usable_none_copy _
      handles := fun p fi hmem => by
        rw [h.closed i] at hmem
        cases hmem }

omit [Sha256] [DecidableEq ι] in
theorem Assumed.clock_le (h : Assumed paths s c) : s.clock ≤ c.ends := by
  have hnow := h.during .dup
  omega

/-- One client has moved from one world to another, the rest of the clients have not. -/
theorem Consistent.put (hs : Consistent paths s) (hc : Assumed paths s c)
    {w' : World} (hsrv : Renewed s.clock c.ends s.srv.files w'.srv.files)
    (hsrvOf : t.srv = w'.srv) (hclients : t.clients = Function.update s.clients c.client w'.cl)
    (hclock : t.clock = c.ends) (hothers : ∀ j, j ≠ c.client → t.handles j = s.handles j)
    (hown : ClientOk paths w'.srv c.ends w'.cl (t.handles c.client)) : Consistent paths t := by
  have hlo := hs.clock
  have hle := hc.clock_le
  refine ⟨by omega, fun name => ?_, fun j => ?_⟩
  · rw [hclock, hsrvOf]
    exact (hs.server name).extend (by omega) hle (hsrv name)
  · rw [hclock, hsrvOf, hclients]
    by_cases hj : j = c.client
    · subst hj
      rw [Function.update_self]
      exact hown
    · rw [Function.update_of_ne hj, hothers j hj]
      exact (hs.clients j).of_renewed hlo hle hsrv

section Step

variable (hs : Consistent paths s) (hpaths : NoCollision paths) (hc : Assumed paths s c)
include hs hpaths hc

theorem Consistent.step_open {path : CString} {fi : FuseFileInfo} {is_create : Bool}
    (hrequest : c.request = .openFile path fi is_create) (hstep : s.step c t) :
    Consistent paths t := by
  have hpath := hc.path
  have hnul := hc.noNul
  have htrunc := hc.noTrunc
  rw [hrequest] at hpath hnul htrunc
  obtain ⟨hpasses, hkept, hopened, hzero, d, hget, hname⟩ := openHandle_spec fi path
    hc.reliable hc.during htrunc is_create (s.world c.client)
  unfold step next at hstep
  rw [hrequest] at hstep
  simp only [hzero, if_true, Option.some.injEq] at hstep
  subst hstep
  have hcl := hs.clients c.client
  have hown := ClientOk.of_passes hpaths hcl hs.clock hc.clock_le hpath hpasses hkept
    (hopened.usable hcl hpath hnul)
  refine hs.put hc hpasses.srv rfl rfl rfl (fun j hj => Function.update_of_ne hj _ _) ?_
  refine { hown with handles := fun p fi' hmem => ?_ }
  simp only [Function.update_self] at hmem
  rcases List.mem_cons.mp hmem with heq | hmem
  · cases heq
    exact ⟨d, hget, hname⟩
  · exact hown.handles p fi' hmem

theorem Consistent.step_write {path : CString} {fi : FuseFileInfo} {buf : Bytes} {offset : Nat}
    (hrequest : c.request = .write path fi buf offset) (hstep : s.step c t) :
    Consistent paths t := by
  have hpath := hc.path
  rw [hrequest] at hpath
  unfold step next at hstep
  rw [hrequest] at hstep
  dsimp only at hstep
  split_ifs at hstep with hmem
  cases hstep
  have hcl := hs.clients c.client
  obtain ⟨d, hget, hname⟩ := hcl.handles path fi hmem
  obtain ⟨hpasses, hkept, _, hdirty⟩ := unreliableWrite_spec (w := s.world c.client) hc.reliable
    hc.during buf offset hget hname
  exact hs.put hc hpasses.srv rfl rfl rfl (fun _ _ => rfl) (ClientOk.of_passes hpaths hcl hs.clock
    hc.clock_le hpath hpasses hkept fun hclean => absurd hdirty hclean)

theorem Consistent.step_flush {path : CString} {fi : FuseFileInfo}
    (hrequest : c.request = .flush path fi) (hstep : s.step c t) : Consistent paths t := by
  have hpath := hc.path
  rw [hrequest] at hpath
  unfold step next at hstep
  rw [hrequest] at hstep
  dsimp only at hstep
  by_cases hmem : (path, fi) ∈ s.handles c.client
  · rw [if_pos hmem] at hstep
    cases hstep
    have hcl := hs.clients c.client
    obtain ⟨d, hget, hname⟩ := hcl.handles path fi hmem
    obtain ⟨hpasses, hkept, hflush⟩ := unreliableFlush_spec (w := s.world c.client) hc.reliable
      hc.during hs.clock hc.below hget ⟨hname, hcl.sole path⟩
    refine hs.put hc hpasses.srv rfl rfl rfl (fun _ _ => rfl) (ClientOk.of_passes hpaths hcl hs.clock
      hc.clock_le hpath hpasses hkept fun hclean => ?_)
    rcases hflush with ⟨_, hsame⟩ | ⟨_, hflushed⟩
    · exact hsame.usableCopy (hcl.usable path hpath (hsame.dirty ▸ hclean))
    · exact hflushed.usable
  · rw [if_neg hmem] at hstep
    cases hstep

/-- Whatever a client does, the copies of all clients stay in order. -/
theorem Consistent.step (hstep : s.step c t) : Consistent paths t := by
  cases hrequest : c.request with
  | openFile path fi is_create => exact hs.step_open hpaths hc hrequest hstep
  | write path fi buf offset => exact hs.step_write hpaths hc hrequest hstep
  | flush path fi => exact hs.step_flush hpaths hc hrequest hstep

end Step

/-! ### The last bytes sent -/

omit [Sha256] [DecidableEq ι] in
/-- The server has what the last flush has sent. -/
def Delivers (s : Net ι) : Prop :=
  ∀ p bytes, s.sent p = some bytes → contentAt s.srv p.bytes = some bytes

section Sent

variable {w w' : World} {path : CString} {E : Env}

omit [Sha256] in
theorem contentAt_eq_some_iff {srv : Server} {bytes : Bytes} :
    contentAt srv path.bytes = some bytes ↔
      ∃ t, dated srv.files (getServerPath path.bytes) = some (bytes, t) := by
  rw [contentAt, find_content, Option.map_eq_some_iff]
  constructor
  · rintro ⟨⟨_, t⟩, hfile, rfl⟩
    exact ⟨t, hfile⟩
  · rintro ⟨t, hfile⟩
    exact ⟨_, hfile, rfl⟩

/-- An open takes no file of the server away and changes none. -/
theorem contentAt_of_opened (hopened : Opened E path w w') {p : CString} {bytes : Bytes}
    (h : contentAt w.srv p.bytes = some bytes) : contentAt w'.srv p.bytes = some bytes := by
  cases hopened with
  | created _ hmissing hsrv =>
      have hne : getServerPath p.bytes ≠ getServerPath path.bytes := by
        intro heq
        rw [contentAt, heq, Fs.find_eq_none_iff.mpr hmissing] at h
        cases h
      rw [contentAt, hsrv _ hne]
      exact h
  | fetched hsrv _ _ => rwa [hsrv]
  | used hsame _ => rwa [hsame.srv]

/-- A flush under a free name changes the file of its path alone. -/
theorem contentAt_of_flushed (hflushed : Flushed E path w w') (hrel : E.Reliable)
    (hfresh : w.srv.files.names (uploadTemp E path.bytes) = none) {p : CString} (hne : p ≠ path)
    {bytes : Bytes} (h : contentAt w.srv p.bytes = some bytes) :
    contentAt w'.srv p.bytes = some bytes := by
  obtain ⟨chunks, hsrv⟩ := hflushed.srv
  obtain ⟨t, hfile⟩ := contentAt_eq_some_iff.mp h
  rw [hsrv, contentAt_eq_some_iff]
  exact ⟨t, dated_putFile_of_ne hrel ⟨path.bytes, []⟩ _ w.srv hfresh
    (fun heq => hne (getServerPath_injective heq)) hfile⟩

theorem Delivers.step (hdelivers : s.Delivers) (hs : Consistent paths s) (hc : Assumed paths s c)
    (hfresh : s.FreshTemp c) (hstep : s.step c t) : t.Delivers := by
  unfold Net.step next at hstep
  cases hrequest : c.request with
  | openFile path fi is_create =>
      have htrunc := hc.noTrunc
      rw [hrequest] at hstep htrunc
      obtain ⟨_, _, hopened, _⟩ := openHandle_spec fi path hc.reliable hc.during htrunc is_create
        (s.world c.client)
      cases hstep
      exact fun p bytes hsent => contentAt_of_opened hopened (hdelivers p bytes hsent)
  | write path fi buf offset =>
      rw [hrequest] at hstep
      dsimp only at hstep
      split_ifs at hstep with hmem
      cases hstep
      obtain ⟨d, hget, hname⟩ := (hs.clients c.client).handles path fi hmem
      obtain ⟨_, _, hsrv, _⟩ := unreliableWrite_spec (w := s.world c.client) hc.reliable
        hc.during buf offset hget hname
      intro p bytes hsent
      have hcontent := hdelivers p bytes hsent
      rwa [show (s.put c.client _ c.ends).srv = s.srv from hsrv]
  | flush path fi =>
      rw [hrequest] at hstep
      dsimp only at hstep
      by_cases hmem : (path, fi) ∈ s.handles c.client
      · rw [if_pos hmem] at hstep
        cases hstep
        obtain ⟨d, hget, hname⟩ := (hs.clients c.client).handles path fi hmem
        obtain ⟨_, _, hflush⟩ := unreliableFlush_spec (w := s.world c.client) hc.reliable
          hc.during hs.clock hc.below hget ⟨hname, (hs.clients c.client).sole path⟩
        intro p bytes hsent
        rcases hflush with ⟨hclean, hsame⟩ | ⟨hdirty, hflushed⟩
        · dsimp only at hsent
          rw [if_neg hclean] at hsent
          exact (congrArg (contentAt · p.bytes) hsame.srv).trans (hdelivers p bytes hsent)
        · dsimp only at hsent
          rw [if_pos hdirty] at hsent
          by_cases hp : p = path
          · subst hp
            rw [Function.update_self] at hsent
            obtain ⟨content, htemp, _, hcontent⟩ := hflushed.sent
            rw [htemp] at hsent
            cases hsent
            exact hcontent
          · rw [Function.update_of_ne hp] at hsent
            exact contentAt_of_flushed hflushed hc.reliable (hfresh path fi hrequest) hp
              (hdelivers p bytes hsent)
      · rw [if_neg hmem] at hstep
        cases hstep

end Sent

/-- After every open of a path that is on the server and not among the client's dirty paths, the
temporary copy has the server's bytes; they are the ones the last flush of the path has sent, if there
was one and no upload went under a name that was taken. -/
theorem open_reads_latest (hpaths : NoCollision paths) {start : Net ι} (hstart : start.Start)
    {trace : List (Net ι × Call ι)} (hrun : Run step start trace s)
    (hassumed : Guarded (Assumed paths) trace) (hc : Assumed paths s c) (hstep : s.step c t)
    {path : CString} {fi : FuseFileInfo} {is_create : Bool}
    (hrequest : c.request = .openFile path fi is_create)
    (hclean : getHashedPath path ∉ (s.clients c.client).dirty_files)
    (hthere : contentAt s.srv path.bytes ≠ none) :
    (∃ content, contentAt t.srv path.bytes = some content ∧
      tempAt (t.clients c.client).files path = some content) ∧
    (Guarded FreshTemp trace → ∀ bytes, t.sent path = some bytes →
      contentAt t.srv path.bytes = some bytes) := by
  have hs : Consistent paths s := hrun.guarded_invariant (Consistent paths) hstart.consistent
    (fun _ _ _ hs hc hstep => hs.step hpaths hc hstep) hassumed
  refine ⟨?_, fun hfresh => ?_⟩
  · obtain ⟨content, hcontent⟩ := Option.ne_none_iff_exists'.mp hthere
    have hpath := hc.path
    have hnul := hc.noNul
    have htrunc := hc.noTrunc
    rw [hrequest] at hpath hnul htrunc
    have hend := hc.clock_le
    have hbelow := hc.below
    obtain ⟨_, _, hopened, _⟩ := openHandle_spec fi path hc.reliable hc.during htrunc is_create
      (s.world c.client)
    obtain ⟨htemp, hcontent'⟩ := hopened.tempAt_eq hc.reliable (hs.clients c.client) hpath hclean
      (hs.server _) (by omega) hcontent (hnul content hcontent)
    unfold Net.step next at hstep
    rw [hrequest] at hstep
    cases hstep
    refine ⟨content, hcontent', ?_⟩
    dsimp only [put]
    rw [Function.update_self]
    exact htemp
  · have hboth : Guarded (fun s c => Assumed paths s c ∧ s.FreshTemp c) trace :=
      fun entry hmem => ⟨hassumed entry hmem, hfresh entry hmem⟩
    have hdelivers : Consistent paths s ∧ s.Delivers := hrun.guarded_invariant
      (fun s => Consistent paths s ∧ s.Delivers)
      ⟨hstart.consistent, fun p bytes hsent => by rw [hstart.unsent p] at hsent; cases hsent⟩
      (fun _ _ _ hs hc hstep => ⟨hs.1.step hpaths hc.1 hstep, hs.2.step hs.1 hc.1 hc.2 hstep⟩) hboth
    have hopen : s.FreshTemp c := by
      intro path' fi' heq
      rw [hrequest] at heq
      cases heq
    exact hdelivers.2.step hs hc hopen hstep path

section Sample

omit [Sha256] [DecidableEq ι] in
theorem Assumed.of_smooth (hE : c.E = .smooth c.ends) (hclock : s.clock < c.ends)
    (hbelow : c.ends < 2 ^ 31) (hpath : c.request.path ∈ paths) (htrunc : c.request.truncates = false)
    (hnul : ∀ content ∈ contentAt s.srv c.request.path.bytes, 0 ∉ content) : Assumed paths s c where
  reliable := hE ▸ Env.smooth_reliable c.ends
  during _ := by
    rw [hE]
    exact ⟨hclock, le_refl _⟩
  below := hbelow
  path := hpath
  noTrunc := htrunc
  noNul := hnul

/-- `/f` is on the server, and nobody has a copy. -/
def sampleNet : Net Bool where
  srv := ⟨(Fs.empty ⟨[], default, default⟩).create (getServerPath (ascii "/f"))
    ⟨ascii "old", ⟨0, 0⟩, default⟩, []⟩
  clients _ := ⟨.empty ⟨[], default, default⟩, [some ⟨0, O_RDWR⟩], ∅, []⟩
  errno _ := 0
  handles _ := []
  sent _ := none
  clock := 0

/-- A request in the given second. -/
def callAt (client : Bool) (request : Request) (sec : Int) : Call Bool :=
  ⟨client, request, .smooth sec, sec⟩

/-- One client opens `/f`, writes and flushes. -/
def sampleCalls : List (Call Bool) :=
  [callAt true (.openFile sampleF ⟨O_RDWR, 0⟩ false) 1,
    callAt true (.write sampleF ⟨O_RDWR, 1⟩ (ascii "new") 0) 2,
    callAt true (.flush sampleF ⟨O_RDWR, 1⟩) 3]

theorem sampleNet_start : sampleNet.Start where
  empty _ _ := rfl
  clean _ := rfl
  closed _ := rfl
  unsent _ := rfl
  clock := by decide
  server name content t h := by
    by_cases hname : name = getServerPath (ascii "/f")
    · subst hname
      rw [dated, sampleNet, Fs.find_create_self] at h
      cases h
      decide
    · rw [dated, sampleNet, Fs.find_create_of_ne _ _ hname] at h
      cases h

/-- The other client opens `/f` afterwards. -/
def sampleOpen : Call Bool := callAt false (.openFile sampleF ⟨O_RDWR, 0⟩ false) 4

omit [Sha256] in
theorem sampleCalls_run :
    letI := sampleSha256
    ∃ trace s t, Run step sampleNet trace s ∧ Guarded (Assumed {sampleF}) trace ∧
      Guarded FreshTemp trace ∧ Assumed {sampleF} s sampleOpen ∧ s.step sampleOpen t ∧
      getHashedPath sampleF ∉ (s.clients false).dirty_files ∧
      contentAt s.srv sampleF.bytes ≠ none ∧ t.sent sampleF = some (ascii "new") := by
  have hrun : Run (@step _ _ sampleSha256) sampleNet _ _ := .of_advance sampleCalls .nil rfl
  refine ⟨_, _, _, hrun, ?_, ?_, .of_smooth rfl (by decide) (by decide) rfl rfl (by decide), rfl,
    by decide, by decide, by decide⟩
  · refine .cons (.of_smooth rfl ?_ ?_ rfl rfl ?_) (.cons (.of_smooth rfl ?_ ?_ rfl rfl ?_)
      (.cons (.of_smooth rfl ?_ ?_ rfl rfl ?_) (guarded_nil _)))
    all_goals decide
  · refine .cons (fun path fi h => ?_) (.cons (fun _ _ h => nomatch h)
      (.cons (fun _ _ h => nomatch h) (guarded_nil _)))
    cases h
    decide

omit [Sha256] in
theorem open_reads_latest_sample :
    letI := sampleSha256
    ∃ trace s t, Run step sampleNet trace s ∧ s.step sampleOpen t ∧
      contentAt t.srv sampleF.bytes = some (ascii "new") ∧
      tempAt (t.clients false).files sampleF = some (ascii "new") := by
  let _ := sampleSha256
  obtain ⟨trace, s, t, hrun, hassumed, hfresh, hc, hstep, hclean, hthere, hsent⟩ := sampleCalls_run
  obtain ⟨⟨content, hcontent, htemp⟩, hlast⟩ := open_reads_latest (Set.injOn_singleton _ sampleF)
    sampleNet_start hrun hassumed hc hstep rfl hclean hthere
  have hnew := hlast hfresh _ hsent
  cases Option.some.inj (hcontent.symm.trans hnew)
  exact ⟨trace, s, t, hrun, hstep, hcontent, htemp⟩

/-- The path whose name on the server the next upload of `/f` takes for its temporary file. -/
def sampleDrawn : CString := ⟨ascii "/f00000000000000000000", by decide⟩

/-- SHA-256 as far as `/f`, `/g` and that path go. -/
abbrev sampleDrawnSha256 : Sha256 where
  digest path i := if path = sampleDrawn.bytes then
      [8, 134, 255, 34, 142, 217, 138, 166, 209, 238, 216, 124, 88, 251, 49, 206,
        7, 192, 121, 245, 21, 56, 120, 82, 196, 108, 247, 95, 36, 157, 76, 255].getD i.val 0
    else sampleSha256.digest path i

/-- One client creates a file, writes to it and flushes it. Then it does the same with `/f`, whose upload goes under
the name of that file and takes it away. It is created anew. -/
def sampleDrawnCalls : List (Call Bool) :=
  [callAt true (.openFile sampleDrawn ⟨O_RDWR ||| O_CREAT, 0⟩ true) 1,
    callAt true (.write sampleDrawn ⟨O_RDWR ||| O_CREAT, 1⟩ (ascii "new") 0) 2,
    callAt true (.flush sampleDrawn ⟨O_RDWR ||| O_CREAT, 1⟩) 3,
    callAt true (.openFile sampleF ⟨O_RDWR, 0⟩ false) 4,
    callAt true (.write sampleF ⟨O_RDWR, 2⟩ (ascii "more") 0) 5,
    callAt true (.flush sampleF ⟨O_RDWR, 2⟩) 6,
    callAt true (.openFile sampleDrawn ⟨O_RDWR ||| O_CREAT, 0⟩ true) 7]

/-- The other client opens it afterwards. -/
def sampleDrawnOpen : Call Bool := callAt false (.openFile sampleDrawn ⟨O_RDWR, 0⟩ false) 8

omit [Sha256] in
set_option maxRecDepth 4000 in
/-- What the last flush of the path sent is not what an open of it finds. -/
theorem drawn_name_loses_flush :
    letI := sampleDrawnSha256
    ∃ trace s t, NoCollision {sampleF, sampleDrawn} ∧ sampleNet.Start ∧ Run step sampleNet trace s ∧
      Guarded (Assumed {sampleF, sampleDrawn}) trace ∧ Assumed {sampleF, sampleDrawn} s sampleDrawnOpen ∧
      s.step sampleDrawnOpen t ∧ getHashedPath sampleDrawn ∉ (s.clients false).dirty_files ∧
      contentAt s.srv sampleDrawn.bytes ≠ none ∧ t.sent sampleDrawn = some (ascii "new") ∧
      contentAt t.srv sampleDrawn.bytes = some [] ∧
      tempAt (t.clients false).files sampleDrawn = some [] := by
  let _ := sampleDrawnSha256
  have hrun : Run (@step _ _ sampleDrawnSha256) sampleNet _ _ := .of_advance sampleDrawnCalls .nil rfl
  refine ⟨_, _, _, ?_, sampleNet_start, hrun, ?_,
    .of_smooth rfl (by decide) (by decide) (Or.inr rfl) rfl (by decide +kernel), rfl,
    by decide +kernel, by decide +kernel, by decide +kernel, by decide +kernel, by decide +kernel⟩
  · have hne : Sha256.digest sampleF.bytes ≠ Sha256.digest sampleDrawn.bytes := fun heq =>
      absurd (congrFun heq 0) (by decide +kernel)
    rintro p (rfl | rfl) q (rfl | rfl) heq
    · rfl
    · exact absurd heq hne
    · exact absurd heq.symm hne
    · rfl
  · refine .cons (.of_smooth rfl ?_ ?_ (Or.inr rfl) rfl ?_) (.cons (.of_smooth rfl ?_ ?_ (Or.inl rfl) rfl ?_)
      (.cons (.of_smooth rfl ?_ ?_ (Or.inl rfl) rfl ?_) (.cons (.of_smooth rfl ?_ ?_ (Or.inl rfl) rfl ?_)
      (.cons (.of_smooth rfl ?_ ?_ (Or.inr rfl) rfl ?_) (.cons (.of_smooth rfl ?_ ?_ (Or.inr rfl) rfl ?_)
      (.cons (.of_smooth rfl ?_ ?_ (Or.inr rfl) rfl ?_) (guarded_nil _)))))))
    all_goals decide +kernel

end Sample

end Net

end Bnfs
