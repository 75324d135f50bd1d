import Bnfs.ClientCloseToOpen
import Bnfs.ClientRestart

/-! Close-to-open consistency across crashes. A client may die in the middle of an operation: the server has got what
was sent until then, the local files are left in any state, and the process starts again. What was written and not
flushed is lost, and nothing else: a later open, by whichever client, gives the file of the server. -/

namespace Bnfs

open FileSystem Programs Runs Stamped FileServer

/-- What the server makes of an operation that is cut short: the handler it asked for runs on the messages that have
arrived. -/
inductive CutShort (E : Env) : Request → Server → Server → Prop
  | nothing (request : Request) (srv : Server) : CutShort E request srv srv
  | upload (path : CString) (fi : FuseFileInfo) (rest : List PutFileReq) (srv : Server) :
      CutShort E (.flush path fi) srv (putFile E (⟨path.bytes, []⟩ :: rest) srv).2
  | creation (path : CString) (fi : FuseFileInfo) (is_create : Bool) (srv : Server) :
      CutShort E (.openFile path fi is_create) srv (FileServer.Open E ⟨path.bytes, fi.flags, true⟩ srv).2

/-- The operation a client dies in, what has become of the server, what is left of the local files, and what the
client finds when it starts again. -/
structure Crash (ι : Type) where
  call : Call ι
  srv : Server
  files : Files
  listing : Option (List Dirent)
  fds : Descriptors

section CutShort

variable {E : Env} {request : Request} {srv srv' : Server} {lo hi : Int}

theorem Open_renewed (hduring : E.During lo hi) (request : OpenReq) (srv : Server) :
    Renewed lo hi srv.files (FileServer.Open E request srv).2.files := by
  unfold FileServer.Open FileServer.openCreate
  dsimp only
  split
  · split
    · split
      · exact refl_of (Renewed lo hi) srv.files
      · split_ifs
        · exact create_renewed _ _ (hduring _)
        · exact refl_of (Renewed lo hi) srv.files
      · split_ifs
        · exact refl_of (Renewed lo hi) srv.files
        · exact setInode_renewed _ _ (hduring _)
        · exact refl_of (Renewed lo hi) srv.files
    · exact refl_of (Renewed lo hi) srv.files
  · exact refl_of (Renewed lo hi) srv.files

theorem CutShort.renewed (h : CutShort E request srv srv') (hrel : E.Reliable) (hduring : E.During lo hi) :
    Renewed lo hi srv.files srv'.files := by
  cases h with
  | nothing => exact refl_of (Renewed lo hi) srv.files
  | upload path fi rest => exact (putFile_renewed hrel hduring _ rest srv).1
  | creation path fi is_create => exact Open_renewed hduring _ srv

/-- A creation takes no file away and changes none that is there. -/
theorem Open_contentAt (hrel : E.Reliable) {path p : CString} {flag : OpenFlags} {bytes : Bytes}
    (h : contentAt srv p.bytes = some bytes) :
    contentAt (FileServer.Open E ⟨path.bytes, flag, true⟩ srv).2 p.bytes = some bytes := by
  cases hname : srv.files.names (getServerPath path.bytes) with
  | some ino =>
      have hread : openRead E (getServerPath path.bytes) srv.files = some (srv.files.inode ino) := by
        rw [openRead, hrel.calls]
        exact Fs.find_of_names hname
      unfold FileServer.Open
      simp only [hread]
      exact h
  | none =>
      have hne : getServerPath p.bytes ≠ getServerPath path.bytes := by
        intro heq
        rw [contentAt, heq, Fs.find_eq_none_iff.mpr hname] at h
        cases h
      have hstream := openStream_touches E path rfl (w := ⟨srv, ⟨srv.files, [], ∅, []⟩, 0⟩) hname flag
      have hopen : (AFSClient.openStream E ⟨path.bytes, flag, true⟩ ⟨srv, ⟨srv.files, [], ∅, []⟩, 0⟩).2.srv =
          (FileServer.Open E ⟨path.bytes, flag, true⟩ srv).2 := by
        unfold AFSClient.openStream
        rw [hrel.downloads]
        rfl
      rw [← hopen, contentAt, hstream _ hne]
      exact h

/-- But for a flush of its own path a file on the server keeps its bytes, as long as no upload goes under a name that
is taken. -/
theorem CutShort.contentAt (h : CutShort E request srv srv') (hrel : E.Reliable)
    (hfresh : ∀ path fi, request = .flush path fi → srv.files.names (uploadTemp E path.bytes) = none) {p : CString}
    (hother : ∀ fi, request ≠ .flush p fi) {bytes : Bytes} (hbytes : contentAt srv p.bytes = some bytes) :
    contentAt srv' p.bytes = some bytes := by
  cases h with
  | nothing => exact hbytes
  | upload path fi rest =>
      obtain ⟨t, hfile⟩ := Net.contentAt_eq_some_iff.mp hbytes
      refine Net.contentAt_eq_some_iff.mpr ⟨t, ?_⟩
      refine dated_putFile_of_ne hrel ⟨path.bytes, []⟩ rest srv (hfresh path fi rfl) (fun heq => ?_) hfile
      exact hother fi (by rw [getServerPath_injective heq])
  | creation path fi is_create => exact Open_contentAt hrel hbytes

end CutShort

section Clients

variable [Sha256] {paths : Set CString}

/-- A client without temporary copies and without handles has nothing that could be out of order. -/
theorem ClientOk.of_empty {srv : Server} {clock : Int} {cl : Client}
    (h : ∀ p, cl.files.names (getTempPath p) = none) : ClientOk paths srv clock cl [] where
  sole p ino hname := by
    rw [h p] at hname
    cases hname
  times p := by
    rw [dated, Fs.find_eq_none_iff.mpr (h p)]
    exact writtenIn_none _ _
  usable p _ _ := by
    rw [UsableCopy, dated, dated, Fs.find_eq_none_iff.mpr (h p)]
    exact usable_none_copy _
  handles _ _ hmem := nomatch hmem

end Clients

/-- An operation of a client, or a client dies in one and starts again. -/
inductive Incident (ι : Type) where
  | ends (call : Call ι)
  | crashes (crash : Crash ι)

namespace Net

variable {ι : Type} [DecidableEq ι]

/-- The client starts again: it has no handle and no mark, and of its files not what `initCache` removes. What it was
sending may have arrived or not. -/
def crash (s : Net ι) (c : Crash ι) : Net ι where
  srv := c.srv
  clients := Function.update s.clients c.call.client ⟨initCache c.listing c.files, c.fds, ∅, []⟩
  errno := Function.update s.errno c.call.client 0
  handles := Function.update s.handles c.call.client []
  sent := match c.call.request with
    | .flush path _ => Function.update s.sent path none
    | _ => s.sent
  clock := c.call.ends

variable [Sha256]

def nextLife (s : Net ι) : Incident ι → Option (Net ι)
  | .ends call => s.next call
  | .crashes c => some (s.crash c)

/-- The steps of clients that may die. -/
def Lives (s : Net ι) (incident : Incident ι) (t : Net ι) : Prop := s.nextLife incident = some t

omit [DecidableEq ι] in
/-- What is assumed of a crash: until then nothing failed and the operation ran in a period after the clock. The server
has got what it was sent, and `initCache` sees every temporary copy that is left. Nothing is assumed of the local
files. -/
structure CrashAssumed (s : Net ι) (c : Crash ι) : Prop where
  reliable : c.call.E.Reliable
  during : c.call.E.During s.clock c.call.ends
  below : c.call.ends < 2 ^ 31
  reached : CutShort c.call.E c.call.request s.srv c.srv
  lists : ListsCopies c.listing c.files

omit [DecidableEq ι] in
def LivesAssumed (paths : Set CString) (s : Net ι) : Incident ι → Prop
  | .ends call => Assumed paths s call
  | .crashes crash => CrashAssumed s crash

omit [DecidableEq ι] [Sha256] in
/-- The call an incident is about. -/
def callOf : Incident ι → Call ι
  | .ends call => call
  | .crashes crash => crash.call

variable {paths : Set CString} {s t : Net ι}

/-- Whatever state a crash leaves the client in, the copies of all clients stay in order. -/
theorem Consistent.crash (hs : Consistent paths s) {c : Crash ι} (hc : CrashAssumed s c) :
    Consistent paths (s.crash c) := by
  have hlo := hs.clock
  have hnow := hc.during .dup
  have hrenewed := hc.reached.renewed hc.reliable hc.during
  refine ⟨?_, fun name => ?_, fun j => ?_⟩
  · show -2 ^ 31 ≤ c.call.ends
    omega
  · show WrittenIn _ c.call.ends (dated c.srv.files name)
    exact (hs.server name).extend (by omega) (by omega) (hrenewed name)
  · show ClientOk paths c.srv c.call.ends (Function.update s.clients c.call.client _ j)
      (Function.update s.handles c.call.client [] j)
    by_cases hj : j = c.call.client
    · subst hj
      rw [Function.update_self, Function.update_self]
      exact .of_empty fun p => cleanTempDir_empties hc.lists _ ⟨p, rfl⟩
    · rw [Function.update_of_ne hj, Function.update_of_ne hj]
      exact (hs.clients j).of_renewed hlo (by omega) hrenewed

/-- What the last flushes have sent is on the server; of one that was cut short it is not known. -/
theorem Delivers.crash (hdelivers : s.Delivers) {c : Crash ι} (hc : CrashAssumed s c) (hfresh : s.FreshTemp c.call) :
    (s.crash c).Delivers := by
  intro p bytes hsent
  have hsent' : s.sent p = some bytes ∧ ∀ fi, c.call.request ≠ .flush p fi := by
    unfold Net.crash at hsent
    cases hrequest : c.call.request with
    | flush path fi =>
        simp only [hrequest] at hsent
        by_cases hp : p = path
        · rw [hp, Function.update_self] at hsent
          cases hsent
        · rw [Function.update_of_ne hp] at hsent
          refine ⟨hsent, fun fi' heq => hp ?_⟩
          cases heq
          rfl
    | openFile path fi is_create =>
        rw [hrequest] at hsent
        exact ⟨hsent, fun _ heq => by cases heq⟩
    | write path fi buf offset =>
        rw [hrequest] at hsent
        exact ⟨hsent, fun _ heq => by cases heq⟩
  exact hc.reached.contentAt hc.reliable hfresh hsent'.2 (hdelivers p bytes hsent'.1)

theorem Consistent.lives (hs : Consistent paths s) (hpaths : NoCollision paths) {incident : Incident ι}
    (hassumed : s.LivesAssumed paths incident) (hstep : s.Lives incident t) : Consistent paths t := by
  cases incident with
  | ends call => exact hs.step hpaths hassumed hstep
  | crashes c =>
      rw [← Option.some.inj hstep]
      exact hs.crash hassumed

theorem Delivers.lives (hdelivers : s.Delivers) (hs : Consistent paths s) {incident : Incident ι}
    (hassumed : s.LivesAssumed paths incident) (hfresh : s.FreshTemp (callOf incident)) (hstep : s.Lives incident t) :
    t.Delivers := by
  cases incident with
  | ends call => exact hdelivers.step hs hassumed hfresh hstep
  | crashes c =>
      rw [← Option.some.inj hstep]
      exact hdelivers.crash hassumed hfresh

/-- An open of a clean path that is on the server leaves the bytes of the server in the temporary copy. -/
theorem Consistent.open_reads (hs : Consistent paths s) {c : Call ι} (hc : Assumed paths s c) (hstep : s.step c t)
    {path : CString} {fi : FuseFileInfo} {is_create : Bool} (hrequest : c.request = .openFile path fi is_create)
    (hclean : getHashedPath path ∉ (s.clients c.client).dirty_files)
    (hthere : contentAt s.srv path.bytes ≠ none) : ∃ content, contentAt t.srv path.bytes = some content ∧
      tempAt (t.clients c.client).files path = some content := by
  obtain ⟨content, hcontent⟩ := Option.ne_none_iff_exists'.mp hthere
  have hpath := hc.path
  have hnul := hc.noNul
  have htrunc := hc.noTrunc
  rw [hrequest] at hpath hnul htrunc
  have hend := hc.clock_le
  have hbelow := hc.below
  obtain ⟨_, _, hopened, _⟩ := openHandle_spec fi path hc.reliable hc.during htrunc is_create (s.world c.client)
  obtain ⟨htemp, hcontent'⟩ := hopened.tempAt_eq hc.reliable (hs.clients c.client) hpath hclean
    (hs.server _) (by omega) hcontent (hnul content hcontent)
  unfold Net.step next at hstep
  rw [hrequest] at hstep
  cases hstep
  refine ⟨content, hcontent', ?_⟩
  show tempAt (Function.update s.clients c.client _ c.client).files path = some content
  rw [Function.update_self]
  exact htemp

/-- Clients open, write and flush, and die in between or in the middle of it. An open of a clean path that is on the
server still gives the server's bytes, and these are the ones that the last flush of the path has sent, unless that was
cut short or an upload went under a name that was taken. -/
theorem crashes_leave_consistent (hpaths : NoCollision paths) {start : Net ι} (hstart : start.Start)
    {trace : List (Net ι × Incident ι)} (hrun : Run Lives start trace s)
    (hassumed : Guarded (LivesAssumed paths) trace) {c : Call ι} (hc : Assumed paths s c) (hstep : s.step c t)
    {path : CString} {fi : FuseFileInfo} {is_create : Bool} (hrequest : c.request = .openFile path fi is_create)
    (hclean : getHashedPath path ∉ (s.clients c.client).dirty_files)
    (hthere : contentAt s.srv path.bytes ≠ none) :
    (∃ content, contentAt t.srv path.bytes = some content ∧
      tempAt (t.clients c.client).files path = some content) ∧
    (Guarded (fun s incident => s.FreshTemp (callOf incident)) trace →
      ∀ bytes, t.sent path = some bytes → contentAt t.srv path.bytes = some bytes) := by
  have hs : Consistent paths s := hrun.guarded_invariant (Consistent paths) hstart.consistent
    (fun _ _ _ hs hassumed hstep => hs.lives hpaths hassumed hstep) hassumed
  refine ⟨hs.open_reads hc hstep hrequest hclean hthere, fun hfresh => ?_⟩
  have hboth : Guarded (fun s incident => s.LivesAssumed paths incident ∧ s.FreshTemp (callOf incident)) trace :=
    fun entry hmem => ⟨hassumed entry hmem, hfresh entry hmem⟩
  have hdelivers : Consistent paths s ∧ s.Delivers := by
    refine hrun.guarded_invariant (fun s => Consistent paths s ∧ s.Delivers) ⟨hstart.consistent, ?_⟩ ?_ hboth
    · intro p bytes hsent
      rw [hstart.unsent p] at hsent
      cases hsent
    · intro s incident t hs hassumed hstep
      exact ⟨hs.1.lives hpaths hassumed.1 hstep, hs.2.lives hs.1 hassumed.1 hassumed.2 hstep⟩
  have hopen : s.FreshTemp c := by
    intro path' fi' heq
    rw [hrequest] at heq
    cases heq
  exact hdelivers.2.step hs hc hopen hstep path

end Net

/-! ### A client that dies while it writes -/

namespace Net

/-- What is left of the temporary copy, with a time to come. -/
def sampleTorn : Files :=
  letI := sampleSha256
  (Fs.empty ⟨[], default, default⟩).create (getTempPath sampleF) ⟨ascii "torn", ⟨1000, 0⟩, default⟩

/-- The client that has flushed `/f` writes it again, and dies. -/
def sampleCrash : Crash Bool where
  call := callAt true (.write sampleF ⟨O_RDWR, 1⟩ (ascii "lost") 0) 4
  srv := (FileServer.putFile (.smooth 3) (uploadRequests (ascii "/f") [ascii "new"]) sampleNet.srv).2
  files := sampleTorn
  listing := letI := sampleSha256; some [⟨getHashedPath sampleF, DT_REG⟩]
  fds := [some ⟨0, O_RDWR⟩]

def sampleIncidents : List (Incident Bool) := sampleCalls.map .ends ++ [.crashes sampleCrash]

/-- It opens `/f` again. -/
def sampleReopen : Call Bool := callAt true (.openFile sampleF ⟨O_RDWR, 0⟩ false) 5

theorem sampleCrash_lists :
    letI := sampleSha256
    ListsCopies sampleCrash.listing sampleCrash.files := by
  let _ := sampleSha256
  refine ⟨_, rfl, fun path hname => ?_⟩
  have htemp : getTempPath path = getTempPath sampleF := by
    by_contra hne
    exact hname (Fs.create_names_of_ne _ _ hne)
  rw [getTempPath_eq_iff.mp htemp]
  exact List.mem_singleton_self _

theorem sampleCrash_assumed {s : Net Bool} (hclock : s.clock = 3) (hsrv : s.srv = sampleCrash.srv) :
    letI := sampleSha256
    s.CrashAssumed sampleCrash :=
  letI := sampleSha256
  { reliable := Env.smooth_reliable 4
    during := fun _ => ⟨by rw [hclock]; exact (by decide : (3 : Int) < 4), le_refl (4 : Int)⟩
    below := by decide
    reached := hsrv ▸ .nothing _ _
    lists := sampleCrash_lists }

theorem sampleIncidents_run :
    letI := sampleSha256
    ∃ trace s t, Run Lives sampleNet trace s ∧ Guarded (LivesAssumed {sampleF}) trace ∧
      Guarded (fun s incident => s.FreshTemp (callOf incident)) trace ∧ Assumed {sampleF} s sampleReopen ∧
      s.step sampleReopen t ∧ getHashedPath sampleF ∉ (s.clients true).dirty_files ∧
      contentAt s.srv sampleF.bytes ≠ none ∧ t.sent sampleF = some (ascii "new") := by
  have hrun : Run (@Lives _ _ sampleSha256) sampleNet _ _ := .of_advance sampleIncidents .nil rfl
  refine ⟨_, _, _, hrun, ?_, ?_, .of_smooth rfl (by decide) (by decide) rfl rfl (by decide), rfl,
    by decide, by decide, by decide⟩
  · refine .cons (sampleCrash_assumed rfl rfl) (.cons (.of_smooth rfl ?_ ?_ rfl rfl ?_) (.cons (.of_smooth rfl ?_ ?_ rfl rfl ?_)
      (.cons (.of_smooth rfl ?_ ?_ rfl rfl ?_) (guarded_nil _))))
    all_goals decide
  · refine .cons (fun _ _ h => by cases h) (.cons (fun path fi h => ?_) (.cons (fun _ _ h => by cases h)
      (.cons (fun _ _ h => by cases h) (guarded_nil _))))
    cases h
    decide

theorem crashes_leave_consistent_sample :
    letI := sampleSha256
    ∃ trace s t, Run Lives sampleNet trace s ∧ s.step sampleReopen t ∧
      contentAt t.srv sampleF.bytes = some (ascii "new") ∧
      tempAt (t.clients true).files sampleF = some (ascii "new") := by
  let _ := sampleSha256
  obtain ⟨trace, s, t, hrun, hassumed, hfresh, hc, hstep, hclean, hthere, hsent⟩ := sampleIncidents_run
  obtain ⟨⟨content, hcontent, htemp⟩, hlast⟩ := crashes_leave_consistent (Set.injOn_singleton _ sampleF)
    sampleNet_start hrun hassumed hc hstep rfl hclean hthere
  have hnew := hlast hfresh _ hsent
  cases Option.some.inj (hcontent.symm.trans hnew)
  exact ⟨trace, s, t, hrun, hstep, hcontent, htemp⟩

end Net

end Bnfs
