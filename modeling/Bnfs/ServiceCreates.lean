import Bnfs.ServiceHandlers

/-! Opens that create and uploads of one path. The check that the file cannot be opened and the `open` that creates
it are two steps, without the mutex, and the flags of the second are those of the client: in between an upload may
have put a file in place, which the second step finds. -/

namespace Bnfs

open FileSystem Runs

/-- Nothing takes a name away. -/
def Event.KeepsNames {ι κ : Type} : Event ι κ → Prop
  | .put _ | .serve _ _ _ => True
  | .unlink _ _ | .rename _ _ _ => False

namespace Service

variable {ι κ : Type}

/-- All requests are for one path, which has no file; the opens create. A temporary name is not a second name of
any file. -/
structure OnePath (calls : ι → PutCall) (requests : κ → OpenReq) (path : Bytes) (files : Files) : Prop where
  puts : ∀ i, (calls i).requests ≠ [] → (calls i).target = path
  opens : ∀ k, getServerPath (requests k).path = path
  creates : ∀ k, (requests k).is_create = true
  sole : ∀ i, (calls i).requests ≠ [] → files.Sole (calls i).temp
  missing : files.names path = none

/-- The bytes of the last upload put in place, and none before the first. -/
def lastUploaded (path : Bytes) (s : Service ι κ) : Bytes :=
  match Register.last Version.path s.uploads.versions path with
  | some version => (version.file.map (·.content)).getD []
  | none => []

/-- The file is there and holds what was uploaded last. -/
def Holds (path : Bytes) (s : Service ι κ) : Prop :=
  (s.files.find path).map (·.content) = some (lastUploaded path s)

/-- Once an `Open` handler has opened or made its file, the file holds what was uploaded last. -/
def HoldsAfter [DecidableEq ι] [DecidableEq κ] (calls : ι → PutCall) (requests : κ → OpenReq) (path : Bytes)
    (s : Service ι κ) (event : Event ι κ) : Prop :=
  ∀ who E delivered t, event = .serve who E delivered → step calls requests s event = some t →
    (t.opens who).settled → Holds path t

/-- What `open` finds with the flags of the client: nothing, and it makes the file; or a file, and it fails,
refuses the file, leaves its bytes alone, or there are none. -/
def Harmless (E : Env) (flag : OpenFlags) : Option File → Prop
  | none => E.fails .openCreate = none ∧ flag.heeded.has O_CREAT = true
  | some file => (E.fails .openCreate).isSome ∨ (flag.heeded.has O_CREAT && flag.heeded.has O_EXCL) = true ∨
      flag.heeded.has O_TRUNC = false ∨ file.content = []

/-- A handler about to create does no harm with its `open`. -/
def Spares (requests : κ → OpenReq) (path : Bytes) (s : Service ι κ) : Event ι κ → Prop
  | .serve who E _ => s.opens who = .missing → Harmless E (requests who).flag (s.files.find path)
  | _ => True

/-- The file is not there and nothing was uploaded, or the file holds what was uploaded last. A stream has the
file open, so it is there. -/
structure Clean (calls : ι → PutCall) (path : Bytes) (s : Service ι κ) : Prop where
  coherent : s.uploads.Coherent calls {path}
  state : Holds path s ∨
    (s.files.find path = none ∧ Register.last Version.path s.uploads.versions path = none)
  streaming : ∀ k ino sent, s.opens k = .streaming ino sent → s.files.find path ≠ none

variable {calls : ι → PutCall} {requests : κ → OpenReq} {path : Bytes} {start s t : Service ι κ}
  {trace : List (Service ι κ × Event ι κ)}

theorem Clean.holds (h : Clean calls path s) (hthere : s.files.find path ≠ none) : Holds path s :=
  h.state.resolve_right fun hnone => hthere hnone.1

theorem Holds.there (h : Holds path s) : s.files.find path ≠ none := by
  intro hnone
  rw [Holds, hnone] at h
  cases h

/-- What the uploads left and what the file holds depends on the versions and the file alone. -/
theorem Holds.of_eq (h : Holds path s) (hversions : t.uploads.versions = s.uploads.versions)
    (hfile : (t.files.find path).map (·.content) = (s.files.find path).map (·.content)) : Holds path t := by
  rw [Holds, hfile, h, lastUploaded, lastUploaded, hversions]

section Put

variable [DecidableEq ι] {turn : Turn ι}

/-- A rename puts a file in place, for an upload whose first read got a path. -/
theorem installs_some {u v : Handlers ι} (h : Handlers.Moves calls u turn v) {version : Version ι}
    (hversions : v.versions = version :: u.versions) :
    (∃ file, version.file = some file) ∧ (calls turn.who).requests ≠ [] := by
  cases h with
  | rename files hpc hok htemp htarget hfiles =>
      cases hversions
      subst hfiles
      refine ⟨Option.ne_none_iff_exists'.mp ?_, PutCall.requests_ne_nil_of_target htarget⟩
      rw [Fs.find_rename_new]
      exact fun hnone => htemp (Fs.find_eq_none_iff.mp hnone)
  | _ => exact absurd hversions.symm (List.cons_ne_self _ _)

/-- A step of an upload leaves the file as it is, or puts a new one in place that was uploaded last. -/
theorem Clean.put (hs : Clean calls path s) (hone : ∀ i, (calls i).requests ≠ [] → (calls i).target = path)
    (hmove : Handlers.Moves calls s.uploads turn t.uploads) (hopens : t.opens = s.opens) :
    Clean calls path t := by
  have hstep : (Holds path t ∨
      (t.files.find path = none ∧ Register.last Version.path t.uploads.versions path = none)) ∧
      (s.files.find path ≠ none → t.files.find path ≠ none) := by
    rcases hmove.refines hs.coherent with ⟨hversions, hsame⟩ | ⟨version, hversions, hwho, hpath, hwrite⟩
    · have hdated : dated t.files path = dated s.files path := hsame path rfl
      have hcontent : (t.files.find path).map (·.content) = (s.files.find path).map (·.content) := by
        rw [find_content, find_content, hdated]
      have hnone : t.files.find path = none ↔ s.files.find path = none := by
        rw [← Option.map_eq_none_iff, hcontent, Option.map_eq_none_iff]
      refine ⟨hs.state.imp (fun h => h.of_eq hversions hcontent) fun h => ?_, mt hnone.mp⟩
      exact ⟨hnone.mpr h.1, hversions ▸ h.2⟩
    · obtain ⟨⟨file, hfile⟩, hreq⟩ := installs_some hmove hversions
      have htarget : version.path = path := hpath.trans (hone _ hreq)
      have hdated : dated t.files path = some (file.content, file.mtime) := by
        rw [show dated t.files path = _ from hwrite path rfl, htarget, Function.update_self, Version.dated, hfile]
        rfl
      have hholds : Holds path t := by
        have hlast : Register.last Version.path t.uploads.versions path = some version := by
          rw [hversions, ← htarget]
          exact Register.last_cons_self Version.path version _
        rw [Holds, find_content, hdated, lastUploaded, hlast]
        simp only [hfile, Option.map_some, Option.getD_some]
      exact ⟨Or.inl hholds, fun _ => hholds.there⟩
  refine ⟨hs.coherent.step hmove, hstep.1, fun k ino sent hk => hstep.2 (hs.streaming k ino sent ?_)⟩
  rw [← hopens]
  exact hk

end Put

section Serve

variable [DecidableEq ι] [DecidableEq κ]

omit [DecidableEq ι] [DecidableEq κ] in
/-- The `open` with the flags of the client leaves what was uploaded last exactly if it does no harm. -/
theorem holds_created_iff (hs : Clean calls path s) {E : Env} {flag : OpenFlags}
    (hfiles : t.files = (FileServer.openCreate E path flag s.files).2)
    (hversions : t.uploads.versions = s.uploads.versions) :
    Holds path t ↔ Harmless E flag (s.files.find path) := by
  have hlast : lastUploaded path t = lastUploaded path s := by rw [lastUploaded, lastUploaded, hversions]
  rw [Holds, hlast, hfiles]
  unfold FileServer.openCreate Harmless
  cases hname : s.files.names path with
  | none =>
      have hfind : s.files.find path = none := Fs.find_eq_none_iff.mpr hname
      have hempty : lastUploaded path s = [] := by
        rw [lastUploaded, (hs.state.resolve_left fun h => h.there hfind).2]
      simp only [hfind, hempty]
      cases hfails : E.fails .openCreate with
      | some e => simp [hfind]
      | none =>
          cases hcreat : flag.heeded.has O_CREAT with
          | true => simp
          | false => simp [hfind]
  | some ino =>
      have hfind := Fs.find_of_names hname
      have hholds : some (s.files.inode ino).content = some (lastUploaded path s) := by
        rw [← hs.holds (by rw [hfind]; exact Option.some_ne_none _), hfind]
        rfl
      simp only [hfind]
      cases hfails : E.fails .openCreate with
      | some e => simp [hfind, hholds]
      | none =>
          cases hexcl : flag.heeded.has O_CREAT && flag.heeded.has O_EXCL with
          | true => simp [hfind, hholds]
          | false =>
              cases htrunc : flag.heeded.has O_TRUNC with
              | false => simp [hfind, hholds]
              | true =>
                  have hput : (s.files.put ino [] (E.now .openCreate)).find path =
                      some ⟨[], E.now .openCreate, (s.files.inode ino).attr⟩ :=
                    Fs.find_setInode_self s.files _ hname
                  simp only [Bool.false_eq_true, if_false, if_true, hput, Option.map_some,
                    ← Option.some.inj hholds, Option.some.injEq, Option.isSome_none, false_or,
                    Bool.true_eq_false]
                  exact eq_comm

/-- After a step of an `Open` handler the file holds what was uploaded last exactly if the step does no harm. -/
theorem holdsAfter_iff (hs : Clean calls path s) (hopens : ∀ k, getServerPath (requests k).path = path)
    (hcreates : ∀ k, (requests k).is_create = true) {event : Event ι κ}
    (hstep : step calls requests s event = some t) :
    HoldsAfter calls requests path s event ↔ Spares requests path s event := by
  cases event with
  | serve who E delivered =>
      obtain ⟨⟨pc, files⟩, hout, huploads, hpcs⟩ := serve_cases hstep
      have hpc : t.opens who = pc := by rw [hpcs, Function.update_self]
      have hnext : HoldsAfter calls requests path s (.serve who E delivered) ↔
          (pc.settled → Holds path t) := by
        constructor
        · intro h hsettled
          exact h who E delivered t rfl hstep (hpc ▸ hsettled)
        · rintro h _ _ _ t' ⟨⟩ hstep' hsettled
          cases hstep.symm.trans hstep'
          exact h (hpc ▸ hsettled)
      have hversions : t.uploads.versions = s.uploads.versions := by rw [huploads]
      have hsame : files = s.files → s.files.find path ≠ none → Holds path t := by
        intro hfiles hthere
        refine (hs.holds hthere).of_eq hversions ?_
        rw [← hfiles, show t.files = files from congrArg Handlers.files huploads]
      rw [hnext]
      have hspares : s.opens who ≠ .missing → Spares requests path s (.serve who E delivered) :=
        fun hne h => absurd h hne
      cases hwho : s.opens who with
      | start =>
          rw [hwho] at hout
          cases hout
          exact iff_of_true (by rintro ⟨⟩) (hspares (by rw [hwho]; rintro ⟨⟩))
      | asked =>
          refine iff_of_true (fun hsettled => ?_) (hspares (by rw [hwho]; rintro ⟨⟩))
          simp only [hwho, openStep, hcreates who, hopens who, if_true] at hout
          split at hout
          · rename_i ino hopened
            cases hout
            refine hsame rfl ?_
            rw [Fs.find_of_names (openedInode_names E hopened)]
            exact Option.some_ne_none _
          · cases hout
            cases hsettled
      | missing =>
          rw [hwho, openStep] at hout
          cases hout
          have hcreated : t.files = (FileServer.openCreate E path (requests who).flag s.files).2 := by
            rw [← hopens who]
            exact congrArg Handlers.files huploads
          have hiff := holds_created_iff hs hcreated hversions
          exact ⟨fun h _ => hiff.mp (h rfl), fun h _ => hiff.mpr (h hwho)⟩
      | streaming ino sent =>
          refine iff_of_true (fun _ => ?_) (hspares (by rw [hwho]; rintro ⟨⟩))
          rcases openStep_files E (requests who) hout with hfiles | ⟨hmissing, _⟩
          · exact hsame hfiles (hs.streaming who ino sent hwho)
          · rw [hwho] at hmissing
            cases hmissing
      | returned sent => rw [hwho] at hout; cases hout
      | broken sent => rw [hwho] at hout; cases hout
  | _ =>
      refine iff_of_true ?_ trivial
      rintro _ _ _ _ ⟨⟩

omit [DecidableEq ι] [DecidableEq κ] in
/-- A handler that streams found the file, now or before. -/
theorem openStep_streaming {E : Env} {request : OpenReq} {delivered : Bool} {files files' : Files} {pc : OpenPc}
    {ino : Nat} {sent : List OpenResp}
    (h : openStep E request delivered files pc = some (.streaming ino sent, files')) :
    files' = files ∧
      (files.names (getServerPath request.path) = some ino ∨ ∃ before, pc = .streaming ino before) := by
  cases pc with
  | asked =>
      simp only [openStep] at h
      split at h
      · rename_i hopened
        cases h
        exact ⟨rfl, Or.inl (openedInode_names E hopened)⟩
      · split_ifs at h <;> cases h
  | streaming ino' before =>
      simp only [openStep] at h
      split_ifs at h <;> cases h
      exact ⟨rfl, Or.inr ⟨before, rfl⟩⟩
  | _ => cases h

theorem Clean.serve (hs : Clean calls path s) (hopens : ∀ k, getServerPath (requests k).path = path)
    {who : κ} {E : Env} {delivered : Bool} (hspares : Spares requests path s (.serve who E delivered))
    (hstep : step calls requests s (.serve who E delivered) = some t) : Clean calls path t := by
  obtain ⟨⟨pc, files⟩, hout, huploads, hpcs⟩ := serve_cases hstep
  have hfiles : t.files = files := congrArg Handlers.files huploads
  have hversions : t.uploads.versions = s.uploads.versions := by rw [huploads]
  have hchange : Fs.Within {path} s.files files ∧ (Holds path t ∨ files = s.files) := by
    rcases openStep_files E (requests who) hout with hsame | ⟨hmissing, hcreated⟩
    · exact ⟨show Fs.Within {path} s.files files from hsame ▸ .refl _ _, Or.inr hsame⟩
    · simp only [hopens who] at hcreated
      rw [hcreated]
      refine ⟨openCreate_within E (Set.mem_singleton path) _ _, Or.inl ?_⟩
      exact (holds_created_iff hs (hfiles.trans hcreated) hversions).mpr (hspares hmissing)
  have hstate : Holds path t ∨
      (t.files.find path = none ∧ Register.last Version.path t.uploads.versions path = none) := by
    rcases hchange.2 with hholds | hsame
    · exact Or.inl hholds
    · rw [hfiles, hsame, hversions]
      exact hs.state.imp_left fun h => h.of_eq hversions (by rw [hfiles, hsame])
  have hthere : s.files.find path ≠ none → t.files.find path ≠ none := by
    intro h
    rcases hchange.2 with hholds | hsame
    · exact hholds.there
    · rwa [hfiles, hsame]
  refine ⟨huploads ▸ hs.coherent.of_within hchange.1, hstate, fun k ino sent hk => ?_⟩
  by_cases hwho : k = who
  · subst hwho
    rw [hpcs, Function.update_self] at hk
    obtain rfl : pc = .streaming ino sent := hk
    obtain ⟨_, hname | ⟨before, hbefore⟩⟩ := openStep_streaming hout
    · refine hthere ?_
      rw [hopens k] at hname
      rw [Fs.find_of_names hname]
      exact Option.some_ne_none _
    · exact hthere (hs.streaming k ino before hbefore)
  · rw [hpcs, Function.update_of_ne hwho] at hk
    exact hthere (hs.streaming k ino sent hk)

theorem Clean.step (hs : Clean calls path s) {files : Files} (hone : OnePath calls requests path files)
    {event : Event ι κ} (hkeeps : event.KeepsNames) (hspares : Spares requests path s event)
    (hstep : step calls requests s event = some t) : Clean calls path t := by
  cases event with
  | put turn =>
      obtain ⟨hmove, hopens⟩ := put_cases hstep
      exact hs.put hone.puts hmove hopens
  | serve who E delivered => exact hs.serve hone.opens hspares hstep
  | unlink E path => exact hkeeps.elim
  | rename E old_path new_path => exact hkeeps.elim

omit [DecidableEq ι] [DecidableEq κ] in
theorem clean_start (hstart : start.Idle) (hone : OnePath calls requests path start.files) :
    Clean calls path start := by
  have hnames : Handlers.TempNames calls {path} start.uploads.files := .of_same_path hone.puts hone.sole
  have hnone : start.files.find path = none := Fs.find_eq_none_iff.mpr hone.missing
  refine ⟨⟨hstart.uploads.exclusive, hnames, fun i ino rest hi => ?_⟩, Or.inr ⟨hnone, ?_⟩,
    fun k ino sent hk => (nomatch (hstart.opens k).symm.trans hk)⟩
  · exact (nomatch (hstart.uploads.pc i).symm.trans hi)
  · rw [hstart.uploads.versions]
    rfl

/-- Over a run of harmless steps the state is clean, and the steps of a run are harmless exactly if each left
what was uploaded last. -/
theorem Interleaving.clean (hstart : start.Idle) (hone : OnePath calls requests path start.files)
    (hrun : Interleaving calls requests start trace t) (hkeeps : ∀ entry ∈ trace, entry.2.KeepsNames) :
    (Guarded (Spares requests path) trace → Clean calls path t) ∧
      (Guarded (HoldsAfter calls requests path) trace ↔ Guarded (Spares requests path) trace) := by
  induction hrun with
  | nil => exact ⟨fun _ => clean_start hstart hone, iff_of_true (guarded_nil _) (guarded_nil _)⟩
  | @cons trace s event t hrun hstep ih =>
      obtain ⟨hclean, hiff⟩ := ih fun entry hentry => hkeeps entry (List.mem_cons_of_mem _ hentry)
      have hlast : Guarded (Spares requests path) trace →
          (HoldsAfter calls requests path s event ↔ Spares requests path s event) :=
        fun hguard => holdsAfter_iff (hclean hguard) hone.opens hone.creates hstep
      refine ⟨fun hguard => ?_, fun hholds => ?_, fun hguard => ?_⟩
      · exact (hclean hguard.tail).step hone (hkeeps (s, event) List.mem_cons_self) hguard.head hstep
      · have htail := hiff.mp hholds.tail
        exact .cons ((hlast htail).mp hholds.head) htail
      · exact .cons ((hlast hguard.tail).mpr hguard.head) (hiff.mpr hguard.tail)

/-- After every open that creates the file holds what was uploaded last, or nothing if nothing was, exactly if
none of the `open` calls with the flags of a client truncates a file with bytes or fails to make one. -/
theorem uploads_spared_iff (hstart : start.Idle) (hone : OnePath calls requests path start.files)
    (hrun : Interleaving calls requests start trace t) (hkeeps : ∀ entry ∈ trace, entry.2.KeepsNames) :
    Guarded (HoldsAfter calls requests path) trace ↔ Guarded (Spares requests path) trace :=
  (Interleaving.clean hstart hone hrun hkeeps).2

end Serve

/-- An `Open` with the flags of `open(path, O_WRONLY | O_CREAT | O_TRUNC)`. -/
def createF (_ : Unit) : OpenReq := ⟨ascii "/f", O_WRONLY ||| O_CREAT ||| O_TRUNC, true⟩

def nothingYet : Service Bool Unit := ⟨Handlers.emptyServer, fun _ => .start⟩

theorem nothingYet_onePath : OnePath Handlers.twoUploads createF (getServerPath (ascii "/f")) nothingYet.files := by
  refine ⟨fun i _ => ?_, fun _ => rfl, fun _ => rfl, fun i _ ino hino => (nomatch hino), rfl⟩
  cases i <;> rfl

/-- What happens when the handler's steps come after the given numbers of steps of the upload. -/
def createEvents (check creation : Nat) : List (Event Bool Unit) :=
  List.replicate 1 (.serve () (.smooth 5) true) ++ List.replicate check (.put (Handlers.turnAt false 10)) ++
    [.serve () (.smooth 11) true] ++ List.replicate creation (.put (Handlers.turnAt false 20)) ++
    [.serve () (.smooth 21) true] ++ List.replicate (9 - check - creation) (.put (Handlers.turnAt false 30))

theorem createEvents_keepNames (check creation : Nat) :
    ∀ event ∈ createEvents check creation, event.KeepsNames := by
  intro event hmem
  cases event with
  | put turn => trivial
  | serve who E delivered => trivial
  | _ => simp [createEvents] at hmem

/-- The file is created, then uploaded. -/
theorem uploads_spared_iff_before :
    ∃ trace t, Interleaving Handlers.twoUploads createF nothingYet trace t ∧
      (t.files.find (getServerPath (ascii "/f"))).map (·.content) = some (ascii "aa") ∧
      (Guarded (HoldsAfter Handlers.twoUploads createF (getServerPath (ascii "/f"))) trace ↔
        Guarded (Spares createF (getServerPath (ascii "/f"))) trace) := by
  have hadvance : Runs.advance (step Handlers.twoUploads createF) (createEvents 0 0) ([], nothingYet) =
    some (_, _) := rfl
  have hrun := Run.of_advance (createEvents 0 0) .nil hadvance
  have hkeeps := Guarded.of_advance (createEvents 0 0) (createEvents_keepNames 0 0) (guarded_nil _) hadvance
  exact ⟨_, _, hrun, rfl,
    uploads_spared_iff ⟨Handlers.emptyServer_idle, fun _ => rfl⟩ nothingYet_onePath hrun hkeeps⟩

/-- The handler finds no file, an upload is put in place, and the handler truncates it. -/
theorem upload_emptied :
    ∃ trace t, Interleaving Handlers.twoUploads createF nothingYet trace t ∧ nothingYet.Idle ∧
      OnePath Handlers.twoUploads createF (getServerPath (ascii "/f")) nothingYet.files ∧
      (∀ entry ∈ trace, entry.2.KeepsNames) ∧
      lastUploaded (getServerPath (ascii "/f")) t = ascii "aa" ∧
      (t.files.find (getServerPath (ascii "/f"))).map (·.content) = some [] ∧
      ¬ Guarded (HoldsAfter Handlers.twoUploads createF (getServerPath (ascii "/f"))) trace := by
  have hadvance : Runs.advance (step Handlers.twoUploads createF) (createEvents 0 9) ([], nothingYet) =
    some (_, _) := rfl
  have hrun := Run.of_advance (createEvents 0 9) .nil hadvance
  have hkeeps := Guarded.of_advance (createEvents 0 9) (createEvents_keepNames 0 9) (guarded_nil _) hadvance
  refine ⟨_, _, hrun, ⟨Handlers.emptyServer_idle, fun _ => rfl⟩, nothingYet_onePath, hkeeps, rfl, rfl, fun h => ?_⟩
  have hholds : some [] = some (ascii "aa") := h.head () _ _ _ rfl rfl rfl
  exact absurd hholds (by decide)

end Service

end Bnfs
