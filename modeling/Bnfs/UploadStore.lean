import Bnfs.UploadHandlers

/-! What the handlers are for: a register for every path of a client, written by whole uploads. Under
the mutex only one handler at a time has a temporary file open, and a temporary name is never a path
of a client, so a rename is the one step that changes what a path holds. The handlers therefore refine
the registers: the rename writes one of them and every other step leaves them all alone. -/

namespace Bnfs

def Version.dated {ι : Type} (version : Version ι) : Option (Bytes × Timespec) :=
  version.file.map fun file => (file.content, file.mtime)

namespace PutCall

theorem requests_ne_nil_of_target {call : PutCall} (h : call.target ≠ []) : call.requests ≠ [] := by
  intro hnil
  rw [target, hnil] at h
  exact h rfl

theorem temp_eq_append {call : PutCall} (h : call.requests ≠ []) :
    call.temp = call.target ++ randomString call.rand 20 := by
  rw [temp, target]
  cases hreq : call.requests with
  | nil => exact absurd hreq h
  | cons request rest => rfl

theorem temp_ne_nil {call : PutCall} (h : call.requests ≠ []) : call.temp ≠ [] := by
  intro hnil
  have hlen := congrArg List.length (temp_eq_append h)
  rw [hnil, List.length_append, randomString_length] at hlen
  simp at hlen

/-- The temporary name is the path with twenty characters more. -/
theorem temp_ne_target {call : PutCall} (h : call.requests ≠ []) : call.temp ≠ call.target := by
  intro heq
  have hlen := congrArg List.length (temp_eq_append h)
  rw [heq, List.length_append, randomString_length] at hlen
  omega

end PutCall

namespace Handlers

open FileSystem

variable {ι : Type}

/-- The paths of the clients and the temporary names have nothing to do with each other: what an
upload goes to is a path, and a temporary name is neither a path nor a second name of any file. -/
structure TempNames (calls : ι → PutCall) (paths : Set Bytes) (files : Files) : Prop where
  target : ∀ i, (calls i).requests ≠ [] → (calls i).target ∈ paths
  temp : ∀ i, (calls i).requests ≠ [] → (calls i).temp ∉ paths
  sole : ∀ i, (calls i).requests ≠ [] → files.Sole (calls i).temp

/-- The invariant of the handlers: exclusion, temporary files that have one name, and an open stream
that writes to the file under the temporary name of its handler. -/
structure Coherent (calls : ι → PutCall) (paths : Set Bytes) (s : Handlers ι) : Prop where
  exclusive : s.Exclusive
  names : TempNames calls paths s.files
  out : ∀ i ino rest, s.pc i = .writing (some ino) rest →
    (calls i).requests ≠ [] ∧ s.files.names (calls i).temp = some ino

variable {calls : ι → PutCall} {paths : Set Bytes} {s t : Handlers ι} {turn : Turn ι}

theorem TempNames.of_sole {files files' : Files} (h : TempNames calls paths files)
    (hsole : ∀ i, (calls i).requests ≠ [] → files.Sole (calls i).temp → files'.Sole (calls i).temp) :
    TempNames calls paths files' :=
  ⟨h.target, h.temp, fun i hi => hsole i hi (h.sole i hi)⟩

/-- Uploads to one path have no temporary name in common with it. -/
theorem TempNames.of_same_path {files : Files} {p : Bytes}
    (hsame : ∀ i, (calls i).requests ≠ [] → (calls i).target = p)
    (hsole : ∀ i, (calls i).requests ≠ [] → files.Sole (calls i).temp) :
    TempNames calls {p} files := by
  refine ⟨hsame, fun i hi hmem => ?_, hsole⟩
  have htarget := hsame i hi
  exact PutCall.temp_ne_target hi (hmem.trans htarget.symm)

/-- A path and a temporary name never lead to one inode. -/
theorem TempNames.names_ne {files : Files} (h : TempNames calls paths files) {i : ι}
    (hi : (calls i).requests ≠ []) {p : Bytes} (hp : p ∈ paths) {ino : Nat}
    (htemp : files.names (calls i).temp = some ino) : files.names p ≠ some ino := by
  intro hpath
  have heq := h.sole i hi ino htemp p hpath
  exact h.temp i hi (heq ▸ hp)

/-- Another handler than one in the critical section has no stream open. -/
theorem Exclusive.not_writing {i j : ι} (hs : s.Exclusive) (hi : (s.pc i).critical) (hij : j ≠ i)
    {out : Option Nat} {rest : List PutFileReq} : s.pc j ≠ .writing out rest := by
  intro hj
  exact hij (hs.eq_of_critical (by rw [hj]; rfl) hi)

/-- The opening of a temporary file. A handler that has read no path opens nothing. -/
theorem uploadOpen_cases (fails : Option Int) (now : Timespec) (attr : Attr) (call : PutCall)
    (files : Files) :
    uploadOpen fails now attr call.temp files = (files, none) ∨
      (call.requests ≠ [] ∧ uploadOpen fails now attr call.temp files =
        ((files.openTrunc call.temp now attr).1, some (files.openTrunc call.temp now attr).2)) := by
  unfold uploadOpen
  split
  · exact Or.inl rfl
  · rename_i hopen
    refine Or.inr ⟨?_, rfl⟩
    intro hnil
    simp [PutCall.temp, hnil, FileServer.tempFilePath] at hopen

variable [DecidableEq ι]

/-- A turn that leaves the files alone and opens no stream keeps the invariant. -/
theorem Coherent.of_files_eq (hs : Coherent calls paths s) (hexcl : t.Exclusive)
    (hfiles : t.files = s.files) (hother : ∀ j, j ≠ turn.who → t.pc j = s.pc j)
    (hself : ∀ ino rest, t.pc turn.who ≠ .writing (some ino) rest) : Coherent calls paths t := by
  refine ⟨hexcl, hfiles ▸ hs.names, fun j ino rest hpc => ?_⟩
  by_cases hj : j = turn.who
  · exact absurd (hj ▸ hpc) (hself ino rest)
  · rw [hother j hj] at hpc
    rw [hfiles]
    exact hs.out j ino rest hpc

/-- A turn of a handler in the critical section only has to answer for its own stream: nobody else
has one open. -/
theorem Coherent.of_critical (hs : Coherent calls paths s) (hexcl : t.Exclusive)
    (hcritical : (s.pc turn.who).critical) (hnames : TempNames calls paths t.files)
    (hother : ∀ j, j ≠ turn.who → t.pc j = s.pc j)
    (hself : ∀ ino rest, t.pc turn.who = .writing (some ino) rest →
      (calls turn.who).requests ≠ [] ∧ t.files.names (calls turn.who).temp = some ino) :
    Coherent calls paths t := by
  refine ⟨hexcl, hnames, fun j ino rest hpc => ?_⟩
  by_cases hj : j = turn.who
  · subst hj
    exact hself ino rest hpc
  · rw [hother j hj] at hpc
    exact absurd hpc (hs.exclusive.not_writing hcritical hj)

theorem Coherent.step (hs : Coherent calls paths s) (h : Moves calls s turn t) :
    Coherent calls paths t := by
  have hexcl := hs.exclusive.step h
  have hother : ∀ j, j ≠ turn.who → t.pc j = s.pc j := fun j hj => h.pc_of_ne hj
  cases h with
  | read hpc => exact hs.of_files_eq hexcl rfl hother (by simp)
  | acquire hpc hfree => exact hs.of_files_eq hexcl rfl hother (by simp)
  | close hpc => exact hs.of_files_eq hexcl rfl hother (by simp)
  | renameFails hpc hfails => exact hs.of_files_eq hexcl rfl hother (by simp)
  | release hpc => exact hs.of_files_eq hexcl rfl hother (by simp)
  | lstat reply hpc hreply => exact hs.of_files_eq hexcl rfl hother (by simp)
  | openTemp out hpc hout =>
      rcases uploadOpen_cases turn.fails turn.now turn.attr (calls turn.who) s.files with
        hnone | ⟨hreq, hopen⟩
      · rw [hnone] at hout
        subst hout
        exact hs.of_critical hexcl (by rw [hpc]; rfl) hs.names hother (by simp)
      · rw [hopen] at hout
        subst hout
        refine hs.of_critical hexcl (by rw [hpc]; rfl)
          (hs.names.of_sole fun i _ hsole => Fs.openTrunc_sole _ _ hsole) hother ?_
        intro ino rest hself
        cases (goto_pc_self s turn.who _).symm.trans hself
        exact ⟨hreq, Fs.openTrunc_names_self _ _ _ _⟩
  | write out hpc hout =>
      rename_i before request after
      have hnames : out.1.names = s.files.names := hout ▸ uploadWrite_names _ _ _ _ _
      refine hs.of_critical hexcl (by rw [hpc]; rfl)
        (hs.names.of_sole fun i _ hsole => hsole.of_names_eq hnames) hother ?_
      intro ino rest hself
      have hstill : out.2 = some ino :=
        (PutPc.writing.inj ((goto_pc_self s turn.who _).symm.trans hself)).1
      have hbefore : before = some ino := uploadWrite_out _ _ _ _ _ (hout ▸ hstill)
      obtain ⟨hreq, hname⟩ := hs.out turn.who ino _ (hbefore ▸ hpc)
      exact ⟨hreq, hnames ▸ hname⟩
  | rename files hpc hok htemp htarget hfiles =>
      have hreq := PutCall.requests_ne_nil_of_target htarget
      refine hs.of_critical hexcl (by rw [hpc]; rfl) (hs.names.of_sole fun i hi hsole => ?_) hother
        (by simp)
      have hne : (calls i).temp ≠ (calls turn.who).target := by
        intro heq
        exact hs.names.temp i hi (heq ▸ hs.names.target turn.who hreq)
      exact hfiles ▸ Fs.rename_sole hsole hne
  | chmod hpc =>
      exact hs.of_critical hexcl (by rw [hpc]; rfl)
        (hs.names.of_sole fun i _ hsole => hsole.of_names_eq (uploadChmod_names _ _ _)) hother (by simp)

/-- One turn of the handlers is a write to one register or leaves all registers alone. -/
theorem Moves.refines (hs : Coherent calls paths s) (h : Moves calls s turn t) :
    (t.versions = s.versions ∧ ∀ p ∈ paths, dated t.files p = dated s.files p) ∨
    ∃ version : Version ι, t.versions = version :: s.versions ∧ version.who = turn.who ∧
      version.path = (calls turn.who).target ∧
      ∀ p ∈ paths, dated t.files p =
        Function.update (dated s.files) version.path version.dated p := by
  cases h with
  | read hpc => exact Or.inl ⟨rfl, fun p _ => rfl⟩
  | acquire hpc hfree => exact Or.inl ⟨rfl, fun p _ => rfl⟩
  | close hpc => exact Or.inl ⟨rfl, fun p _ => rfl⟩
  | renameFails hpc hfails => exact Or.inl ⟨rfl, fun p _ => rfl⟩
  | release hpc => exact Or.inl ⟨rfl, fun p _ => rfl⟩
  | lstat reply hpc hreply => exact Or.inl ⟨rfl, fun p _ => rfl⟩
  | chmod hpc => exact Or.inl ⟨rfl, fun p _ => dated_uploadChmod _ _ _ _⟩
  | openTemp out hpc hout =>
      refine Or.inl ⟨rfl, fun p hp => ?_⟩
      rcases uploadOpen_cases turn.fails turn.now turn.attr (calls turn.who) s.files with
        hnone | ⟨hreq, hopen⟩
      · rw [hout, hnone]
      · rw [hout, hopen]
        have hne : p ≠ (calls turn.who).temp := fun heq => hs.names.temp turn.who hreq (heq ▸ hp)
        exact dated_of_find_eq (Fs.find_openTrunc_of_ne _ _ _ hne
          fun ino hino => hs.names.names_ne hreq hp hino)
  | write out hpc hout =>
      refine Or.inl ⟨rfl, fun p hp => ?_⟩
      rename_i before request after
      rcases uploadWrite_cases turn.fails turn.now request.contents s.files before with
        hsame | ⟨ino, hbefore, hput⟩
      · exact dated_of_find_eq (by rw [hout, hsame])
      · obtain ⟨hreq, hname⟩ := hs.out turn.who ino _ (hbefore ▸ hpc)
        refine dated_of_find_eq ?_
        rw [hout, hput]
        exact Fs.find_put_of_ne _ _ _ (hs.names.names_ne hreq hp hname)
  | rename files hpc hok htemp htarget hfiles =>
      refine Or.inr ⟨_, rfl, rfl, rfl, fun p hp => ?_⟩
      have hreq := PutCall.requests_ne_nil_of_target htarget
      by_cases hpt : p = (calls turn.who).target
      · subst hpt
        rw [Function.update_self]
        rfl
      · rw [Function.update_of_ne hpt]
        have hne : p ≠ (calls turn.who).temp := fun heq => hs.names.temp turn.who hreq (heq ▸ hp)
        exact dated_of_find_eq (hfiles ▸ Fs.find_rename_of_ne _ hne hpt)

/-- A state of the handlers and the registers its renames have written. -/
structure Refines (calls : ι → PutCall) (paths : Set Bytes) (start s : Handlers ι) : Prop where
  coherent : Coherent calls paths s
  registers : ∀ p ∈ paths, dated s.files p =
    Register.replay Version.path Version.dated (dated start.files) s.versions p

theorem Refines.step {start : Handlers ι} (hs : Refines calls paths start s)
    (h : Moves calls s turn t) : Refines calls paths start t := by
  refine ⟨hs.coherent.step h, fun p hp => ?_⟩
  rcases h.refines hs.coherent with ⟨hversions, hsame⟩ | ⟨version, hversions, _, _, hwrite⟩
  · rw [hversions, hsame p hp, hs.registers p hp]
  · rw [hversions, hwrite p hp, Register.replay]
    by_cases hpath : p = version.path
    · subst hpath
      rw [Function.update_self, Function.update_self]
    · rw [Function.update_of_ne hpath, Function.update_of_ne hpath, hs.registers p hp]

/-- Every run of the handlers leaves under the paths of the clients what the registers hold after its
renames, in their order. -/
theorem Interleaving.refines {start : Handlers ι} {trace : List (Handlers ι × Turn ι)}
    (hstart : start.Idle) (hnames : TempNames calls paths start.files)
    (hrun : Interleaving calls start trace t) : Refines calls paths start t := by
  have hinit : Refines calls paths start start := by
    refine ⟨⟨hstart.exclusive, hnames, ?_⟩, ?_⟩
    · intro i ino rest hpc
      rw [hstart.pc i] at hpc
      cases hpc
    · intro p _
      rw [hstart.versions, Register.replay]
  exact Runs.Run.invariant (Refines calls paths start) hinit
    (fun _ _ _ hs hstep => hs.step (step_moves hstep)) hrun

end Handlers

end Bnfs
