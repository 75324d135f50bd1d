import Bnfs.ServiceHandlers

/-! Streams among uploads, unlinks and renames. A stream keeps the inode it opened, and that inode never changes
again: uploads write to inodes under temporary names, and no name a client asks for leads to one of those. What
a stream has sent is therefore a prefix of the file it opened. -/

namespace Bnfs

open FileSystem Runs

/-- An unlink or a rename is not of a temporary name. -/
def Event.Avoids {ι κ : Type} (names : Set Bytes) : Event ι κ → Prop
  | .unlink _ path => getServerPath path ∉ names
  | .rename _ old_path new_path => getServerPath old_path ∉ names ∧ getServerPath new_path ∉ names
  | _ => True

namespace Service

variable {ι κ : Type}

/-- The names uploads draw for their temporary files. -/
def tempNames (calls : ι → PutCall) : Set Bytes :=
  {name | ∃ i, (calls i).requests ≠ [] ∧ name = (calls i).temp}

/-- No path of a request is a temporary name, and a temporary name is not a second name of any file. -/
structure Separate (calls : ι → PutCall) (requests : κ → OpenReq) (files : Files) : Prop where
  puts : ∀ i, (calls i).requests ≠ [] → (calls i).target ∉ tempNames calls
  opens : ∀ k, getServerPath (requests k).path ∉ tempNames calls
  sole : ∀ i, (calls i).requests ≠ [] → files.Sole (calls i).temp

variable {calls : ι → PutCall} {requests : κ → OpenReq}

theorem Separate.tempNames {files : Files} (h : Separate calls requests files) :
    Handlers.TempNames calls (tempNames calls)ᶜ files where
  target := h.puts
  temp i hi hmem := hmem ⟨i, hi, rfl⟩
  sole := h.sole

/-- The inode was given out, and is under no temporary name. -/
structure Sealed (calls : ι → PutCall) (files : Files) (ino : Nat) : Prop where
  given : ino < files.next
  apart : ∀ i, (calls i).requests ≠ [] → files.names (calls i).temp ≠ some ino

theorem Sealed.of_path {paths : Set Bytes} {files : Files} (h : Handlers.TempNames calls paths files)
    {path : Bytes} (hpath : path ∈ paths) {ino : Nat} (hname : files.names path = some ino) :
    Sealed calls files ino :=
  ⟨files.named_lt path ino hname, fun _ hi htemp => h.names_ne hi hpath htemp hname⟩

/-- Names under which nothing changes but the names of the clients. -/
theorem Sealed.of_names {files files' : Files} {ino : Nat} (h : Sealed calls files ino)
    (hnext : files.next ≤ files'.next)
    (hnames : ∀ i, (calls i).requests ≠ [] → files'.names (calls i).temp = files.names (calls i).temp) :
    Sealed calls files' ino :=
  ⟨lt_of_lt_of_le h.given hnext, fun i hi => by rw [hnames i hi]; exact h.apart i hi⟩

theorem uploadChmod_content (fails : Option Int) (name : Bytes) (files : Files) (ino : Nat) :
    ((uploadChmod fails name files).inode ino).content = (files.inode ino).content := by
  unfold uploadChmod
  split
  · rename_i other _
    by_cases h : ino = other
    · subst h
      rw [Fs.setInode_self]
    · rw [Fs.setInode_of_ne files _ h]
  · rfl

theorem uploadChmod_next (fails : Option Int) (name : Bytes) (files : Files) :
    (uploadChmod fails name files).next = files.next := by
  unfold uploadChmod
  split <;> rfl

section Uploads

variable [DecidableEq ι] {paths : Set Bytes} {s t : Handlers ι} {turn : Turn ι} {ino : Nat}

omit [DecidableEq ι] in
/-- A sealed inode is not the one an upload opens. -/
theorem Sealed.openTrunc {files : Files} (h : Sealed calls files ino) {i : ι}
    (hi : (calls i).requests ≠ []) (now : Timespec) (attr : Attr) :
    Sealed calls (files.openTrunc (calls i).temp now attr).1 ino ∧
      (files.openTrunc (calls i).temp now attr).1.inode ino = files.inode ino := by
  have hne : ino ≠ (files.openTrunc (calls i).temp now attr).2 := by
    intro heq
    rcases Fs.openTrunc_ino files (calls i).temp now attr with hold | ⟨_, hnew⟩
    · exact h.apart i hi (heq ▸ hold)
    · exact Nat.ne_of_lt h.given (heq.trans hnew)
  refine ⟨⟨lt_of_lt_of_le h.given (Fs.openTrunc_next_le _ _ _ _), fun j hj => ?_⟩,
    Fs.openTrunc_inode_of_ne files _ now attr hne⟩
  by_cases heq : (calls j).temp = (calls i).temp
  · rw [heq, Fs.openTrunc_names_self]
    exact fun h => hne (Option.some.inj h).symm
  · rw [Fs.openTrunc_names_of_ne files now attr heq]
    exact h.apart j hj

omit [DecidableEq ι] in
/-- A rename of a temporary file puts its inode under a client's name and takes no other away. -/
theorem Sealed.rename {files : Files} (h : Sealed calls files ino) {old new : Bytes}
    (hnew : new ∉ tempNames calls) : Sealed calls (files.rename old new) ino := by
  refine ⟨by rw [Fs.rename_next]; exact h.given, fun j hj => ?_⟩
  have hne : (calls j).temp ≠ new := fun heq => hnew ⟨j, hj, heq.symm⟩
  by_cases hold : (calls j).temp = old
  · unfold Fs.rename
    split_ifs
    · exact h.apart j hj
    · rw [hold, Fs.remove_names_self]
      exact (nomatch ·)
  · rw [Fs.rename_names_of_ne files hold hne]
    exact h.apart j hj

/-- No step of an upload changes the bytes of a sealed inode, or unseals it. -/
theorem Sealed.put (h : Sealed calls s.files ino) (hs : s.Coherent calls (tempNames calls)ᶜ)
    (hmove : Handlers.Moves calls s turn t) :
    Sealed calls t.files ino ∧ (t.files.inode ino).content = (s.files.inode ino).content := by
  cases hmove with
  | read => exact ⟨h, rfl⟩
  | acquire => exact ⟨h, rfl⟩
  | close => exact ⟨h, rfl⟩
  | renameFails => exact ⟨h, rfl⟩
  | release => exact ⟨h, rfl⟩
  | lstat => exact ⟨h, rfl⟩
  | openTemp out hpc hout =>
      rcases Handlers.uploadOpen_cases turn.fails turn.now turn.attr (calls turn.who) s.files with
        hnone | ⟨hreq, hopen⟩
      · rw [hout, hnone]
        exact ⟨h, rfl⟩
      · rw [hout, hopen]
        obtain ⟨hsealed, hinode⟩ := h.openTrunc hreq turn.now turn.attr
        exact ⟨hsealed, congrArg _ hinode⟩
  | @write opened request rest out hpc hout =>
      rcases uploadWrite_cases turn.fails turn.now request.contents s.files opened with
        hsame | ⟨other, hopened, hput⟩
      · rw [hout, hsame]
        exact ⟨h, rfl⟩
      · obtain ⟨hreq, hname⟩ := hs.out turn.who other _ (hopened ▸ hpc)
        have hne : ino ≠ other := fun heq => h.apart turn.who hreq (heq ▸ hname)
        rw [hout, hput]
        exact ⟨h.of_names (le_refl _) fun _ _ => rfl, by rw [Fs.put_of_ne s.files _ _ hne]⟩
  | rename files hpc hok htemp htarget hfiles =>
      subst hfiles
      have htarget := hs.names.target turn.who (PutCall.requests_ne_nil_of_target htarget)
      exact ⟨h.rename htarget, by rw [Fs.rename_inode]⟩
  | chmod =>
      refine ⟨h.of_names (uploadChmod_next _ _ _).ge fun i _ => ?_, uploadChmod_content _ _ _ _⟩
      rw [uploadChmod_names]

end Uploads

variable [DecidableEq ι] [DecidableEq κ] {start s t : Service ι κ}
  {trace : List (Service ι κ × Event ι κ)}

/-- The bytes a handler has sent. -/
def sentBytes (sent : List OpenResp) : Bytes := (sent.map (·.buf)).flatten

/-- At a moment of the run when the handler was about to open its file, the file of its path had these
bytes. -/
def Found (requests : κ → OpenReq) (trace : List (Service ι κ × Event ι κ)) (k : κ) (content : Bytes) : Prop :=
  ∃ entry ∈ trace, entry.1.opens k = .asked ∧
    ∃ file, entry.1.files.find (getServerPath (requests k).path) = some file ∧ file.content = content

omit [DecidableEq ι] [DecidableEq κ] in
theorem Found.cons {k : κ} {content : Bytes} (h : Found requests trace k content)
    (entry : Service ι κ × Event ι κ) : Found requests (entry :: trace) k content := by
  obtain ⟨e, hmem, he⟩ := h
  exact ⟨e, List.mem_cons_of_mem _ hmem, he⟩

/-- No handler is about to create. An open stream reads an inode that stays as it is, and has sent what that
holds up to where it stands; a stream that came to its end has sent all of it. -/
structure Snapshots (calls : ι → PutCall) (requests : κ → OpenReq)
    (trace : List (Service ι κ × Event ι κ)) (s : Service ι κ) : Prop where
  coherent : s.uploads.Coherent calls (tempNames calls)ᶜ
  reading : ∀ k, s.opens k ≠ .missing
  streaming : ∀ k ino sent, s.opens k = .streaming ino sent → Sealed calls s.files ino ∧
    Found requests trace k (s.files.inode ino).content ∧
    sentBytes sent = (s.files.inode ino).content.take (BUFSIZE * sent.length)
  returned : ∀ k sent, s.opens k = .returned sent → (∃ reply ∈ sent, reply.file_exists = true) →
    Found requests trace k (sentBytes sent)

omit [DecidableEq ι] [DecidableEq κ] in
/-- An event that leaves the `Open` handlers where they are, and the inodes they read as they are. -/
theorem Snapshots.of_sealed (hs : Snapshots calls requests trace s) (entry : Service ι κ × Event ι κ)
    (hcoherent : t.uploads.Coherent calls (tempNames calls)ᶜ) (hopens : t.opens = s.opens)
    (hsealed : ∀ ino, Sealed calls s.files ino →
      Sealed calls t.files ino ∧ (t.files.inode ino).content = (s.files.inode ino).content) :
    Snapshots calls requests (entry :: trace) t := by
  refine ⟨hcoherent, hopens ▸ hs.reading, fun k ino sent hk => ?_, fun k sent hk hfound => ?_⟩
  · rw [hopens] at hk
    obtain ⟨hino, hfound, hsent⟩ := hs.streaming k ino sent hk
    obtain ⟨hino', hcontent⟩ := hsealed ino hino
    exact ⟨hino', hcontent ▸ hfound.cons entry, hcontent ▸ hsent⟩
  · rw [hopens] at hk
    exact (hs.returned k sent hk hfound).cons entry

omit [DecidableEq ι] in
/-- A step of an `Open` handler that leaves the files alone only has to answer for itself. -/
theorem Snapshots.of_serve (hs : Snapshots calls requests trace s) (entry : Service ι κ × Event ι κ) {who : κ}
    {pc : OpenPc} (huploads : t.uploads = s.uploads) (hopens : t.opens = Function.update s.opens who pc)
    (hreading : pc ≠ .missing)
    (hstreaming : ∀ ino sent, pc = .streaming ino sent → Sealed calls s.files ino ∧
      Found requests (entry :: trace) who (s.files.inode ino).content ∧
      sentBytes sent = (s.files.inode ino).content.take (BUFSIZE * sent.length))
    (hreturned : ∀ sent, pc = .returned sent → (∃ reply ∈ sent, reply.file_exists = true) →
      Found requests (entry :: trace) who (sentBytes sent)) :
    Snapshots calls requests (entry :: trace) t := by
  have hfiles : t.files = s.files := congrArg Handlers.files huploads
  refine ⟨huploads ▸ hs.coherent, fun k => ?_, fun k ino sent hk => ?_, fun k sent hk hfound => ?_⟩
  · rw [hopens]
    by_cases hwho : k = who
    · subst hwho
      rwa [Function.update_self]
    · rw [Function.update_of_ne hwho]
      exact hs.reading k
  · rw [hfiles]
    by_cases hwho : k = who
    · subst hwho
      rw [hopens, Function.update_self] at hk
      exact hstreaming ino sent hk
    · rw [hopens, Function.update_of_ne hwho] at hk
      obtain ⟨hino, hbytes, hsent⟩ := hs.streaming k ino sent hk
      exact ⟨hino, hbytes.cons entry, hsent⟩
  · by_cases hwho : k = who
    · subst hwho
      rw [hopens, Function.update_self] at hk
      exact hreturned sent hk hfound
    · rw [hopens, Function.update_of_ne hwho] at hk
      exact (hs.returned k sent hk hfound).cons entry

/-- A read of a chunk carries the stream on by as much. -/
theorem sentBytes_append {content : Bytes} {sent : List OpenResp}
    (h : sentBytes sent = content.take (BUFSIZE * sent.length)) :
    sentBytes (sent ++ [⟨0, true, (content.drop (BUFSIZE * sent.length)).take BUFSIZE⟩]) =
      content.take (BUFSIZE * (sent.length + 1)) := by
  have hlast : sentBytes (sent ++ [⟨0, true, (content.drop (BUFSIZE * sent.length)).take BUFSIZE⟩]) =
      sentBytes sent ++ (content.drop (BUFSIZE * sent.length)).take BUFSIZE := by
    simp only [sentBytes, List.map_append, List.flatten_append, List.map_cons, List.map_nil,
      List.flatten_cons, List.flatten_nil, List.append_nil]
  rw [hlast, h, Nat.mul_succ, List.take_add]

theorem Snapshots.serve (hs : Snapshots calls requests trace s)
    (hreads : ∀ k, (requests k).is_create = false)
    (hpaths : ∀ k, getServerPath (requests k).path ∉ tempNames calls) {who : κ} {E : Env} {delivered : Bool}
    (h : step calls requests s (.serve who E delivered) = some t) :
    Snapshots calls requests ((s, .serve who E delivered) :: trace) t := by
  obtain ⟨⟨pc, files⟩, hout, huploads, hopens⟩ := serve_cases h
  have hsame : t.uploads = s.uploads := by
    rw [huploads]
    rcases openStep_files E (requests who) hout with hfiles | ⟨hpc, _⟩
    · rw [show files = s.files from hfiles]
      rfl
    · exact absurd hpc (hs.reading who)
  have hentry : ∀ {content : Bytes}, Found requests trace who content →
      Found requests ((s, Event.serve who E delivered) :: trace) who content := fun hfound => hfound.cons _
  cases hpc : s.opens who with
  | start =>
      rw [hpc] at hout
      cases hout
      exact hs.of_serve _ hsame hopens (by rintro ⟨⟩) (by rintro _ _ ⟨⟩) (by rintro _ ⟨⟩)
  | asked =>
      simp only [hpc, openStep, hreads who, Bool.false_eq_true, if_false] at hout
      split at hout
      · rename_i ino hopen
        cases hout
        have hname := openedInode_names E hopen
        refine hs.of_serve _ hsame hopens (by rintro ⟨⟩) ?_ (by rintro _ ⟨⟩)
        rintro ino' sent ⟨⟩
        refine ⟨.of_path hs.coherent.names (hpaths who) hname, ?_, rfl⟩
        exact ⟨_, List.mem_cons_self, hpc, _, Fs.find_of_names hname, rfl⟩
      · cases hout
        refine hs.of_serve _ hsame hopens (by rintro ⟨⟩) (by rintro _ _ ⟨⟩) ?_
        rintro sent ⟨⟩ ⟨reply, hmem, hexists⟩
        rw [List.mem_singleton.mp hmem] at hexists
        cases hexists
  | missing => exact absurd hpc (hs.reading who)
  | streaming ino sent =>
      obtain ⟨hsealed, hfound, hsent⟩ := hs.streaming who ino sent hpc
      have hnext := sentBytes_append hsent
      simp only [hpc, openStep] at hout
      split_ifs at hout with hfails hfull
      · cases hout
        exact hs.of_serve _ hsame hopens (by rintro ⟨⟩) (by rintro _ _ ⟨⟩) (by rintro _ ⟨⟩)
      · cases hout
        refine hs.of_serve _ hsame hopens (by rintro ⟨⟩) ?_ (by rintro _ ⟨⟩)
        rintro ino' sent' ⟨⟩
        refine ⟨hsealed, hentry hfound, ?_⟩
        rw [List.length_append, List.length_singleton]
        exact hnext
      · cases hout
        refine hs.of_serve _ hsame hopens (by rintro ⟨⟩) (by rintro _ _ ⟨⟩) ?_
        rintro sent' ⟨⟩ _
        -- The read came up short, so the file ends within this chunk.
        have hend : (s.files.inode ino).content.length ≤ BUFSIZE * (sent.length + 1) := by
          rw [List.length_drop] at hfull
          rw [Nat.mul_succ]
          omega
        rw [hnext, List.take_of_length_le hend]
        exact hentry hfound
  | returned sent =>
      rw [hpc] at hout
      cases hout
  | broken sent =>
      rw [hpc] at hout
      cases hout

theorem Snapshots.step (hs : Snapshots calls requests trace s)
    (hreads : ∀ k, (requests k).is_create = false)
    (hpaths : ∀ k, getServerPath (requests k).path ∉ tempNames calls) {event : Event ι κ}
    (havoids : event.Avoids (tempNames calls)) (h : step calls requests s event = some t) :
    Snapshots calls requests ((s, event) :: trace) t := by
  cases event with
  | put turn =>
      obtain ⟨hmove, hopens⟩ := put_cases h
      exact hs.of_sealed _ (hs.coherent.step hmove) hopens fun ino hino => hino.put hs.coherent hmove
  | serve who E delivered => exact hs.serve hreads hpaths h
  | unlink E path =>
      cases h
      have hname : getServerPath path ∈ (tempNames calls)ᶜ := havoids
      rcases unlink_files E path ⟨s.files, []⟩ with heq | heq
      · rw [heq]
        exact hs.of_sealed _ hs.coherent rfl fun ino hino => ⟨hino, rfl⟩
      · rw [heq]
        refine hs.of_sealed _ (hs.coherent.of_within (Fs.remove_within hname)) rfl fun ino hino => ?_
        refine ⟨hino.of_names (le_refl _) fun i hi => ?_, rfl⟩
        exact Fs.remove_names_of_ne s.files fun heq => hname ⟨i, hi, heq.symm⟩
  | rename E old_path new_path =>
      cases h
      have hold : getServerPath old_path ∈ (tempNames calls)ᶜ := havoids.1
      have hnew : getServerPath new_path ∈ (tempNames calls)ᶜ := havoids.2
      rcases rename_files E old_path new_path ⟨s.files, []⟩ with heq | heq
      · rw [heq]
        exact hs.of_sealed _ hs.coherent rfl fun ino hino => ⟨hino, rfl⟩
      · rw [heq]
        refine hs.of_sealed _ (hs.coherent.of_within (Fs.rename_within hold hnew)) rfl fun ino hino => ?_
        exact ⟨hino.rename hnew, by rw [setFiles_files, Fs.rename_inode]⟩

theorem Interleaving.snapshots (hstart : start.Idle) (hsep : Separate calls requests start.files)
    (hreads : ∀ k, (requests k).is_create = false) (hrun : Interleaving calls requests start trace t)
    (havoids : ∀ entry ∈ trace, entry.2.Avoids (tempNames calls)) : Snapshots calls requests trace t := by
  induction hrun with
  | nil =>
      refine ⟨⟨hstart.uploads.exclusive, hsep.tempNames, fun i ino rest hi => ?_⟩,
        fun k hk => (nomatch (hstart.opens k).symm.trans hk),
        fun k ino sent hk => (nomatch (hstart.opens k).symm.trans hk),
        fun k sent hk => (nomatch (hstart.opens k).symm.trans hk)⟩
      rw [hstart.uploads.pc i] at hi
      cases hi
  | @cons trace s event t hrun hstep ih =>
      have hprefix := ih fun entry hentry => havoids entry (List.mem_cons_of_mem _ hentry)
      exact hprefix.step hreads hsep.opens (havoids (s, event) List.mem_cons_self) hstep

/-- A stream that has come to its end has sent the whole content of the file that was at its path at one moment
while it ran, whatever happened to the path since. -/
theorem stream_is_snapshot (hstart : start.Idle) (hsep : Separate calls requests start.files)
    (hreads : ∀ k, (requests k).is_create = false) (hrun : Interleaving calls requests start trace t)
    (havoids : ∀ entry ∈ trace, entry.2.Avoids (tempNames calls)) {k : κ} {sent : List OpenResp}
    (hreturned : t.opens k = .returned sent) (hstream : ∃ reply ∈ sent, reply.file_exists = true) :
    ∃ s, Visits trace t s ∧ (s.opens k).running ∧
      ∃ file, s.files.find (getServerPath (requests k).path) = some file ∧ sentBytes sent = file.content := by
  obtain ⟨⟨s, event⟩, hmem, hasked, file, hfile, hcontent⟩ :=
    (Interleaving.snapshots hstart hsep hreads hrun havoids).returned k sent hreturned hstream
  exact ⟨s, Or.inr ⟨event, hmem⟩, hasked ▸ rfl, file, hfile, hcontent.symm⟩

/-- An `Open` of the path both uploads go to. -/
def readF (_ : Unit) : OpenReq := ⟨ascii "/f", O_RDONLY, false⟩

def emptyService : Service Bool Unit := ⟨Handlers.emptyServer, fun _ => .start⟩

/-- One upload, the opening of the file, another upload, and the rest of the stream. -/
def overtakenEvents : List (Event Bool Unit) :=
  List.replicate 9 (.put (Handlers.turnAt false 10)) ++ List.replicate 2 (.serve () (.smooth 11) true) ++
    List.replicate 9 (.put (Handlers.turnAt true 20)) ++ [.serve () (.smooth 21) true]

theorem emptyService_separate : Separate Handlers.twoUploads readF emptyService.files := by
  have hpath : getServerPath (ascii "/f") ∉ tempNames Handlers.twoUploads := by
    rintro ⟨i, _, heq⟩
    have hlen := congrArg List.length heq
    cases i <;> exact absurd hlen (by decide)
  refine ⟨fun i _ => ?_, fun _ => hpath, fun i _ ino hino => nomatch hino⟩
  cases i <;> exact hpath

/-- The stream sends the version it opened, though the other is in place when it returns. -/
theorem stream_is_snapshot_overtaken :
    ∃ trace t, Interleaving Handlers.twoUploads readF emptyService trace t ∧
      t.opens () = .returned [⟨0, true, ascii "aa"⟩] ∧
      (t.files.find (getServerPath (ascii "/f"))).map (·.content) = some (ascii "bb") ∧
      ∃ s, Visits trace t s ∧ (s.opens ()).running ∧
        ∃ file, s.files.find (getServerPath (ascii "/f")) = some file ∧
          sentBytes [⟨0, true, ascii "aa"⟩] = file.content := by
  have hadvance : Runs.advance (step Handlers.twoUploads readF) overtakenEvents ([], emptyService) =
    some (_, _) := rfl
  have hevents : ∀ event ∈ overtakenEvents, event.Avoids (tempNames Handlers.twoUploads) := by
    simp [overtakenEvents, Event.Avoids]
  have hrun := Run.of_advance overtakenEvents .nil hadvance
  have havoids := Guarded.of_advance overtakenEvents hevents (guarded_nil _) hadvance
  refine ⟨_, _, hrun, rfl, rfl, ?_⟩
  exact stream_is_snapshot ⟨Handlers.emptyServer_idle, fun _ => rfl⟩ emptyService_separate (fun _ => rfl) hrun
    havoids rfl ⟨_, List.mem_singleton_self _, rfl⟩

end Service

end Bnfs
