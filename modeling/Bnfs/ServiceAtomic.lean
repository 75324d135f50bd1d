import Bnfs.TheoryAtomic
import Bnfs.UploadLastWriter
import Bnfs.ServiceSnapshots

/-! The handlers of the server as one atomic object: a map from names to contents, on which an upload, an open, an
unlink and a rename each have their effect in one moment between the request and the reply. The moment of an upload is
its rename, that of an open the first call that finds the file or else the one that creates it. -/

namespace Bnfs

open FileSystem Runs

/-- What a request asks for. -/
inductive StoreOp where
  | put (name content : Bytes)
  | openFile (name : Bytes) (flag : OpenFlags) (is_create : Bool)
  | unlink (name : Bytes)
  | rename (old new : Bytes)

inductive StoreReply where
  | stored
  | content (bytes : Bytes)
  /-- An `OpenResp` without a file, with this number. -/
  | status (err : Int)
  | done (ok : Bool)

/-- The operations on a map from names to contents. An open that finds no file, and may create one, does what its
flags say at that moment, so it may meet a file that has appeared. -/
inductive Serves : StoreOp → (Bytes → Option Bytes) → (Bytes → Option Bytes) → StoreReply → Prop
  | put {name content files} : Serves (.put name content) files (Function.update files name (some content)) .stored
  | fetch {name flag is_create files content} (h : files name = some content) :
      Serves (.openFile name flag is_create) files files (.content content)
  | missing {name flag files} (h : files name = none) : Serves (.openFile name flag false) files files (.status 0)
  | create {name flag files} (h : files name = none) (hflag : flag.heeded.has O_CREAT = true) :
      Serves (.openFile name flag true) files (Function.update files name (some [])) (.status 0)
  | refuse {name flag files} (h : files name = none) (hflag : flag.heeded.has O_CREAT = false) :
      Serves (.openFile name flag true) files files (.status ENOENT)
  | meet {name flag files} (h : files name ≠ none) : Serves (.openFile name flag true) files files
      (.status (if flag.heeded.has O_CREAT && flag.heeded.has O_EXCL then EEXIST else 0))
  | unlink {name files} (h : files name ≠ none) :
      Serves (.unlink name) files (Function.update files name none) (.done true)
  | unlinkMissing {name files} (h : files name = none) : Serves (.unlink name) files files (.done false)
  | rename {old new files} (h : files old ≠ none) (hne : old ≠ new) :
      Serves (.rename old new) files (Function.update (Function.update files new (files old)) old none) (.done true)
  | renameSame {old files} (h : files old ≠ none) : Serves (.rename old old) files files (.done true)
  | renameMissing {old new files} (h : files old = none) : Serves (.rename old new) files files (.done false)

/-- Where an upload stands. One that returned without a reply may have had its moment or not. -/
def PutPc.phase : PutPc → Atomic.Phase StoreReply
  | .start => .idle
  | .waiting | .locked | .writing _ _ | .closed => .called
  | .renamed | .chmodded | .unlocked => .done .stored
  | .returned (some _) => .returned .stored
  | .returned none => .lost

/-- What the messages of an open tell the client. -/
def openReply (sent : List OpenResp) : StoreReply :=
  if sent.any (·.file_exists) then .content (Service.sentBytes sent)
  else .status ((sent.head?.map (·.err)).getD 0)

/-- Where an open stands. -/
def OpenPc.phase (files : Files) : OpenPc → Atomic.Phase StoreReply
  | .start => .idle
  | .asked | .missing => .called
  | .streaming ino _ => .done (.content (files.inode ino).content)
  | .returned sent => .returned (openReply sent)
  | .broken _ => .lost

theorem PutCall.target_ne_nil {call : PutCall} (h : call.requests ≠ []) : call.target ≠ [] := by
  obtain ⟨request, rest, hreq⟩ := List.exists_cons_of_ne_nil h
  rw [target, hreq]
  exact getServerPath_ne_nil request.path

namespace Service

variable {ι κ : Type}

open Classical in
/-- The files under the names a client can ask for, without those of uploads under way. -/
noncomputable def contents (temp : Set Bytes) (files : Files) (name : Bytes) : Option Bytes :=
  if name ∈ temp then none else (files.find name).map (·.content)

/-- The handlers as an atomic object. -/
noncomputable def object (calls : ι → PutCall) (s : Service ι κ) :
    Atomic.Object (Bytes → Option Bytes) (ι ⊕ κ) StoreReply :=
  ⟨contents (tempNames calls) s.files, Sum.elim (fun i => (s.uploads.pc i).phase) fun k => (s.opens k).phase s.files⟩

/-- What a handler was asked for. -/
def asked (calls : ι → PutCall) (requests : κ → OpenReq) : ι ⊕ κ → StoreOp
  | .inl i => .put (calls i).target (calls i).content
  | .inr k => .openFile (getServerPath (requests k).path) (requests k).flag (requests k).is_create

/-- What a step of an upload is to the object, newest first. -/
def putMoves (call : PutCall) (turn : Turn ι) (files : Files) : PutPc → List (Atomic.Label (ι ⊕ κ) StoreOp StoreReply)
  | .start => [.call (.inl turn.who)]
  | .closed => [.perform (.inl turn.who)]
  | .unlocked =>
      if (uploadLstat turn.fails call.target files).isSome then [.returns (.inl turn.who)] else [.loses (.inl turn.who)]
  | _ => []

/-- What a step of an open is. -/
def openMoves (E : Env) (request : OpenReq) (who : κ) (delivered : Bool) (files : Files) :
    OpenPc → List (Atomic.Label (ι ⊕ κ) StoreOp StoreReply)
  | .start => [.call (.inr who)]
  | .asked =>
      if (openedInode E (getServerPath request.path) files).isSome then [.perform (.inr who)]
      else if request.is_create then [] else [.returns (.inr who), .perform (.inr who)]
  | .missing => [.returns (.inr who), .perform (.inr who)]
  | .streaming ino sent =>
      if !delivered then [.loses (.inr who)]
      else if BUFSIZE ≤ ((files.inode ino).content.drop (BUFSIZE * sent.length)).length then []
      else [.returns (.inr who)]
  | _ => []

def moves (calls : ι → PutCall) (requests : κ → OpenReq) (entry : Service ι κ × Event ι κ) :
    List (Atomic.Label (ι ⊕ κ) StoreOp StoreReply) :=
  match entry.2 with
  | .put turn => putMoves (calls turn.who) turn entry.1.files (entry.1.uploads.pc turn.who)
  | .serve who E delivered => openMoves E (requests who) who delivered entry.1.files (entry.1.opens who)
  | .unlink E path =>
      [.once (.unlink (getServerPath path)) (.done (FileServer.unlink E path ⟨entry.1.files, []⟩).1.isSome)]
  | .rename E old_path new_path =>
      [.once (.rename (getServerPath old_path) (getServerPath new_path))
        (.done (FileServer.rename E old_path new_path ⟨entry.1.files, []⟩).1.isSome)]

/-- No call fails, no temporary name is unlinked or renamed, and an `open` that is to create and meets a file does not
cut it short. A stream may break off. -/
def Smooth (calls : ι → PutCall) (requests : κ → OpenReq) (s : Service ι κ) : Event ι κ → Prop
  | .put turn => turn.fails = none
  | .serve who E _ => E.fails .openIfstream = none ∧ E.fails .openCreate = none ∧ (s.opens who = .missing →
      ∀ file, s.files.find (getServerPath (requests who).path) = some file →
        (requests who).flag.heeded.has O_TRUNC = false ∨ file.content = [])
  | .unlink E path => E.fails .unlinkUnlink = none ∧ getServerPath path ∉ tempNames calls
  | .rename E old_path new_path => E.fails .renameRename = none ∧
      getServerPath old_path ∉ tempNames calls ∧ getServerPath new_path ∉ tempNames calls

section Contents

variable {calls : ι → PutCall} {requests : κ → OpenReq} {files files' : Files} {name : Bytes}

theorem contents_of_temp (h : name ∈ tempNames calls) : contents (tempNames calls) files name = none := by
  rw [contents, if_pos h]

theorem contents_of_path (h : name ∉ tempNames calls) :
    contents (tempNames calls) files name = (files.find name).map (·.content) := by
  rw [contents, if_neg h]

theorem contents_eq_none_iff (h : name ∉ tempNames calls) :
    contents (tempNames calls) files name = none ↔ files.names name = none := by
  rw [contents_of_path h, Option.map_eq_none_iff, Fs.find_eq_none_iff]

theorem contents_congr (h : ∀ name, name ∉ tempNames calls →
    (files'.find name).map (·.content) = (files.find name).map (·.content)) :
    contents (tempNames calls) files' = contents (tempNames calls) files := by
  funext name
  by_cases hname : name ∈ tempNames calls
  · rw [contents_of_temp hname, contents_of_temp hname]
  · rw [contents_of_path hname, contents_of_path hname, h name hname]

/-- One name gets another content, and the others keep theirs. -/
theorem contents_update (hname : name ∉ tempNames calls) {content : Option Bytes}
    (hself : (files'.find name).map (·.content) = content)
    (hothers : ∀ other, other ∉ tempNames calls → other ≠ name →
      (files'.find other).map (·.content) = (files.find other).map (·.content)) :
    contents (tempNames calls) files' = Function.update (contents (tempNames calls) files) name content := by
  funext other
  by_cases hsame : other = name
  · subst hsame
    rw [Function.update_self, contents_of_path hname, hself]
  · rw [Function.update_of_ne hsame]
    by_cases hother : other ∈ tempNames calls
    · rw [contents_of_temp hother, contents_of_temp hother]
    · rw [contents_of_path hother, contents_of_path hother, hothers other hother hsame]

theorem contents_remove (hname : name ∉ tempNames calls) : contents (tempNames calls) (files.remove name) =
    Function.update (contents (tempNames calls) files) name none := by
  refine contents_update hname (by rw [Fs.find_remove_self, Option.map_none]) fun other _ hne => ?_
  rw [Fs.find, Fs.find, Fs.remove_names_of_ne files hne]
  rfl

theorem contents_create (hname : name ∉ tempNames calls) (file : File) :
    contents (tempNames calls) (files.create name file) =
      Function.update (contents (tempNames calls) files) name (some file.content) := by
  refine contents_update hname ?_ fun other _ hne => ?_
  · rw [Fs.find_create_self, Option.map_some]
  · rw [Fs.find_create_of_ne files file hne]

/-- Two names of two files. -/
theorem contents_rename {old new : Bytes} (hold : old ∉ tempNames calls) (hnew : new ∉ tempNames calls)
    (hsole : files.Sole old) (hthere : files.names old ≠ none) (hne : old ≠ new) :
    contents (tempNames calls) (files.rename old new) =
      Function.update (Function.update (contents (tempNames calls) files) new (contents (tempNames calls) files old)) old
        none := by
  obtain ⟨i, hi⟩ := Option.ne_none_iff_exists'.mp hthere
  have hapart : files.names old ≠ files.names new := by
    intro heq
    exact hne (hsole i hi new (heq.symm.trans hi)).symm
  funext other
  by_cases hother : other ∈ tempNames calls
  · have hold' : other ≠ old := fun heq => hold (heq ▸ hother)
    have hnew' : other ≠ new := fun heq => hnew (heq ▸ hother)
    rw [contents_of_temp hother, Function.update_of_ne hold', Function.update_of_ne hnew', contents_of_temp hother]
  · rw [contents_of_path hother]
    by_cases hsame : other = old
    · subst hsame
      rw [Function.update_self, Fs.find_eq_none_iff.mpr (Fs.rename_names_old hapart), Option.map_none]
    · rw [Function.update_of_ne hsame]
      by_cases htarget : other = new
      · subst htarget
        rw [Function.update_self, Fs.find_rename_new, contents_of_path hold]
      · rw [Function.update_of_ne htarget, Fs.find_rename_of_ne files hsame htarget, contents_of_path hother]

end Contents

variable [DecidableEq ι] [DecidableEq κ] {calls : ι → PutCall} {requests : κ → OpenReq} {s t start : Service ι κ}
  {trace : List (Service ι κ × Event ι κ)}

/-- The handlers keep to their files: no file has two names, what was uploaded is whole, and what a stream reads stays
as it is and has been sent as far as the stream is. -/
structure Orderly (calls : ι → PutCall) (requests : κ → OpenReq) (s : Service ι κ) : Prop where
  coherent : s.uploads.Coherent calls (tempNames calls)ᶜ
  whole : Handlers.Whole calls s.uploads
  unshared : ∀ name, s.files.Sole name
  creating : ∀ k, s.opens k = .missing → (requests k).is_create = true
  streaming : ∀ k ino sent, s.opens k = .streaming ino sent → Sealed calls s.files ino ∧
    sentBytes sent = (s.files.inode ino).content.take (BUFSIZE * sent.length)

/-- One upload handler moves on, and the contents are those of the new files. -/
theorem object_put {u : Handlers ι} {who : ι} {pc : PutPc} (hpc : u.pc = Function.update s.uploads.pc who pc)
    (hstreams : ∀ k, (s.opens k).phase u.files = (s.opens k).phase s.files) :
    object calls { s with uploads := u } =
      { (object calls s).enter (.inl who) pc.phase with state := contents (tempNames calls) u.files } := by
  have hphase : Sum.elim (fun i => (u.pc i).phase) (fun k => (s.opens k).phase u.files) = Function.update
      (Sum.elim (fun i => (s.uploads.pc i).phase) fun k => (s.opens k).phase s.files) (.inl who) pc.phase := by
    funext p
    cases p with
    | inl i =>
        by_cases hi : i = who
        · subst hi
          simp [hpc]
        · simp [hpc, hi]
    | inr k => simpa using hstreams k
  exact congrArg (Atomic.Object.mk _) hphase

omit [DecidableEq κ] in
/-- A step of an upload does not concern the streams. -/
theorem Orderly.streams (hs : Orderly calls requests s) {turn : Turn ι} {u : Handlers ι}
    (hmove : Handlers.Moves calls s.uploads turn u) (k : κ) : (s.opens k).phase u.files = (s.opens k).phase s.files := by
  cases hpc : s.opens k with
  | streaming ino sent =>
      obtain ⟨_, hcontent⟩ := (hs.streaming k ino sent hpc).1.put hs.coherent hmove
      exact congrArg (fun bytes => Atomic.Phase.done (StoreReply.content bytes)) hcontent
  | _ => rfl

omit [DecidableEq κ] in
/-- An upload that has put nothing in place has changed nothing a client can see. -/
theorem contents_of_moves {handlers u : Handlers ι} {turn : Turn ι}
    (hcoherent : handlers.Coherent calls (tempNames calls)ᶜ) (hmove : Handlers.Moves calls handlers turn u)
    (hversions : u.versions = handlers.versions) :
    contents (tempNames calls) u.files = contents (tempNames calls) handlers.files := by
  refine contents_congr fun name hname => ?_
  rcases hmove.refines hcoherent with ⟨_, hsame⟩ | ⟨version, hnew, _⟩
  · rw [find_content, find_content, hsame name hname]
  · rw [hversions] at hnew
    exact absurd hnew (List.cons_ne_self version handlers.versions).symm

/-- What an upload puts in place is all it was sent. -/
theorem contents_of_renamed {handlers u : Handlers ι} {turn : Turn ι} {version : Version ι}
    (hcoherent : handlers.Coherent calls (tempNames calls)ᶜ) (hwhole : Handlers.Whole calls u)
    (hreq : (calls turn.who).requests ≠ []) (hmove : Handlers.Moves calls handlers turn u)
    (hversions : u.versions = version :: handlers.versions) :
    contents (tempNames calls) u.files = Function.update (contents (tempNames calls) handlers.files)
      (calls turn.who).target (some (calls turn.who).content) := by
  rcases hmove.refines hcoherent with ⟨hsame, _⟩ | ⟨version', hnew, hwho, hpath, hwrite⟩
  · rw [hversions] at hsame
    exact absurd hsame (List.cons_ne_self version handlers.versions)
  · have hmem : version' ∈ u.versions := by
      rw [hnew]
      exact List.mem_cons_self
    have hcontent := (hwhole.versions version' hmem).2
    rw [hwho] at hcontent
    have htarget : (calls turn.who).target ∉ tempNames calls := hcoherent.names.target turn.who hreq
    refine contents_update htarget ?_ fun other hother hne => ?_
    · rw [find_content, hwrite _ htarget, hpath, Function.update_self, hcontent]
    · rw [find_content, find_content, hwrite other hother, hpath, Function.update_of_ne hne]

/-- A step of an upload is its call, its moment, its return, or nothing. -/
theorem Orderly.put (hs : Orderly calls requests s) (hreq : ∀ i, (calls i).requests ≠ []) {turn : Turn ι}
    (hok : turn.fails = none) {u : Handlers ι} (hmove : Handlers.Moves calls s.uploads turn u) :
    ∃ trace, Run (Atomic.Step (asked calls requests) Serves) (object calls s) trace
        (object calls { s with uploads := u }) ∧
      trace.map Prod.snd = putMoves (calls turn.who) turn s.files (s.uploads.pc turn.who) := by
  have hwhole := hs.whole.step hs.coherent hreq hok hmove
  have hmove' := hmove
  have hstreams := fun k => hs.streams hmove k
  have hself : (object calls s).phase (.inl turn.who) = (s.uploads.pc turn.who).phase := rfl
  have hstutter : ∀ {pc : PutPc}, u.pc = Function.update s.uploads.pc turn.who pc → u.versions = s.uploads.versions →
      (s.uploads.pc turn.who).phase = pc.phase → object calls { s with uploads := u } = object calls s := by
    intro pc hpc hversions hphase
    rw [object_put hpc hstreams, contents_of_moves hs.coherent hmove hversions,
      Atomic.Object.enter_of_phase _ (hself.trans hphase)]
    rfl
  have hmoves : ∀ {pc : PutPc}, u.pc = Function.update s.uploads.pc turn.who pc → u.versions = s.uploads.versions →
      object calls { s with uploads := u } = (object calls s).enter (.inl turn.who) pc.phase := by
    intro pc hpc hversions
    rw [object_put hpc hstreams, contents_of_moves hs.coherent hmove hversions]
    rfl
  cases hmove with
  | read hpc =>
      rw [hmoves rfl rfl, hpc]
      exact ⟨_, .cons .nil (.call (hself.trans (congrArg PutPc.phase hpc))), rfl⟩
  | acquire hpc hfree =>
      rw [hstutter rfl rfl (by rw [hpc]; rfl), hpc]
      exact ⟨[], .nil, rfl⟩
  | openTemp out hpc hout =>
      rw [hstutter rfl rfl (by rw [hpc]; rfl), hpc]
      exact ⟨[], .nil, rfl⟩
  | close hpc =>
      rw [hstutter rfl rfl (by rw [hpc]; rfl), hpc]
      exact ⟨[], .nil, rfl⟩
  | write out hpc hout =>
      rw [hstutter rfl rfl (by rw [hpc]; rfl), hpc]
      exact ⟨[], .nil, rfl⟩
  | renameFails hpc hfails =>
      obtain ⟨ino, hname, _⟩ := hs.whole.closed turn.who hpc
      rcases hfails with hfails | hfails | hfails
      · rw [hok] at hfails
        cases hfails
      · rw [hname] at hfails
        cases hfails
      · exact absurd hfails (PutCall.target_ne_nil (hreq turn.who))
  | rename files hpc _ htemp htarget hfiles =>
      rw [object_put rfl hstreams, contents_of_renamed hs.coherent hwhole (hreq turn.who) hmove' rfl, hpc]
      exact ⟨_, .cons .nil (.perform (hself.trans (congrArg PutPc.phase hpc)) .put), rfl⟩
  | chmod hpc =>
      rw [hstutter rfl rfl (by rw [hpc]; rfl), hpc]
      exact ⟨[], .nil, rfl⟩
  | release hpc =>
      rw [hstutter rfl rfl (by rw [hpc]; rfl), hpc]
      exact ⟨[], .nil, rfl⟩
  | lstat reply hpc hreply =>
      rw [hmoves rfl rfl, hpc]
      have hdone : (object calls s).phase (.inl turn.who) = .done .stored :=
        hself.trans (congrArg PutPc.phase hpc)
      simp only [putMoves]
      have hfiles : s.files = s.uploads.files := rfl
      rw [← hfiles] at hreply
      cases hlstat : uploadLstat turn.fails (calls turn.who).target s.files with
      | none =>
          rw [hlstat] at hreply
          subst hreply
          exact ⟨_, .cons .nil (.loses (Or.inr ⟨_, hdone⟩)), rfl⟩
      | some mtime =>
          rw [hlstat] at hreply
          subst hreply
          exact ⟨_, .cons .nil (.returns hdone), rfl⟩

/-- One open handler moves on. -/
theorem object_serve {who : κ} {pc : OpenPc} {files : Files} (huploads : t.uploads = { s.uploads with files := files })
    (hopens : t.opens = Function.update s.opens who pc)
    (hstreams : ∀ k, (s.opens k).phase files = (s.opens k).phase s.files) : object calls t =
      { (object calls s).enter (.inr who) (pc.phase files) with state := contents (tempNames calls) files } := by
  have hfiles : t.files = files := by rw [Service.files, huploads]
  have hphase : Sum.elim (fun i => (t.uploads.pc i).phase) (fun k => (t.opens k).phase t.files) = Function.update
      (Sum.elim (fun i => (s.uploads.pc i).phase) fun k => (s.opens k).phase s.files) (.inr who) (pc.phase files) := by
    funext p
    rw [hfiles, hopens, huploads]
    cases p with
    | inl i => simp
    | inr k =>
        by_cases hk : k = who
        · subst hk
          simp
        · simpa [hk] using hstreams k
  rw [object, hphase, hfiles]
  rfl

omit [DecidableEq ι] [DecidableEq κ] in
/-- Handlers that are not concerned are where they were. -/
theorem object_files {files : Files} (hstreams : ∀ k, (s.opens k).phase files = (s.opens k).phase s.files) :
    object calls (s.setFiles files) = { object calls s with state := contents (tempNames calls) files } := by
  have hphase : Sum.elim (fun i => (s.uploads.pc i).phase) (fun k => (s.opens k).phase files) =
      Sum.elim (fun i => (s.uploads.pc i).phase) fun k => (s.opens k).phase s.files := by
    funext p
    cases p with
    | inl i => rfl
    | inr k => exact hstreams k
  exact congrArg (Atomic.Object.mk _) hphase

omit [DecidableEq ι] [DecidableEq κ] in
/-- An open stream is not concerned by what spares the bytes of its inode. -/
theorem Orderly.phases (hs : Orderly calls requests s) {files : Files}
    (hcontent : ∀ ino, Sealed calls s.files ino → (files.inode ino).content = (s.files.inode ino).content) (k : κ) :
    (s.opens k).phase files = (s.opens k).phase s.files := by
  cases hpc : s.opens k with
  | streaming ino sent =>
      have h := hcontent ino (hs.streaming k ino sent hpc).1
      exact congrArg (fun bytes => Atomic.Phase.done (StoreReply.content bytes)) h
  | _ => rfl

/-- A stream that came to its end has told all of the file. -/
theorem openReply_last {content : Bytes} {sent : List OpenResp}
    (hsent : sentBytes sent = content.take (BUFSIZE * sent.length))
    (hlast : ¬ BUFSIZE ≤ (content.drop (BUFSIZE * sent.length)).length) :
    openReply (sent ++ [⟨0, true, (content.drop (BUFSIZE * sent.length)).take BUFSIZE⟩]) = .content content := by
  have hend : content.length ≤ BUFSIZE * (sent.length + 1) := by
    rw [List.length_drop] at hlast
    rw [Nat.mul_succ]
    omega
  have hbytes := sentBytes_append hsent
  rw [List.take_of_length_le hend] at hbytes
  rw [openReply, if_pos (by simp), hbytes]

omit [DecidableEq ι] in
/-- A file that is written with the bytes it has changes its time only. -/
theorem contents_put_same {files : Files} {i : Nat} {content : Bytes}
    (h : content = (files.inode i).content) (time : Timespec) :
    (∀ ino, ((files.put i content time).inode ino).content = (files.inode ino).content) ∧
      contents (tempNames calls) (files.put i content time) = contents (tempNames calls) files := by
  have hcontent : ∀ ino, ((files.put i content time).inode ino).content = (files.inode ino).content := by
    intro ino
    by_cases hino : ino = i
    · rw [hino, Fs.put_self, h]
    · rw [Fs.put_of_ne files _ _ hino]
  refine ⟨hcontent, contents_congr fun other _ => ?_⟩
  cases hother : files.names other with
  | none =>
      rw [Fs.find_eq_none_iff.mpr hother, Fs.find_eq_none_iff.mpr ((Fs.put_names files i _ _).symm ▸ hother)]
  | some j =>
      rw [Fs.find_of_names hother, Fs.find_of_names ((Fs.put_names files i _ _).symm ▸ hother), Option.map_some,
        Option.map_some, hcontent]

omit [DecidableEq ι] in
/-- The `open` that is to create. Inodes that were given out keep their bytes. -/
theorem openCreate_serves {E : Env} {flag : OpenFlags} {files : Files} {name : Bytes}
    (hok : E.fails .openCreate = none) (hname : name ∉ tempNames calls)
    (hcut : ∀ file, files.find name = some file → flag.heeded.has O_TRUNC = false ∨ file.content = []) :
    Serves (.openFile name flag true) (contents (tempNames calls) files)
        (contents (tempNames calls) (FileServer.openCreate E name flag files).2)
        (.status (FileServer.openCreate E name flag files).1) ∧
      ∀ ino, ino < files.next →
        ((FileServer.openCreate E name flag files).2.inode ino).content = (files.inode ino).content := by
  unfold FileServer.openCreate
  rw [hok]
  cases hnames : files.names name with
  | none =>
      have hnone := (contents_eq_none_iff hname).mpr hnames
      simp only
      split_ifs with hflag
      · refine ⟨?_, fun ino hino => ?_⟩
        · rw [contents_create hname]
          exact .create hnone hflag
        · rw [Fs.create_inode_of_ne files name _ (Nat.ne_of_lt hino)]
      · exact ⟨.refuse hnone (Bool.eq_false_iff.mpr hflag), fun _ _ => rfl⟩
  | some i =>
      have hthere : contents (tempNames calls) files name ≠ none := by
        rw [Ne, contents_eq_none_iff hname, hnames]
        exact Option.some_ne_none i
      have hmeet := @Serves.meet name flag (contents (tempNames calls) files) hthere
      simp only
      split_ifs with hexcl htrunc
      · rw [if_pos hexcl] at hmeet
        exact ⟨hmeet, fun _ _ => rfl⟩
      · rw [if_neg hexcl] at hmeet
        have hempty : (files.inode i).content = [] := by
          refine (hcut _ (Fs.find_of_names hnames)).resolve_left fun hnot => ?_
          rw [htrunc] at hnot
          cases hnot
        obtain ⟨hcontent, hsame⟩ := @contents_put_same _ calls files i [] hempty.symm (E.now .openCreate)
        refine ⟨?_, fun ino _ => hcontent ino⟩
        show Serves _ _ (contents (tempNames calls) (files.put i [] (E.now .openCreate))) _
        rw [hsame]
        exact hmeet
      · rw [if_neg hexcl] at hmeet
        exact ⟨hmeet, fun _ _ => rfl⟩

section Serve

variable {who : κ} {E : Env} {delivered : Bool} {pc : OpenPc} {files : Files}

/-- The first try finds the file, which is its moment, or is left for `open` to create, or returns. -/
theorem serve_asked (hopen : E.fails .openIfstream = none) (hpath : getServerPath (requests who).path ∉ tempNames calls)
    (hpc : s.opens who = .asked) (hout : openStep E (requests who) delivered s.files .asked = some (pc, files)) :
    files = s.files ∧ ∃ trace, Run (Atomic.Step (asked calls requests) Serves) (object calls s) trace
        ((object calls s).enter (.inr who) (pc.phase s.files)) ∧
      trace.map Prod.snd = openMoves E (requests who) who delivered s.files .asked := by
  have hcalled : (object calls s).phase (.inr who) = .called := by
    show (s.opens who).phase s.files = _
    rw [hpc]
    rfl
  simp only [openStep] at hout
  simp only [openMoves]
  cases hino : openedInode E (getServerPath (requests who).path) s.files with
  | some ino =>
      rw [hino] at hout
      cases hout
      have hcontent : contents (tempNames calls) s.files (getServerPath (requests who).path) =
          some (s.files.inode ino).content := by
        rw [contents_of_path hpath, Fs.find_of_names (openedInode_names E hino), Option.map_some]
      exact ⟨rfl, _, .cons .nil (.perform hcalled (.fetch hcontent)), rfl⟩
  | none =>
      have hnone : contents (tempNames calls) s.files (getServerPath (requests who).path) = none := by
        rw [contents_eq_none_iff hpath]
        rwa [openedInode, hopen] at hino
      rw [hino] at hout
      cases hmake : (requests who).is_create with
      | true =>
          simp only [hmake, if_true] at hout
          cases hout
          rw [Atomic.Object.enter_of_phase]
          · exact ⟨rfl, [], .nil, rfl⟩
          · exact hcalled
      | false =>
          simp only [hmake, Bool.false_eq_true, if_false] at hout
          cases hout
          have hserves : Serves (asked calls requests (.inr who)) (object calls s).state (object calls s).state
              (.status 0) := by
            rw [asked, hmake]
            exact .missing hnone
          exact ⟨rfl, Atomic.perform_returns hcalled hserves⟩

/-- The moment of a stream is over: its messages are of the content it had then. -/
theorem serve_streaming {ino : Nat} {sent : List OpenResp} (hpc : s.opens who = .streaming ino sent)
    (hsent : Service.sentBytes sent = (s.files.inode ino).content.take (BUFSIZE * sent.length))
    (hout : openStep E (requests who) delivered s.files (.streaming ino sent) = some (pc, files)) :
    files = s.files ∧ ∃ trace, Run (Atomic.Step (asked calls requests) Serves) (object calls s) trace
        ((object calls s).enter (.inr who) (pc.phase s.files)) ∧
      trace.map Prod.snd = openMoves E (requests who) who delivered s.files (.streaming ino sent) := by
  have hdone : (object calls s).phase (.inr who) = .done (.content (s.files.inode ino).content) := by
    show (s.opens who).phase s.files = _
    rw [hpc]
    rfl
  simp only [openStep] at hout
  simp only [openMoves]
  split_ifs at hout with hfails hfull
  · cases hout
    rw [if_pos hfails]
    exact ⟨rfl, _, .cons .nil (.loses (Or.inr ⟨_, hdone⟩)), rfl⟩
  · cases hout
    rw [if_neg hfails, if_pos hfull, Atomic.Object.enter_of_phase]
    · exact ⟨rfl, [], .nil, rfl⟩
    · exact hdone
  · cases hout
    have hphase : (OpenPc.returned (sent ++ [⟨0, true,
        ((s.files.inode ino).content.drop (BUFSIZE * sent.length)).take BUFSIZE⟩])).phase s.files =
        .returned (.content (s.files.inode ino).content) :=
      congrArg Atomic.Phase.returned (openReply_last hsent hfull)
    rw [if_neg hfails, if_neg hfull, hphase]
    exact ⟨rfl, _, .cons .nil (.returns hdone), rfl⟩

end Serve

/-- A step of an open is its call, its moment, its return, its end, or nothing. -/
theorem Orderly.serve (hs : Orderly calls requests s) (hpaths : ∀ k, getServerPath (requests k).path ∉ tempNames calls)
    {who : κ} {E : Env} {delivered : Bool} (hsmooth : Smooth calls requests s (.serve who E delivered))
    (h : step calls requests s (.serve who E delivered) = some t) :
    ∃ trace, Run (Atomic.Step (asked calls requests) Serves) (object calls s) trace (object calls t) ∧
      trace.map Prod.snd = openMoves E (requests who) who delivered s.files (s.opens who) := by
  obtain ⟨⟨pc, files⟩, hout, huploads, hopens⟩ := serve_cases h
  obtain ⟨hopen, hcreate, hcut⟩ := hsmooth
  have hself : (object calls s).phase (.inr who) = (s.opens who).phase s.files := rfl
  have hsame : files = s.files → object calls t = (object calls s).enter (.inr who) (pc.phase s.files) := by
    intro hfiles
    rw [object_serve huploads hopens (by rw [hfiles]; exact fun _ => rfl), hfiles]
    rfl
  cases hpc : s.opens who with
  | start =>
      rw [hpc] at hout
      cases hout
      rw [hsame rfl]
      exact ⟨_, .cons .nil (.call (hself.trans (by rw [hpc]; rfl))), rfl⟩
  | asked =>
      rw [hpc] at hout
      obtain ⟨hfiles, hmoves⟩ := serve_asked hopen (hpaths who) hpc hout
      rw [hsame hfiles]
      exact hmoves
  | missing =>
      have hcalled : (object calls s).phase (.inr who) = .called := hself.trans (by rw [hpc]; rfl)
      rw [hpc] at hout
      cases hout
      obtain ⟨hserves, hcontent⟩ := openCreate_serves hcreate (hpaths who) (hcut hpc)
      rw [object_serve huploads hopens (hs.phases fun ino hino => hcontent ino hino.given)]
      rw [← hs.creating who hpc] at hserves
      exact Atomic.perform_returns hcalled hserves
  | streaming ino sent =>
      rw [hpc] at hout
      obtain ⟨hfiles, hmoves⟩ := serve_streaming hpc (hs.streaming who ino sent hpc).2 hout
      rw [hsame hfiles]
      exact hmoves
  | returned sent =>
      rw [hpc] at hout
      cases hout
  | broken sent =>
      rw [hpc] at hout
      cases hout

/-! ### What every step keeps -/

omit [DecidableEq ι] in
/-- Uploads under way are not concerned by what stays within other names. -/
theorem whole_of_within {handlers : Handlers ι} {paths : Set Bytes} (hwhole : Handlers.Whole calls handlers)
    (hcoherent : handlers.Coherent calls paths) (hreq : ∀ i, (calls i).requests ≠ []) {files : Files}
    (hwithin : Fs.Within paths handlers.files files) : Handlers.Whole calls { handlers with files := files } := by
  have hinode : ∀ i ino, handlers.files.names (calls i).temp = some ino →
      files.inode ino = handlers.files.inode ino := fun i ino hname =>
    hwithin.inode _ (hcoherent.names.temp i (hreq i)) (hcoherent.names.sole i (hreq i)) ino hname
  refine ⟨fun i out rest hpc => ?_, fun i hpc => ?_, hwhole.versions⟩
  · obtain ⟨ino, rfl, hcontent⟩ := hwhole.writing i out rest hpc
    obtain ⟨_, hname⟩ := hcoherent.out i ino rest hpc
    refine ⟨ino, rfl, ?_⟩
    show (files.inode ino).content ++ _ = _
    rw [hinode i ino hname, hcontent]
  · obtain ⟨ino, hname, hcontent⟩ := hwhole.closed i hpc
    refine ⟨ino, (hwithin.names _ (hcoherent.names.temp i (hreq i))).trans hname, ?_⟩
    show (files.inode ino).content = _
    rw [hinode i ino hname, hcontent]

omit [DecidableEq ι] [DecidableEq κ] in
/-- Files that change under the names of clients, and keep the bytes of every inode that was given out. -/
theorem Orderly.of_within (hs : Orderly calls requests s) (hreq : ∀ i, (calls i).requests ≠ []) {files : Files}
    (hwithin : Fs.Within (tempNames calls)ᶜ s.files files) (hunshared : ∀ name, files.Sole name)
    (hnext : s.files.next ≤ files.next)
    (hcontent : ∀ ino, ino < s.files.next → (files.inode ino).content = (s.files.inode ino).content)
    (huploads : t.uploads = { s.uploads with files := files })
    (hcreating : ∀ k, t.opens k = .missing → (requests k).is_create = true)
    (hstreaming : ∀ k ino sent, t.opens k = .streaming ino sent → Sealed calls s.files ino ∧
      sentBytes sent = (s.files.inode ino).content.take (BUFSIZE * sent.length)) : Orderly calls requests t := by
  have hfiles : t.files = files := by rw [Service.files, huploads]
  refine ⟨huploads ▸ hs.coherent.of_within hwithin, huploads ▸ whole_of_within hs.whole hs.coherent hreq hwithin,
    hfiles ▸ hunshared, hcreating, fun k ino sent hpc => ?_⟩
  obtain ⟨hsealed, hsent⟩ := hstreaming k ino sent hpc
  rw [hfiles, hcontent ino hsealed.given]
  refine ⟨hsealed.of_names hnext fun i hi => hwithin.names _ fun hnot => hnot ⟨i, hi, rfl⟩, hsent⟩

omit [DecidableEq κ] in
/-- An upload gives no file a second name. -/
theorem unshared_of_moves {handlers u : Handlers ι} {turn : Turn ι} (hmove : Handlers.Moves calls handlers turn u)
    (hunshared : ∀ name, handlers.files.Sole name) (name : Bytes) : u.files.Sole name := by
  cases hmove with
  | openTemp out hpc hout =>
      rcases Handlers.uploadOpen_cases turn.fails turn.now turn.attr (calls turn.who) handlers.files with
        hnone | ⟨_, hopen⟩
      · rw [hout, hnone]
        exact hunshared name
      · rw [hout, hopen]
        exact Fs.openTrunc_sole _ _ (hunshared name)
  | write out hpc hout =>
      have hnames : out.1.names = handlers.files.names := hout ▸ uploadWrite_names _ _ _ _ _
      exact (hunshared name).of_names_eq hnames
  | rename files hpc hok htemp htarget hfiles =>
      rw [hfiles]
      by_cases hname : name = (calls turn.who).target
      · rw [hname]
        exact Fs.rename_sole_new _ (hunshared _)
      · exact Fs.rename_sole (hunshared name) hname
  | chmod => exact (hunshared name).of_names_eq (uploadChmod_names _ _ _)
  | _ => exact hunshared name

omit [DecidableEq ι] [DecidableEq κ] in
/-- Only a request that may create comes to create. -/
theorem openStep_missing {E : Env} {request : OpenReq} {delivered : Bool} {files files' : Files} {pc : OpenPc}
    (h : openStep E request delivered files pc = some (.missing, files')) : request.is_create = true := by
  cases pc with
  | asked =>
      simp only [openStep] at h
      split at h
      · cases h
      · split_ifs at h with hcreate
        · exact hcreate
        · cases h
  | streaming ino sent =>
      simp only [openStep] at h
      split_ifs at h <;> cases h
  | _ => cases h

omit [DecidableEq ι] [DecidableEq κ] in
/-- A stream that goes on has sent one chunk more, and one that begins has sent none. -/
theorem openStep_sends {E : Env} {request : OpenReq} {delivered : Bool} {files files' : Files} {pc : OpenPc} {ino : Nat}
    {sent : List OpenResp} (h : openStep E request delivered files pc = some (.streaming ino sent, files')) :
    (files.names (getServerPath request.path) = some ino ∧ sent = []) ∨
    ∃ before, pc = .streaming ino before ∧ sent = before ++
      [⟨0, true, ((files.inode ino).content.drop (BUFSIZE * before.length)).take BUFSIZE⟩] := by
  cases pc with
  | asked =>
      simp only [openStep] at h
      split at h
      · rename_i hopened
        cases h
        exact Or.inl ⟨openedInode_names E hopened, rfl⟩
      · split_ifs at h <;> cases h
  | streaming ino' before =>
      simp only [openStep] at h
      split_ifs at h <;> cases h
      exact Or.inr ⟨before, rfl, rfl⟩
  | _ => cases h

omit [DecidableEq ι] in
/-- What is created has one name. -/
theorem openCreate_unshared (E : Env) (flag : OpenFlags) (files : Files) (name : Bytes)
    (hunshared : ∀ other, files.Sole other) :
    (∀ other, (FileServer.openCreate E name flag files).2.Sole other) ∧
      files.next ≤ (FileServer.openCreate E name flag files).2.next := by
  unfold FileServer.openCreate
  cases E.fails .openCreate with
  | some e => exact ⟨hunshared, le_refl _⟩
  | none =>
      cases files.names name with
      | none =>
          simp only
          split_ifs
          · refine ⟨fun other => ?_, Nat.le_succ _⟩
            by_cases hother : other = name
            · rw [hother]
              exact Fs.create_sole files name _
            · exact (Fs.create_within _ (Set.mem_singleton name)).sole other hother (hunshared other)
          · exact ⟨hunshared, le_refl _⟩
      | some i =>
          simp only
          split_ifs
          · exact ⟨hunshared, le_refl _⟩
          · exact ⟨fun other => (hunshared other).of_names_eq (Fs.put_names _ _ _ _), le_refl _⟩
          · exact ⟨hunshared, le_refl _⟩

theorem Orderly.of_serve (hs : Orderly calls requests s) (hreq : ∀ i, (calls i).requests ≠ [])
    (hpaths : ∀ k, getServerPath (requests k).path ∉ tempNames calls) {who : κ} {E : Env} {delivered : Bool}
    (hsmooth : Smooth calls requests s (.serve who E delivered))
    (h : step calls requests s (.serve who E delivered) = some t) : Orderly calls requests t := by
  obtain ⟨⟨pc, files⟩, hout, huploads, hopens⟩ := serve_cases h
  obtain ⟨_, hcreate, hcut⟩ := hsmooth
  have hcreating : ∀ k, t.opens k = .missing → (requests k).is_create = true := by
    intro k hk
    rw [hopens] at hk
    by_cases hwho : k = who
    · subst hwho
      rw [Function.update_self] at hk
      obtain rfl : pc = .missing := hk
      exact openStep_missing hout
    · rw [Function.update_of_ne hwho] at hk
      exact hs.creating k hk
  have hstreaming : ∀ k ino sent, t.opens k = .streaming ino sent → Sealed calls s.files ino ∧
      sentBytes sent = (s.files.inode ino).content.take (BUFSIZE * sent.length) := by
    intro k ino sent hk
    rw [hopens] at hk
    by_cases hwho : k = who
    · subst hwho
      rw [Function.update_self] at hk
      obtain rfl : pc = .streaming ino sent := hk
      rcases openStep_sends hout with ⟨hname, rfl⟩ | ⟨before, hpc, rfl⟩
      · exact ⟨.of_path hs.coherent.names (hpaths k) hname, rfl⟩
      · obtain ⟨hsealed, hsent⟩ := hs.streaming k ino before hpc
        refine ⟨hsealed, ?_⟩
        rw [List.length_append, List.length_singleton]
        exact sentBytes_append hsent
    · rw [Function.update_of_ne hwho] at hk
      exact hs.streaming k ino sent hk
  rcases openStep_files E (requests who) hout with hsame | ⟨hmissing, hcreated⟩
  · have hfiles : files = s.files := hsame
    subst hfiles
    exact hs.of_within hreq (.refl _ _) hs.unshared (le_refl _) (fun _ _ => rfl) huploads hcreating hstreaming
  · have hfiles : files = (FileServer.openCreate E (getServerPath (requests who).path) (requests who).flag s.files).2 :=
      hcreated
    subst hfiles
    obtain ⟨_, hcontent⟩ := openCreate_serves hcreate (hpaths who) (hcut hmissing)
    obtain ⟨hunshared, hnext⟩ := openCreate_unshared E (requests who).flag s.files (getServerPath (requests who).path)
      hs.unshared
    exact hs.of_within hreq (openCreate_within E (hpaths who) _ _) hunshared hnext hcontent huploads hcreating hstreaming

theorem Orderly.step (hs : Orderly calls requests s) (hreq : ∀ i, (calls i).requests ≠ [])
    (hpaths : ∀ k, getServerPath (requests k).path ∉ tempNames calls) {event : Event ι κ}
    (hsmooth : Smooth calls requests s event) (h : step calls requests s event = some t) :
    Orderly calls requests t := by
  cases event with
  | put turn =>
      obtain ⟨hmove, hopens⟩ := put_cases h
      refine ⟨hs.coherent.step hmove, hs.whole.step hs.coherent hreq hsmooth hmove,
        unshared_of_moves hmove hs.unshared, hopens ▸ hs.creating, fun k ino sent hpc => ?_⟩
      rw [hopens] at hpc
      obtain ⟨hsealed, hsent⟩ := hs.streaming k ino sent hpc
      obtain ⟨hsealed', hcontent⟩ := hsealed.put hs.coherent hmove
      exact ⟨hsealed', hcontent ▸ hsent⟩
  | serve who E delivered => exact hs.of_serve hreq hpaths hsmooth h
  | unlink E path =>
      cases h
      have hname : getServerPath path ∈ (tempNames calls)ᶜ := hsmooth.2
      rcases unlink_files E path ⟨s.files, []⟩ with heq | heq
      · rw [heq]
        exact hs
      · rw [heq]
        exact hs.of_within hreq (Fs.remove_within hname) (fun name => Fs.remove_sole _ (hs.unshared name)) (le_refl _)
          (fun _ _ => rfl) rfl hs.creating hs.streaming
  | rename E old_path new_path =>
      cases h
      have hold : getServerPath old_path ∈ (tempNames calls)ᶜ := hsmooth.2.1
      have hnew : getServerPath new_path ∈ (tempNames calls)ᶜ := hsmooth.2.2
      rcases rename_files E old_path new_path ⟨s.files, []⟩ with heq | heq
      · rw [heq]
        exact hs
      · rw [heq]
        refine hs.of_within hreq (Fs.rename_within hold hnew) (fun name => ?_) (Fs.rename_next _ _ _).ge
          (fun ino _ => by rw [Fs.rename_inode]) rfl hs.creating hs.streaming
        by_cases hname : name = getServerPath new_path
        · rw [hname]
          exact Fs.rename_sole_new _ (hs.unshared _)
        · exact Fs.rename_sole (hs.unshared name) hname

section Runs

omit [DecidableEq ι] in
theorem unlink_serves {E : Env} {path : Bytes} {files : Files} (hok : E.fails .unlinkUnlink = none)
    (hname : getServerPath path ∉ tempNames calls) :
    Serves (.unlink (getServerPath path)) (contents (tempNames calls) files)
      (contents (tempNames calls) (FileServer.unlink E path ⟨files, []⟩).2.files)
      (.done (FileServer.unlink E path ⟨files, []⟩).1.isSome) := by
  have hmissing := @contents_eq_none_iff _ calls files _ hname
  cases hn : files.names (getServerPath path) with
  | none =>
      have hunlink : FileServer.unlink E path ⟨files, []⟩ = (none, ⟨files, []⟩) := by simp [FileServer.unlink, hok, hn]
      rw [hunlink]
      exact .unlinkMissing (hmissing.mpr hn)
  | some i =>
      have hunlink : FileServer.unlink E path ⟨files, []⟩ = (some 0, ⟨files.remove (getServerPath path), []⟩) := by
        simp [FileServer.unlink, hok, hn]
      have hthere : contents (tempNames calls) files (getServerPath path) ≠ none := by
        rw [Ne, hmissing, hn]
        exact Option.some_ne_none i
      rw [hunlink, contents_remove hname]
      exact .unlink hthere

omit [DecidableEq ι] in
theorem rename_serves {E : Env} {old_path new_path : Bytes} {files : Files} (hok : E.fails .renameRename = none)
    (hold : getServerPath old_path ∉ tempNames calls) (hnew : getServerPath new_path ∉ tempNames calls)
    (hsole : files.Sole (getServerPath old_path)) :
    Serves (.rename (getServerPath old_path) (getServerPath new_path)) (contents (tempNames calls) files)
      (contents (tempNames calls) (FileServer.rename E old_path new_path ⟨files, []⟩).2.files)
      (.done (FileServer.rename E old_path new_path ⟨files, []⟩).1.isSome) := by
  have hmissing := @contents_eq_none_iff _ calls files _ hold
  cases hn : files.names (getServerPath old_path) with
  | none =>
      have hrename : FileServer.rename E old_path new_path ⟨files, []⟩ = (none, ⟨files, []⟩) := by
        simp [FileServer.rename, hok, hn]
      rw [hrename]
      exact .renameMissing (hmissing.mpr hn)
  | some i =>
      have hrename : FileServer.rename E old_path new_path ⟨files, []⟩ =
          (some 0, ⟨files.rename (getServerPath old_path) (getServerPath new_path), []⟩) := by
        simp [FileServer.rename, hok, hn]
      have hnames : files.names (getServerPath old_path) ≠ none := by
        rw [hn]
        exact Option.some_ne_none i
      have hthere : contents (tempNames calls) files (getServerPath old_path) ≠ none := fun h => hnames (hmissing.mp h)
      rw [hrename]
      by_cases hne : getServerPath old_path = getServerPath new_path
      · rw [hne, Fs.rename_of_same rfl, ← hne]
        exact .renameSame hthere
      · rw [contents_rename hold hnew hsole hnames hne]
        exact .rename hthere hne

/-- A step of the server is steps of the object. -/
theorem Orderly.moves (hs : Orderly calls requests s) (hreq : ∀ i, (calls i).requests ≠ [])
    (hpaths : ∀ k, getServerPath (requests k).path ∉ tempNames calls) {event : Event ι κ}
    (hsmooth : Smooth calls requests s event) (h : Service.step calls requests s event = some t) :
    ∃ trace, Run (Atomic.Step (asked calls requests) Serves) (object calls s) trace (object calls t) ∧
      trace.map Prod.snd = Service.moves calls requests (s, event) := by
  cases event with
  | put turn =>
      obtain ⟨hmove, hopens⟩ := put_cases h
      have ht : t = { s with uploads := t.uploads } := by rw [← hopens]
      rw [ht]
      exact hs.put hreq hsmooth hmove
  | serve who E delivered => exact hs.serve hpaths hsmooth h
  | unlink E path =>
      cases h
      have hserves := @unlink_serves _ calls E path s.files hsmooth.1 hsmooth.2
      have hinode : ∀ ino, ((FileServer.unlink E path ⟨s.files, []⟩).2.files.inode ino).content =
          (s.files.inode ino).content := by
        intro ino
        rcases unlink_files E path ⟨s.files, []⟩ with heq | heq
        · rw [heq]
        · rw [heq]
          rfl
      rw [object_files (hs.phases fun ino _ => hinode ino)]
      exact ⟨_, .cons .nil (.once hserves), rfl⟩
  | rename E old_path new_path =>
      cases h
      have hserves := rename_serves (E := E) hsmooth.1 hsmooth.2.1 hsmooth.2.2 (hs.unshared _)
      have hinode : ∀ ino, ((FileServer.rename E old_path new_path ⟨s.files, []⟩).2.files.inode ino).content =
          (s.files.inode ino).content := by
        intro ino
        rcases rename_files E old_path new_path ⟨s.files, []⟩ with heq | heq
        · rw [heq]
        · rw [heq, Fs.rename_inode]
      rw [object_files (hs.phases fun ino _ => hinode ino)]
      exact ⟨_, .cons .nil (.once hserves), rfl⟩

omit [DecidableEq ι] [DecidableEq κ] in
theorem Idle.orderly (hstart : start.Idle) (hsep : Separate calls requests start.files)
    (hunshared : ∀ name, start.files.Sole name) : Orderly calls requests start := by
  have hcoherent : start.uploads.Coherent calls (tempNames calls)ᶜ := by
    refine ⟨hstart.uploads.exclusive, hsep.tempNames, fun i ino rest hi => ?_⟩
    rw [hstart.uploads.pc i] at hi
    cases hi
  refine ⟨hcoherent, hstart.uploads.whole, hunshared, fun k hk => ?_, fun k ino sent hk => ?_⟩
  · rw [hstart.opens k] at hk
    cases hk
  · rw [hstart.opens k] at hk
    cases hk

/-- **The server is linearizable.** However the steps of uploads, opens, unlinks and renames are mixed, its files are
those of an object on which each of them takes effect in one moment, with the same calls and returns; what a handler
tells its client is what its request meant at that moment, between its call and its return. -/
theorem linearizable (hstart : start.Idle) (hsep : Separate calls requests start.files)
    (hunshared : ∀ name, start.files.Sole name) (hreq : ∀ i, (calls i).requests ≠ [])
    (hrun : Interleaving calls requests start trace t) (hsmooth : Guarded (Smooth calls requests) trace) :
    ∃ moments, Run (Atomic.Step (asked calls requests) Serves) (object calls start) moments (object calls t) ∧
      moments.map Prod.snd = trace.flatMap (Service.moves calls requests) ∧
      (∀ i reply, t.uploads.pc i = .returned (some reply) →
        Atomic.Moment (asked calls requests) Serves (.inl i) .stored moments) ∧
      ∀ k sent, t.opens k = .returned sent →
        Atomic.Moment (asked calls requests) Serves (.inr k) (openReply sent) moments := by
  obtain ⟨moments, hmoments, hlabels⟩ := hrun.expand (object calls) (Orderly calls requests)
    (hstart.orderly hsep hunshared) (fun s event t hs hsmooth h => hs.step hreq hsep.opens hsmooth h)
    (fun s event t hs hsmooth h => hs.moves hreq hsep.opens hsmooth h) hsmooth
  have hidle : ∀ p, (object calls start).phase p = .idle := by
    intro p
    cases p with
    | inl i => exact congrArg PutPc.phase (hstart.uploads.pc i)
    | inr k => exact congrArg (OpenPc.phase start.files) (hstart.opens k)
  refine ⟨moments, hmoments, hlabels, fun i reply hpc => ?_, fun k sent hpc => ?_⟩
  · exact Atomic.moment_of_returned hmoments (hidle _) (congrArg PutPc.phase hpc)
  · exact Atomic.moment_of_returned hmoments (hidle _) (congrArg (OpenPc.phase t.files) hpc)

end Runs

theorem overtaken_smooth (s : Service Bool Unit) :
    ∀ event ∈ overtakenEvents, Smooth Handlers.twoUploads readF s event := by
  have hflag : (readF ()).flag.heeded.has O_TRUNC = false := by decide
  intro event hevent
  simp only [overtakenEvents, List.mem_append, List.mem_replicate, List.mem_singleton] at hevent
  rcases hevent with ((⟨_, rfl⟩ | ⟨_, rfl⟩) | ⟨_, rfl⟩) | rfl
  · exact rfl
  · exact ⟨rfl, rfl, fun _ _ _ => Or.inl hflag⟩
  · exact rfl
  · exact ⟨rfl, rfl, fun _ _ _ => Or.inl hflag⟩

/-- The stream has its moment between the two uploads. -/
theorem linearizable_overtaken : ∃ trace t moments, Interleaving Handlers.twoUploads readF emptyService trace t ∧
    (t.files.find (getServerPath (ascii "/f"))).map (·.content) = some (ascii "bb") ∧
    Run (Atomic.Step (asked Handlers.twoUploads readF) Serves) (object Handlers.twoUploads emptyService) moments
      (object Handlers.twoUploads t) ∧
    moments.map Prod.snd = trace.flatMap (Service.moves Handlers.twoUploads readF) ∧
    Atomic.Moment (asked Handlers.twoUploads readF) Serves (.inr ()) (.content (ascii "aa")) moments := by
  have hadvance : Runs.advance (step Handlers.twoUploads readF) overtakenEvents ([], emptyService) =
    some (_, _) := rfl
  have hrun := Run.of_advance overtakenEvents .nil hadvance
  have hsmooth := Guarded.of_advance overtakenEvents (P := fun event => ∀ s, Smooth Handlers.twoUploads readF s event)
    (fun event hevent s => overtaken_smooth s event hevent) (guarded_nil _) hadvance
  obtain ⟨moments, hmoments, hlabels, _, hreplies⟩ := linearizable ⟨Handlers.emptyServer_idle, fun _ => rfl⟩
    emptyService_separate (fun _ _ h => by cases h) (fun i => List.cons_ne_nil _ _) hrun
    (fun entry hentry => hsmooth entry hentry entry.1)
  exact ⟨_, _, moments, hrun, rfl, hmoments, hlabels, hreplies () _ rfl⟩

end Service

end Bnfs
