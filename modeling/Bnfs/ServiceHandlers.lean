import Bnfs.ExportPaths
import Bnfs.UploadStore

/-! Requests of many clients on the server at once: `PutFile` with the steps it has in `UploadHandlers`, `Open`
from the attempt to open the file to the end of the stream, and `Unlink` and `Rename`, which are one call each.
No handler but `PutFile` takes the mutex. -/

namespace Bnfs

open FileSystem Runs

/-- Where an `Open` handler stands. -/
inductive OpenPc where
  | start
  | asked
  /-- The file could not be opened, and is to be created. -/
  | missing
  /-- The inode the stream reads from and the messages written so far. -/
  | streaming (ino : Nat) (sent : List OpenResp)
  | returned (sent : List OpenResp)
  /-- A read failed before the end of the file, or a message was not taken. -/
  | broken (sent : List OpenResp)
  deriving DecidableEq

/-- The request is in and the handler has not returned. -/
def OpenPc.running : OpenPc → Bool
  | .asked | .missing | .streaming _ _ => true
  | _ => false

/-- The file is open or the handler has returned. -/
def OpenPc.settled : OpenPc → Bool
  | .streaming _ _ | .returned _ | .broken _ => true
  | _ => false

section Open

variable (E : Env) (request : OpenReq)

/-- The inode `ifstream file(path)` opens. -/
def openedInode (name : Bytes) (files : Files) : Option Nat :=
  match E.fails .openIfstream with
  | some _ => none
  | none => files.names name

theorem openRead_eq (name : Bytes) (files : Files) :
    FileServer.openRead E name files = (openedInode E name files).map files.inode := by
  unfold FileServer.openRead openedInode
  cases E.fails .openIfstream <;> rfl

theorem openedInode_names {name : Bytes} {files : Files} {ino : Nat}
    (h : openedInode E name files = some ino) : files.names name = some ino := by
  unfold openedInode at h
  split at h
  · cases h
  · exact h

/-- The next step of an `Open` handler. The read and the write of a chunk are one step, and go well or do not. -/
def openStep (delivered : Bool) (files : Files) : OpenPc → Option (OpenPc × Files)
  | .start => some (.asked, files)
  | .asked =>
      match openedInode E (getServerPath request.path) files with
      | some ino => some (.streaming ino [], files)
      | none =>
          if request.is_create then some (.missing, files) else some (.returned [⟨0, false, []⟩], files)
  | .missing =>
      let created := FileServer.openCreate E (getServerPath request.path) request.flag files
      some (.returned [⟨created.1, false, []⟩], created.2)
  | .streaming ino sent =>
      let rest := (files.inode ino).content.drop (BUFSIZE * sent.length)
      let sent' := sent ++ [⟨0, true, rest.take BUFSIZE⟩]
      if !delivered then some (.broken sent, files)
      else if BUFSIZE ≤ rest.length then some (.streaming ino sent', files)
      else some (.returned sent', files)
  | .returned _ => none
  | .broken _ => none

/-- What a step of an `Open` handler does to the files: nothing, unless it creates. -/
theorem openStep_files {delivered : Bool} {files : Files} {pc : OpenPc} {out : OpenPc × Files}
    (h : openStep E request delivered files pc = some out) :
    out.2 = files ∨ (pc = .missing ∧
      out.2 = (FileServer.openCreate E (getServerPath request.path) request.flag files).2) := by
  cases pc with
  | start =>
      cases h
      exact Or.inl rfl
  | asked =>
      left
      simp only [openStep] at h
      split at h
      · cases h
        rfl
      · split at h <;> cases h <;> rfl
  | missing =>
      cases h
      exact Or.inr ⟨rfl, rfl⟩
  | streaming ino sent =>
      left
      simp only [openStep] at h
      split_ifs at h <;> cases h <;> rfl
  | returned sent => cases h
  | broken sent => cases h

/-- A step of one `Open` handler where nothing else happens and every message is delivered. -/
def openAlone (p : OpenPc × Files) : OpenPc × Files := (openStep E request true p.2 p.1).getD p

/-- The last chunk of a stream. -/
theorem openAlone_last {files : Files} {ino : Nat} {sent : List OpenResp} {rest : Bytes}
    (hrest : (files.inode ino).content.drop (BUFSIZE * sent.length) = rest) (hlast : ¬ BUFSIZE ≤ rest.length) :
    openAlone E request (.streaming ino sent, files) = (.returned (sent ++ [⟨0, true, rest⟩]), files) := by
  have hwhole : rest.take BUFSIZE = rest := List.take_of_length_le (by omega)
  simp only [openAlone, openStep, hrest, Bool.not_true, Bool.false_eq_true, if_false, if_neg hlast, hwhole]
  rfl

/-- The chunks a stream sends from where it stands. -/
theorem openAlone_streams (files : Files) (ino fuel : Nat) (sent : List OpenResp) {rest : Bytes}
    (hrest : (files.inode ino).content.drop (BUFSIZE * sent.length) = rest) (hfuel : rest.length ≤ fuel) :
    ∃ n, (openAlone E request)^[n] (.streaming ino sent, files) =
      (.returned (sent ++ (Chunks.piecesFrom BUFSIZE fuel rest).map fun buf => ⟨0, true, buf⟩), files) := by
  have hpos : 0 < BUFSIZE := by decide
  induction fuel generalizing sent rest with
  | zero => exact ⟨1, openAlone_last E request hrest (by omega)⟩
  | succ fuel ih =>
      by_cases hfull : BUFSIZE ≤ rest.length
      · let chunk : OpenResp := ⟨0, true, rest.take BUFSIZE⟩
        have hstep : openAlone E request (.streaming ino sent, files) =
            (.streaming ino (sent ++ [chunk]), files) := by
          simp only [openAlone, openStep, hrest, Bool.not_true, Bool.false_eq_true, if_false, if_pos hfull]
          rfl
        have hdrop : (files.inode ino).content.drop (BUFSIZE * (sent ++ [chunk]).length) =
            rest.drop BUFSIZE := by
          rw [← hrest, List.drop_drop, List.length_append, List.length_singleton, Nat.mul_succ]
        have hshort : (rest.drop BUFSIZE).length ≤ fuel := by
          rw [List.length_drop]
          omega
        obtain ⟨n, hn⟩ := ih (sent ++ [chunk]) hdrop hshort
        refine ⟨n + 1, ?_⟩
        rw [Function.iterate_succ_apply, hstep, hn, Chunks.piecesFrom, if_pos hfull, List.map_cons,
          List.append_assoc]
        rfl
      · refine ⟨1, ?_⟩
        rw [Function.iterate_one, openAlone_last E request hrest hfull, Chunks.piecesFrom, if_neg hfull]
        rfl

/-- Taken one after the other, the steps are those of `Open`. -/
theorem openAlone_open (srv : Server) :
    ∃ n, (openAlone E request)^[n] (.start, srv.files) =
      (.returned (FileServer.Open E request srv).1, (FileServer.Open E request srv).2.files) := by
  simp only [FileServer.Open, openRead_eq]
  cases hopen : openedInode E (getServerPath request.path) srv.files with
  | some ino =>
      have hasked : (openAlone E request)^[2] (.start, srv.files) = (.streaming ino [], srv.files) := by
        rw [Function.iterate_succ_apply, Function.iterate_one]
        simp only [openAlone, openStep, hopen, Option.getD_some]
      obtain ⟨n, hn⟩ := openAlone_streams E request srv.files ino _ [] rfl (le_refl _)
      refine ⟨n + 2, ?_⟩
      rw [Function.iterate_add_apply, hasked, hn]
      rfl
  | none =>
      cases hcreate : request.is_create with
      | true =>
          refine ⟨3, ?_⟩
          simp [openAlone, openStep, hopen, hcreate]
      | false =>
          refine ⟨2, ?_⟩
          simp [openAlone, openStep, hopen, hcreate]

end Open

theorem unlink_files (E : Env) (path : Bytes) (srv : Server) :
    (FileServer.unlink E path srv).2.files = srv.files ∨
      (FileServer.unlink E path srv).2.files = srv.files.remove (getServerPath path) := by
  simp only [FileServer.unlink]
  split
  · exact Or.inr rfl
  · exact Or.inl rfl

theorem rename_files (E : Env) (old_path new_path : Bytes) (srv : Server) :
    (FileServer.rename E old_path new_path srv).2.files = srv.files ∨
      (FileServer.rename E old_path new_path srv).2.files =
        srv.files.rename (getServerPath old_path) (getServerPath new_path) := by
  simp only [FileServer.rename]
  split
  · exact Or.inr rfl
  · exact Or.inl rfl

/-- The files with the `PutFile` handlers, and the `Open` handlers. -/
structure Service (ι κ : Type) where
  uploads : Handlers ι
  opens : κ → OpenPc

/-- What happens next, and how the calls it makes turn out. -/
inductive Event (ι κ : Type) where
  | put (turn : Turn ι)
  | serve (who : κ) (E : Env) (delivered : Bool)
  | unlink (E : Env) (path : Bytes)
  | rename (E : Env) (old_path new_path : Bytes)

namespace Service

variable {ι κ : Type}

def files (s : Service ι κ) : Files := s.uploads.files

def setFiles (s : Service ι κ) (files : Files) : Service ι κ :=
  { s with uploads := { s.uploads with files := files } }

@[simp] theorem setFiles_files (s : Service ι κ) (files : Files) : (s.setFiles files).files = files := rfl

@[simp] theorem setFiles_opens (s : Service ι κ) (files : Files) : (s.setFiles files).opens = s.opens := rfl

variable [DecidableEq ι] [DecidableEq κ]

def step (calls : ι → PutCall) (requests : κ → OpenReq) (s : Service ι κ) :
    Event ι κ → Option (Service ι κ)
  | .put turn => (s.uploads.step calls turn).map fun uploads => { s with uploads := uploads }
  | .serve who E delivered =>
      (openStep E (requests who) delivered s.files (s.opens who)).map fun out =>
        { s.setFiles out.2 with opens := Function.update s.opens who out.1 }
  | .unlink E path => some (s.setFiles (FileServer.unlink E path ⟨s.files, []⟩).2.files)
  | .rename E old_path new_path =>
      some (s.setFiles (FileServer.rename E old_path new_path ⟨s.files, []⟩).2.files)

/-- The runs of the handlers, in any order of their steps. -/
abbrev Interleaving (calls : ι → PutCall) (requests : κ → OpenReq) (start : Service ι κ) :
    List (Service ι κ × Event ι κ) → Service ι κ → Prop :=
  Run (fun s event t => step calls requests s event = some t) start

/-- No request has come in yet. -/
structure Idle (s : Service ι κ) : Prop where
  uploads : s.uploads.Idle
  opens : ∀ k, s.opens k = .start

variable {calls : ι → PutCall} {requests : κ → OpenReq} {paths : Set Bytes} {s t : Service ι κ}

/-- What an `Open` handler's step makes of the state. -/
theorem serve_cases {who : κ} {E : Env} {delivered : Bool}
    (h : step calls requests s (.serve who E delivered) = some t) :
    ∃ out, openStep E (requests who) delivered s.files (s.opens who) = some out ∧
      t.uploads = { s.uploads with files := out.2 } ∧ t.opens = Function.update s.opens who out.1 := by
  simp only [step, Option.map_eq_some_iff] at h
  obtain ⟨out, hout, rfl⟩ := h
  exact ⟨out, hout, rfl, rfl⟩

theorem put_cases {turn : Turn ι} (h : step calls requests s (.put turn) = some t) :
    Handlers.Moves calls s.uploads turn t.uploads ∧ t.opens = s.opens := by
  simp only [step, Option.map_eq_some_iff] at h
  obtain ⟨uploads, hmove, rfl⟩ := h
  exact ⟨Handlers.step_moves hmove, rfl⟩

end Service

/-- Changes under the paths of the clients do not concern the uploads under way. -/
theorem Handlers.Coherent.of_within {ι : Type} {calls : ι → PutCall} {paths : Set Bytes} {s : Handlers ι}
    (hs : s.Coherent calls paths) {files : Files} (hwithin : Fs.Within paths s.files files) :
    Handlers.Coherent calls paths { s with files := files } where
  exclusive := hs.exclusive
  names := ⟨hs.names.target, hs.names.temp,
    fun i hi => hwithin.sole _ (hs.names.temp i hi) (hs.names.sole i hi)⟩
  out i ino rest hpc := by
    obtain ⟨hreq, hname⟩ := hs.out i ino rest hpc
    exact ⟨hreq, (hwithin.names _ (hs.names.temp i hreq)).trans hname⟩

end Bnfs
