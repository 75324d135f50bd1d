import Bnfs.ModelServer
import Bnfs.TheoryVersions
import Bnfs.TheoryRuns

/-! `PutFile` handlers running side by side on the server. The scheduler lets one of them take its
next step at a time: the first read, the mutex, the open of the temporary file, the append of each
chunk, the close, the rename, the chmod, the release of the mutex and the `lstat`. A handler waiting
for the mutex cannot move while it is taken. The messages a handler reads and the numbers it draws are
its own; whether a call fails and what the clock shows is up to the turn in which it is made. -/

namespace Bnfs

/-- A `PutFile` request: the messages its reads deliver before the first that returns false, and the
values of `rand()` it sees. -/
structure PutCall where
  requests : List PutFileReq
  rand : Nat → Nat

namespace PutCall

def target (call : PutCall) : Bytes := FileServer.cachePath call.requests

def temp (call : PutCall) : Bytes :=
  FileServer.tempFilePath (randomString call.rand 20) call.requests

/-- The bytes of the whole upload. -/
def content (call : PutCall) : Bytes := (call.requests.tail.map (·.contents)).flatten

end PutCall

/-- Where a handler stands: the next thing it does is the next line of `PutFile`. -/
inductive PutPc where
  | start
  | waiting
  | locked
  | writing (out : Option Nat) (rest : List PutFileReq)
  | closed
  | renamed
  | chmodded
  | unlocked
  | returned (reply : Option PutFileResp)
  deriving DecidableEq

/-- Between `pthread_mutex_lock` and `pthread_mutex_unlock`. -/
def PutPc.critical : PutPc → Bool
  | .locked | .writing _ _ | .closed | .renamed | .chmodded => true
  | _ => false

/-- The request has come in and the handler has not returned. -/
def PutPc.running : PutPc → Bool
  | .start | .returned _ => false
  | _ => true

/-- What a rename put in place, and for whom. -/
structure Version (ι : Type) where
  who : ι
  path : Bytes
  file : Option File

structure Handlers (ι : Type) where
  files : Files
  lock : Option ι
  pc : ι → PutPc
  /-- The versions put in place, newest first; no handler reads them. -/
  versions : List (Version ι)

/-- Who moves, and how the call it makes turns out. -/
structure Turn (ι : Type) where
  who : ι
  fails : Option Int
  now : Timespec
  attr : Attr

namespace Handlers

variable {ι : Type} [DecidableEq ι]

def goto (s : Handlers ι) (i : ι) (pc : PutPc) : Handlers ι :=
  { s with pc := Function.update s.pc i pc }

@[simp] theorem goto_files (s : Handlers ι) (i : ι) (pc : PutPc) : (s.goto i pc).files = s.files :=
  rfl

@[simp] theorem goto_pc_self (s : Handlers ι) (i : ι) (pc : PutPc) : (s.goto i pc).pc i = pc := by
  simp only [goto, Function.update_self]

theorem goto_pc_of_ne (s : Handlers ι) {i j : ι} (pc : PutPc) (h : j ≠ i) :
    (s.goto i pc).pc j = s.pc j := by simp only [goto, Function.update_of_ne h]

/-- `PutFile`, one call at a time. A rename that fails returns at once. -/
def step (calls : ι → PutCall) (s : Handlers ι) (turn : Turn ι) : Option (Handlers ι) :=
  let i := turn.who
  let call := calls i
  match s.pc i with
  | .start => some (s.goto i .waiting)
  | .waiting => if s.lock.isNone then some { s.goto i .locked with lock := some i } else none
  | .locked =>
      let out := uploadOpen turn.fails turn.now turn.attr call.temp s.files
      some { s.goto i (.writing out.2 call.requests.tail) with files := out.1 }
  | .writing _ [] => some (s.goto i .closed)
  | .writing out (request :: rest) =>
      let out := uploadWrite turn.fails turn.now request.contents (s.files, out)
      some { s.goto i (.writing out.2 rest) with files := out.1 }
  | .closed =>
      match uploadRename turn.fails call.temp call.target s.files with
      | (some _, files) => some { s.goto i (.returned none) with files }
      | (none, files) =>
          let version : Version ι := ⟨i, call.target, files.find call.target⟩
          some { s.goto i .renamed with files, versions := version :: s.versions }
  | .renamed =>
      some { s.goto i .chmodded with files := uploadChmod turn.fails call.target s.files }
  | .chmodded => some { s.goto i .unlocked with lock := none }
  | .unlocked =>
      some (s.goto i (.returned ((uploadLstat turn.fails call.target s.files).map
        fun mtime => ⟨0, toUInt64 mtime⟩)))
  | .returned _ => none

/-- The runs of the handlers, in any order of their steps. -/
abbrev Interleaving (calls : ι → PutCall) (start : Handlers ι) :
    List (Handlers ι × Turn ι) → Handlers ι → Prop :=
  Runs.Run (fun s turn t => step calls s turn = some t) start

/-- The ways a turn can go, one for each line of `PutFile` and two for its rename. -/
inductive Moves (calls : ι → PutCall) (s : Handlers ι) (turn : Turn ι) : Handlers ι → Prop
  | read : s.pc turn.who = .start → Moves calls s turn (s.goto turn.who .waiting)
  | acquire : s.pc turn.who = .waiting → s.lock = none →
      Moves calls s turn { s.goto turn.who .locked with lock := some turn.who }
  | openTemp (out : Files × Option Nat) : s.pc turn.who = .locked →
      out = uploadOpen turn.fails turn.now turn.attr (calls turn.who).temp s.files →
      Moves calls s turn
        { s.goto turn.who (.writing out.2 (calls turn.who).requests.tail) with files := out.1 }
  | close {ino} : s.pc turn.who = .writing ino [] → Moves calls s turn (s.goto turn.who .closed)
  | write {ino request rest} (out : Files × Option Nat) :
      s.pc turn.who = .writing ino (request :: rest) →
      out = uploadWrite turn.fails turn.now request.contents (s.files, ino) →
      Moves calls s turn { s.goto turn.who (.writing out.2 rest) with files := out.1 }
  | renameFails : s.pc turn.who = .closed →
      (turn.fails.isSome ∨ s.files.names (calls turn.who).temp = none ∨
        (calls turn.who).target = []) →
      Moves calls s turn (s.goto turn.who (.returned none))
  | rename (files : Files) : s.pc turn.who = .closed → turn.fails = none →
      s.files.names (calls turn.who).temp ≠ none → (calls turn.who).target ≠ [] →
      files = s.files.rename (calls turn.who).temp (calls turn.who).target →
      Moves calls s turn { s.goto turn.who .renamed with
        files := files
        versions := ⟨turn.who, (calls turn.who).target, files.find (calls turn.who).target⟩ ::
          s.versions }
  | chmod : s.pc turn.who = .renamed → Moves calls s turn { s.goto turn.who .chmodded with
      files := uploadChmod turn.fails (calls turn.who).target s.files }
  | release : s.pc turn.who = .chmodded →
      Moves calls s turn { s.goto turn.who .unlocked with lock := none }
  | lstat (reply : Option PutFileResp) : s.pc turn.who = .unlocked →
      reply = (uploadLstat turn.fails (calls turn.who).target s.files).map
        (fun mtime => ⟨0, toUInt64 mtime⟩) →
      Moves calls s turn (s.goto turn.who (.returned reply))

theorem step_moves {calls : ι → PutCall} {s t : Handlers ι} {turn : Turn ι}
    (h : step calls s turn = some t) : Moves calls s turn t := by
  cases hpc : s.pc turn.who with
  | start =>
      simp only [step, hpc, Option.some.injEq] at h
      exact h ▸ .read hpc
  | waiting =>
      simp only [step, hpc] at h
      split at h
      · rename_i hfree
        exact Option.some.inj h ▸ .acquire hpc (Option.isNone_iff_eq_none.mp hfree)
      · cases h
  | locked =>
      simp only [step, hpc, Option.some.injEq] at h
      exact h ▸ .openTemp _ hpc rfl
  | writing out rest =>
      cases rest with
      | nil =>
          simp only [step, hpc, Option.some.injEq] at h
          exact h ▸ .close hpc
      | cons request rest =>
          simp only [step, hpc, Option.some.injEq] at h
          exact h ▸ .write _ hpc rfl
  | closed =>
      rcases uploadRename_cases turn.fails (calls turn.who).temp (calls turn.who).target s.files with
        ⟨e, heq, hfails⟩ | ⟨heq, hfails, htemp, htarget⟩
      · simp only [step, hpc, heq, Option.some.injEq] at h
        exact h ▸ .renameFails hpc hfails
      · simp only [step, hpc, heq, Option.some.injEq] at h
        exact h ▸ .rename _ hpc hfails htemp htarget rfl
  | renamed =>
      simp only [step, hpc, Option.some.injEq] at h
      exact h ▸ .chmod hpc
  | chmodded =>
      simp only [step, hpc, Option.some.injEq] at h
      exact h ▸ .release hpc
  | unlocked =>
      simp only [step, hpc, Option.some.injEq] at h
      exact h ▸ .lstat _ hpc rfl
  | returned reply =>
      simp only [step, hpc] at h
      cases h

/-- A turn moves one handler only. -/
theorem Moves.pc_of_ne {calls : ι → PutCall} {s t : Handlers ι} {turn : Turn ι}
    (h : Moves calls s turn t) {j : ι} (hj : j ≠ turn.who) : t.pc j = s.pc j := by
  cases h <;> exact goto_pc_of_ne s _ hj

/-- No request has come in yet. -/
structure Idle (s : Handlers ι) : Prop where
  pc : ∀ i, s.pc i = .start
  lock : s.lock = none
  versions : s.versions = []

/-- A server without files and requests. -/
def emptyServer : Handlers ι := ⟨.empty ⟨[], default, default⟩, none, fun _ => .start, []⟩

omit [DecidableEq ι] in
theorem emptyServer_idle : (emptyServer : Handlers ι).Idle := ⟨fun _ => rfl, rfl, rfl⟩

/-- A turn in which the call succeeds. -/
def turnAt (i : ι) (sec : Int) : Turn ι := ⟨i, none, ⟨sec, 0⟩, default⟩

/-- Two uploads to one path that draw the same name for their temporary files. -/
def twoUploads (second : Bool) : PutCall :=
  ⟨[⟨ascii "/f", []⟩, ⟨ascii "/f", if second then ascii "bb" else ascii "aa"⟩], fun _ => 0⟩

/-- Whoever is in the critical section has the mutex, so there is at most one. -/
def Exclusive (s : Handlers ι) : Prop := ∀ i, (s.pc i).critical → s.lock = some i

omit [DecidableEq ι] in
theorem Idle.exclusive {s : Handlers ι} (h : s.Idle) : s.Exclusive := by
  intro i hi
  rw [h.pc i] at hi
  cases hi

/-- A turn that leaves the mutex alone and does not take its handler into the critical section keeps
exclusion. -/
theorem Exclusive.of_lock_eq {s t : Handlers ι} {i : ι} (hs : s.Exclusive) (hlock : t.lock = s.lock)
    (hother : ∀ j, j ≠ i → t.pc j = s.pc j) (hself : (t.pc i).critical → (s.pc i).critical) :
    t.Exclusive := by
  intro j hj
  rw [hlock]
  by_cases hji : j = i
  · subst hji
    exact hs j (hself hj)
  · rw [hother j hji] at hj
    exact hs j hj

theorem Exclusive.step {calls : ι → PutCall} {s t : Handlers ι} {turn : Turn ι} (hs : s.Exclusive)
    (h : Moves calls s turn t) : t.Exclusive := by
  have hother : ∀ j, j ≠ turn.who → t.pc j = s.pc j := fun j hj => h.pc_of_ne hj
  cases h with
  | acquire hpc hfree =>
      intro j hj
      by_cases hji : j = turn.who
      · exact congrArg some hji.symm
      · rw [hother j hji] at hj
        have hheld := hs j hj
        rw [hfree] at hheld
        cases hheld
  | release hpc =>
      intro j hj
      by_cases hji : j = turn.who
      · subst hji
        simp [PutPc.critical] at hj
      · rw [hother j hji] at hj
        have hmine := hs turn.who (by rw [hpc]; rfl)
        exact absurd (Option.some.inj ((hs j hj).symm.trans hmine)) hji
  | read hpc => exact hs.of_lock_eq rfl hother (by simp [PutPc.critical])
  | openTemp out hpc hout => exact hs.of_lock_eq rfl hother (by simp [hpc, PutPc.critical])
  | close hpc => exact hs.of_lock_eq rfl hother (by simp [hpc, PutPc.critical])
  | write out hpc hout => exact hs.of_lock_eq rfl hother (by simp [hpc, PutPc.critical])
  | renameFails hpc hfails => exact hs.of_lock_eq rfl hother (by simp [PutPc.critical])
  | rename files hpc => exact hs.of_lock_eq rfl hother (by simp [hpc, PutPc.critical])
  | chmod hpc => exact hs.of_lock_eq rfl hother (by simp [hpc, PutPc.critical])
  | lstat reply hpc hreply => exact hs.of_lock_eq rfl hother (by simp [PutPc.critical])

omit [DecidableEq ι] in
/-- Two handlers are never in the critical section together. -/
theorem Exclusive.eq_of_critical {s : Handlers ι} (hs : s.Exclusive) {i j : ι}
    (hi : (s.pc i).critical) (hj : (s.pc j).critical) : i = j :=
  Option.some.inj ((hs i hi).symm.trans (hs j hj))

theorem Interleaving.exclusive {calls : ι → PutCall} {start t : Handlers ι}
    {trace : List (Handlers ι × Turn ι)} (hstart : start.Idle)
    (hrun : Interleaving calls start trace t) : t.Exclusive :=
  Runs.Run.invariant Exclusive hstart.exclusive (fun _ _ _ hs hstep => hs.step (step_moves hstep)) hrun

end Handlers

end Bnfs
