import Bnfs.ClientMountRuns

/-! Opens that ask for an exclusive creation, by any number of clients, step by step. The answer to `GetAttr`
and what the server makes of its own `open` decide nothing in the end: the client takes `O_EXCL` off the flags
before the open of its own copy, and returns what that open gives. -/

namespace Bnfs

open FileSystem Programs Runs

namespace Exclusive

variable [Sha256]

section Parts

variable (E : Env) (path : CString)

/-- `getOpenFlags` once the RPC is answered. -/
def decideOpen (is_create : Bool) (flags : OpenFlags) (getAttrRes : Int × Stat) : Prog Int := do
  if getAttrRes.1 = -ENOENT ∧ (is_create || AFSClient.isOpenWithCreate flags) = true then return 3
  else
    let server_time := toInt getAttrRes.2.st_mtim.tv_sec
    let cache_fd ← isPresentInCache E path
    let temp_fd ← isPresentInTemp E path
    let outOfDate ← if temp_fd > 0 then isOutOfDate E server_time temp_fd else pure true
    AFSClient.chooseCopy cache_fd temp_fd outOfDate

/-- What an open that creates does before it calls the server. -/
def createLocally : Prog Unit := do
  let temp_fd ← posixCreat E .clientOpenCreatTemp (getTempPath path)
  let _ ← posixClose temp_fd
  let cache_fd ← posixCreat E .clientOpenCreatCache (getCachePath path)
  let _ ← posixClose cache_fd
  markFileDirty path

/-- What a fetch does with the messages it got. -/
def saveReplies (replies : List OpenResp) : Prog Int := do
  if replies.isEmpty then return - EIO
  else if E.download.finished then
    let buf := (replies.map (·.buf)).flatten
    let _ ← writeFileToCache E path (cStr buf)
    let _ ← writeFileToTemp E path (cStr buf)
    return 0
  else return - EIO

end Parts

/-- The client an open is called at and its arguments, and how its calls turn out. -/
structure Opening (Name : Type) where
  client : Name
  E : Env
  fi : FuseFileInfo
  is_create : Bool

variable {Name : Type}

/-- How far an open has come. -/
inductive Phase where
  | asking
  | answered (getAttrRes : Int × Stat)
  | decided (o_fl : Int)
  | created
  | received (replies : List OpenResp)
  | prepared
  | returned (ret : Int)

/-- The next step of an open: an RPC, or what the client does between two of them. -/
def advance (o : Opening Name) (path : CString) : Phase → Prog Phase
  | .asking => do
      let getAttrRes ← AFSClient.getAttr o.E path o.E.clientStack
      return .answered getAttrRes
  | .answered getAttrRes => do
      let o_fl ← decideOpen o.E path o.is_create o.fi.flags getAttrRes
      return .decided o_fl
  | .decided o_fl => do
      if o_fl = 1 then
        let replies ← AFSClient.openStream o.E ⟨path.bytes, o.fi.flags, false⟩
        return .received replies
      else if o_fl = 3 then
        createLocally o.E path
        return .created
      else if o_fl = 4 then
        let _ ← getCheckInTemp o.E path true O_RDONLY true
        return .prepared
      else return .prepared
  | .created => do
      let _ ← AFSClient.createOnServer o.E path o.fi
      return .prepared
  | .received replies => do
      let _ ← saveReplies o.E path replies
      return .prepared
  | .prepared => do
      let ret ← openTemp o.E path o.fi
      return .returned ret
  | .returned ret => return .returned ret

/-- A step of one open, where nothing else happens. -/
def stepAlone (o : Opening Name) (path : CString) (p : Phase × World) : Phase × World :=
  advance o path p.1 p.2

/-- Taken one after the other, the steps are those of `Open`. -/
theorem stepAlone_open (o : Opening Name) (path : CString) (w : World) :
    ∃ n, (stepAlone o path)^[n] (.asking, w) =
      (.returned (AFSClient.Open o.E path o.fi o.is_create w).1,
        (AFSClient.Open o.E path o.fi o.is_create w).2) := by
  let asked := AFSClient.getAttr o.E path o.E.clientStack w
  let verdict := decideOpen o.E path o.is_create o.fi.flags asked.1 asked.2
  have hdecided : (stepAlone o path)^[2] (.asking, w) = (.decided verdict.1, verdict.2) := rfl
  have hopen : AFSClient.Open o.E path o.fi o.is_create w = openTemp o.E path o.fi
      (AFSClient.prepareTemp o.E path o.fi verdict.1 verdict.2).2 := rfl
  have hlast : ∀ n w', (stepAlone o path)^[n] (.decided verdict.1, verdict.2) = (.prepared, w') →
      (AFSClient.prepareTemp o.E path o.fi verdict.1 verdict.2).2 = w' →
      ∃ n, (stepAlone o path)^[n] (.asking, w) =
        (.returned (AFSClient.Open o.E path o.fi o.is_create w).1,
          (AFSClient.Open o.E path o.fi o.is_create w).2) := by
    intro n w' hprepared hworld
    refine ⟨1 + (n + 2), ?_⟩
    rw [Function.iterate_add_apply, Function.iterate_add_apply, hdecided, hprepared, hopen, hworld]
    rfl
  by_cases hfetch : verdict.1 = 1
  · refine hlast 2 _ ?_ rfl
    rw [hfetch]
    rfl
  by_cases hcreate : verdict.1 = 3
  · refine hlast 2 _ ?_ rfl
    rw [hcreate]
    rfl
  by_cases hcopy : verdict.1 = 4
  · refine hlast 1 _ ?_ rfl
    rw [hcopy]
    rfl
  · refine hlast 1 verdict.2 ?_ ?_
    · show advance o path (.decided verdict.1) verdict.2 = _
      simp only [advance, if_neg hfetch, if_neg hcreate, if_neg hcopy]
      rfl
    · unfold AFSClient.prepareTemp
      rw [if_neg hfetch, if_neg hcreate, if_neg hcopy]
      rfl

/-- The copy is there or is created: what an open that asks for an exclusive creation returns depends on
whether the call fails, and on nothing else. -/
theorem openTemp_nonneg_iff {E : Env} {path : CString} {fi : FuseFileInfo}
    (hexclusive : AFSClient.isOpenWithCreateNExclusive fi.flags = true) (w : World) :
    0 ≤ (openTemp E path fi w).1 ↔ E.fails .clientOpenOpen = none := by
  have hcreat : fi.flags.has O_CREAT = true := (Bool.and_eq_true_iff.mp hexclusive).1
  rw [← not_lt, openTemp_neg_iff, not_not, FinalOpens, and_iff_left (Or.inr hcreat)]

/-- The server, the clients, and how far each open has come. -/
structure Contest (Name ι : Type) where
  srv : Server
  clients : Name → Client
  errno : Name → Int
  phases : ι → Phase

section Contest

variable {ι : Type} [DecidableEq Name] [DecidableEq ι] (ops : ι → Opening Name) (path : CString)

/-- The next step of one of the opens. -/
def next (s : Contest Name ι) (i : ι) : Contest Name ι :=
  let name := (ops i).client
  let result := advance (ops i) path (s.phases i) ⟨s.srv, s.clients name, s.errno name⟩
  { srv := result.2.srv
    clients := Function.update s.clients name result.2.cl
    errno := Function.update s.errno name result.2.errno
    phases := Function.update s.phases i result.1 }

/-- The steps of the opens. -/
def step (s : Contest Name ι) (i : ι) (t : Contest Name ι) : Prop := t = next ops path s i

/-- No open has begun, and the server has no file of the path. The opens ask for an exclusive creation, and
their RPCs do not fail. -/
structure Start (s : Contest Name ι) : Prop where
  asking : ∀ i, s.phases i = .asking
  missing : s.srv.files.names (getServerPath path.bytes) = none
  exclusive : ∀ i, AFSClient.isOpenWithCreateNExclusive (ops i).fi.flags = true
  rpcs : ∀ i r, (ops i).E.rpc r = .answered
  downloads : ∀ i, (ops i).E.download = ⟨true, none, true⟩

/-- An open has returned a descriptor. -/
def Opened (s : Contest Name ι) (i : ι) : Prop := ∃ ret, s.phases i = .returned ret ∧ 0 ≤ ret

/-- Not more than one of the opens that have returned has a descriptor, and all others have an error. -/
def AtMostOne (s : Contest Name ι) : Prop := ∀ i j, Opened s i → Opened s j → i = j

/-- An open has returned, and its open of the local copy did not fail. -/
def GotThrough (s : Contest Name ι) (i : ι) : Prop :=
  (∃ ret, s.phases i = .returned ret) ∧ (ops i).E.fails .clientOpenOpen = none

/-- What an open has returned is a descriptor exactly if its local open did not fail. -/
def Inv (s : Contest Name ι) : Prop :=
  ∀ i ret, s.phases i = .returned ret → (0 ≤ ret ↔ (ops i).E.fails .clientOpenOpen = none)

variable {ops path}

theorem Inv.next {s : Contest Name ι} (h : Inv ops s) {i : ι}
    (hexclusive : AFSClient.isOpenWithCreateNExclusive (ops i).fi.flags = true) :
    Inv ops (next ops path s i) := by
  intro j ret hret
  by_cases hj : j = i
  · subst hj
    have hphase : (advance (ops j) path (s.phases j) ⟨s.srv, s.clients (ops j).client,
        s.errno (ops j).client⟩).1 = .returned ret :=
      (Function.update_self (β := fun _ => Phase) j _ s.phases).symm.trans hret
    cases hs : s.phases j with
    | prepared =>
        rw [hs] at hphase
        cases hphase
        exact openTemp_nonneg_iff hexclusive _
    | returned ret' =>
        rw [hs] at hphase
        cases hphase
        exact h j ret hs
    | asking => rw [hs] at hphase; cases hphase
    | answered r => rw [hs] at hphase; cases hphase
    | created => rw [hs] at hphase; cases hphase
    | received replies => rw [hs] at hphase; cases hphase
    | decided o_fl =>
        rw [hs] at hphase
        simp only [advance] at hphase
        split_ifs at hphase <;> cases hphase
  · refine h j ret ?_
    rw [← hret]
    exact (Function.update_of_ne hj _ s.phases).symm

/-- At most one of the opens returns a descriptor exactly if at most one of those that return gets its local
open through. -/
theorem atMostOne_iff {start : Contest Name ι} (hstart : Start ops path start)
    {trace : List (Contest Name ι × ι)} {t : Contest Name ι} (hrun : Run (step ops path) start trace t) :
    AtMostOne t ↔ ∀ i j, GotThrough ops t i → GotThrough ops t j → i = j := by
  have hinv : Inv ops t := by
    refine hrun.invariant (Inv ops) (fun i ret hret => ?_) fun s i t h hstep => ?_
    · rw [hstart.asking i] at hret
      cases hret
    · rw [hstep]
      exact h.next (hstart.exclusive i)
  have hopened : ∀ i, Opened t i ↔ GotThrough ops t i := by
    intro i
    constructor
    · rintro ⟨ret, hret, hpos⟩
      exact ⟨⟨ret, hret⟩, (hinv i ret hret).mp hpos⟩
    · rintro ⟨⟨ret, hret⟩, hfails⟩
      exact ⟨ret, hret, (hinv i ret hret).mpr hfails⟩
  unfold AtMostOne
  simp only [hopened]

end Contest

section Sample

/-- Two clients open `/f` for an exclusive creation, and nothing fails. -/
def sampleOps (i : Bool) : Opening Bool where
  client := i
  E := .smooth 5
  fi := ⟨O_RDWR ||| O_CREAT ||| O_EXCL, 0⟩
  is_create := true

/-- Server and clients have no files. -/
def sampleContest : Contest Bool Bool where
  srv := ⟨.empty ⟨[], default, default⟩, []⟩
  clients _ := ⟨.empty ⟨[], default, default⟩, [], ∅, []⟩
  errno _ := 0
  phases _ := .asking

omit [Sha256] in
theorem sampleContest_start : Start sampleOps sampleF sampleContest :=
  ⟨fun _ => rfl, rfl, fun _ => (by decide : AFSClient.isOpenWithCreateNExclusive
    (O_RDWR ||| O_CREAT ||| O_EXCL) = true), fun _ _ => rfl, fun _ => rfl⟩

/-- The same opens, where the open of the second client's copy fails. -/
def sampleRefused (i : Bool) : Opening Bool :=
  { sampleOps i with
    E := { Env.smooth 5 with
      fails := fun site => if i = true ∧ site = .clientOpenOpen then some EIO else none
      fails_pos := fun site e h => by
        split_ifs at h
        cases h
        decide } }

omit [Sha256] in
theorem sampleRefused_start : Start sampleRefused sampleF sampleContest :=
  ⟨fun _ => rfl, rfl, fun _ => (by decide : AFSClient.isOpenWithCreateNExclusive
    (O_RDWR ||| O_CREAT ||| O_EXCL) = true), fun _ _ => rfl, fun _ => rfl⟩

/-- The state once the opens took their steps in the given order. -/
def afterSteps (ops : Bool → Opening Bool) (order : List Bool) : Contest Bool Bool :=
  order.foldl (next ops sampleF) sampleContest

theorem run_afterSteps (ops : Bool → Opening Bool) (order : List Bool) :
    ∃ trace, Run (step ops sampleF) sampleContest trace (afterSteps ops order) := by
  induction order using List.reverseRecOn with
  | nil => exact ⟨[], .nil⟩
  | append_singleton order i ih =>
      obtain ⟨trace, hrun⟩ := ih
      have hstep : step ops sampleF (afterSteps ops order) i (afterSteps ops (order ++ [i])) := by
        rw [step, afterSteps, afterSteps, List.foldl_append]
        rfl
      exact ⟨_, hrun.cons hstep⟩

/-- What an open has returned. -/
def Phase.result : Phase → Option Int
  | .returned ret => some ret
  | _ => none

omit [Sha256] in
theorem opened_of_result {s : Contest Bool Bool} {i : Bool} (ret : Int)
    (h : (s.phases i).result = some ret) (hret : 0 ≤ ret) : Opened s i := by
  cases hphase : s.phases i with
  | returned ret' =>
      rw [hphase] at h
      cases h
      exact ⟨ret, hphase, hret⟩
  | _ => rw [hphase] at h; cases h

omit [Sha256] in
/-- Both clients go to their ends, and the second one's local open fails: it returns an error, and the first a
descriptor. -/
theorem atMostOne_iff_sample :
    letI := sampleSha256
    let t := afterSteps sampleRefused [false, true, false, false, false, false, true, true, true, true]
    Opened t false ∧ (t.phases true).result = some (- EIO) ∧ AtMostOne t := by
  let _ := sampleSha256
  intro t
  obtain ⟨trace, hrun⟩ := run_afterSteps sampleRefused
    [false, true, false, false, false, false, true, true, true, true]
  have hrefused : ¬ GotThrough sampleRefused t true := fun h => by
    have hfails := h.2
    cases hfails
  have hfirst : Opened t false := opened_of_result 0 (by decide +kernel) (le_refl 0)
  have hsecond : (t.phases true).result = some (- EIO) := by decide +kernel
  refine ⟨hfirst, hsecond, (atMostOne_iff sampleRefused_start hrun).mpr fun i j hi hj => ?_⟩
  cases i with
  | true => exact absurd hi hrefused
  | false =>
      cases j with
      | true => exact absurd hj hrefused
      | false => rfl

omit [Sha256] in
/-- Both clients ask before either creates. The server creates the file for the first; it finds it when the second one
calls and streams it, `O_EXCL` or not; and both get a descriptor. -/
theorem two_opens_return :
    letI := sampleSha256
    let t := afterSteps sampleOps [false, true, false, false, false, false, true, true, true, true]
    Start sampleOps sampleF sampleContest ∧ (∃ trace, Run (step sampleOps sampleF) sampleContest trace t) ∧
      Opened t false ∧ Opened t true ∧ ¬ AtMostOne t := by
  let _ := sampleSha256
  intro t
  have hfirst : Opened t false := opened_of_result 0 (by decide +kernel) (le_refl 0)
  have hsecond : Opened t true := opened_of_result 0 (by decide +kernel) (le_refl 0)
  exact ⟨sampleContest_start, run_afterSteps _ _, hfirst, hsecond, fun h => nomatch h false true hfirst hsecond⟩

end Sample

end Exclusive

end Bnfs
