import Bnfs.ClientOpenCopies

/-! Two runs that differ in what is on the stack before `GetAttr` of the server and `getOpenFlags` of the client
fill their `struct stat`. The server sends its buffer also when `lstat` failed; the client compares its own also when
no reply came. -/

namespace Bnfs

open FileSystem Programs FileServer

/-- The same operation with other memory under the two buffers. -/
def Env.withStacks (E : Env) (server client : Stat) : Env :=
  { E with serverStack := server, clientStack := client }

/-- The reply of `GetAttr` that leaves the server. -/
def sentReply (E : Env) (path : CString) (w : World) : Option StatResponse :=
  if E.rpc .getAttr = .lost then none else (FileServer.getAttr E path.bytes w.srv).1

section Reply

variable {E : Env} {path : CString} {w : World}

/-- `lstat` does not fail. -/
def LstatFinds (E : Env) (path : CString) (w : World) : Prop :=
  E.fails .getAttrLstat = none ∧ w.srv.files.names (getServerPath path.bytes) ≠ none

theorem getAttr_found (h : LstatFinds E path w) (server client : Stat) :
    (FileServer.getAttr (E.withStacks server client) path.bytes w.srv).1 =
      (FileServer.getAttr E path.bytes w.srv).1 := by
  obtain ⟨hok, hname⟩ := h
  obtain ⟨ino, hino⟩ := Option.ne_none_iff_exists'.mp hname
  unfold FileServer.getAttr Env.withStacks
  simp only [hok, hino]

/-- Without a file the buffer is sent as it is. -/
theorem getAttr_not_found (h : ¬ LstatFinds E path w) : ∃ errorcode, ∀ server client,
    (FileServer.getAttr (E.withStacks server client) path.bytes w.srv).1 = some (.ofStat server errorcode) := by
  unfold FileServer.getAttr Env.withStacks
  cases hfails : E.fails .getAttrLstat with
  | some e => exact ⟨-e, fun _ _ => by simp only [hfails]⟩
  | none =>
      cases hname : w.srv.files.names (getServerPath path.bytes) with
      | none => exact ⟨-ENOENT, fun _ _ => by simp only [hfails]⟩
      | some ino => exact absurd ⟨hfails, hname ▸ Option.some_ne_none ino⟩ h

theorem sentReply_same_iff : (∀ server client server' client',
      sentReply (E.withStacks server client) path w = sentReply (E.withStacks server' client') path w) ↔
    E.rpc .getAttr = .lost ∨ LstatFinds E path w := by
  have hsent : ∀ server client, sentReply (E.withStacks server client) path w =
      if E.rpc .getAttr = .lost then none
      else (FileServer.getAttr (E.withStacks server client) path.bytes w.srv).1 := fun _ _ => rfl
  by_cases hlost : E.rpc .getAttr = .lost
  · refine iff_of_true (fun server client server' client' => ?_) (Or.inl hlost)
    rw [hsent, hsent, if_pos hlost, if_pos hlost]
  · rw [or_iff_right hlost]
    constructor
    · intro h
      by_contra hnot
      obtain ⟨errorcode, hreply⟩ := getAttr_not_found hnot
      -- the two buffers differ in the device number
      have hsame := h default default { (default : Stat) with st_dev := 1 } default
      rw [hsent, hsent, if_neg hlost, if_neg hlost, hreply, hreply] at hsame
      have hdev : toUInt64 0 = toUInt64 1 := congrArg StatResponse.dev (Option.some.inj hsame)
      exact absurd hdev (by decide)
    · intro h server client server' client'
      rw [hsent, hsent, if_neg hlost, if_neg hlost, getAttr_found h, getAttr_found h]

end Reply

section Verdict

variable [Sha256] {E : Env} {path : CString} {fi : FuseFileInfo} {is_create : Bool} {w : World}

theorem tempTaken_withStacks_iff (server client : Stat) : TempTaken (E.withStacks server client) path w ↔
    TempReadable E path w ∧ ∃ file, w.files.find (getTempPath path) = some file ∧
      serverSecond (E.withStacks server client) path w ≤ toInt file.mtime.tv_sec := Iff.rfl

omit [Sha256] in
theorem madeAnew_withStacks_iff (flags : OpenFlags) (server client : Stat) :
    MadeAnew (E.withStacks server client) path flags is_create w ↔ MadeAnew E path flags is_create w := Iff.rfl

/-- The verdict depends on the buffers through the second of the server alone. -/
theorem verdict_eq_iff (server client server' client' : Stat) :
    verdict (E.withStacks server client) path fi is_create w =
        verdict (E.withStacks server' client') path fi is_create w ↔
      (MadeAnew E path fi.flags is_create w ∨
        (TempTaken (E.withStacks server client) path w ↔ TempTaken (E.withStacks server' client') path w)) := by
  have hcases := verdict_cases (E.withStacks server client) path fi is_create w
  have hcases' := verdict_cases (E.withStacks server' client') path fi is_create w
  rw [madeAnew_withStacks_iff] at hcases hcases'
  rcases hcases with ⟨hv, hnew⟩ | ⟨hv, hnew, htaken⟩ | ⟨hv, hnew, htaken⟩
  · rcases hcases' with ⟨hv', _⟩ | ⟨_, hnot, _⟩ | ⟨_, hnot, _⟩
    · exact iff_of_true (hv.trans hv'.symm) (Or.inl hnew)
    · exact absurd hnew hnot
    · exact absurd hnew hnot
  · rw [or_iff_right hnew, iff_true_left htaken, hv]
    rcases hcases' with ⟨_, hnew'⟩ | ⟨hv', _, htaken'⟩ | ⟨hv', _, htaken'⟩
    · exact absurd hnew' hnew
    · exact iff_of_true hv'.symm htaken'
    · exact iff_of_false (by rw [hv']; decide) htaken'
  · rw [or_iff_right hnew, iff_false_left htaken, hv]
    rcases hcases' with ⟨_, hnew'⟩ | ⟨hv', _, htaken'⟩ | ⟨hv', _, htaken'⟩
    · exact absurd hnew' hnew
    · exact iff_of_false (by rw [hv']; decide) fun hnot => hnot htaken'
    · exact iff_of_true hv'.symm htaken'

omit [Sha256] in
theorem toInt_bounds (x : Int) : -2 ^ 31 ≤ toInt x ∧ toInt x ≤ 2 ^ 31 - 1 := by
  have hlow : -((2 ^ 32 : Nat) : Int) / 2 ≤ x.bmod (2 ^ 32) := Int.le_bmod (by decide)
  have hhigh : x.bmod (2 ^ 32) < (((2 ^ 32 : Nat) : Int) + 1) / 2 := Int.bmod_lt (by decide)
  unfold toInt
  omega

omit [Sha256] in
/-- What an answer brings is the second of the file. -/
theorem serverSecond_answered (hanswered : E.rpc .getAttr = .answered) (hfinds : LstatFinds E path w)
    (server client : Stat) : serverSecond (E.withStacks server client) path w = serverSecond E path w := by
  obtain ⟨hok, hname⟩ := hfinds
  obtain ⟨ino, hino⟩ := Option.ne_none_iff_exists'.mp hname
  unfold serverSecond Env.withStacks
  simp only [hanswered, hok, Fs.find_of_names hino, if_true]

omit [Sha256] in
/-- Without an answer it is what was in the client's buffer. -/
theorem serverSecond_unanswered (hnot : E.rpc .getAttr ≠ .answered) (server client : Stat) :
    serverSecond (E.withStacks server client) path w = toInt client.st_mtim.tv_sec :=
  if_neg hnot

/-- Neither the reply nor the verdict depends on what the two buffers held before. -/
def StackFree (E : Env) (path : CString) (fi : FuseFileInfo) (is_create : Bool) (w : World) : Prop :=
  ∀ server client server' client',
    sentReply (E.withStacks server client) path w = sentReply (E.withStacks server' client') path w ∧
    verdict (E.withStacks server client) path fi is_create w =
      verdict (E.withStacks server' client') path fi is_create w

/-- The comparison of the times cannot turn out otherwise: there is no temporary copy to be looked at, or its time
is the largest there is. -/
def ComparesAlike (E : Env) (path : CString) (w : World) : Prop :=
  TempReadable E path w → ∀ file, w.files.find (getTempPath path) = some file →
    toInt file.mtime.tv_sec = 2 ^ 31 - 1

theorem verdict_same_iff (hreply : E.rpc .getAttr = .lost ∨ LstatFinds E path w) :
    (∀ server client server' client', verdict (E.withStacks server client) path fi is_create w =
      verdict (E.withStacks server' client') path fi is_create w) ↔
    E.rpc .getAttr = .answered ∨ ComparesAlike E path w := by
  have hnew : ¬ MadeAnew E path fi.flags is_create w := by
    rintro ⟨⟨hanswered, hmissing⟩, _⟩
    rcases hreply with hlost | ⟨hok, hname⟩
    · rw [hlost] at hanswered
      cases hanswered
    · rcases hmissing with hfails | ⟨_, hnone⟩
      · rw [hok] at hfails
        cases hfails
      · exact hname hnone
  simp only [verdict_eq_iff, or_iff_right hnew, tempTaken_withStacks_iff]
  by_cases hanswered : E.rpc .getAttr = .answered
  · have hfinds : LstatFinds E path w := hreply.resolve_left fun hlost => by
      rw [hlost] at hanswered
      cases hanswered
    refine iff_of_true (fun server client server' client' => ?_) (Or.inl hanswered)
    simp only [serverSecond_answered hanswered hfinds]
  · rw [or_iff_right hanswered]
    simp only [serverSecond_unanswered hanswered]
    constructor
    · intro h hreadable file hfind
      -- one buffer has the smallest time, the other the largest
      have hboth := h default { (default : Stat) with st_mtim := ⟨-2 ^ 31, 0⟩ } default
        { (default : Stat) with st_mtim := ⟨2 ^ 31 - 1, 0⟩ }
      have hearly : toInt (-2 ^ 31) ≤ toInt file.mtime.tv_sec := (toInt_bounds file.mtime.tv_sec).1
      obtain ⟨_, found, hfound, hlate⟩ := hboth.mp ⟨hreadable, file, hfind, hearly⟩
      rw [hfind] at hfound
      cases hfound
      have hlargest : (2 ^ 31 - 1 : Int) ≤ toInt file.mtime.tv_sec := hlate
      exact le_antisymm (toInt_bounds file.mtime.tv_sec).2 hlargest
    · intro halike server client server' client'
      have htaken : ∀ x : Int, (TempReadable E path w ∧ ∃ file, w.files.find (getTempPath path) = some file ∧
          toInt x ≤ toInt file.mtime.tv_sec) ↔
          TempReadable E path w ∧ ∃ file, w.files.find (getTempPath path) = some file := by
        intro x
        constructor
        · rintro ⟨hreadable, file, hfind, _⟩
          exact ⟨hreadable, file, hfind⟩
        · rintro ⟨hreadable, file, hfind⟩
          refine ⟨hreadable, file, hfind, ?_⟩
          rw [halike hreadable file hfind]
          exact (toInt_bounds x).2
      rw [htaken, htaken]

/-- The two runs agree exactly if `lstat` finds the file or the call does not get to the server, and the call is
answered or the comparison cannot turn out otherwise. -/
theorem stack_free_iff (E : Env) (path : CString) (fi : FuseFileInfo) (is_create : Bool) (w : World) :
    StackFree E path fi is_create w ↔ (E.rpc .getAttr = .lost ∨ LstatFinds E path w) ∧
      (E.rpc .getAttr = .answered ∨ ComparesAlike E path w) := by
  constructor
  · intro h
    have hreply := sentReply_same_iff.mp fun server client server' client' => (h server client server' client').1
    exact ⟨hreply, (verdict_same_iff hreply).mp fun server client server' client' =>
      (h server client server' client').2⟩
  · rintro ⟨hreply, hverdict⟩ server client server' client'
    exact ⟨sentReply_same_iff.mpr hreply server client server' client',
      (verdict_same_iff hreply).mpr hverdict server client server' client'⟩

end Verdict

/-- The server does not have `/f`. What is in its buffer goes out, and decides whether the copy is taken. -/
theorem stack_decides :
    letI := sampleSha256
    let early := (Env.smooth 5).withStacks default default
    let late := (Env.smooth 5).withStacks { (default : Stat) with st_mtim := ⟨5, 0⟩ } default
    verdict early sampleF ⟨O_RDWR, 0⟩ false sampleDirty = 2 ∧ verdict late sampleF ⟨O_RDWR, 0⟩ false sampleDirty = 1 ∧
      (sentReply early sampleF sampleDirty).map (·.mtime) = some 0 ∧
      (sentReply late sampleF sampleDirty).map (·.mtime) = some 5 ∧
      ¬ StackFree (.smooth 5) sampleF ⟨O_RDWR, 0⟩ false sampleDirty := by
  let _ := sampleSha256
  intro early late
  have hearly : verdict early sampleF ⟨O_RDWR, 0⟩ false sampleDirty = 2 := by decide +kernel
  have hlate : verdict late sampleF ⟨O_RDWR, 0⟩ false sampleDirty = 1 := by decide +kernel
  refine ⟨hearly, hlate, by decide, by decide, fun h => ?_⟩
  have hsame : verdict early sampleF ⟨O_RDWR, 0⟩ false sampleDirty =
      verdict late sampleF ⟨O_RDWR, 0⟩ false sampleDirty := (h _ _ _ _).2
  rw [hearly, hlate] at hsame
  exact absurd hsame (by decide)

end Bnfs
