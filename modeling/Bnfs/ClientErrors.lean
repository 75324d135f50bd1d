import Bnfs.ClientFlushResult

/-! What becomes of an error of the server or the network on its way to the caller. Four operations return
the field of the reply and do not ask whether there was one; `readDir` returns only the errno 1; `Unlink` and
`Rename` ask whether the call went well, and return -1 whatever went wrong. -/

namespace Bnfs

open FileSystem Programs

/-- The operations of the client that are one call of the server. -/
inductive RemoteOp where
  | getAttr (fileName : CString) (stbuf : Stat)
  | readDir (fileName : CString)
  | mkdir (fileName : CString) (mode : Int)
  | rmdir (fileName : CString)
  | access (path : CString)
  | unlink (file_path : CString)
  | rename (old_path new_path : CString)

namespace RemoteOp

def paths : RemoteOp → List CString
  | .getAttr path _ | .readDir path | .mkdir path _ | .rmdir path | .access path | .unlink path => [path]
  | .rename old_path new_path => [old_path, new_path]

def rpc : RemoteOp → Rpc
  | .getAttr .. => .getAttr
  | .readDir .. => .readDir
  | .mkdir .. => .mkdir
  | .rmdir .. => .rmdir
  | .access .. => .access
  | .unlink .. => .unlink
  | .rename .. => .rename

/-- What the operation returns. -/
def result [Sha256] (E : Env) (w : World) : RemoteOp → Int
  | .getAttr fileName stbuf => (AFSClient.getAttr E fileName stbuf w).1.1
  | .readDir fileName => (AFSClient.readDir E fileName w).1.1
  | .mkdir fileName mode => (AFSClient.mkdir E fileName mode w).1
  | .rmdir fileName => (AFSClient.rmdir E fileName w).1
  | .access path => (AFSClient.access E path w).1
  | .unlink file_path => (AFSClient.unlink E file_path w).1
  | .rename old_path new_path => (AFSClient.rename E old_path new_path w).1

/-- The errno of a system call on a file that has to be there. -/
def errnoOnFile (E : Env) (site : Site) (srv : Server) (path : CString) : Option Int :=
  (E.fails site).or (if srv.files.names (getServerPath path.bytes) = none then some ENOENT else none)

/-- The errno of the system call the handler makes, if it fails. -/
def errno (E : Env) (srv : Server) : RemoteOp → Option Int
  | .getAttr path _ => errnoOnFile E .getAttrLstat srv path
  | .readDir path => errnoOnFile E .readDirOpendir srv path
  | .mkdir path _ =>
      (E.fails .mkdirMkdir).or
        (if srv.files.names (getServerPath path.bytes) = none then none else some EEXIST)
  | .rmdir path => errnoOnFile E .rmdirRmdir srv path
  | .access path => errnoOnFile E .accessAccess srv path
  | .unlink path => errnoOnFile E .unlinkUnlink srv path
  | .rename path _ => errnoOnFile E .renameRename srv path

/-- The error a reply stands for. -/
def errorcode (errno : Option Int) : Int := -errno.getD 0

variable {E : Env} {srv : Server} {op : RemoteOp} {e : Int}

theorem errnoOnFile_pos {site : Site} {path : CString} (h : errnoOnFile E site srv path = some e) :
    0 < e := by
  rcases Option.or_eq_some_iff.mp h with hfails | ⟨_, hmissing⟩
  · exact E.fails_pos site e hfails
  · split_ifs at hmissing
    cases hmissing
    decide

theorem errno_pos (h : op.errno E srv = some e) : 0 < e := by
  cases op with
  | mkdir path mode =>
      rcases Option.or_eq_some_iff.mp h with hfails | ⟨_, hthere⟩
      · exact E.fails_pos .mkdirMkdir e hfails
      · split_ifs at hthere
        cases hthere
        decide
  | getAttr => exact errnoOnFile_pos h
  | readDir => exact errnoOnFile_pos h
  | rmdir => exact errnoOnFile_pos h
  | access => exact errnoOnFile_pos h
  | unlink => exact errnoOnFile_pos h
  | rename => exact errnoOnFile_pos h

section Replies

variable (E : Env) (srv : Server)

theorem errnoOnFile_cases (site : Site) (path : CString) :
    (∃ e, E.fails site = some e ∧ errnoOnFile E site srv path = some e) ∨
    (E.fails site = none ∧ srv.files.names (getServerPath path.bytes) = none ∧
      errnoOnFile E site srv path = some ENOENT) ∨
    (E.fails site = none ∧ ∃ ino, srv.files.names (getServerPath path.bytes) = some ino ∧
      errnoOnFile E site srv path = none) := by
  unfold errnoOnFile
  cases hfails : E.fails site with
  | some e => exact Or.inl ⟨e, rfl, rfl⟩
  | none =>
      cases hname : srv.files.names (getServerPath path.bytes) with
      | none => exact Or.inr (Or.inl ⟨rfl, rfl, by simp⟩)
      | some ino => exact Or.inr (Or.inr ⟨rfl, ino, rfl, by simp⟩)

theorem getAttr_reply (path : CString) (stbuf : Stat) :
    (FileServer.getAttr E path.bytes srv).1.map (·.errorcode) =
      some (errorcode ((RemoteOp.getAttr path stbuf).errno E srv)) := by
  rcases errnoOnFile_cases E srv .getAttrLstat path with
    ⟨e, hfails, herrno⟩ | ⟨hfails, hname, herrno⟩ | ⟨hfails, ino, hname, herrno⟩ <;>
  · simp only [FileServer.getAttr, errno, *]
    rfl

theorem readDir_reply (path : CString) : (FileServer.readDir E path.bytes srv).1 =
    some (if (RemoteOp.readDir path).errno E srv = none then E.entries else [],
      errorcode ((RemoteOp.readDir path).errno E srv)) := by
  rcases errnoOnFile_cases E srv .readDirOpendir path with
    ⟨e, hfails, herrno⟩ | ⟨hfails, hname, herrno⟩ | ⟨hfails, ino, hname, herrno⟩ <;>
  · simp only [FileServer.readDir, errno, *]
    rfl

theorem mkdir_reply (path : CString) (mode : Int) : (FileServer.mkdir E path.bytes mode srv).1 =
    some (errorcode ((RemoteOp.mkdir path mode).errno E srv)) := by
  unfold FileServer.mkdir
  cases hfails : E.fails .mkdirMkdir with
  | some e =>
      simp only [errno, hfails]
      rfl
  | none =>
      cases hname : srv.files.names (getServerPath path.bytes) with
      | none =>
          simp only [errno, hfails, hname]
          rfl
      | some ino =>
          simp only [errno, hfails, hname]
          rfl

theorem rmdir_reply (path : CString) : (FileServer.rmdir E path.bytes srv).1 =
    some (errorcode ((RemoteOp.rmdir path).errno E srv)) := by
  rcases errnoOnFile_cases E srv .rmdirRmdir path with
    ⟨e, hfails, herrno⟩ | ⟨hfails, hname, herrno⟩ | ⟨hfails, ino, hname, herrno⟩ <;>
  · simp only [FileServer.rmdir, errno, *]
    rfl

theorem access_reply (path : CString) : (FileServer.access E path.bytes srv).1 =
    some (errorcode ((RemoteOp.access path).errno E srv)) := by
  rcases errnoOnFile_cases E srv .accessAccess path with
    ⟨e, hfails, herrno⟩ | ⟨hfails, hname, herrno⟩ | ⟨hfails, ino, hname, herrno⟩ <;>
  · simp only [FileServer.access, errno, *]
    rfl

/-- The status says whether the call succeeded, and not how it failed. -/
theorem unlink_reply (path : CString) : (FileServer.unlink E path.bytes srv).1.isSome =
    ((RemoteOp.unlink path).errno E srv).isNone := by
  rcases errnoOnFile_cases E srv .unlinkUnlink path with
    ⟨e, hfails, herrno⟩ | ⟨hfails, hname, herrno⟩ | ⟨hfails, ino, hname, herrno⟩ <;>
  · simp only [FileServer.unlink, errno, *]
    rfl

theorem rename_reply (path new_path : CString) :
    (FileServer.rename E path.bytes new_path.bytes srv).1.isSome =
      ((RemoteOp.rename path new_path).errno E srv).isNone := by
  rcases errnoOnFile_cases E srv .renameRename path with
    ⟨e, hfails, herrno⟩ | ⟨hfails, hname, herrno⟩ | ⟨hfails, ino, hname, herrno⟩ <;>
  · simp only [FileServer.rename, errno, *]
    rfl

/-- The server after the handler ran. -/
def served : RemoteOp → Server
  | .getAttr path _ => (FileServer.getAttr E path.bytes srv).2
  | .readDir path => (FileServer.readDir E path.bytes srv).2
  | .mkdir path mode => (FileServer.mkdir E path.bytes mode srv).2
  | .rmdir path => (FileServer.rmdir E path.bytes srv).2
  | .access path => (FileServer.access E path.bytes srv).2
  | .unlink path => (FileServer.unlink E path.bytes srv).2
  | .rename path new_path => (FileServer.rename E path.bytes new_path.bytes srv).2

end Replies

theorem unary_answered {Reply : Type} {r : Rpc} {handler : Server → Option Reply × Server} {w : World}
    (h : E.rpc r = .answered) : (unary E r handler w).1 = (handler w.srv).1 := by
  unfold unary
  rw [h]

theorem unary_failed {Reply : Type} {r : Rpc} {handler : Server → Option Reply × Server} {w : World}
    (h : E.rpc r ≠ .answered) : (unary E r handler w).1 = none := by
  unfold unary
  cases hfate : E.rpc r with
  | answered => exact absurd hfate h
  | lost => rfl
  | unanswered => rfl

/-- The errors that come back as such: a positive errno has its own code. -/
theorem errorcode_neg (h : op.errno E srv = some e) : errorcode (op.errno E srv) < 0 := by
  have hpos := errno_pos h
  rw [h, errorcode, Option.getD_some]
  omega

theorem errorcode_nonpos : errorcode (op.errno E srv) ≤ 0 := by
  cases herrno : op.errno E srv with
  | none => exact le_refl 0
  | some e =>
      rw [← herrno]
      exact le_of_lt (errorcode_neg herrno)

theorem baseResult_errorcode (op : RemoteOp) :
    AFSClient.baseResult (some (errorcode (op.errno E srv))) = errorcode (op.errno E srv) := by
  unfold AFSClient.baseResult
  cases herrno : op.errno E srv with
  | none => rfl
  | some e =>
      have hneg := errorcode_neg herrno
      rw [herrno] at hneg
      exact if_pos hneg

/-- The operations that return the field of the reply. -/
def ReturnsField : RemoteOp → Prop
  | .getAttr .. | .mkdir .. | .rmdir .. | .access .. => True
  | _ => False

variable [Sha256] {w : World}

/-- They return 0 if there is no reply. -/
theorem result_of_field (hop : op.ReturnsField) :
    op.result E w = if E.rpc op.rpc = .answered then errorcode (op.errno E w.srv) else 0 := by
  have hbase : ∀ {handler : Server → Option Int × Server},
      (E.rpc op.rpc = .answered → (handler w.srv).1 = some (errorcode (op.errno E w.srv))) →
      AFSClient.baseResult (unary E op.rpc handler w).1 =
        if E.rpc op.rpc = .answered then errorcode (op.errno E w.srv) else 0 := by
    intro handler hreply
    by_cases hrpc : E.rpc op.rpc = .answered
    · rw [if_pos hrpc, unary_answered hrpc, hreply hrpc, baseResult_errorcode]
    · rw [if_neg hrpc, unary_failed hrpc]
      rfl
  cases op with
  | getAttr fileName stbuf =>
      have hreply := getAttr_reply E w.srv fileName stbuf
      show (AFSClient.getAttr E fileName stbuf w).1.1 = if E.rpc .getAttr = .answered then _ else _
      unfold AFSClient.getAttr
      rw [bind_run]
      by_cases hrpc : E.rpc .getAttr = .answered
      · rw [unary_answered hrpc, if_pos hrpc]
        cases hsome : (FileServer.getAttr E fileName.bytes w.srv).1 with
        | none =>
            rw [hsome] at hreply
            cases hreply
        | some reply =>
            rw [hsome] at hreply
            exact Option.some.inj hreply
      · rw [unary_failed hrpc, if_neg hrpc]
        rfl
  | mkdir fileName mode => exact hbase fun _ => mkdir_reply E w.srv fileName mode
  | rmdir fileName => exact hbase fun _ => rmdir_reply E w.srv fileName
  | access path => exact hbase fun _ => access_reply E w.srv path
  | readDir => exact hop.elim
  | unlink => exact hop.elim
  | rename => exact hop.elim

theorem result_readDir (fileName : CString) : (RemoteOp.readDir fileName).result E w =
    if E.rpc .readDir = .answered then
      match (RemoteOp.readDir fileName).errno E w.srv with
      | none => if (AFSClient.fillEntries E.filler 0 E.entries).1 then 0 else -ENOMEM
      | some e => if e = 1 then -1 else 0
    else 0 := by
  show (AFSClient.readDir E fileName w).1.1 = _
  unfold AFSClient.readDir
  rw [bind_run]
  by_cases hrpc : E.rpc .readDir = .answered
  · rw [unary_answered hrpc, if_pos hrpc, readDir_reply]
    cases herrno : (RemoteOp.readDir fileName).errno E w.srv with
    | none =>
        have hcode : errorcode none = 0 := rfl
        have hzero : ¬ (0 : Int) = -1 := by decide
        simp only [hcode, if_true, if_neg hzero]
        split_ifs <;> rfl
    | some e =>
        have hcode : errorcode (some e) = -1 ↔ e = 1 := by
          rw [errorcode, Option.getD_some]
          omega
        by_cases hone : e = 1
        · simp only [if_pos (hcode.mpr hone), if_pos hone]
          rfl
        · simp only [if_neg (hone ∘ hcode.mp), if_neg hone, reduceCtorEq, if_false]
          rfl
  · rw [unary_failed hrpc, if_neg hrpc]
    rfl

omit [Sha256] in
theorem unary_isSome {Reply : Type} {r : Rpc} {handler : Server → Option Reply × Server}
    (hreply : (handler w.srv).1.isSome = (op.errno E w.srv).isNone) :
    (unary E r handler w).1.isSome = true ↔ E.rpc r = .answered ∧ op.errno E w.srv = none := by
  by_cases hrpc : E.rpc r = .answered
  · rw [unary_answered hrpc, hreply, Option.isNone_iff_eq_none, and_iff_right hrpc]
  · rw [unary_failed hrpc]
    exact iff_of_false Bool.false_ne_true fun h => hrpc h.1

/-- `Unlink` and `Rename` return -1 whatever went wrong. -/
theorem result_unlink (file_path : CString) : (RemoteOp.unlink file_path).result E w =
    if E.rpc .unlink = .answered ∧ (RemoteOp.unlink file_path).errno E w.srv = none then 0 else -1 := by
  have hsrv : (deleteFromTemp E file_path w).2.srv = w.srv := srvSame_deleteFromTemp E file_path w
  have hsome := unary_isSome (E := E) (r := .unlink)
    (unlink_reply E (deleteFromTemp E file_path w).2.srv file_path)
  rw [hsrv] at hsome
  show (AFSClient.unlink E file_path w).1 = _
  unfold AFSClient.unlink
  simp only [bind_run, ← hsome]
  split_ifs <;> rfl

/-- Without a file in the cache the path is not looked at locally. -/
theorem result_rename {old_path : CString} (new_path : CString)
    (hcache : w.files.names (getCachePath old_path) = none) :
    (RemoteOp.rename old_path new_path).result E w =
      if E.rpc .rename = .answered ∧ (RemoteOp.rename old_path new_path).errno E w.srv = none then 0
      else -1 := by
  have hmissing : ∃ e, isPresentInCache E old_path w = failWith e w := by
    rcases posixOpen_run E .isPresentInCache w (getCachePath old_path) (by decide : O_RDONLY.has O_CREAT = false)
      (by decide) with
      ⟨ino, ⟨_, hname⟩, _⟩ | ⟨_, e, _, heq⟩
    · exact absurd (hname.symm.trans hcache) (Option.some_ne_none ino)
    · exact ⟨e, heq⟩
  obtain ⟨e, heq⟩ := hmissing
  have hsome := unary_isSome (E := E) (w := (failWith e w).2) (r := .rename)
    (rename_reply E w.srv old_path new_path)
  have hfd : ¬ (failWith e w).1 > 0 := by
    show ¬ (-1 : Int) > 0
    omega
  show (AFSClient.rename E old_path new_path w).1 = _
  unfold AFSClient.rename
  rw [bind_run, heq, if_neg hfd]
  unfold AFSClient.renameOnServer
  have hiff : (E.rpc .rename = .answered ∧ (RemoteOp.rename old_path new_path).errno E w.srv = none) ↔ _ :=
    hsome.symm
  simp only [bind_run, hiff]
  split_ifs <;> rfl

/-- 0 if the server did it, the errno negated if its system call failed, something negative if the RPC
failed. -/
def Reports (E : Env) (w : World) (op : RemoteOp) : Prop :=
  match E.rpc op.rpc with
  | .answered =>
      match op.errno E w.srv with
      | none => op.result E w = 0
      | some e => op.result E w = -e
  | _ => op.result E w < 0

/-- The cases in which this comes about: an operation that returns the field of the reply gets one; a
directory is listed in full, or the errno is 1; the call of `Unlink` or `Rename` goes well or fails as a
whole, or the errno is 1. -/
def Conveyed (E : Env) (srv : Server) (op : RemoteOp) : Prop :=
  match op with
  | .getAttr .. | .mkdir .. | .rmdir .. | .access .. => E.rpc op.rpc = .answered
  | .readDir _ => E.rpc .readDir = .answered ∧
      (op.errno E srv = some 1 ∨
        (op.errno E srv = none ∧ (AFSClient.fillEntries E.filler 0 E.entries).1 = true))
  | .unlink .. | .rename .. => E.rpc op.rpc = .answered →
      op.errno E srv = none ∨ op.errno E srv = some 1

/-- An operation on paths without a file in the cache reports what happened, exactly in these cases. -/
theorem reports_iff_conveyed (hcache : ∀ path ∈ op.paths, w.files.names (getCachePath path) = none) :
    op.Reports E w ↔ op.Conveyed E w.srv := by
  have hfield : op.ReturnsField → (op.Reports E w ↔ E.rpc op.rpc = .answered) := by
    intro hop
    rw [Reports, result_of_field hop]
    cases hrpc : E.rpc op.rpc with
    | answered =>
        refine iff_of_true ?_ rfl
        cases op.errno E w.srv <;> rfl
    | lost => simp
    | unanswered => simp
  have hstatus : op.result E w =
        (if E.rpc op.rpc = .answered ∧ op.errno E w.srv = none then 0 else -1) →
      (op.Reports E w ↔ (E.rpc op.rpc = .answered →
        op.errno E w.srv = none ∨ op.errno E w.srv = some 1)) := by
    intro hresult
    rw [Reports, hresult]
    cases hrpc : E.rpc op.rpc with
    | answered =>
        cases herrno : op.errno E w.srv with
        | none => simp
        | some e =>
            simp only [reduceCtorEq, and_false, if_false, false_or, forall_const, Option.some.injEq]
            omega
    | lost => simp
    | unanswered => simp
  cases op with
  | getAttr => exact hfield trivial
  | mkdir => exact hfield trivial
  | rmdir => exact hfield trivial
  | access => exact hfield trivial
  | unlink file_path => exact hstatus (result_unlink file_path)
  | rename old_path new_path =>
      exact hstatus (result_rename new_path (hcache old_path List.mem_cons_self))
  | readDir fileName =>
      have hresult := result_readDir (E := E) (w := w) fileName
      simp only [Reports, Conveyed, hresult]
      cases hrpc : E.rpc .readDir with
      | answered =>
          simp only [rpc, hrpc]
          cases herrno : (RemoteOp.readDir fileName).errno E w.srv with
          | none =>
              simp only [if_true, true_and, reduceCtorEq, false_or]
              split_ifs with hall
              · exact iff_of_true rfl hall
              · exact iff_of_false (by decide) hall
          | some e =>
              have hpos := errno_pos herrno
              simp only [if_true, true_and, Option.some.injEq, reduceCtorEq, false_and, or_false]
              split_ifs with hone
              · exact iff_of_true (by omega) hone
              · exact iff_of_false (by omega) hone
      | lost => simp [rpc, hrpc]
      | unanswered => simp [rpc, hrpc]

section Sample

/-- The server has the directory `/f`. -/
def sampleRemote : World where
  srv := ⟨(Fs.empty ⟨[], default, default⟩).create (getServerPath sampleF.bytes)
    ⟨[], default, default⟩, []⟩
  cl := ⟨.empty ⟨[], default, default⟩, [], ∅, []⟩
  errno := 0

omit [Sha256] in
theorem reports_iff_conveyed_sample :
    letI := sampleSha256
    (RemoteOp.mkdir sampleF 0o755).result (.smooth 5) sampleRemote = -EEXIST := by
  let _ := sampleSha256
  have hcache : ∀ path ∈ (RemoteOp.mkdir sampleF 0o755).paths,
      sampleRemote.files.names (getCachePath path) = none := fun _ _ => rfl
  have hreports : (RemoteOp.mkdir sampleF 0o755).Reports (.smooth 5) sampleRemote :=
    (reports_iff_conveyed hcache).mpr rfl
  exact hreports

omit [Sha256] in
/-- No server answers, and `mkdir` returns 0. -/
theorem unanswered_mkdir_returns_zero :
    letI := sampleSha256
    let E : Env := { Env.smooth 5 with rpc := fun _ => .lost }
    sampleRemote.files.names (getCachePath sampleF) = none ∧
      (RemoteOp.mkdir sampleF 0o755).result E sampleRemote = 0 ∧
      ¬ (RemoteOp.mkdir sampleF 0o755).Reports E sampleRemote := by
  let _ := sampleSha256
  exact ⟨rfl, rfl, fun h => lt_irrefl (0 : Int) h⟩

end Sample

end RemoteOp

end Bnfs
