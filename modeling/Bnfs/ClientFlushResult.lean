import Bnfs.ClientRules
import Bnfs.UploadBroken

/-! What a close that returns 0 says about the server. `unreliable_flush` returns an error only when the
descriptor cannot be duplicated and closed; the result of `AFS_flush` it does not look at, and a stream
that breaks on the way it cannot see. So 0 means the bytes are on the server exactly when every step of
the upload happens to go well. -/

namespace Bnfs

open FileSystem Programs FileServer

/-- The server is as it was. -/
def World.SrvSame (w w' : World) : Prop := w'.srv = w.srv

instance : IsPreorder World World.SrvSame where
  refl _ := rfl
  trans _ _ _ h h' := h'.trans h

theorem World.Frame.srvSame {allowed : Set Bytes} {w w' : World} (h : World.Frame allowed w w') :
    World.SrvSame w w' := h.srv

section Local

variable (E : Env)

theorem srvSame_posixOpen (site : Site) (name : Bytes) (flags : OpenFlags) :
    Keeps World.SrvSame (posixOpen E site name flags) :=
  (keeps_posixOpen (Set.mem_univ name)).mono fun _ _ h => h.srvSame

theorem srvSame_posixUtime (site : Site) (name : Bytes) (t : Int) :
    Keeps World.SrvSame (posixUtime E site name t) :=
  (keeps_onFile (Set.mem_univ name)).mono fun _ _ h => h.srvSame

variable [Sha256] (path : CString)

/-- A commit has nothing to do with the server. -/
theorem srvSame_commitToCache (t : Int) : Keeps World.SrvSame (commitToCache E path t) :=
  commitToCache_keeps (srvSame_posixOpen E _ _ _) (same_getErrno.mono fun _ _ h => h.srv)
    (fun fd => (same_posixClose fd).mono fun _ _ h => h.srv)
    ((keeps_systemCp (Set.mem_univ _)).mono fun _ _ h => h.srvSame) (srvSame_posixUtime E _ _ _)
    (srvSame_posixUtime E _ _ _) fun _ => rfl

theorem srvSame_deleteFromTemp : Keeps World.SrvSame (deleteFromTemp E path) := by
  refine ((keeps_posixRemove (Set.mem_univ _)).mono fun _ _ h => h.srvSame).bind fun _ => ?_
  exact fun _ => rfl

end Local

section Stream

variable (E : Env)

theorem ifstreamRead_same (site : Site) (name : Bytes) :
    Keeps World.Same (AFSClient.ifstreamRead E site name) := fun w => by
  unfold AFSClient.ifstreamRead
  split <;> exact ⟨rfl, rfl, rfl⟩

theorem ifstreamRead_eq_some_iff (site : Site) (name content : Bytes) (w : World) :
    (AFSClient.ifstreamRead E site name w).1 = some content ↔
      E.fails site = none ∧ (w.files.find name).map (·.content) = some content := by
  unfold AFSClient.ifstreamRead
  cases hfails : E.fails site <;> simp

theorem putFileStream_srv (requests : List PutFileReq) (w : World) :
    (AFSClient.putFileStream E requests w).2.srv =
      if E.upload.reached then (putFile E (E.upload.arrive requests) w.srv).2 else w.srv := by
  unfold AFSClient.putFileStream
  split_ifs <;> rfl

/-- A stream without a message leaves the server as it is. -/
theorem srvSame_putFileStream_nil : Keeps World.SrvSame (AFSClient.putFileStream E []) := fun w => by
  have harrive : E.upload.arrive ([] : List PutFileReq) = [] := by
    unfold StreamFate.arrive
    split
    · rfl
    · exact List.take_nil
  rw [World.SrvSame, putFileStream_srv, harrive, putFile_nil]
  split_ifs <;> rfl

end Stream

section Flush

variable [Sha256] (E : Env) (path : CString)

/-- The messages of the upload that reach the handler. -/
def arriving (content : Bytes) : List PutFileReq :=
  E.upload.arrive (uploadRequests path.bytes
    (AFSClient.sentChunks E.writeOk 1 (Chunks.pieces BUFSIZE content)))

/-- What a flush of a dirty path does to the server: all that counts is whether the temporary file can be
read, the first message goes out, and the call gets there. -/
theorem flush_srv {w : World} (hdirty : getHashedPath path ∈ w.cl.dirty_files) :
    (AFSClient.flush E path w).2.srv =
      match (AFSClient.ifstreamRead E .clientFlushIfstream (getTempPath path) w).1 with
      | none => w.srv
      | some content => if E.writeOk 0 ∧ E.upload.reached then
          (putFile E (arriving E path content) w.srv).2 else w.srv := by
  have hsame := ifstreamRead_same E .clientFlushIfstream (getTempPath path) w
  unfold AFSClient.flush
  rw [bind_run]
  cases hfile : (AFSClient.ifstreamRead E .clientFlushIfstream (getTempPath path) w).1 with
  | none => exact hsame.srv
  | some content =>
      simp only [bind_run, isFileDirty, hsame.dirty, hdirty, decide_true]
      rw [if_neg (by decide)]
      cases hok : E.writeOk 0 with
      | false =>
          have hrest : Keeps World.SrvSame (do
              let _ ← AFSClient.putFileStream E []
              deleteFromTemp E path
              pure (-1) : Prog Int) :=
            (srvSame_putFileStream_nil E).bind fun _ =>
              (srvSame_deleteFromTemp E path).bind fun _ => .pure _
          exact (hrest _).trans hsame.srv
      | true =>
          simp only [Bool.true_eq_false, if_false, true_and, bind_run]
          have hsent := putFileStream_srv E (uploadRequests path.bytes (AFSClient.sentChunks E.writeOk 1
            (Chunks.pieces BUFSIZE content))) (AFSClient.ifstreamRead E .clientFlushIfstream (getTempPath path) w).2
          rw [hsame.srv] at hsent
          revert hsent
          generalize AFSClient.putFileStream E _ _ = sent
          obtain ⟨reply, w'⟩ := sent
          intro hsent
          cases reply with
          | none => exact hsent
          | some reply => exact (srvSame_commitToCache E path (toInt reply.lastModifiedTime) w').trans hsent

end Flush

section Chunks

open AFSClient

theorem sentChunks_isPrefix (writeOk : Nat → Bool) (k : Nat) (chunks : List Bytes) :
    sentChunks writeOk k chunks <+: chunks := by
  induction chunks generalizing k with
  | nil => exact List.prefix_rfl
  | cons chunk rest ih =>
      rw [sentChunks]
      split_ifs
      · exact (List.cons_prefix_cons).mpr ⟨rfl, ih (k + 1)⟩
      · exact List.nil_prefix

/-- A chunk is sent when its `Write` and all before it returned true. -/
theorem lt_sentChunks_length_iff (writeOk : Nat → Bool) (k : Nat) (chunks : List Bytes) (n : Nat) :
    n < (sentChunks writeOk k chunks).length ↔
      n < chunks.length ∧ ∀ m ≤ n, writeOk (k + m) = true := by
  induction chunks generalizing k n with
  | nil => simp [sentChunks]
  | cons chunk rest ih =>
      rw [sentChunks]
      split_ifs with hok
      · cases n with
        | zero => simp [hok]
        | succ n =>
            rw [List.length_cons, List.length_cons, Nat.add_lt_add_iff_right, ih (k + 1) n,
              Nat.add_lt_add_iff_right]
            refine and_congr_right fun _ => ⟨fun h m hm => ?_, fun h m hm => ?_⟩
            · cases m with
              | zero => exact hok
              | succ m => exact Nat.add_right_comm k m 1 ▸ h m (by omega)
            · exact Nat.add_right_comm k m 1 ▸ h (m + 1) (by omega)
      · simp only [List.length_nil, Nat.not_lt_zero, false_iff, not_and, not_forall]
        exact fun _ => ⟨0, Nat.zero_le n, hok⟩

variable (E : Env)

/-- Of the chunks of the file, those that arrive. -/
def arrivingChunks (content : Bytes) : List Bytes :=
  match E.upload.received with
  | none => sentChunks E.writeOk 1 (Chunks.pieces BUFSIZE content)
  | some k => (sentChunks E.writeOk 1 (Chunks.pieces BUFSIZE content)).take (k - 1)

theorem arriving_eq (path : CString) (content : Bytes) (h : E.upload.received ≠ some 0) :
    arriving E path content = uploadRequests path.bytes (arrivingChunks E content) := by
  unfold arriving StreamFate.arrive arrivingChunks
  cases hreceived : E.upload.received with
  | none => rfl
  | some k =>
      cases k with
      | zero => exact absurd hreceived h
      | succ k =>
          simp only [uploadRequests, List.take_succ_cons, Nat.add_sub_cancel, List.map_take]

theorem arriving_eq_nil (path : CString) (content : Bytes) (h : E.upload.received = some 0) :
    arriving E path content = [] := by
  unfold arriving StreamFate.arrive
  rw [h]
  exact List.take_zero

theorem arrivingChunks_isPrefix (content : Bytes) :
    arrivingChunks E content <+: Chunks.pieces BUFSIZE content := by
  unfold arrivingChunks
  split
  · exact sentChunks_isPrefix _ _ _
  · rename_i k _
    have htake := List.take_prefix (k - 1) (sentChunks E.writeOk 1 (Chunks.pieces BUFSIZE content))
    exact htake.trans (sentChunks_isPrefix _ _ _)

/-- The chunk and all before it are sent, and the stream does not break before it arrives. -/
def Arrives (n : Nat) : Prop :=
  (∀ m ≤ n, E.writeOk (m + 1) = true) ∧ ∀ k, E.upload.received = some k → n + 1 < k

theorem lt_arrivingChunks_length_iff (content : Bytes) (n : Nat) :
    n < (arrivingChunks E content).length ↔
      n < (Chunks.pieces BUFSIZE content).length ∧ Arrives E n := by
  have hsent := lt_sentChunks_length_iff E.writeOk 1 (Chunks.pieces BUFSIZE content) n
  simp only [Nat.add_comm 1] at hsent
  unfold arrivingChunks Arrives
  cases E.upload.received with
  | none => simp [hsent]
  | some k =>
      have hk : n < k - 1 ↔ n + 1 < k := by omega
      rw [List.length_take, Nat.lt_min, hsent, hk, and_comm, and_assoc]
      simp only [Option.some.injEq, forall_eq']

/-- The chunks that arrive make up the file when each with a byte in it arrives and is appended. -/
theorem landed_arrivingChunks_iff (content : Bytes) :
    landed E 0 (arrivingChunks E content) = content ↔
      ∀ n chunk, (Chunks.pieces BUFSIZE content)[n]? = some chunk → chunk ≠ [] →
        Arrives E n ∧ E.fails (.putFileWrite n) = none := by
  have htake := List.prefix_iff_eq_take.mp (arrivingChunks_isPrefix E content)
  have hiff := landed_take_eq_flatten_iff E (Chunks.pieces BUFSIZE content) 0
    (arrivingChunks E content).length
  rw [← htake, Chunks.pieces_flatten] at hiff
  simp only [Nat.zero_add] at hiff
  rw [hiff]
  refine forall_congr' fun n => forall_congr' fun chunk => ?_
  refine imp_congr_right fun hchunk => imp_congr_right fun _ => ?_
  have hlt := (List.getElem?_eq_some_iff.mp hchunk).1
  rw [lt_arrivingChunks_length_iff, and_iff_right hlt]

end Chunks

section Descriptor

variable (E : Env) (fi : FuseFileInfo)

/-- The descriptor of the handle can be duplicated. -/
def DupOk (w : World) : Prop := E.fails .dup = none ∧ (w.cl.fds.get fi.fh).isSome

theorem posixDup_same (fd : Int) : Keeps World.Same (posixDup E fd) := by
  refine same_attempt fun w => ?_
  split
  · exact same_failWith EBADF w
  · exact same_newFd _ _ w

/-- The duplicate is closed again, and nothing else is. -/
theorem dup_close_fdsKept (fd : Int) (w : World) :
    World.FdsKept w (posixClose (posixDup E fd w).1 (posixDup E fd w).2).2 := by
  have hdup : World.FdsKept w (posixDup E fd w).2 ∧ w.cl.fds.get (posixDup E fd w).1 = none := by
    have hfail : ∀ e, World.FdsKept w (failWith e w).2 ∧ w.cl.fds.get (failWith e w).1 = none :=
      fun e => ⟨.of_eq rfl, Descriptors.get_of_none (by show (-1 : Int) < 0; omega)⟩
    unfold posixDup
    rcases onFd_run E .dup w fd fun d => newFd d.ino d.flags with ⟨d, _, heq⟩ | ⟨_, e, _, heq⟩
    · rw [heq]
      exact ⟨fun _ _ hopen => Descriptors.get_insert_of_some hopen, Descriptors.get_lowestFree _⟩
    · rw [heq]
      exact hfail e
  exact hdup.1.close hdup.2

/-- The part of `unreliable_flush` before `AFS_flush`. -/
theorem dup_close_cases (w : World) :
    let dup := posixDup E fi.fh w
    World.Same w (posixClose dup.1 dup.2).2 ∧
      ((DupOk E fi w ∧ (posixClose dup.1 dup.2).1 = 0) ∨
        (¬ DupOk E fi w ∧ (posixClose dup.1 dup.2).1 = -1 ∧
          (posixClose dup.1 dup.2).2.errno = EBADF)) := by
  intro dup
  refine ⟨trans_of World.Same (posixDup_same E fi.fh w) (same_posixClose _ _), ?_⟩
  have hbad : ∀ e, posixDup E fi.fh w = failWith e w →
      (posixClose dup.1 dup.2).1 = -1 ∧ (posixClose dup.1 dup.2).2.errno = EBADF := by
    intro e he
    have hdup : dup = failWith e w := he
    have hneg : (failWith e w).2.cl.fds.get (failWith e w).1 = none :=
      Descriptors.get_of_none (by show (-1 : Int) < 0; omega)
    rw [hdup, posixClose, hneg]
    exact ⟨rfl, rfl⟩
  rcases onFd_run E .dup w fi.fh fun d => newFd d.ino d.flags with ⟨d, ⟨hok, hget⟩, heq⟩ | ⟨hmissing, e, _, heq⟩
  · refine Or.inl ⟨⟨hok, by rw [hget]; rfl⟩, ?_⟩
    have hdup : dup = newFd d.ino d.flags w := heq
    have hopen : (newFd d.ino d.flags w).2.cl.fds.get (newFd d.ino d.flags w).1 = some ⟨d.ino, d.flags⟩ :=
      Descriptors.get_insert_self _ _
    rw [hdup, posixClose, hopen]
  · refine Or.inr ⟨fun h => ?_, hbad e heq⟩
    have hopen := h.2
    rw [hmissing h.1] at hopen
    cases hopen

end Descriptor

section Result

variable [Sha256] (E : Env) (path : CString) (fi : FuseFileInfo)

/-- During the call the server has put the bytes of the temporary file at the path. -/
def Delivered (w w' : World) : Prop :=
  ∃ content, (w.files.find (getTempPath path)).map (·.content) = some content ∧
    w'.srv.installs = ⟨getServerPath path.bytes, content⟩ :: w.srv.installs ∧
    contentAt w'.srv path.bytes = some content

/-- The whole upload goes well: the temporary file can be read, the first message is sent and arrives,
the temporary file of the server can be renamed, and it has all the bytes, because every chunk with a
byte in it arrives and is appended, or because it could not be opened and had them already. -/
structure UploadsWhole (w : World) (content : Bytes) : Prop where
  found : (w.files.find (getTempPath path)).map (·.content) = some content
  readable : E.fails .clientFlushIfstream = none
  first : E.writeOk 0 = true
  reached : E.upload.reached = true
  named : E.upload.received ≠ some 0
  renamed : E.fails .putFileRename = none
  bytes : (E.fails .putFileOpen = none ∧ ∀ n chunk, (Chunks.pieces BUFSIZE content)[n]? = some chunk →
      chunk ≠ [] → Arrives E n ∧ E.fails (.putFileWrite n) = none) ∨
    ((E.fails .putFileOpen).isSome ∧
      (w.srv.files.find (uploadTemp E path.bytes)).map (·.content) = some content)

variable {E} {w : World}

/-- With the descriptor duplicated, the flush is `AFS_flush` and a 0. -/
theorem flushThrough_of_dupOk (hdup : DupOk E fi w) :
    ∃ w₁, World.Same w w₁ ∧ World.FdsKept w w₁ ∧
      flushThrough E path fi w = (0, (AFSClient.flush E path w₁).2) := by
  obtain ⟨hsame, ⟨_, hret⟩ | ⟨hnot, _⟩⟩ := dup_close_cases E fi w
  · refine ⟨_, hsame, dup_close_fdsKept E fi.fh w, ?_⟩
    unfold flushThrough
    simp only [bind_run, hret]
    rfl
  · exact absurd hdup hnot

theorem flushThrough_of_not_dupOk (hdup : ¬ DupOk E fi w) : (flushThrough E path fi w).1 = -EBADF := by
  obtain ⟨_, ⟨hok, _⟩ | ⟨_, hret, herrno⟩⟩ := dup_close_cases E fi w
  · exact absurd hok hdup
  · unfold flushThrough
    simp only [bind_run, hret]
    exact congrArg Neg.neg herrno

/-- On a dirty path a flush that gets as far as `AFS_flush` delivers exactly when the whole upload goes
well. -/
theorem delivered_iff (hplain : E.injected = 0) (hdirty : getHashedPath path ∈ w.cl.dirty_files)
    (hdup : DupOk E fi w) :
    Delivered path w (unreliableFlush E path fi w).2 ↔ ∃ content, UploadsWhole E path w content := by
  obtain ⟨w₁, hsame, _, hflush⟩ := flushThrough_of_dupOk path fi hdup
  have hsrv := flush_srv E path (hsame.dirty ▸ hdirty)
  rw [unreliableFlush_plain path fi hplain, hflush, Delivered]
  refine exists_congr fun content => ?_
  have hkept : (AFSClient.flush E path w₁).2.srv = w.srv →
      ¬ ((AFSClient.flush E path w₁).2.srv.installs =
        ⟨getServerPath path.bytes, content⟩ :: w.srv.installs) := by
    intro heq h
    rw [heq] at h
    exact List.cons_ne_self _ _ h.symm
  have hread := fun content =>
    ifstreamRead_eq_some_iff E .clientFlushIfstream (getTempPath path) content w₁
  rw [hsame.files] at hread
  cases hfile : (AFSClient.ifstreamRead E .clientFlushIfstream (getTempPath path) w₁).1 with
  | none =>
      rw [hfile, hsame.srv] at hsrv
      refine iff_of_false (fun h => hkept hsrv h.2.1) fun h => ?_
      have hsome := (hread content).mpr ⟨h.readable, h.found⟩
      rw [hfile] at hsome
      cases hsome
  | some bytes =>
      obtain ⟨hreadable, hfound⟩ := (hread bytes).mp hfile
      rw [hfile, hsame.srv] at hsrv
      by_cases hbytes : bytes = content
      · subst hbytes
        by_cases hsend : E.writeOk 0 ∧ E.upload.reached
        · simp only [if_pos hsend] at hsrv
          by_cases hnamed : E.upload.received = some 0
          · rw [arriving_eq_nil E path bytes hnamed, putFile_nil] at hsrv
            exact iff_of_false (fun h => hkept hsrv h.2.1) fun h => h.named hnamed
          · rw [arriving_eq E path bytes hnamed] at hsrv
            rw [and_iff_right hfound, hsrv, putFile_installs_iff, landed_arrivingChunks_iff]
            exact ⟨fun h => ⟨hfound, hreadable, hsend.1, hsend.2, hnamed, h.1, h.2⟩,
              fun h => ⟨h.renamed, h.bytes⟩⟩
        · simp only [if_neg hsend] at hsrv
          exact iff_of_false (fun h => hkept hsrv h.2.1) fun h => hsend ⟨h.first, h.reached⟩
      · have hne : (w.files.find (getTempPath path)).map (·.content) ≠ some content := by
          rw [hfound]
          exact fun h => hbytes (Option.some.inj h)
        exact iff_of_false (fun h => hne h.1) fun h => hne h.found

/-- A flush of a dirty path that returns 0 has delivered the bytes of the temporary file, exactly when
it does not return 0 or the whole upload goes well. -/
theorem flush_zero_delivers_iff (hplain : E.injected = 0)
    (hdirty : getHashedPath path ∈ w.cl.dirty_files) :
    ((unreliableFlush E path fi w).1 = 0 → Delivered path w (unreliableFlush E path fi w).2) ↔
      ¬ DupOk E fi w ∨ ∃ content, UploadsWhole E path w content := by
  by_cases hdup : DupOk E fi w
  · have hzero : (unreliableFlush E path fi w).1 = 0 := by
      obtain ⟨w₁, _, _, hflush⟩ := flushThrough_of_dupOk path fi hdup
      rw [unreliableFlush_plain path fi hplain, hflush]
    rw [delivered_iff path fi hplain hdirty hdup]
    exact ⟨fun h => Or.inr (h hzero), fun h _ => h.resolve_left (not_not_intro hdup)⟩
  · refine iff_of_true (fun hzero => ?_) (Or.inl hdup)
    rw [unreliableFlush_plain path fi hplain, flushThrough_of_not_dupOk path fi hdup] at hzero
    exact absurd hzero (by decide)

end Result

section Sample

/-- `/f` is dirty, its temporary file has four bytes, and descriptor 0 is open on it. -/
def sampleDirty [Sha256] : World where
  srv := ⟨.empty ⟨[], default, default⟩, []⟩
  cl := {
    files := (Fs.empty ⟨[], default, default⟩).create (getTempPath sampleF)
      ⟨ascii "data", default, default⟩
    fds := [some ⟨0, O_RDWR⟩]
    dirty_files := {getHashedPath sampleF}
    op_queue := [] }
  errno := 0

theorem flush_zero_delivers_iff_sample :
    letI := sampleSha256
    (unreliableFlush (.smooth 0) sampleF ⟨O_RDWR, 0⟩ sampleDirty).1 = 0 ∧
      Delivered sampleF sampleDirty
        (unreliableFlush (.smooth 0) sampleF ⟨O_RDWR, 0⟩ sampleDirty).2 := by
  let _ := sampleSha256
  have hzero : (unreliableFlush (.smooth 0) sampleF ⟨O_RDWR, 0⟩ sampleDirty).1 = 0 := by decide
  refine ⟨hzero, (flush_zero_delivers_iff sampleF ⟨O_RDWR, 0⟩ rfl (by decide)).mpr (Or.inr ?_) hzero⟩
  refine ⟨ascii "data", by decide, rfl, rfl, rfl, by decide, rfl, Or.inl ⟨rfl, ?_⟩⟩
  exact fun n chunk _ _ => ⟨⟨fun _ _ => rfl, fun k hk => nomatch hk⟩, rfl⟩

/-- The call that would upload `/f` never gets to the server; the close returns 0 all the same. -/
theorem flush_zero_not_delivered :
    letI := sampleSha256
    let E : Env := { Env.smooth 0 with upload := ⟨false, none, false⟩ }
    getHashedPath sampleF ∈ sampleDirty.cl.dirty_files ∧
      (unreliableFlush E sampleF ⟨O_RDWR, 0⟩ sampleDirty).1 = 0 ∧
      ¬ Delivered sampleF sampleDirty (unreliableFlush E sampleF ⟨O_RDWR, 0⟩ sampleDirty).2 := by
  let _ := sampleSha256
  refine ⟨by decide, by decide, ?_⟩
  rintro ⟨content, _, hinstalls, _⟩
  cases hinstalls

end Sample

end Bnfs
