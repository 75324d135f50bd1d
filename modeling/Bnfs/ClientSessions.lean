import Bnfs.ClientHandles
import Bnfs.ClientCrash
import Bnfs.TheorySessions

/-! The clients of a server as sessions over shared files: an open takes the file as a copy, a write edits the copy, a
flush publishes it as a whole. Every run of the clients is such a run. So between two opens of a path a client reads the
bytes it opened with its own writes since, and these bytes are what it flushes, whatever others flush meanwhile. -/

namespace Bnfs

open FileSystem Programs Runs Stamped FileServer Sessions

/-- The bytes of a file after a write through a handle. One that may not write, or has nothing to write, changes none. -/
def overlaid (fi : FuseFileInfo) (buf : Bytes) (offset : Nat) (content : Bytes) : Bytes :=
  if AFSClient.localFlags fi.flags &&& O_ACCMODE = O_RDONLY ∨ buf = [] then content
  else written (AFSClient.localFlags fi.flags) content offset buf

namespace Request

def kind : Request → Kind Bytes
  | .openFile .. => .opens
  | .write _ fi buf offset => .edits (overlaid fi buf offset)
  | .flush .. => .publishes

/-- The handle that a request goes through. -/
def through : Request → Option (CString × FuseFileInfo)
  | .openFile .. => none
  | .write path fi _ _ => some (path, fi)
  | .flush path fi => some (path, fi)

variable [Sha256] (E : Env) (w : World)

def effect : Request → World
  | .openFile path fi is_create => (openHandle E path fi is_create w).2
  | .write path fi buf offset => (unreliableWrite E path buf offset (some fi) w).2
  | .flush path fi => (unreliableFlush E path fi w).2

end Request

def Call.act {ι : Type} (c : Call ι) : Act ι CString Bytes := ⟨c.client, c.request.path, c.request.kind⟩

section Server

variable {E : Env} {path : CString} {srv : Server}

/-- A file that a creation makes on the server is empty. -/
theorem Open_creates_empty (hrel : E.Reliable) (flag : OpenFlags)
    (hmissing : srv.files.names (getServerPath path.bytes) = none) {content : Bytes}
    (h : contentAt (FileServer.Open E ⟨path.bytes, flag, true⟩ srv).2 path.bytes = some content) : content = [] := by
  have hread : openRead E (getServerPath path.bytes) srv.files = none := by
    rw [openRead, hrel.calls]
    exact Fs.find_eq_none_iff.mpr hmissing
  have hnone : (srv.files.find (getServerPath path.bytes)).map (·.content) = none := by
    rw [Fs.find_eq_none_iff.mpr hmissing, Option.map_none]
  unfold FileServer.Open openCreate at h
  simp only [hread, hrel.calls, hmissing, if_true] at h
  split_ifs at h
  · rw [contentAt, Fs.find_create_self] at h
    exact (Option.some.inj h).symm
  · rw [contentAt, hnone] at h
    cases h

/-- An upload under a free name changes the file of its path alone. -/
theorem putFile_contentAt_of_ne (hrel : E.Reliable) (rest : List PutFileReq)
    (hfresh : srv.files.names (uploadTemp E path.bytes) = none) {p : CString} (hne : p ≠ path) :
    contentAt (putFile E (⟨path.bytes, []⟩ :: rest) srv).2 p.bytes = contentAt srv p.bytes := by
  have hname : getServerPath p.bytes ≠ getServerPath path.bytes := fun heq => hne (getServerPath_injective heq)
  cases hcontent : contentAt srv p.bytes with
  | some content =>
      obtain ⟨t, hfile⟩ := Net.contentAt_eq_some_iff.mp hcontent
      exact Net.contentAt_eq_some_iff.mpr ⟨t, dated_putFile_of_ne hrel ⟨path.bytes, []⟩ rest srv hfresh hname hfile⟩
  | none =>
      have hfree : srv.files.names (getServerPath p.bytes) = none :=
        Fs.find_eq_none_iff.mp (Option.map_eq_none_iff.mp hcontent)
      obtain ⟨ino, htemp, _, hnames, hino, _⟩ := writeUpload_of_opened E ⟨path.bytes, []⟩ rest srv.files (hrel.calls _)
      rcases putFile_cases E ⟨path.bytes, []⟩ rest srv with ⟨hfails | hnone, _⟩ | ⟨_, _, _, _, hdated⟩
      · rw [hrel.calls] at hfails
        cases hfails
      · rw [htemp] at hnone
        cases hnone
      · rw [contentAt, find_content, hdated, ← find_content, Option.map_eq_none_iff, Fs.find_eq_none_iff]
        by_cases hupload : getServerPath p.bytes = uploadTemp E path.bytes
        · rw [hupload] at hname ⊢
          refine Fs.rename_names_old fun heq => ?_
          rw [hnames _ hname.symm, htemp] at heq
          rcases hino with hold | ⟨_, rfl⟩
          · rw [hfresh] at hold
            cases hold
          · exact absurd (srv.files.named_lt _ _ heq.symm) (lt_irrefl _)
        · rw [Fs.rename_names_of_ne _ hupload hname, hnames _ hupload, hfree]

end Server

section Client

variable [Sha256] {paths : Set CString} {E : Env} {w : World} {path : CString} {fi : FuseFileInfo} {lo hi : Int}
  {handles : List (CString × FuseFileInfo)}

/-- What a client sees of a path. -/
def World.view (path : CString) (w : World) : View Bytes :=
  ⟨contentAt w.srv path.bytes, tempAt w.files path, getHashedPath path ∈ w.cl.dirty_files⟩

theorem World.view_of_same {w' : World} (hsame : World.Same w w') : World.view path w' = World.view path w := by
  rw [World.view, World.view, hsame.srv, hsame.files, hsame.dirty]

/-- A handle has the flags it was opened with. -/
theorem openHandle_flags (hplain : E.injected = 0) (path : CString) (fi : FuseFileInfo) (is_create : Bool) (w : World) :
    (openHandle E path fi is_create w).1.2.flags = fi.flags := by
  rw [openHandle_plain path hplain, bind_run]
  split_ifs <;> rfl

/-- An open. -/
theorem openHandle_shift (hrel : E.Reliable) (hok : ClientOk paths w.srv lo w.cl handles) (hlo : lo < 2 ^ 31)
    (hpath : path ∈ paths) (hsrv : WrittenIn (-2 ^ 31 - 1) lo (dated w.srv.files (getServerPath path.bytes)))
    (hnul : ∀ content, contentAt w.srv path.bytes = some content → 0 ∉ content) (htrunc : fi.flags.has O_TRUNC = false)
    (is_create : Bool) : Shift [] (World.view path w) .opens (World.view path (openHandle E path fi is_create w).2) := by
  obtain ⟨i, hreached⟩ := @Open_reached _ E path fi is_create w hrel (hok.sole path)
  have hopen := openHandle_world hrel.plain path fi is_create w
  have htemp : tempAt (AFSClient.Open E path fi is_create w).2.files path =
      some (preparedBytes E path fi.flags is_create w) := by
    have hcontent := hreached.content
    rw [htrunc] at hcontent
    rw [tempAt, Fs.find_of_names hreached.sets.self]
    exact congrArg some hcontent
  rw [hopen]
  have hview : World.view path (AFSClient.Open E path fi is_create w).2 =
      ⟨contentAt (openedServer E path fi.flags is_create w) path.bytes,
        some (preparedBytes E path fi.flags is_create w),
        getHashedPath path ∈ openedDirty E path fi.flags is_create w⟩ := by
    rw [World.view, htemp, hreached.srv, hreached.dirty]
  rw [hview]
  unfold openedServer preparedBytes openedDirty
  by_cases hcreate : CreatesLocally E path fi.flags is_create w
  · have hmissing := missing_of_enoent hrel hcreate.1
    have hnone : (World.view path w).file = none := Option.map_eq_none_iff.mpr (Fs.find_eq_none_iff.mpr hmissing)
    simp only [if_pos hcreate, Finset.mem_insert, true_or]
    refine .make _ hnone fun content hcontent => Open_creates_empty hrel fi.flags hmissing ?_
    rw [← hcontent]
    unfold AFSClient.openStream
    rw [hrel.downloads]
    rfl
  · simp only [if_neg hcreate]
    by_cases hused : TempUsed E path w
    · simp only [if_pos hused]
      obtain ⟨_, file, hfind, _⟩ := id hused
      have hcopy : tempAt w.files path = some file.content := by rw [tempAt, hfind, Option.map_some]
      by_cases hfree : getHashedPath path ∈ w.cl.dirty_files ∨ contentAt w.srv path.bytes = none
      · have hkeep : Shift [] (World.view path w) .opens (World.view path w) := .keep hfree
        rw [hcopy, Option.getD_some, ← hcopy]
        exact hkeep
      · rw [not_or] at hfree
        obtain ⟨content, hcontent⟩ := Option.ne_none_iff_exists'.mp hfree.2
        have hgiven : (contentAt w.srv path.bytes).getD [] = content := by rw [hcontent, Option.getD_some]
        rw [tempAt_of_used hrel hok hpath hfree.1 hsrv hlo hused hcontent, Option.getD_some, ← hgiven]
        exact .fetch
    · simp only [if_neg hused]
      have hstr : cStr ((contentAt w.srv path.bytes).getD []) = (contentAt w.srv path.bytes).getD [] := by
        cases hcontent : contentAt w.srv path.bytes with
        | none => rfl
        | some content => exact cStr_of_noNul (hnul content hcontent)
      rw [hstr]
      exact .fetch

omit [Sha256] in
/-- `pwrite` through a descriptor of a file, with all bytes taken. -/
theorem posixPwrite_content (hrel : E.Reliable) {i : Nat} (buf : Bytes) (offset : Nat)
    (hfd : w.cl.fds.get fi.fh = some ⟨i, AFSClient.localFlags fi.flags⟩) :
    ((posixPwrite E .pwrite fi.fh buf offset w).2.files.inode i).content =
        overlaid fi buf offset (w.files.inode i).content ∧
      (posixPwrite E .pwrite fi.fh buf offset w).2.srv = w.srv := by
  rw [posixPwrite_open hrel hfd, overlaid]
  dsimp only
  by_cases haccess : AFSClient.localFlags fi.flags &&& O_ACCMODE = O_RDONLY
  · rw [if_pos haccess, if_pos (Or.inl haccess)]
    exact ⟨rfl, rfl⟩
  · by_cases hempty : buf = []
    · rw [if_neg haccess, if_pos hempty, if_pos (Or.inr hempty)]
      exact ⟨rfl, rfl⟩
    · rw [if_neg haccess, if_neg hempty, if_neg (not_or.mpr ⟨haccess, hempty⟩)]
      exact ⟨congrArg (·.content) (Fs.put_self w.files i _ _), rfl⟩

/-- A write through a handle whose descriptor has the flags of the open. -/
theorem unreliableWrite_shift (hrel : E.Reliable) {i : Nat} (hfd : w.cl.fds.get fi.fh =
    some ⟨i, AFSClient.localFlags fi.flags⟩) (hname : w.files.names (getTempPath path) = some i) (buf : Bytes)
    (offset : Nat) : Shift [] (World.view path w) (.edits (overlaid fi buf offset))
      (World.view path (unreliableWrite E path buf offset (some fi) w).2) := by
  have htemp : tempAt w.files path = some (w.files.inode i).content := by
    rw [tempAt, Fs.find_of_names hname, Option.map_some]
  obtain ⟨hcontent, hsrv⟩ := posixPwrite_content hrel buf offset hfd
  obtain ⟨hnames, _, _⟩ := posixPwrite_files E fi buf offset w
  have hview : World.view path (unreliableWrite E path buf offset (some fi) w).2 =
      ⟨contentAt w.srv path.bytes, some (overlaid fi buf offset (w.files.inode i).content), True⟩ := by
    rw [unreliableWrite_plain path hrel.plain, writeThrough_handle]
    revert hcontent hsrv hnames
    generalize (posixPwrite E .pwrite fi.fh buf offset w).2 = w₁
    intro hcontent hsrv hnames
    have hmarked : getHashedPath path ∈ (markFileDirty path w₁).2.cl.dirty_files := Finset.mem_insert_self _ _
    have hcopy : tempAt (markFileDirty path w₁).2.files path = some (w₁.files.inode i).content := by
      show tempAt w₁.files path = _
      rw [tempAt, Fs.find_of_names (hnames ▸ hname), Option.map_some]
    rw [World.view, hcopy, hcontent, eq_true hmarked]
    exact congrArg (fun srv => View.mk (contentAt srv path.bytes) _ _) hsrv
  rw [hview]
  exact .edit _ _ htemp

/-- A flush of a dirty path leaves the bytes of the temporary copy on the server, the copy with the second of the
server's file, and the path clean. -/
theorem flush_uploads (hrel : E.Reliable) (hdirty : getHashedPath path ∈ w.cl.dirty_files) {ino : Nat}
    (hname : w.files.names (getTempPath path) = some ino) (hsole : w.files.Sole (getTempPath path)) :
    ∃ file kept, (AFSClient.flush E path w).2.srv.files.find (getServerPath path.bytes) = some file ∧
      file.content = (w.files.inode ino).content ∧
      (AFSClient.flush E path w).2.files.find (getTempPath path) =
        some ⟨(w.files.inode ino).content, ⟨toInt (toUInt64 file.mtime.tv_sec), 0⟩, kept⟩ ∧
      getHashedPath path ∉ (AFSClient.flush E path w).2.cl.dirty_files := by
  have htemp : tempAt w.files path = some (w.files.inode ino).content := by
    rw [tempAt, Fs.find_of_names hname, Option.map_some]
  have hapart : w.files.names (getTempPath path) ≠ w.files.names (getCachePath path) := by
    rw [hname]
    exact fun heq => getTempPath_ne_getCachePath path path (hsole _ hname _ heq.symm).symm
  obtain ⟨file, hfind, hfile, hreply⟩ :=
    putFile_reply hrel path.bytes (Chunks.pieces BUFSIZE (w.files.inode ino).content) w.srv
  rw [Chunks.pieces_flatten] at hfile
  rw [flush_dirty hrel hdirty htemp]
  simp only [hreply]
  obtain ⟨⟨kept, hcopy⟩, _, hclean, hsrv⟩ := commitToCache_copies
    (w := { w with srv :=
      (putFile E (uploadRequests path.bytes (Chunks.pieces BUFSIZE (w.files.inode ino).content)) w.srv).2 })
    hrel hname hapart (toInt (toUInt64 file.mtime.tv_sec))
  rw [hsrv]
  exact ⟨file, kept, hfind, hfile, hcopy, hclean⟩

/-- A flush through a handle on the path. -/
theorem unreliableFlush_shift (hrel : E.Reliable) {d : Descriptor} (hfd : w.cl.fds.get fi.fh = some d)
    (hname : w.files.names (getTempPath path) = some d.ino) (hsole : w.files.Sole (getTempPath path)) :
    Shift [] (World.view path w) .publishes (World.view path (unreliableFlush E path fi w).2) := by
  have hdup : DupOk E fi w := ⟨hrel.calls _, by rw [hfd]; rfl⟩
  obtain ⟨w₁, hsame, _, hflush⟩ := flushThrough_of_dupOk path fi hdup
  rw [unreliableFlush_plain path fi hrel.plain, hflush, ← World.view_of_same hsame]
  have htemp : tempAt w₁.files path = some (w₁.files.inode d.ino).content := by
    rw [tempAt, Fs.find_of_names (hsame.files ▸ hname), Option.map_some]
  by_cases hdirty : getHashedPath path ∈ w₁.cl.dirty_files
  · obtain ⟨file, kept, hfind, hfile, hcopy, hclean⟩ :=
      flush_uploads hrel hdirty (hsame.files ▸ hname) (hsame.files ▸ hsole)
    have hview : World.view path (AFSClient.flush E path w₁).2 =
        ⟨some (w₁.files.inode d.ino).content, some (w₁.files.inode d.ino).content, False⟩ := by
      rw [World.view, contentAt, hfind, Option.map_some, hfile, tempAt, hcopy, Option.map_some, eq_false hclean]
    show Shift [] _ _ (World.view path (AFSClient.flush E path w₁).2)
    rw [hview]
    exact .publish _ hdirty htemp
  · show Shift [] _ _ (World.view path (AFSClient.flush E path w₁).2)
    rw [World.view_of_same (flush_clean E hdirty).1]
    exact .idle hdirty

end Client

section Requests

variable [Sha256] {paths : Set CString} {E : Env} {w : World} {request : Request} {lo hi : Int}
  {handles : List (CString × FuseFileInfo)}

/-- A descriptor has the flags of the open that gave its handle. -/
def Flagged (fds : Descriptors) (handles : List (CString × FuseFileInfo)) : Prop :=
  ∀ p fi, (p, fi) ∈ handles → ∃ ino, fds.get fi.fh = some ⟨ino, AFSClient.localFlags fi.flags⟩

omit [Sha256] in
theorem Flagged.kept {w' : World} (h : Flagged w.cl.fds handles) (hkept : World.FdsKept w w') :
    Flagged w'.cl.fds handles := fun p fi hmem => by
  obtain ⟨ino, hget⟩ := h p fi hmem
  exact ⟨ino, hkept _ _ hget⟩

/-- The descriptor of a handle is on the temporary copy, with the flags of the open. -/
theorem ClientOk.descriptor (hok : ClientOk paths w.srv lo w.cl handles) (hflags : Flagged w.cl.fds handles)
    {path : CString} {fi : FuseFileInfo} (hmem : (path, fi) ∈ handles) :
    ∃ ino, w.cl.fds.get fi.fh = some ⟨ino, AFSClient.localFlags fi.flags⟩ ∧
      w.files.names (getTempPath path) = some ino := by
  obtain ⟨d, hget, hname⟩ := hok.handles path fi hmem
  obtain ⟨ino, hget'⟩ := hflags path fi hmem
  have hd : d = ⟨ino, AFSClient.localFlags fi.flags⟩ := Option.some.inj (hget.symm.trans hget')
  exact ⟨ino, hget', by rw [World.files, hname, hd]⟩

variable (hrel : E.Reliable) (hok : ClientOk paths w.srv lo w.cl handles) (hflags : Flagged w.cl.fds handles)
  (hthrough : ∀ handle, request.through = some handle → handle ∈ handles)

include hrel hok hflags hthrough

/-- What a request does to the client's view of its path. -/
theorem Request.shift (hlo : lo < 2 ^ 31) (hpath : request.path ∈ paths)
    (hsrv : WrittenIn (-2 ^ 31 - 1) lo (dated w.srv.files (getServerPath request.path.bytes)))
    (hnul : ∀ content, contentAt w.srv request.path.bytes = some content → 0 ∉ content)
    (htrunc : request.truncates = false) :
    Shift [] (World.view request.path w) request.kind (World.view request.path (request.effect E w)) := by
  cases request with
  | openFile path fi is_create => exact openHandle_shift hrel hok hlo hpath hsrv hnul htrunc is_create
  | write path fi buf offset =>
      obtain ⟨ino, hget, hname⟩ := hok.descriptor hflags (hthrough _ rfl)
      exact unreliableWrite_shift hrel hget hname buf offset
  | flush path fi =>
      obtain ⟨ino, hget, hname⟩ := hok.descriptor hflags (hthrough _ rfl)
      exact unreliableFlush_shift hrel hget hname (hok.sole path)

/-- What it leaves alone: of the client the copies and marks of other paths; on the server their files, unless it
uploads under a name that is taken. -/
theorem Request.leaves (hduring : E.During lo hi) (hlo : -2 ^ 31 ≤ lo) (hhi : hi < 2 ^ 31)
    (htrunc : request.truncates = false) :
    World.Passes request.path lo hi w (request.effect E w) ∧ World.FdsKept w (request.effect E w) ∧
      ((∀ path fi, request = .flush path fi → w.srv.files.names (uploadTemp E path.bytes) = none) →
        ∀ p, p ≠ request.path → contentAt (request.effect E w).srv p.bytes = contentAt w.srv p.bytes) := by
  cases request with
  | openFile path fi is_create =>
      obtain ⟨hpasses, hkept, hopened, _⟩ := openHandle_spec fi path hrel hduring htrunc is_create w
      refine ⟨hpasses, hkept, fun _ p hne => ?_⟩
      have hname : getServerPath p.bytes ≠ getServerPath path.bytes := fun heq => hne (getServerPath_injective heq)
      show contentAt (openHandle E path fi is_create w).2.srv p.bytes = _
      cases hopened with
      | created _ _ hsrv => rw [contentAt, contentAt, hsrv _ hname]
      | fetched hsrv _ _ => rw [hsrv]
      | used hsame _ => rw [hsame.srv]
  | write path fi buf offset =>
      obtain ⟨ino, hget, hname⟩ := hok.descriptor hflags (hthrough _ rfl)
      obtain ⟨hpasses, hkept, hsrv, _⟩ := unreliableWrite_spec hrel hduring buf offset hget hname
      exact ⟨hpasses, hkept, fun _ p _ => congrArg (contentAt · p.bytes) hsrv⟩
  | flush path fi =>
      obtain ⟨ino, hget, hname⟩ := hok.descriptor hflags (hthrough _ rfl)
      obtain ⟨hpasses, hkept, hflush⟩ := unreliableFlush_spec hrel hduring hlo hhi hget ⟨hname, hok.sole path⟩
      refine ⟨hpasses, hkept, fun hfresh p hne => ?_⟩
      show contentAt (unreliableFlush E path fi w).2.srv p.bytes = _
      rcases hflush with ⟨_, hsame⟩ | ⟨_, hflushed⟩
      · rw [hsame.srv]
      · obtain ⟨chunks, hsrv⟩ := hflushed.srv
        rw [hsrv]
        exact putFile_contentAt_of_ne hrel _ (hfresh path fi rfl) hne

end Requests

namespace Net

variable {ι : Type} [DecidableEq ι] [Sha256] {paths : Set CString} {s t : Net ι} {c : Call ι}

/-- A step is what its request does to the client and to the server, through a handle the client has. -/
theorem step_effect (hstep : s.step c t) :
    t.srv = (c.request.effect c.E (s.world c.client)).srv ∧
      t.clients = Function.update s.clients c.client (c.request.effect c.E (s.world c.client)).cl ∧
      t.clock = c.ends ∧ ∀ handle, c.request.through = some handle → handle ∈ s.handles c.client := by
  unfold step next at hstep
  cases hrequest : c.request with
  | openFile path fi is_create =>
      rw [hrequest] at hstep
      cases hstep
      exact ⟨rfl, rfl, rfl, fun _ hthrough => by cases hthrough⟩
  | write path fi buf offset =>
      rw [hrequest] at hstep
      dsimp only at hstep
      split_ifs at hstep with hmem
      cases hstep
      exact ⟨rfl, rfl, rfl, fun _ hthrough => by cases hthrough; exact hmem⟩
  | flush path fi =>
      rw [hrequest] at hstep
      dsimp only at hstep
      by_cases hmem : (path, fi) ∈ s.handles c.client
      · rw [if_pos hmem] at hstep
        cases hstep
        exact ⟨rfl, rfl, rfl, fun _ hthrough => by cases hthrough; exact hmem⟩
      · rw [if_neg hmem] at hstep
        cases hstep

/-- The handles after a step: those before and, if it was an open, the one it gave. -/
theorem step_handles (hstep : s.step c t) : (∀ j, j ≠ c.client → t.handles j = s.handles j) ∧
    ∀ handle ∈ t.handles c.client, handle ∈ s.handles c.client ∨ ∃ path fi is_create,
      c.request = .openFile path fi is_create ∧
      (openHandle c.E path fi is_create (s.world c.client)).1.1 = 0 ∧
      handle = (path, (openHandle c.E path fi is_create (s.world c.client)).1.2) := by
  unfold step next at hstep
  cases hrequest : c.request with
  | openFile path fi is_create =>
      rw [hrequest] at hstep
      cases hstep
      refine ⟨fun j hj => Function.update_of_ne hj _ _, fun handle hmem => ?_⟩
      simp only [Function.update_self] at hmem
      split_ifs at hmem with hzero
      · rcases List.mem_cons.mp hmem with rfl | hmem
        · exact Or.inr ⟨path, fi, is_create, rfl, hzero, rfl⟩
        · exact Or.inl hmem
      · exact Or.inl hmem
  | write path fi buf offset =>
      rw [hrequest] at hstep
      dsimp only at hstep
      split_ifs at hstep with hmem
      cases hstep
      exact ⟨fun _ _ => rfl, fun _ h => Or.inl h⟩
  | flush path fi =>
      rw [hrequest] at hstep
      dsimp only at hstep
      by_cases hmem : (path, fi) ∈ s.handles c.client
      · rw [if_pos hmem] at hstep
        cases hstep
        exact ⟨fun _ _ => rfl, fun _ h => Or.inl h⟩
      · rw [if_neg hmem] at hstep
        cases hstep

/-- The copies of all clients are in order, and their handles have the flags they were opened with. -/
structure InOrder (paths : Set CString) (s : Net ι) : Prop where
  consistent : Consistent paths s
  flags : ∀ i, Flagged (s.clients i).fds (s.handles i)

theorem InOrder.step (hs : InOrder paths s) (hpaths : NoCollision paths) (hc : Assumed paths s c)
    (hstep : s.step c t) : InOrder paths t := by
  refine ⟨hs.consistent.step hpaths hc hstep, fun j => ?_⟩
  obtain ⟨_, hclients, _, hthrough⟩ := step_effect hstep
  obtain ⟨hothers, hown⟩ := step_handles hstep
  rw [hclients]
  by_cases hj : j = c.client
  · subst hj
    rw [Function.update_self]
    have hkept := (Request.leaves (w := s.world c.client) hc.reliable (hs.consistent.clients c.client)
      (hs.flags c.client) hthrough hc.during hs.consistent.clock hc.below hc.noTrunc).2.1
    intro p fi hmem
    rcases hown _ hmem with hold | ⟨path, fi₀, is_create, hrequest, hzero, heq⟩
    · exact (Flagged.kept (w := s.world c.client) (hs.flags c.client) hkept) p fi hold
    · cases heq
      have htaken : MountOp.taken (openHandle c.E p fi₀ is_create (s.world c.client)).1 =
          some (openHandle c.E p fi₀ is_create (s.world c.client)).1.2.fh := if_pos hzero
      have hnoop : c.E.injected ≠ -ERRNO_NOOP := by
        rw [hc.reliable.plain]
        decide
      obtain ⟨ino, _, hget⟩ := opened_of_taken hnoop htaken
      refine ⟨ino, ?_⟩
      rw [hrequest, openHandle_flags hc.reliable.plain]
      exact hget
  · rw [Function.update_of_ne hj, hothers j hj]
    exact hs.flags j

omit [DecidableEq ι] in
theorem Start.inOrder (h : s.Start) : InOrder paths s :=
  ⟨h.consistent, fun i p fi hmem => by rw [h.closed i] at hmem; cases hmem⟩

/-! ### The sessions of the clients -/

open Classical in
/-- The files of the server and the clients' copies of them, at the given paths. -/
noncomputable def service (paths : Set CString) (s : Net ι) : Service ι CString Bytes where
  files p := if p ∈ paths then contentAt s.srv p.bytes else none
  copies i p := if p ∈ paths then tempAt (s.clients i).files p else none
  edited i p := p ∈ paths ∧ getHashedPath p ∈ (s.clients i).dirty_files

omit [DecidableEq ι] in
theorem service_view {path : CString} (hpath : path ∈ paths) (s : Net ι) (i : ι) :
    (service paths s).view i path = World.view path (s.world i) := by
  simp only [Service.view, service, hpath, true_and]
  rfl

/-- Every operation of a client is an act on its sessions. -/
theorem InOrder.act (hs : InOrder paths s) (hpaths : NoCollision paths) (hc : Assumed paths s c) (hfresh : s.FreshTemp c)
    (hstep : s.step c t) : Step [] (service paths s) c.act (service paths t) := by
  obtain ⟨hsrv, hclients, _, hthrough⟩ := step_effect hstep
  have hok := hs.consistent.clients c.client
  have hend := hc.clock_le
  have hbelow := hc.below
  obtain ⟨hpasses, _, hothers⟩ := Request.leaves (w := s.world c.client) hc.reliable hok (hs.flags c.client) hthrough
    hc.during hs.consistent.clock hc.below hc.noTrunc
  have hshift := Request.shift (w := s.world c.client) hc.reliable hok (hs.flags c.client) hthrough (by omega) hc.path
    (hs.consistent.server _) hc.noNul hc.noTrunc
  revert hpasses hothers hshift hsrv hclients
  generalize c.request.effect c.E (s.world c.client) = w'
  intro hsrv hclients hpasses hothers hshift
  have hown : t.clients c.client = w'.cl := by rw [hclients, Function.update_self]
  refine ⟨?_, fun p hne => ?_, fun i p hne => ?_, fun i p hne => ?_⟩
  · show Shift [] ((service paths s).view c.client c.request.path) c.request.kind
      ((service paths t).view c.client c.request.path)
    have hview : World.view c.request.path (t.world c.client) = World.view c.request.path w' := by
      unfold World.view Net.world World.files
      dsimp only
      rw [hsrv, hown]
    rw [service_view hc.path, service_view hc.path, hview]
    exact hshift
  · simp only [service]
    split_ifs
    · rw [hsrv]
      exact hothers hfresh p hne
    · rfl
  · simp only [service]
    split_ifs with hp
    · by_cases hi : i = c.client
      · subst hi
        have hne : p ≠ c.request.path := hne.resolve_left fun h => h rfl
        have hname : getTempPath p ∉ localNames c.request.path :=
          getTempPath_not_mem_localNames fun heq => hne (hpaths.temp hp hc.path heq)
        rw [hown]
        exact congrArg (Option.map (·.content)) (hpasses.files.within.find_eq hname (hok.sole p))
      · rw [hclients, Function.update_of_ne hi]
    · rfl
  · simp only [service]
    refine and_congr_right fun hp => ?_
    by_cases hi : i = c.client
    · subst hi
      have hne : p ≠ c.request.path := hne.resolve_left fun h => h rfl
      rw [hown]
      exact hpasses.marks _ fun heq => hne (hpaths.hashed hp hc.path heq)
    · rw [hclients, Function.update_of_ne hi]

section Runs

variable {start u v : Net ι} {trace : List (Net ι × Call ι)}

theorem InOrder.of_run (hpaths : NoCollision paths) (hs : InOrder paths s) (hrun : Run Net.step s trace t)
    (hassumed : Guarded (Assumed paths) trace) : InOrder paths t :=
  hrun.guarded_invariant (InOrder paths) hs (fun _ _ _ hs hc hstep => hs.step hpaths hc hstep) hassumed

/-- A run of the clients is a run of their sessions. -/
theorem InOrder.sessions (hpaths : NoCollision paths) (hs : InOrder paths s) (hrun : Run Net.step s trace t)
    (hassumed : Guarded (Assumed paths) trace) (hfresh : Guarded FreshTemp trace) :
    Run (Step []) (service paths s) (trace.map (Prod.map (service paths) Call.act)) (service paths t) := by
  have hboth : Guarded (fun s c => Assumed paths s c ∧ s.FreshTemp c) trace :=
    fun entry hmem => ⟨hassumed entry hmem, hfresh entry hmem⟩
  exact hrun.map_guarded (service paths) Call.act (InOrder paths) hs (fun _ _ _ hs hc hstep => hs.step hpaths hc.1 hstep)
    (fun _ _ _ hs hc hstep => hs.act hpaths hc.1 hc.2 hstep) hboth

/-- Whatever the clients do, in whatever order, they hold sessions over shared files: opens take copies, writes edit
them, flushes publish them as a whole, and nobody sees anything else. -/
theorem runs_are_sessions (hpaths : NoCollision paths) (hstart : start.Start) (hrun : Run Net.step start trace s)
    (hassumed : Guarded (Assumed paths) trace) (hfresh : Guarded FreshTemp trace) :
    Run (Step []) (service paths start) (trace.map (Prod.map (service paths) Call.act)) (service paths s) :=
  InOrder.sessions hpaths hstart.inOrder hrun hassumed hfresh

/-- Nothing comes out of thin air: what the server has of a path, and what a client has as its copy, is made of the
server's file at the start, or of an empty one, by writes to this path, each at most once and in their order. -/
theorem contents_written (hpaths : NoCollision paths) (hstart : start.Start) (hrun : Run Net.step start trace s)
    (hassumed : Guarded (Assumed paths) trace) (hfresh : Guarded FreshTemp trace) {path : CString} (hpath : path ∈ paths)
    {content : Bytes}
    (hcontent : contentAt s.srv path.bytes = some content ∨ ∃ i, tempAt (s.clients i).files path = some content) :
    ∃ (base : Bytes) (writes : List (Call ι)), (contentAt start.srv path.bytes = some base ∨ base = []) ∧
      writes.Sublist (trace.map Prod.snd) ∧ (∀ c ∈ writes, ∃ fi buf offset, c.request = .write path fi buf offset) ∧
      content = writes.foldr (fun c => c.act.apply) base := by
  have hsessions := InOrder.sessions hpaths hstart.inOrder hrun hassumed hfresh
  have hderived : Derived [] (service paths start) ((trace.map Prod.snd).map Call.act) path content := by
    have hacts : (trace.map Prod.snd).map Call.act =
        (trace.map (Prod.map (service paths) Call.act)).map Prod.snd := by
      rw [List.map_map, List.map_map]
      rfl
    rw [hacts]
    rcases hcontent with hfile | ⟨i, hcopy⟩
    · exact (derived_of_run hsessions).1 path content ((if_pos hpath).trans hfile)
    · exact (derived_of_run hsessions).2 i path content ((if_pos hpath).trans hcopy)
  obtain ⟨base, made, hbase, hmade, hall, rfl⟩ := hderived
  obtain ⟨writes, hwrites, rfl⟩ := List.sublist_map_iff.mp hmade
  refine ⟨base, writes, ?_, hwrites, fun c hc => ?_, List.foldr_map⟩
  · rcases hbase with hfile | ⟨i, hcopy⟩ | hblank
    · exact Or.inl ((if_pos hpath).symm.trans hfile)
    · have hnone : tempAt (start.clients i).files path = none := by
        rw [tempAt, Fs.find_eq_none_iff.mpr (hstart.empty i path)]
        rfl
      have hcopy' := (if_pos hpath).symm.trans hcopy
      rw [hnone] at hcopy'
      cases hcopy'
    · exact Or.inr hblank
  · obtain ⟨hact, f, hkind⟩ := hall c.act (List.mem_map_of_mem hc)
    have hact' : c.request.path = path := hact
    have hkind' : c.request.kind = .edits f := hkind
    cases hrequest : c.request with
    | openFile other fi is_create =>
        rw [hrequest] at hkind'
        cases hkind'
    | write other fi buf offset =>
        rw [hrequest] at hact'
        obtain rfl : other = path := hact'
        exact ⟨fi, buf, offset, rfl⟩
    | flush other fi =>
        rw [hrequest] at hkind'
        cases hkind'

/-- A client that opens a clean path of the server has the server's bytes, and until it opens the path again its reads
give these bytes with its own writes since, whatever is flushed meanwhile. If it flushes its writes, the server has
exactly these bytes. -/
theorem session_isolated (hpaths : NoCollision paths) (hstart : start.Start) {before : List (Net ι × Call ι)}
    (hbefore : Run Net.step start before s) (hassumed : Guarded (Assumed paths) before)
    (hc : Assumed paths s c) (hopen : s.step c t) {path : CString} {fi : FuseFileInfo} {is_create : Bool}
    (hrequest : c.request = .openFile path fi is_create)
    (hclean : getHashedPath path ∉ (s.clients c.client).dirty_files) {content : Bytes}
    (hthere : contentAt s.srv path.bytes = some content) (hrun : Run Net.step t trace u)
    (hassumed' : Guarded (Assumed paths) trace) (hfresh : Guarded FreshTemp trace)
    (hsession : Guarded (fun _ d => ¬ d.act.Opens c.client path) trace) :
    let bytes := edits c.client path (trace.map fun entry => entry.2.act) content
    (∀ fi' E size offset, (path, fi') ∈ u.handles c.client → E.Reliable →
      (unreliableRead E path size offset (some fi') (u.world c.client)).1 =
        ((((bytes.drop offset).take size).length : Int), (bytes.drop offset).take size)) ∧
    ∀ d v fi', Assumed paths u d → u.FreshTemp d → u.step d v → d.client = c.client → d.request = .flush path fi' →
      getHashedPath path ∈ (u.clients c.client).dirty_files → contentAt v.srv path.bytes = some bytes := by
  intro bytes
  have hpath : path ∈ paths := by
    have hpath := hc.path
    rwa [hrequest] at hpath
  have hs := InOrder.of_run hpaths hstart.inOrder hbefore hassumed
  have ht := hs.step hpaths hc hopen
  have hu := InOrder.of_run hpaths ht hrun hassumed'
  have hopenFresh : s.FreshTemp c := fun path' fi' heq => by
    rw [hrequest] at heq
    cases heq
  have hact : c.act = ⟨c.client, path, .opens⟩ := by rw [Call.act, hrequest]; rfl
  have hsessions := InOrder.sessions hpaths ht hrun hassumed' hfresh
  have hopened := hs.act hpaths hc hopenFresh hopen
  rw [hact] at hopened
  have hfile : (service paths s).files path = some content := by
    rw [← hthere]
    exact if_pos hpath
  have hunedited : ¬ (service paths s).edited c.client path := fun h => hclean h.2
  have hopens : ∀ entry ∈ trace.map (Prod.map (service paths) Call.act), ¬ entry.2.Opens c.client path := by
    intro entry hmem
    obtain ⟨entry', hmem', rfl⟩ := List.mem_map.mp hmem
    exact hsession entry' hmem'
  have hacts : (trace.map (Prod.map (service paths) Call.act)).map Prod.snd = trace.map fun entry => entry.2.act := by
    rw [List.map_map]
    rfl
  refine ⟨fun fi' E size offset hmem hrel => ?_, fun d v fi' hd hdfresh hflush hclient hrequest' hdirty => ?_⟩
  · have hcopy := copy_of_run hsessions hopens
    rw [(hopened.opened hunedited hfile).1, hacts] at hcopy
    have htemp : tempAt (u.world c.client).files path = some bytes := by
      rw [show (service paths u).copies c.client path = _ from if_pos hpath] at hcopy
      exact hcopy
    obtain ⟨ino, hget, hname⟩ := ClientOk.descriptor (w := u.world c.client) (hu.consistent.clients c.client)
      (hu.flags c.client) hmem
    rw [tempAt, Fs.find_of_names hname] at htemp
    have hbytes : ((u.world c.client).files.inode ino).content = bytes := Option.some.inj htemp
    rw [unreliableRead_open hrel hget, World.bytesAt, hbytes]
  · have hflushAct : d.act = ⟨c.client, path, .publishes⟩ := by rw [Call.act, hclient, hrequest']; rfl
    have hpublish := hu.act hpaths hd hdfresh hflush
    rw [hflushAct] at hpublish
    have hpublished := (session_published hopened hunedited hfile hsessions hopens hpublish ⟨hpath, hdirty⟩).2
    rw [hacts] at hpublished
    rw [← show (service paths v).files path = _ from if_pos hpath]
    exact hpublished

end Runs

end Net

/-! ### Two clients that write the same file -/

namespace Net

/-- One client opens `/f`. -/
def sampleFirst : Call Bool := callAt true (.openFile sampleF ⟨O_RDWR, 0⟩ false) 1

def sampleOpened : Net Bool :=
  letI := sampleSha256
  (sampleNet.next sampleFirst).getD sampleNet

/-- The other one opens it, writes and flushes; then the first one writes. -/
def sampleMeanwhile : List (Call Bool) :=
  [callAt false (.openFile sampleF ⟨O_RDWR, 0⟩ false) 2,
    callAt false (.write sampleF ⟨O_RDWR, 1⟩ (ascii "new") 0) 3,
    callAt false (.flush sampleF ⟨O_RDWR, 1⟩) 4,
    callAt true (.write sampleF ⟨O_RDWR, 1⟩ (ascii "s") 3) 5]

theorem sampleFirst_step :
    letI := sampleSha256
    sampleNet.step sampleFirst sampleOpened := rfl

theorem sampleFirst_assumed :
    letI := sampleSha256
    Assumed {sampleF} sampleNet sampleFirst := by
  let _ := sampleSha256
  exact .of_smooth rfl (by decide) (by decide) rfl rfl (by decide)

theorem sampleMeanwhile_run :
    letI := sampleSha256
    ∃ trace u, Run step sampleOpened trace u ∧ Guarded (Assumed {sampleF}) trace ∧ Guarded FreshTemp trace ∧
      Guarded (fun _ d => ¬ d.act.Opens true sampleF) trace ∧ (sampleF, ⟨O_RDWR, 1⟩) ∈ u.handles true ∧
      edits true sampleF (trace.map fun entry => entry.2.act) (ascii "old") = ascii "olds" ∧
      contentAt u.srv sampleF.bytes = some (ascii "new") := by
  have hrun : Run (@step _ _ sampleSha256) sampleOpened _ _ := .of_advance sampleMeanwhile .nil rfl
  refine ⟨_, _, hrun, ?_, ?_, ?_, by decide, rfl, by decide⟩
  · refine .cons (.of_smooth rfl ?_ ?_ rfl rfl ?_) (.cons (.of_smooth rfl ?_ ?_ rfl rfl ?_)
      (.cons (.of_smooth rfl ?_ ?_ rfl rfl ?_) (.cons (.of_smooth rfl ?_ ?_ rfl rfl ?_) (guarded_nil _))))
    all_goals decide
  · refine .cons (fun _ _ h => ?_) (.cons (fun path fi h => ?_) (.cons (fun _ _ h => ?_) (.cons (fun _ _ h => ?_)
      (guarded_nil _))))
    · cases h
    · cases h
      decide
    · cases h
    · cases h
  · refine .cons (fun h => ?_) (.cons (fun h => ?_) (.cons (fun h => ?_) (.cons (fun h => ?_) (guarded_nil _))))
    · cases h.2.2
    · cases h.1
    · cases h.1
    · cases h.1

/-- The other client's bytes are on the server by now. The first one still reads the bytes it opened, with its write. -/
theorem session_isolated_sample :
    letI := sampleSha256
    ∃ trace u, Run step sampleOpened trace u ∧ contentAt u.srv sampleF.bytes = some (ascii "new") ∧
      (unreliableRead (.smooth 6) sampleF 10 1 (some ⟨O_RDWR, 1⟩) (u.world true)).1 = (3, ascii "lds") := by
  let _ := sampleSha256
  obtain ⟨trace, u, hrun, hassumed, hfresh, hsession, hhandle, hbytes, hserver⟩ := sampleMeanwhile_run
  have hboth := session_isolated (Set.injOn_singleton _ sampleF) sampleNet_start .nil (guarded_nil _)
    sampleFirst_assumed sampleFirst_step rfl (Finset.notMem_empty _)
    (show contentAt sampleNet.srv sampleF.bytes = some (ascii "old") by decide) hrun hassumed hfresh hsession
  have hread := hboth.1 ⟨O_RDWR, 1⟩ (.smooth 6) 10 1 hhandle (Env.smooth_reliable 6)
  refine ⟨trace, u, hrun, hserver, hread.trans ?_⟩
  have hedits : edits sampleFirst.client sampleF (trace.map fun entry => entry.2.act) (ascii "old") = ascii "olds" :=
    hbytes
  rw [hedits]
  decide

/-- The same run, as a run of sessions. -/
theorem runs_are_sessions_sample :
    letI := sampleSha256
    ∃ trace u, Run step sampleNet (trace ++ [(sampleNet, sampleFirst)]) u ∧
      Run (Step []) (service {sampleF} sampleNet)
        ((trace ++ [(sampleNet, sampleFirst)]).map (Prod.map (service {sampleF}) Call.act)) (service {sampleF} u) := by
  let _ := sampleSha256
  obtain ⟨trace, u, hrun, hassumed, hfresh, _⟩ := sampleMeanwhile_run
  have hfirst : Run step sampleNet [(sampleNet, sampleFirst)] sampleOpened := .cons .nil sampleFirst_step
  exact ⟨trace, u, hfirst.trans hrun, runs_are_sessions (Set.injOn_singleton _ sampleF) sampleNet_start
    (hfirst.trans hrun) (.append hassumed (.cons sampleFirst_assumed (guarded_nil _)))
    (.append hfresh (.cons (fun _ _ h => by cases h) (guarded_nil _)))⟩

/-- The bytes of both clients come of the file and of their writes. -/
theorem contents_written_sample :
    letI := sampleSha256
    ∃ (trace : List (Net Bool × Call Bool)) (u : Net Bool) (base : Bytes) (writes : List (Call Bool)),
      Run step sampleNet trace u ∧ contentAt u.srv sampleF.bytes = some (ascii "new") ∧
      (contentAt sampleNet.srv sampleF.bytes = some base ∨ base = []) ∧ writes.Sublist (trace.map Prod.snd) ∧
      ascii "new" = writes.foldr (fun c => c.act.apply) base := by
  let _ := sampleSha256
  obtain ⟨trace, u, hrun, hassumed, hfresh, _, _, _, hserver⟩ := sampleMeanwhile_run
  have hfirst : Run step sampleNet [(sampleNet, sampleFirst)] sampleOpened := .cons .nil sampleFirst_step
  obtain ⟨base, writes, hbase, hwrites, _, hcontent⟩ := contents_written (Set.injOn_singleton _ sampleF) sampleNet_start
    (hfirst.trans hrun) (.append hassumed (.cons sampleFirst_assumed (guarded_nil _)))
    (.append hfresh (.cons (fun _ _ h => by cases h) (guarded_nil _))) (Set.mem_singleton sampleF) (Or.inl hserver)
  exact ⟨_, u, base, writes, hfirst.trans hrun, hserver, hbase, hwrites, hcontent⟩

end Net

end Bnfs
