import Bnfs.ModelServer

/-! Uploads whose stream breaks. To the read loop of `PutFile` the break looks like the end, so the
handler renames onto the path whatever has arrived by then. Here is what that is, for every point at
which the stream may break and every way the calls of the handler may turn out. -/

namespace Bnfs

open FileSystem

/-- The bytes of the chunks up to the first whose append fails; `n` is the number of the first. -/
def landed (E : Env) : Nat → List Bytes → Bytes
  | _, [] => []
  | n, chunk :: rest =>
      if chunk = [] then landed E (n + 1) rest
      else if (E.fails (.putFileWrite n)).isSome then []
      else chunk ++ landed E (n + 1) rest

theorem forall_getElem?_cons {α : Type} {P : Nat → α → Prop} (x : α) (xs : List α) :
    (∀ j y, (x :: xs)[j]? = some y → P j y) ↔
      P 0 x ∧ ∀ j y, xs[j]? = some y → P (j + 1) y := by
  constructor
  · intro h
    exact ⟨h 0 x rfl, fun j y hy => h (j + 1) y hy⟩
  · rintro ⟨hzero, hsucc⟩ j y hy
    cases j with
    | zero => exact Option.some.inj hy ▸ hzero
    | succ j => exact hsucc j y hy

/-- Of the chunks, those before number `m` are written, and nothing of the upload is missing: every
chunk with a byte in it is one of them and its append succeeds. -/
theorem landed_take_eq_flatten_iff (E : Env) (chunks : List Bytes) (n m : Nat) :
    landed E n (chunks.take m) = chunks.flatten ↔
      ∀ j chunk, chunks[j]? = some chunk → chunk ≠ [] →
        j < m ∧ E.fails (.putFileWrite (n + j)) = none := by
  induction chunks generalizing n m with
  | nil => simp [landed]
  | cons first rest ih =>
      cases m with
      | zero =>
          rw [List.take_zero, landed, eq_comm, List.flatten_eq_nil_iff]
          constructor
          · intro hempty j chunk hchunk hne
            exact absurd (hempty chunk (List.mem_of_getElem? hchunk)) hne
          · intro h chunk hmem
            obtain ⟨j, hj⟩ := List.mem_iff_getElem?.mp hmem
            by_contra hne
            exact absurd (h j chunk hj hne).1 (by omega)
      | succ m =>
          have hshift : (∀ j chunk, rest[j]? = some chunk → chunk ≠ [] →
                j + 1 < m + 1 ∧ E.fails (.putFileWrite (n + (j + 1))) = none) ↔
              landed E (n + 1) (rest.take m) = rest.flatten := by
            rw [ih (n + 1) m]
            simp only [Nat.add_lt_add_iff_right, Nat.add_assoc, Nat.add_comm 1]
          rw [List.take_succ_cons, landed, List.flatten_cons, forall_getElem?_cons, hshift]
          split_ifs with hempty hfails
          · simp [hempty]
          · simp [hempty, Option.isSome_iff_ne_none.mp hfails]
          · have hok : E.fails (.putFileWrite n) = none := by simpa using hfails
            simp [hempty, hok]

namespace FileServer

theorem writeChunks_none (E : Env) (n : Nat) (rest : List PutFileReq) (files : Files) :
    writeChunks E n rest (files, none) = (files, none) := by
  induction rest generalizing n with
  | nil => rfl
  | cons request rest ih => exact ih (n + 1)

/-- The open file takes the chunks up to the first whose append fails, and no other file changes. -/
theorem writeChunks_some (E : Env) (n : Nat) (rest : List PutFileReq) (files : Files) (ino : Nat) :
    (writeChunks E n rest (files, some ino)).1.names = files.names ∧
      ((writeChunks E n rest (files, some ino)).1.inode ino).content =
        (files.inode ino).content ++ landed E n (rest.map (·.contents)) ∧
      ∀ j, j ≠ ino → (writeChunks E n rest (files, some ino)).1.inode j = files.inode j := by
  induction rest generalizing n files with
  | nil => exact ⟨rfl, by simp [writeChunks, landed], fun _ _ => rfl⟩
  | cons request rest ih =>
      rw [writeChunks, List.map_cons, landed]
      unfold uploadWrite
      simp only
      split_ifs with hempty hfails
      · exact ih (n + 1) files
      · rw [writeChunks_none]
        exact ⟨rfl, by simp, fun _ _ => rfl⟩
      · obtain ⟨hnames, hcontent, hother⟩ := ih (n + 1)
          (files.put ino ((files.inode ino).content ++ request.contents) (E.now (.putFileWrite n)))
        refine ⟨hnames, ?_, fun j hj => (hother j hj).trans (Fs.put_of_ne files _ _ hj)⟩
        rw [hcontent, Fs.put_self, List.append_assoc]

/-- The name of the temporary file of an upload to a path. -/
def uploadTemp (E : Env) (path : Bytes) : Bytes := getServerPath path ++ randomString E.rand 20

theorem uploadTemp_ne (E : Env) (path : Bytes) : uploadTemp E path ≠ getServerPath path := by
  intro h
  have hlen := congrArg List.length h
  rw [uploadTemp, List.length_append, randomString_length] at hlen
  omega

theorem uploadTemp_isEmpty (E : Env) (path : Bytes) : (uploadTemp E path).isEmpty = false := by
  have hne := getServerPath_ne_nil path
  cases hpath : getServerPath path with
  | nil => exact absurd hpath hne
  | cons b rest => rw [uploadTemp, hpath]; rfl

/-- A stream that breaks before its first message changes nothing. -/
theorem putFile_nil (E : Env) (srv : Server) : putFile E [] srv = (none, srv) := by
  have hopen : writeUpload E [] srv.files = srv.files := by
    simp [writeUpload, uploadOpen, tempFilePath, writeChunks]
  have hrename : ∃ e, uploadRename (E.fails .putFileRename) [] [] srv.files = (some e, srv.files) := by
    rcases uploadRename_cases (E.fails .putFileRename) [] [] srv.files with ⟨e, h, _⟩ | ⟨_, _, _, h⟩
    · exact ⟨e, h⟩
    · exact absurd rfl h
  obtain ⟨e, he⟩ := hrename
  simp only [putFile, hopen, cachePath, tempFilePath, he]

section Upload

variable (E : Env) (request : PutFileReq) (rest : List PutFileReq) (files : Files)

/-- The files before the rename, when the temporary file could not be opened. -/
theorem writeUpload_of_open_fails (h : (E.fails .putFileOpen).isSome) :
    writeUpload E (request :: rest) files = files := by
  simp [writeUpload, uploadOpen, h, writeChunks_none]

/-- The files before the rename, when it could: the temporary file has the chunks that landed, and
every file that is not the same inode is as it was. -/
theorem writeUpload_of_opened (h : E.fails .putFileOpen = none) :
    ∃ ino, (writeUpload E (request :: rest) files).names (uploadTemp E request.path) = some ino ∧
      ((writeUpload E (request :: rest) files).inode ino).content =
        landed E 0 (rest.map (·.contents)) ∧
      (∀ name, name ≠ uploadTemp E request.path →
        (writeUpload E (request :: rest) files).names name = files.names name) ∧
      (files.names (uploadTemp E request.path) = some ino ∨
        (files.names (uploadTemp E request.path) = none ∧ ino = files.next)) ∧
      ∀ j, j ≠ ino → (writeUpload E (request :: rest) files).inode j = files.inode j := by
  let opened := files.openTrunc (uploadTemp E request.path) (E.now .putFileOpen) (E.attr .putFileOpen)
  have hopen : writeUpload E (request :: rest) files =
      (writeChunks E 0 rest (opened.1, some opened.2)).1 := by
    have htemp : tempFilePath (randomString E.rand 20) (request :: rest) = uploadTemp E request.path := rfl
    rw [writeUpload, htemp, uploadOpen, if_neg (by simp [h, uploadTemp_isEmpty])]
    rfl
  obtain ⟨hnames, hcontent, hother⟩ := writeChunks_some E 0 rest opened.1 opened.2
  refine ⟨opened.2, ?_, ?_, fun name hname => ?_, Fs.openTrunc_ino _ _ _ _, fun j hj => ?_⟩
  · rw [hopen, hnames]
    exact Fs.openTrunc_names_self _ _ _ _
  · rw [hopen, hcontent, (Fs.openTrunc_inode_self _ _ _ _).1, List.nil_append]
  · rw [hopen, hnames]
    exact Fs.openTrunc_names_of_ne _ _ _ hname
  · rw [hopen, hother j hj]
    exact Fs.openTrunc_inode_of_ne _ _ _ _ hj

/-- What `PutFile` does once the temporary file is written: the rename fails and the files stay as they
are, or the temporary file is at the path. -/
theorem putFile_cases (srv : Server) :
    let written := writeUpload E (request :: rest) srv.files
    let temp := uploadTemp E request.path
    let target := getServerPath request.path
    (((E.fails .putFileRename).isSome ∨ written.names temp = none) ∧
      putFile E (request :: rest) srv = (none, { srv with files := written })) ∨
    (E.fails .putFileRename = none ∧ written.names temp ≠ none ∧
      (putFile E (request :: rest) srv).2.installs =
        ⟨target, ((written.find temp).map (·.content)).getD []⟩ :: srv.installs ∧
      (putFile E (request :: rest) srv).1 =
        (uploadLstat (E.fails .putFileLstat) target
          (putFile E (request :: rest) srv).2.files).map (fun mtime => ⟨0, toUInt64 mtime⟩) ∧
      ∀ name, dated (putFile E (request :: rest) srv).2.files name =
        dated (written.rename temp target) name) := by
  intro written temp target
  have htemp : tempFilePath (randomString E.rand 20) (request :: rest) = temp := rfl
  have htarget : cachePath (request :: rest) = target := rfl
  rcases uploadRename_cases (E.fails .putFileRename) temp target written with
    ⟨e, heq, hfails⟩ | ⟨heq, hok, hpresent, _⟩
  · refine Or.inl ⟨?_, ?_⟩
    · rcases hfails with hfails | hmissing | hempty
      · exact Or.inl hfails
      · exact Or.inr hmissing
      · exact absurd hempty (getServerPath_ne_nil _)
    · simp only [putFile, htemp, htarget]
      rw [heq]
  · have hput : putFile E (request :: rest) srv =
        let files := uploadChmod (E.fails .putFileChmod) target (written.rename temp target)
        ((uploadLstat (E.fails .putFileLstat) target files).map (fun mtime => ⟨0, toUInt64 mtime⟩),
          ⟨files, ⟨target, (((written.rename temp target).find target).map (·.content)).getD []⟩ ::
            srv.installs⟩) := by
      simp only [putFile, htemp, htarget]
      rw [heq]
      simp only
      split
      · rename_i hlstat
        rw [hlstat]
        rfl
      · rename_i mtime hlstat
        rw [hlstat]
        rfl
    rw [hput]
    refine Or.inr ⟨hok, hpresent, ?_, rfl, fun name => dated_uploadChmod _ _ _ _⟩
    rw [Fs.find_rename_new]

/-- The bytes at the path when the rename fails. -/
theorem contentAt_of_rename_fails (srv : Server)
    (h : (E.fails .putFileRename).isSome ∨
      (writeUpload E (request :: rest) srv.files).names (uploadTemp E request.path) = none) :
    contentAt (putFile E (request :: rest) srv).2 request.path =
      ((writeUpload E (request :: rest) srv.files).find (getServerPath request.path)).map
        (·.content) := by
  rcases putFile_cases E request rest srv with ⟨_, hput⟩ | ⟨hok, hpresent, _⟩
  · rw [hput]
    rfl
  · rcases h with hfails | hmissing
    · rw [hok] at hfails
      cases hfails
    · exact absurd hmissing hpresent

/-- The bytes at the path when it does not. -/
theorem contentAt_of_renamed (srv : Server) (hok : E.fails .putFileRename = none)
    (hpresent : (writeUpload E (request :: rest) srv.files).names (uploadTemp E request.path) ≠ none) :
    contentAt (putFile E (request :: rest) srv).2 request.path =
      ((writeUpload E (request :: rest) srv.files).find (uploadTemp E request.path)).map
        (·.content) := by
  rcases putFile_cases E request rest srv with ⟨hfails | hmissing, _⟩ | ⟨_, _, _, _, hdated⟩
  · rw [hok] at hfails
    cases hfails
  · exact absurd hmissing hpresent
  · rw [contentAt, find_content, hdated, ← find_content, Fs.find_rename_new]

end Upload

/-- The two names lead to one file. -/
def Linked (files : Files) (name other : Bytes) : Prop :=
  ∃ ino, files.names name = some ino ∧ files.names other = some ino

/-- Every chunk with a byte in it is among those that arrive, and its append succeeds. -/
def Complete (E : Env) (chunks : List Bytes) (arriving : Nat) : Prop :=
  ∀ n chunk, chunks[n]? = some chunk → chunk ≠ [] →
    n < arriving ∧ E.fails (.putFileWrite n) = none

/-- The upload of which the first `k` messages arrive leaves the old or the new bytes: no message names
the path; or the temporary file cannot be opened, and what was left under its name is not renamed or
does no harm; or it is written, and the rename fails, or nothing was cut off, or the bytes that arrived
are those the path had. -/
def StaysAtomic (E : Env) (path : Bytes) (chunks : List Bytes) (k : Nat) (srv : Server) : Prop :=
  let temp := uploadTemp E path
  let leftover := (srv.files.find temp).map (·.content)
  k = 0 ∨
  ((E.fails .putFileOpen).isSome ∧ ((E.fails .putFileRename).isSome ∨ leftover = none ∨
    leftover = contentAt srv path ∨ leftover = some chunks.flatten)) ∨
  (E.fails .putFileOpen = none ∧
    (((E.fails .putFileRename).isSome ∧ ¬ Linked srv.files temp (getServerPath path)) ∨
      Complete E chunks (k - 1) ∨ contentAt srv path = some (landed E 0 (chunks.take (k - 1)))))

section Atomic

variable (E : Env) (path : Bytes) (chunks : List Bytes) (k : Nat) (srv : Server)

theorem uploadRequests_take_succ : (uploadRequests path chunks).take (k + 1) =
    ⟨path, []⟩ :: (chunks.take k).map fun chunk => ⟨path, chunk⟩ := by
  rw [uploadRequests, List.take_succ_cons, List.map_take]

variable {E}

/-- The temporary file could be opened: if the rename succeeds, or goes from one name of a file to
another, the path has what landed. -/
theorem contentAt_of_landed (hopen : E.fails .putFileOpen = none)
    (h : E.fails .putFileRename = none ∨ Linked srv.files (uploadTemp E path) (getServerPath path)) :
    contentAt (putFile E ((uploadRequests path chunks).take (k + 1)) srv).2 path =
      some (landed E 0 (chunks.take k)) := by
  rw [uploadRequests_take_succ]
  obtain ⟨ino, hname, hcontent, hother, hino, _⟩ := writeUpload_of_opened E ⟨path, []⟩
    ((chunks.take k).map fun chunk => ⟨path, chunk⟩) srv.files hopen
  have hbytes : ((chunks.take k).map fun chunk => (⟨path, chunk⟩ : PutFileReq)).map (·.contents) =
      chunks.take k := by
    rw [List.map_map]
    exact List.map_id _
  rw [hbytes] at hcontent
  rcases Option.eq_none_or_eq_some (E.fails .putFileRename) with hok | ⟨e, hfails⟩
  · rw [contentAt_of_renamed E ⟨path, []⟩ _ srv hok (by rw [hname]; exact Option.some_ne_none ino),
      Fs.find_of_names hname, Option.map_some, hcontent]
  · obtain ⟨i, htemp, htarget⟩ := h.resolve_left (by rw [hfails]; exact Option.some_ne_none e)
    have hi : i = ino := by
      rcases hino with hold | ⟨hnone, _⟩
      · exact Option.some.inj (htemp.symm.trans hold)
      · exact absurd (htemp.symm.trans hnone) (Option.some_ne_none i)
    have hpath := (hother (getServerPath path) (uploadTemp_ne E path).symm).trans (hi ▸ htarget)
    rw [contentAt_of_rename_fails E ⟨path, []⟩ _ srv (Or.inl (by rw [hfails]; rfl)),
      Fs.find_of_names hpath, Option.map_some, hcontent]

/-- It could be opened, and the rename fails: the path has the old bytes, unless the temporary name was
a second name of its file. -/
theorem contentAt_of_opened_rename_fails (hopen : E.fails .putFileOpen = none)
    (hfails : (E.fails .putFileRename).isSome)
    (hlinked : ¬ Linked srv.files (uploadTemp E path) (getServerPath path)) :
    contentAt (putFile E ((uploadRequests path chunks).take (k + 1)) srv).2 path =
      contentAt srv path := by
  rw [uploadRequests_take_succ]
  obtain ⟨ino, _, _, hother, hino, hsame⟩ := writeUpload_of_opened E ⟨path, []⟩
    ((chunks.take k).map fun chunk => ⟨path, chunk⟩) srv.files hopen
  have hpath := hother (getServerPath path) (uploadTemp_ne E path).symm
  rw [contentAt_of_rename_fails E ⟨path, []⟩ _ srv (Or.inl hfails), contentAt]
  cases htarget : srv.files.names (getServerPath path) with
  | none => rw [Fs.find_eq_none_iff.mpr htarget, Fs.find_eq_none_iff.mpr (hpath.trans htarget)]
  | some i =>
      have hi : i ≠ ino := by
        rintro rfl
        rcases hino with hold | ⟨_, hnext⟩
        · exact hlinked ⟨i, hold, htarget⟩
        · have := srv.files.named_lt _ i htarget
          omega
      rw [Fs.find_of_names htarget, Fs.find_of_names (hpath.trans htarget), hsame i hi]

/-- It could not be opened, and the rename fails or has nothing to move. -/
theorem contentAt_of_nothing_renamed (hopen : (E.fails .putFileOpen).isSome)
    (h : (E.fails .putFileRename).isSome ∨ srv.files.find (uploadTemp E path) = none) :
    contentAt (putFile E ((uploadRequests path chunks).take (k + 1)) srv).2 path =
      contentAt srv path := by
  rw [uploadRequests_take_succ, contentAt_of_rename_fails E ⟨path, []⟩, writeUpload_of_open_fails _ _ _ _ hopen]
  · rfl
  · rw [writeUpload_of_open_fails _ _ _ _ hopen, ← Fs.find_eq_none_iff]
    exact h

/-- It could not be opened, and what was left under its name is renamed. -/
theorem contentAt_of_leftover (hopen : (E.fails .putFileOpen).isSome)
    (hok : E.fails .putFileRename = none) (hleft : srv.files.find (uploadTemp E path) ≠ none) :
    contentAt (putFile E ((uploadRequests path chunks).take (k + 1)) srv).2 path =
      (srv.files.find (uploadTemp E path)).map (·.content) := by
  rw [uploadRequests_take_succ, contentAt_of_renamed E ⟨path, []⟩ _ _ hok,
    writeUpload_of_open_fails _ _ _ _ hopen]
  rw [writeUpload_of_open_fails _ _ _ _ hopen]
  exact fun hnone => hleft (Fs.find_eq_none_iff.mpr hnone)

/-- When the version an upload puts in place has the given bytes. -/
theorem putFile_installs_iff (rest : List Bytes) (content : Bytes) :
    ((putFile E (uploadRequests path rest) srv).2.installs =
        ⟨getServerPath path, content⟩ :: srv.installs ∧
      contentAt (putFile E (uploadRequests path rest) srv).2 path = some content) ↔
    E.fails .putFileRename = none ∧ ((E.fails .putFileOpen = none ∧ landed E 0 rest = content) ∨
      ((E.fails .putFileOpen).isSome ∧
        (srv.files.find (uploadTemp E path)).map (·.content) = some content)) := by
  have hmap : (rest.map fun chunk => (⟨path, chunk⟩ : PutFileReq)).map (·.contents) = rest := by
    rw [List.map_map]
    exact List.map_id _
  rcases putFile_cases E ⟨path, []⟩ (rest.map fun chunk => ⟨path, chunk⟩) srv with
    ⟨hfails, hput⟩ | ⟨hok, hpresent, hinstalls, _, hdated⟩
  · have hnone : ¬ (E.fails .putFileRename = none ∧ ((E.fails .putFileOpen = none ∧
        landed E 0 rest = content) ∨ ((E.fails .putFileOpen).isSome ∧
          (srv.files.find (uploadTemp E path)).map (·.content) = some content))) := by
      rintro ⟨hok, hbytes⟩
      have hmissing := hfails.resolve_left (by rw [hok]; exact Bool.false_ne_true)
      rcases hbytes with ⟨hopen, _⟩ | ⟨hopen, hleft⟩
      · obtain ⟨ino, hname, _⟩ := writeUpload_of_opened E ⟨path, []⟩
          (rest.map fun chunk => ⟨path, chunk⟩) srv.files hopen
        rw [hname] at hmissing
        cases hmissing
      · rw [writeUpload_of_open_fails _ _ _ _ hopen] at hmissing
        rw [Fs.find_eq_none_iff.mpr hmissing] at hleft
        cases hleft
    refine iff_of_false (fun h => ?_) hnone
    have hinstalls := h.1
    rw [uploadRequests, hput] at hinstalls
    exact List.cons_ne_self _ _ hinstalls.symm
  · have hcontent := contentAt_of_renamed E ⟨path, []⟩
      (rest.map fun chunk => ⟨path, chunk⟩) srv hok hpresent
    rw [uploadRequests, hinstalls, hcontent]
    obtain ⟨ino, hname⟩ := Option.ne_none_iff_exists'.mp hpresent
    rw [Fs.find_of_names hname]
    have hiff : ((E.fails .putFileOpen = none ∧ landed E 0 rest = content) ∨
        ((E.fails .putFileOpen).isSome ∧
          (srv.files.find (uploadTemp E path)).map (·.content) = some content)) ↔
        ((writeUpload E (⟨path, []⟩ :: rest.map fun chunk => ⟨path, chunk⟩)
          srv.files).inode ino).content = content := by
      rcases Option.eq_none_or_eq_some (E.fails .putFileOpen) with hopen | ⟨e, hopen⟩
      · obtain ⟨ino', hname', hbytes, _⟩ := writeUpload_of_opened E ⟨path, []⟩
          (rest.map fun chunk => ⟨path, chunk⟩) srv.files hopen
        cases Option.some.inj (hname.symm.trans hname')
        rw [hbytes, hmap]
        simp [hopen]
      · have hopen' : (E.fails .putFileOpen).isSome := by rw [hopen]; rfl
        rw [writeUpload_of_open_fails _ _ _ _ hopen'] at hname ⊢
        rw [Fs.find_of_names hname]
        simp [hopen]
    rw [hiff]
    simp [hok]

/-- After the handler has read the first `k` messages of an upload and then a broken stream, the path has
its old bytes or all the bytes of the upload, exactly in these cases. -/
theorem putFile_atomic_iff :
    (contentAt (putFile E ((uploadRequests path chunks).take k) srv).2 path = contentAt srv path ∨
      contentAt (putFile E ((uploadRequests path chunks).take k) srv).2 path =
        some chunks.flatten) ↔ StaysAtomic E path chunks k srv := by
  cases k with
  | zero =>
      rw [List.take_zero, putFile_nil]
      exact ⟨fun _ => Or.inl rfl, fun _ => Or.inl rfl⟩
  | succ k =>
      have hcomplete := landed_take_eq_flatten_iff E chunks 0 k
      simp only [Nat.zero_add] at hcomplete
      rw [StaysAtomic, Nat.add_sub_cancel, or_iff_right (Nat.succ_ne_zero k), Complete, ← hcomplete]
      rcases Option.eq_none_or_eq_some (E.fails .putFileOpen) with hopen | ⟨e, hopen⟩
      · have hiff : (contentAt srv path = some (landed E 0 (chunks.take k)) ∨
              landed E 0 (chunks.take k) = chunks.flatten) ↔
            (some (landed E 0 (chunks.take k)) = contentAt srv path ∨
              some (landed E 0 (chunks.take k)) = some chunks.flatten) := by
          rw [eq_comm, Option.some_inj]
        by_cases hreach : E.fails .putFileRename = none ∨
            Linked srv.files (uploadTemp E path) (getServerPath path)
        · rw [contentAt_of_landed path chunks k srv hopen hreach, ← hiff]
          have hnot : ¬ ((E.fails .putFileRename).isSome ∧
              ¬ Linked srv.files (uploadTemp E path) (getServerPath path)) := by
            rintro ⟨hfails, hlinked⟩
            rcases hreach with hok | hlink
            · rw [hok] at hfails
              cases hfails
            · exact hlinked hlink
          simp only [hopen, hnot, Option.isSome_none, Bool.false_eq_true, false_and, false_or, true_and]
          exact or_comm
        · have hfails : (E.fails .putFileRename).isSome :=
            Option.isSome_iff_ne_none.mpr fun h => hreach (Or.inl h)
          have hlinked := fun h => hreach (Or.inr h)
          rw [contentAt_of_opened_rename_fails path chunks k srv hopen hfails hlinked]
          exact ⟨fun _ => Or.inr ⟨hopen, Or.inl ⟨hfails, hlinked⟩⟩, fun _ => Or.inl rfl⟩
      · have hopen' : (E.fails .putFileOpen).isSome := by rw [hopen]; rfl
        by_cases hnothing : (E.fails .putFileRename).isSome ∨
            srv.files.find (uploadTemp E path) = none
        · rw [contentAt_of_nothing_renamed path chunks k srv hopen' hnothing]
          refine ⟨fun _ => Or.inl ⟨hopen', ?_⟩, fun _ => Or.inl rfl⟩
          rcases hnothing with hfails | hnone
          · exact Or.inl hfails
          · exact Or.inr (Or.inl (by rw [hnone]; rfl))
        · rw [not_or] at hnothing
          have hok : E.fails .putFileRename = none := by simpa using hnothing.1
          rw [contentAt_of_leftover path chunks k srv hopen' hok hnothing.2]
          simp [hopen, hok, hnothing.2]

/-- Two chunks follow the path, and the stream breaks after the first of them. -/
theorem broken_upload_cut_off :
    let srv : Server := ⟨(Fs.empty ⟨[], default, default⟩).create (getServerPath (ascii "/f"))
      ⟨ascii "old", default, default⟩, []⟩
    let after := contentAt (putFile (.smooth 0)
      ((uploadRequests (ascii "/f") [ascii "new ", ascii "bytes"]).take 2) srv).2 (ascii "/f")
    after = some (ascii "new ") ∧ ¬ (after = contentAt srv (ascii "/f") ∨
      after = some [ascii "new ", ascii "bytes"].flatten) := by
  decide

end Atomic

end FileServer

end Bnfs
