import Bnfs.UploadHandlers

/-! A handler that runs by itself. With the mutex free and nobody else moving, its turns lead to the
files and the reply that `FileServer.putFile` gives for the same messages, so what is shown of either
is shown of one program. -/

namespace Bnfs.Handlers

variable {ι : Type} [DecidableEq ι] (calls : ι → PutCall) (i : ι)

/-- The handler can move from one state to the other; the mutex and the files are given with it. -/
structure Alone (s : Handlers ι) (pc : PutPc) (lock : Option ι) (files : Files) : Prop where
  reached : ∃ trace t, Interleaving calls s trace t ∧ t.pc i = pc ∧ t.lock = lock ∧ t.files = files

variable {calls i} {s : Handlers ι} {pc pc' : PutPc} {lock lock' : Option ι} {files files' : Files}

/-- One more turn of the handler. -/
theorem Alone.turn (h : Alone calls i s pc lock files) (turn : Turn ι)
    (hstep : ∀ t : Handlers ι, t.pc i = pc → t.lock = lock → t.files = files →
      ∃ u, step calls t turn = some u ∧ u.pc i = pc' ∧ u.lock = lock' ∧ u.files = files') :
    Alone calls i s pc' lock' files' := by
  obtain ⟨trace, t, hrun, hpc, hlock, hfiles⟩ := h.reached
  obtain ⟨u, hu, hpc', hlock', hfiles'⟩ := hstep t hpc hlock hfiles
  exact ⟨_, u, hrun.cons hu, hpc', hlock', hfiles'⟩

/-- The chunks are written one turn each. -/
theorem Alone.writeChunks (E : Env) (k : Nat) (rest : List PutFileReq) (out : Files × Option Nat)
    (h : Alone calls i s (.writing out.2 rest) lock out.1) :
    Alone calls i s (.writing (FileServer.writeChunks E k rest out).2 []) lock
      (FileServer.writeChunks E k rest out).1 := by
  induction rest generalizing k out with
  | nil => exact h
  | cons request rest ih =>
      refine ih (k + 1) _ (h.turn ⟨i, E.fails (.putFileWrite k), E.now (.putFileWrite k), default⟩ ?_)
      intro t hpc hlock hfiles
      have hout : (t.files, out.2) = out := by rw [hfiles]
      let out' := uploadWrite (E.fails (.putFileWrite k)) (E.now (.putFileWrite k)) request.contents out
      refine ⟨{ t.goto i (.writing out'.2 rest) with files := out'.1 }, ?_, goto_pc_self t i _, hlock, rfl⟩
      simp only [step, hpc, hout]
      rfl

/-- Up to the rename: the upload is in its temporary file, and the handler holds the mutex. -/
theorem alone_closed (E : Env) (srv : Server) (hpc : s.pc i = .start) (hlock : s.lock = none)
    (hfiles : s.files = srv.files) (htemp : FileServer.tempFilePath (randomString E.rand 20) (calls i).requests =
      (calls i).temp) :
    Alone calls i s .closed (some i) (FileServer.writeUpload E (calls i).requests srv.files) := by
  have hstart : Alone calls i s .start none srv.files := ⟨[], s, .nil, hpc, hlock, hfiles⟩
  have hread : Alone calls i s .waiting none srv.files := by
    refine hstart.turn ⟨i, none, default, default⟩ fun t hpc hlock hfiles =>
      ⟨t.goto i .waiting, ?_, goto_pc_self t i _, hlock, hfiles⟩
    simp only [step, hpc]
  have hlocked : Alone calls i s .locked (some i) srv.files := by
    refine hread.turn ⟨i, none, default, default⟩ fun t hpc hlock hfiles =>
      ⟨{ t.goto i .locked with lock := some i }, ?_, goto_pc_self t i _, rfl, hfiles⟩
    simp only [step, hpc, hlock, Option.isNone_none, if_true]
  let out := uploadOpen (E.fails .putFileOpen) (E.now .putFileOpen) (E.attr .putFileOpen)
    (calls i).temp srv.files
  have hopened : Alone calls i s (.writing out.2 (calls i).requests.tail) (some i) out.1 := by
    refine hlocked.turn ⟨i, E.fails .putFileOpen, E.now .putFileOpen, E.attr .putFileOpen⟩
      fun t hpc hlock hfiles => ⟨{ t.goto i (.writing out.2 (calls i).requests.tail) with
        files := out.1 }, ?_, goto_pc_self t i _, hlock, rfl⟩
    simp only [step, hpc, hfiles]
    rfl
  have hwritten := hopened.writeChunks E 0
  have hupload : FileServer.writeUpload E (calls i).requests srv.files =
      (FileServer.writeChunks E 0 (calls i).requests.tail out).1 := by
    rw [FileServer.writeUpload, htemp]
  rw [hupload]
  refine hwritten.turn ⟨i, none, default, default⟩ fun t hpc hlock hfiles =>
    ⟨t.goto i .closed, ?_, goto_pc_self t i _, hlock, hfiles⟩
  simp only [step, hpc]

/-- From a rename that succeeds on: the mode is changed and the mutex is free again. -/
theorem Alone.installs (E : Env) (h : Alone calls i s .closed (some i) files)
    (heq : uploadRename (E.fails .putFileRename) (calls i).temp (calls i).target files =
      (none, files.rename (calls i).temp (calls i).target)) :
    Alone calls i s .unlocked none (uploadChmod (E.fails .putFileChmod) (calls i).target
      (files.rename (calls i).temp (calls i).target)) := by
  let renamed := files.rename (calls i).temp (calls i).target
  let changed := uploadChmod (E.fails .putFileChmod) (calls i).target renamed
  have hrenamed : Alone calls i s .renamed (some i) renamed := by
    refine h.turn ⟨i, E.fails .putFileRename, default, default⟩ fun t hpc hlock hfiles =>
      ⟨{ t.goto i .renamed with
        files := renamed
        versions := ⟨i, (calls i).target, renamed.find (calls i).target⟩ :: t.versions }, ?_,
        goto_pc_self t i _, hlock, rfl⟩
    simp only [step, hpc, hfiles, heq]
    rfl
  have hchmodded : Alone calls i s .chmodded (some i) changed := by
    refine hrenamed.turn ⟨i, E.fails .putFileChmod, default, default⟩ fun t hpc hlock hfiles =>
      ⟨{ t.goto i .chmodded with files := changed }, ?_, goto_pc_self t i _, hlock, rfl⟩
    simp only [step, hpc, hfiles]
    rfl
  refine hchmodded.turn ⟨i, none, default, default⟩ fun t hpc hlock hfiles =>
    ⟨{ t.goto i .unlocked with lock := none }, ?_, goto_pc_self t i _, rfl, hfiles⟩
  simp only [step, hpc]

/-- A handler that starts with the mutex free and runs alone ends with the reply and the files of
`FileServer.putFile`. A failed rename leaves it with the mutex. -/
theorem alone_putFile (E : Env) (srv : Server) (hpc : s.pc i = .start) (hlock : s.lock = none)
    (hfiles : s.files = srv.files) (hrand : (calls i).rand = E.rand) :
    ∃ lock, Alone calls i s (.returned (FileServer.putFile E (calls i).requests srv).1) lock
      (FileServer.putFile E (calls i).requests srv).2.files := by
  have htemp : FileServer.tempFilePath (randomString E.rand 20) (calls i).requests = (calls i).temp := by
    rw [PutCall.temp, hrand]
  have hclosed := alone_closed E srv hpc hlock hfiles htemp
  rcases uploadRename_cases (E.fails .putFileRename) (calls i).temp (calls i).target
    (FileServer.writeUpload E (calls i).requests srv.files) with ⟨e, heq, _⟩ | ⟨heq, _⟩
  · have hput : FileServer.putFile E (calls i).requests srv =
        (none, { srv with files := FileServer.writeUpload E (calls i).requests srv.files }) := by
      simp only [FileServer.putFile, htemp]
      rw [show FileServer.cachePath (calls i).requests = (calls i).target from rfl, heq]
    rw [hput]
    refine ⟨some i, hclosed.turn ⟨i, E.fails .putFileRename, default, default⟩
      fun t hpc hlock hfiles => ⟨t.goto i (.returned none), ?_, goto_pc_self t i _, hlock, hfiles⟩⟩
    simp only [step, hpc, hfiles, heq]
    rw [← hfiles]
    rfl
  · let changed := uploadChmod (E.fails .putFileChmod) (calls i).target
      ((FileServer.writeUpload E (calls i).requests srv.files).rename (calls i).temp (calls i).target)
    have hput : (FileServer.putFile E (calls i).requests srv).1 =
          (uploadLstat (E.fails .putFileLstat) (calls i).target changed).map
            (fun mtime => ⟨0, toUInt64 mtime⟩) ∧
        (FileServer.putFile E (calls i).requests srv).2.files = changed := by
      simp only [FileServer.putFile, htemp]
      rw [show FileServer.cachePath (calls i).requests = (calls i).target from rfl, heq]
      simp only
      split
      · rename_i hlstat
        exact ⟨by rw [hlstat]; rfl, rfl⟩
      · rename_i mtime hlstat
        exact ⟨by rw [hlstat]; rfl, rfl⟩
    refine ⟨none, (hclosed.installs E heq).turn ⟨i, E.fails .putFileLstat, default, default⟩
      fun t hpc hlock hfiles => ⟨t.goto i (.returned (FileServer.putFile E (calls i).requests srv).1),
        ?_, goto_pc_self t i _, hlock, hfiles.trans hput.2.symm⟩⟩
    simp only [step, hpc, hfiles, hput.1]
    rfl

end Bnfs.Handlers
