import Bnfs.ClientHandles

/-! The files outside the directory of the client, over runs of the mounted file system. A file that got a name in
the directory, or a symbolic link that stands there, would tie the two; and a handle that no open gave may be any
descriptor. Without these, what is behind a handle is a file of the directory, and only the operations that take a
path as a local name reach out. -/

namespace Bnfs

open FileSystem Programs Runs

theorem FuseCall.usesPath_of_touches {E : Env} {files : Files} {c : FuseCall} (h : c.Touches E files) :
    c.usesPath = true := by
  cases c with
  | symlink => rfl
  | link => rfl
  | ftruncate => rfl
  | write path buf offset fi =>
      cases fi with
      | none => rfl
      | some fi => exact h.elim
  | _ => exact h.elim

namespace MountOp

/-- The operation changes a file of a name outside. -/
def Touches (E : Env) (w : World) : MountOp → Prop
  | .call c => c.Touches E w.files
  | .queueHead =>
      match w.cl.op_queue with
      | [] => False
      | headVal :: _ =>
          headVal.operation_id = 1 ∧ headVal.path.bytes ∉ clientDir ∧
            Rewrites E .queueOpen .queuePwrite headVal.path.bytes (headVal.buf.take headVal.size)
              headVal.offset w.files

/-- The operation gives a file from outside a name in the directory, or makes a symbolic link there. -/
def Ties (E : Env) (w : World) : MountOp → Prop
  | .call c => c.Ties E w.files
  | .queueHead => False

variable [Sha256] {E : Env} {op : MountOp} {w : World}

/-- With a handle on a file of the directory, or none, an operation leaves the files outside as they are exactly if it
does not touch them. -/
theorem effect_outside_iff (happart : w.files.Apart clientDir)
    (hhandle : ∀ fi, op.handle = some fi → ∀ d, w.cl.fds.get fi.fh = some d → w.files.Hidden clientDir d.ino) :
    Fs.SameOutside clientDir w.files (op.effect E w).files ↔ ¬ op.Touches E w := by
  cases op with
  | call c =>
      cases hpath : c.usesPath with
      | true =>
          have hleaves := FuseCall.effect_leaves E w hpath
          exact (iff_of_eq (congrArg (Fs.SameOutside clientDir w.files) hleaves.files)).trans
            (FuseCall.rawFiles_sameOutside_iff happart hpath)
      | false =>
          have hspares := FuseCall.effect_spares E hpath hhandle
          refine iff_of_true (hspares happart).outside fun h => ?_
          rw [FuseCall.usesPath_of_touches h] at hpath
          cases hpath
  | queueHead =>
      have hfiles : (executeQueueHead E w).2.files = queueFiles E w := (leaves_executeQueueHead E w).files
      show Fs.SameOutside clientDir w.files (executeQueueHead E w).2.files ↔ _
      rw [hfiles, queueFiles, Touches]
      cases w.cl.op_queue with
      | nil => exact iff_of_true (.refl clientDir w.files) id
      | cons headVal rest =>
          by_cases hwrite : headVal.operation_id = 1
          · simp only [if_pos hwrite]
            rw [rawWritten_sameOutside_iff happart]
            exact not_congr (and_iff_right hwrite).symm
          · simp only [if_neg hwrite]
            exact iff_of_true (.refl clientDir w.files) fun h => hwrite h.1

/-- If it does not, and ties nothing from there to the directory, the directory still shares no file with the rest. -/
theorem effect_apart (happart : w.files.Apart clientDir)
    (hhandle : ∀ fi, op.handle = some fi → ∀ d, w.cl.fds.get fi.fh = some d → w.files.Hidden clientDir d.ino)
    (htouches : ¬ op.Touches E w) (hties : ¬ op.Ties E w) : (op.effect E w).files.Apart clientDir := by
  cases op with
  | call c =>
      cases hpath : c.usesPath with
      | true =>
          have hleaves := FuseCall.effect_leaves E w hpath
          exact (congrArg (Fs.Apart clientDir) hleaves.files).mpr (FuseCall.rawFiles_apart happart htouches hties)
      | false => exact (FuseCall.effect_spares E hpath hhandle happart).apart
  | queueHead =>
      have hfiles : (executeQueueHead E w).2.files = queueFiles E w := (leaves_executeQueueHead E w).files
      show Fs.Apart clientDir (executeQueueHead E w).2.files
      rw [hfiles]
      refine happart.of_names fun name i hname => ?_
      rw [queueFiles] at hname
      split at hname
      · exact hname
      · split_ifs at hname
        · rwa [rawWritten_names] at hname
        · exact hname

end MountOp

namespace Holding

/-- No handle yet, and no file of the directory has a name outside. -/
structure Start (s : Holding) : Prop where
  handles : s.handles = ∅
  apart : s.w.files.Apart clientDir

/-- The operation changes nothing outside, ties nothing from there to the directory, and is no open that only seems to
succeed. -/
structure KeepsOut (s : Holding) (turn : MountTurn) : Prop where
  touches : ¬ turn.op.Touches turn.E s.w
  ties : ¬ turn.op.Ties turn.E s.w
  plain : turn.op.Plain turn.E

/-- The directory shares no file with the rest, and every handle is open on a file of it. -/
structure Sound (s : Holding) : Prop where
  apart : s.w.files.Apart clientDir
  handles : ∀ fh ∈ s.handles, ∃ d, s.w.cl.fds.get fh = some d ∧ s.w.files.Hidden clientDir d.ino

theorem Start.sound {start : Holding} (hstart : Start start) : Sound start := by
  refine ⟨hstart.apart, fun fh hfh => ?_⟩
  rw [hstart.handles] at hfh
  exact hfh.elim

variable [Sha256] {s t : Holding} {turn : MountTurn}

/-- What the handle of an operation is on. -/
theorem Sound.handle (hs : Sound s) (hstep : Step s turn t) :
    ∀ fi, turn.op.handle = some fi → ∀ d, s.w.cl.fds.get fi.fh = some d → s.w.files.Hidden clientDir d.ino := by
  intro fi hfi d hget
  obtain ⟨d', hget', hhidden⟩ := hs.handles fi.fh (hstep.handle fi hfi)
  cases hget'.symm.trans hget
  exact hhidden

theorem Sound.outside_iff (hs : Sound s) (hstep : Step s turn t) :
    Fs.SameOutside clientDir s.w.files t.w.files ↔ ¬ turn.op.Touches turn.E s.w := by
  rw [hstep.world]
  exact MountOp.effect_outside_iff hs.apart (hs.handle hstep)

theorem Sound.step (hs : Sound s) (hout : s.KeepsOut turn) (hstep : Step s turn t) : Sound t := by
  have hsame := (hs.outside_iff hstep).mpr hout.touches
  have happart : t.w.files.Apart clientDir := by
    rw [hstep.world]
    exact MountOp.effect_apart hs.apart (hs.handle hstep) hout.touches hout.ties
  refine ⟨happart, fun fh hfh => ?_⟩
  rw [hstep.handles] at hfh
  by_cases hgives : turn.op.gives turn.E s.w = some fh
  · obtain ⟨path, fi, ino, _, hname, hget⟩ := MountOp.opened_of_gives hout.plain hgives
    rw [← hstep.world] at hname hget
    exact ⟨_, hget, happart (getTempPath path) (getTempPath_mem_clientDir path) ino hname⟩
  · obtain ⟨hold, hstays⟩ := hfh.resolve_right hgives
    obtain ⟨d, hget, hhidden⟩ := hs.handles fh hold
    refine ⟨d, hstep.kept (fun fh' hup heq => ?_) hget, hsame.hidden hhidden⟩
    rw [Int.natCast_inj.mp heq] at hstays
    exact hstays hup

section Sample

omit [Sha256]

end Sample

end Holding

end Bnfs
