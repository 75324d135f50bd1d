import Bnfs.ClientMounted

/-! The steps of the mounted file system: what FUSE asks for, with the handles that `open` and `create` gave
out, and the head of the queue, in any order. -/

namespace Bnfs

open FileSystem Programs Runs

/-- A call of FUSE, or the head of the queue is executed. -/
inductive MountOp where
  | call (c : FuseCall)
  | queueHead
  deriving DecidableEq

namespace MountOp

def handle : MountOp → Option FuseFileInfo
  | .call c => c.handle
  | .queueHead => none

variable [Sha256] (E : Env) (w : World)

def effect : MountOp → World
  | .call c => c.effect E w
  | .queueHead => (executeQueueHead E w).2

/-- The handle a successful open leaves in `fi`. -/
def opened (result : Int × FuseFileInfo) : Option Nat :=
  if E.injected = 0 ∧ result.1 = 0 then some result.2.fh else none

/-- The handle the operation gives out. -/
def given : MountOp → Option Nat
  | .call (.openFile path fi) => opened E (unreliableOpen E path fi w).1
  | .call (.create path fi) => opened E (unreliableCreate E path fi w).1
  | _ => none

end MountOp

/-- The world, and the handles that were given out. -/
structure Mount where
  w : World
  handles : Set Nat

/-- What is asked for, and how its calls turn out. -/
structure MountTurn where
  op : MountOp
  E : Env

namespace Mount

variable [Sha256]

/-- The operation works on a handle that was given out, or on none. -/
structure Step (s : Mount) (turn : MountTurn) (t : Mount) : Prop where
  handle : ∀ fi, turn.op.handle = some fi → fi.fh ∈ s.handles
  world : t.w = turn.op.effect turn.E s.w
  handles : t.handles = {fh | fh ∈ s.handles ∨ turn.op.given turn.E s.w = some fh}

/-- A number that `Open` returns is open on the temporary copy of the path. -/
theorem Open_opened {E : Env} {path : CString} {fi : FuseFileInfo} {is_create : Bool} {w : World}
    (h : 0 ≤ (AFSClient.Open E path fi is_create w).1) :
    ∃ ino, (AFSClient.Open E path fi is_create w).2.files.names (getTempPath path) = some ino ∧
      (AFSClient.Open E path fi is_create w).2.cl.fds.get (AFSClient.Open E path fi is_create w).1 =
        some ⟨ino, AFSClient.localFlags fi.flags⟩ := by
  have hopens : FinalOpens E path fi.flags (prepared E path fi is_create w) := by
    by_contra hnot
    exact absurd h (not_le.mpr (openTemp_neg_iff.mpr hnot))
  rw [Open_eq]
  cases hname : (prepared E path fi is_create w).files.names (getTempPath path) with
  | some ino =>
      rw [openTemp_eq fi hopens.1 hname]
      refine ⟨ino, ?_, Descriptors.get_insert_self _ _⟩
      split_ifs <;> exact hname
  | none =>
      rw [openTemp_made hopens.1 hname (hopens.2.resolve_left fun hthere => hthere hname)]
      exact ⟨_, Fs.create_names_self _ _ _, Descriptors.get_insert_self _ _⟩

/-- Where a turn leads. -/
def after (s : Mount) (turn : MountTurn) : Mount :=
  ⟨turn.op.effect turn.E s.w, {fh | fh ∈ s.handles ∨ turn.op.given turn.E s.w = some fh}⟩

/-- The machine has a file `/f` of its own. -/
def sampleMount : Mount where
  w := {
    srv := ⟨.empty ⟨[], default, default⟩, []⟩
    cl := ⟨(Fs.empty ⟨[], default, default⟩).create (ascii "/f") ⟨ascii "data", ⟨1, 0⟩, default⟩,
      [], ∅, []⟩
    errno := 0 }
  handles := ∅

end Mount

end Bnfs
