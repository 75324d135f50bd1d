import Bnfs.ModelFuse

/-! The handlers in an operation into which nothing is injected: each is then what stands after its opening
lines. -/

namespace Bnfs

variable {E : Env}

theorem unlessInjected_zero (h : E.injected = 0) (body : Prog Int) : unlessInjected E body = body := by
  unfold unlessInjected
  rw [if_neg (by rw [h]; decide), if_neg (not_not.mpr h)]

theorem unlessInjected_of_ne (h : E.injected ≠ 0) (body : Prog Int) (w : World) :
    (unlessInjected E body w).2 = w := by
  unfold unlessInjected
  split_ifs <;> rfl

/-- The same for a handler that returns what it finds next to its result. -/
theorem answer_zero {α : Type} (h : E.injected = 0) (noop injected body : α) :
    (if E.injected = -ERRNO_NOOP then noop else if E.injected ≠ 0 then injected else body) = body := by
  rw [if_neg (by rw [h]; decide), if_neg (not_not.mpr h)]

/-- The same for a handler that can be put off. -/
theorem carriedOut_zero (h : E.injected = 0) (noop putOff injected body : Prog Int) :
    (if E.injected = -ERRNO_NOOP then noop
      else if E.injected = -ERR_INSERT_TO_QUEUE then putOff
      else if E.injected ≠ 0 then injected else body) = body := by
  rw [if_neg (by rw [h]; decide), if_neg (by rw [h]; decide), if_neg (not_not.mpr h)]

theorem orErrno_world (ret : Int) (w : World) : (orErrno ret w).2 = w := by
  unfold orErrno
  split_ifs <;> rfl

variable [Sha256] (path : CString)

theorem unreliableWrite_plain (hplain : E.injected = 0) (buf : Bytes) (offset : Nat)
    (fi : Option FuseFileInfo) :
    unreliableWrite E path buf offset fi = writeThrough E path buf offset fi :=
  carriedOut_zero hplain _ _ _ _

theorem unreliableFlush_plain (fi : FuseFileInfo) (hplain : E.injected = 0) :
    unreliableFlush E path fi = flushThrough E path fi :=
  carriedOut_zero hplain _ _ _ _

theorem openHandle_plain (hplain : E.injected = 0) (fi : FuseFileInfo) (is_create : Bool) :
    openHandle E path fi is_create = (do
      let ret ← AFSClient.Open E path fi is_create
      if ret < 0 then return (ret, fi) else return (0, { fi with fh := ret.toNat })) :=
  answer_zero hplain _ _ _

/-- An open that gave a number. -/
theorem openHandle_of_nonneg (hplain : E.injected = 0) {path : CString} {fi : FuseFileInfo}
    {is_create : Bool} {w : World} (h : 0 ≤ (AFSClient.Open E path fi is_create w).1) :
    openHandle E path fi is_create w =
      ((0, { fi with fh := (AFSClient.Open E path fi is_create w).1.toNat }),
        (AFSClient.Open E path fi is_create w).2) := by
  rw [openHandle_plain path hplain, bind_run, if_neg (Int.not_lt.mpr h)]
  rfl

theorem openHandle_world (hplain : E.injected = 0) (path : CString) (fi : FuseFileInfo)
    (is_create : Bool) (w : World) :
    (openHandle E path fi is_create w).2 = (AFSClient.Open E path fi is_create w).2 := by
  rw [openHandle_plain path hplain, bind_run]
  split_ifs <;> rfl

theorem unreliableTruncate_world (hplain : E.injected = 0) (path : CString) (length : Int) (w : World) :
    (unreliableTruncate E path length w).2 =
      (posixTruncate E .truncate (getTempPath path) length w).2 := by
  unfold unreliableTruncate
  rw [unlessInjected_zero hplain, bind_run, orErrno_world]

theorem unreliableRename_world (hplain : E.injected = 0) (oldpath newpath : CString) (w : World) :
    (unreliableRename E oldpath newpath w).2 = (AFSClient.rename E oldpath newpath w).2 := by
  unfold unreliableRename
  rw [unlessInjected_zero hplain, bind_run]
  split_ifs <;> rfl

theorem unreliableUnlink_world (hplain : E.injected = 0) (path : CString) (w : World) :
    (unreliableUnlink E path w).2 = (AFSClient.unlink E path w).2 := by
  unfold unreliableUnlink
  rw [unlessInjected_zero hplain, bind_run]
  split_ifs <;> rfl

end Bnfs
