import Mathlib.Data.List.Basic
import Mathlib.Logic.Function.Basic
import Mathlib.Order.Lattice

/-! Versions of values and copies of them. Registers under keys are written one at a time: what a register holds after a
history of writes is the value of the last write to its key. An implementation that writes in many small steps is correct
when each of its steps either leaves the registers alone or is one such write. A copy of a value carries the time it was
written, as the value does. A reader keeps the copy as long as the source is not newer; the copy is usable when that
test never lets a different value through. Nothing is assumed of how the times arise. -/

namespace Register

variable {Key Value Write : Type} [DecidableEq Key] (key : Write → Key) (value : Write → Value)

/-- The registers after a history of writes, newest first. -/
def replay (start : Key → Value) : List Write → Key → Value
  | [] => start
  | write :: history => Function.update (replay start history) (key write) (value write)

/-- The last write to a key. -/
def last (history : List Write) (k : Key) : Option Write := history.find? fun w => key w = k

theorem last_cons_self (write : Write) (history : List Write) :
    last key (write :: history) (key write) = some write := by
  simp [last]

theorem mem_of_last {history : List Write} {k : Key} {write : Write}
    (h : last key history k = some write) : write ∈ history :=
  List.mem_of_find?_eq_some h

/-- A register holds the value of the last write to its key, and what it held at the start if there
was none. -/
theorem replay_eq_last (start : Key → Value) (history : List Write) (k : Key) :
    replay key value start history k =
      match last key history k with
      | some write => value write
      | none => start k := by
  induction history with
  | nil => rfl
  | cons write history ih =>
      rw [replay, last, List.find?_cons]
      by_cases hkey : k = key write
      · subst hkey
        simp
      · rw [Function.update_of_ne hkey, ih]
        have hne : decide (key write = k) = false := decide_eq_false (Ne.symm hkey)
        simp only [hne]
        rfl

end Register

namespace Stamped

variable {Value Time : Type} [LinearOrder Time]

/-- If the source is not newer than the copy, the copy has the source's value. -/
def Usable (source copy : Option (Value × Time)) : Prop :=
  ∀ v s w t, source = some (v, s) → copy = some (w, t) → s ≤ t → v = w

theorem usable_none_copy (source : Option (Value × Time)) : Usable source none := by
  intro v s w t _ ht
  cases ht

/-- A source written after the copy is never mistaken for it. -/
theorem usable_of_lt {source copy : Option (Value × Time)}
    (h : ∀ v s w t, source = some (v, s) → copy = some (w, t) → t < s) : Usable source copy := by
  intro v s w t hs ht hle
  exact absurd hle (not_le.mpr (h v s w t hs ht))

/-- Once the source is strictly newer than every time the copy can have, the copy is usable. -/
theorem usable_of_bound {source copy : Option (Value × Time)} (bound : Time)
    (hcopy : ∀ w t, copy = some (w, t) → t ≤ bound)
    (hsource : ∀ v s, source = some (v, s) → bound < s) : Usable source copy :=
  usable_of_lt fun v s w t hs ht => (hcopy w t ht).trans_lt (hsource v s hs)

end Stamped
