import Bnfs.ModelFuse
import Bnfs.TheoryPrograms

/-! `shuffleQueue` of `afs_client.cc` with its loops. The queue is emptied into a vector whose length was taken
before, the vector is shuffled, and its elements are pushed back; `front` of an empty queue would be
undefined. And `executeQueueHead` with a log of what it pops and executes. -/

namespace Bnfs

open Programs

/-- The value initialisation of an entry. A null `path` has no bytes. -/
instance : Inhabited QueueEntry := ⟨⟨0, ⟨[], List.not_mem_nil⟩, none, [], 0, 0⟩⟩

section Loops

variable {α : Type}

/-- The first loop from `i` on, `vec[i] = op_queue.front(); op_queue.pop();` as long as `i < vec.size()`: the vector, and
what is left of the queue. -/
def drainLoop : List α → Nat → List α → Option (List α × List α)
  | [], i, vec => if i < vec.length then none else some (vec, [])
  | front :: rest, i, vec =>
      if i < vec.length then drainLoop rest (i + 1) (vec.set i front) else some (vec, front :: rest)

/-- `for (const auto &element : vec) op_queue.push(element);` -/
def pushLoop : List α → List α → List α
  | [], queue => queue
  | element :: vec, queue => pushLoop vec (queue ++ [element])

/-- After `i` rounds the first `i` elements are in place. -/
theorem drainLoop_eq (queue : List α) (i : Nat) (vec : List α) (h : vec.length = i + queue.length) :
    drainLoop queue i vec = some (vec.take i ++ queue, []) := by
  induction queue generalizing i vec with
  | nil =>
      have hend : vec.length = i := h
      rw [drainLoop, if_neg (by omega), ← hend, List.take_length, List.append_nil]
  | cons front rest ih =>
      rw [List.length_cons] at h
      have hlt : i < vec.length := by omega
      have htake : (vec.set i front).take (i + 1) = vec.take i ++ [front] := by
        rw [List.take_add_one, List.take_set_of_le (Nat.le_refl i), List.getElem?_set_self hlt]
        rfl
      rw [drainLoop, if_pos hlt, ih (i + 1) (vec.set i front) (by rw [List.length_set]; omega), htake,
        List.append_assoc]
      rfl

example : drainLoop [7, 8] 0 [0, 0] = some ([7, 8], []) ∧ drainLoop [7, 8] 0 [0, 0, 0] = none := by decide

theorem pushLoop_eq (vec queue : List α) : pushLoop vec queue = queue ++ vec := by
  induction vec generalizing queue with
  | nil => rw [pushLoop, List.append_nil]
  | cons element vec ih => rw [pushLoop, ih, List.append_assoc, List.singleton_append]

end Loops

/-- `shuffleQueue`, as it is written. -/
def shuffleQueueLoops (E : Env) (w : World) : Option World :=
  if w.cl.op_queue = [] then some w
  else (drainLoop w.cl.op_queue 0 (List.replicate w.cl.op_queue.length default)).map fun drained =>
    w.setQueue (pushLoop (E.shuffle drained.1) drained.2)

/-- The loops come to an end, and the queue is as the shuffle orders it. -/
theorem shuffleQueueLoops_eq (E : Env) (w : World) : shuffleQueueLoops E w = some (shuffleQueue E w).2 := by
  unfold shuffleQueueLoops shuffleQueue
  split_ifs with hempty
  · have hshuffle : E.shuffle w.cl.op_queue = w.cl.op_queue := by
      rw [hempty]
      exact (E.shuffle_perm []).eq_nil
    rw [hshuffle]
    rfl
  · rw [drainLoop_eq w.cl.op_queue 0 _ (by rw [List.length_replicate, Nat.zero_add]), Option.map_some,
      pushLoop_eq, List.take_zero, List.nil_append, List.nil_append]

/-- What happens to an entry. -/
inductive HeadEvent where
  | popped (entry : QueueEntry)
  | executed (entry : QueueEntry)

/-- The entries that were popped, in their order. -/
def poppedOf (events : List HeadEvent) : List QueueEntry :=
  events.filterMap fun
    | .popped entry => some entry
    | .executed _ => none

/-- The entries that were executed, in their order. -/
def executedOf (events : List HeadEvent) : List QueueEntry :=
  events.filterMap fun
    | .popped _ => none
    | .executed entry => some entry

/-- `headVal = op_queue.front(); op_queue.pop();` if there is an entry. -/
def popHead : Prog (Option QueueEntry) := fun w =>
  match w.cl.op_queue with
  | [] => (none, w)
  | headVal :: rest => (some headVal, w.setQueue rest)

/-- `executeQueueHead`, with its log. -/
def executeQueueHeadLogged (E : Env) : Logged World HeadEvent Int := do
  let head ← logging (fun head => head.toList.map .popped) popHead
  match head with
  | none => return 0
  | some headVal => noting .executed (executeEntry E) headVal

theorem executeQueueHeadLogged_erases (E : Env) : Erases (executeQueueHeadLogged E) (executeQueueHead E) := by
  intro w
  unfold executeQueueHeadLogged executeQueueHead
  rw [bind_log]
  unfold logging popHead
  cases w.cl.op_queue with
  | nil => rfl
  | cons headVal rest => rfl

/-- What is popped is the entry at the head, if there is one, and it is executed once. -/
theorem executeQueueHeadLogged_log (E : Env) (w : World) :
    poppedOf (executeQueueHeadLogged E w).1 = w.cl.op_queue.take 1 ∧
      executedOf (executeQueueHeadLogged E w).1 = w.cl.op_queue.take 1 := by
  unfold executeQueueHeadLogged
  rw [bind_log]
  unfold logging popHead
  cases w.cl.op_queue with
  | nil => exact ⟨rfl, rfl⟩
  | cons headVal rest => exact ⟨rfl, rfl⟩

theorem poppedOf_append (events events' : List HeadEvent) :
    poppedOf (events ++ events') = poppedOf events ++ poppedOf events' := List.filterMap_append

theorem executedOf_append (events events' : List HeadEvent) :
    executedOf (events ++ events') = executedOf events ++ executedOf events' := List.filterMap_append

end Bnfs
