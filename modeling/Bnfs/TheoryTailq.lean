import Bnfs.TheoryMemory
import Mathlib.Data.List.Induction

/-! Tail queues: elements linked forward, each with the address of the pointer to it, and a head with the address of the
pointer that ends the queue. The operations are the macros of `<sys/queue.h>`. -/

namespace Tailq

open Commands Memory

variable {E R : Type}

/-- The address of a pointer to an element: `&head->tqh_first` or `&elm->field.tqe_next`. -/
inductive Link where
  | first (head : Nat)
  | next (elm : Nat)
  deriving DecidableEq

inductive Block (E R : Type) where
  | head (tqhFirst : Option Nat) (tqhLast : Option Link)
  | elm (tqeNext : Option Nat) (tqePrev : Option Link) (item : E)
  | other (r : R)
  deriving DecidableEq

namespace Block

def tqhFirst : Block E R → Option (Option Nat)
  | .head first _ => some first
  | _ => none

def tqhLast : Block E R → Option (Option Link)
  | .head _ last => some last
  | _ => none

def tqeNext : Block E R → Option (Option Nat)
  | .elm next _ _ => some next
  | _ => none

def tqePrev : Block E R → Option (Option Link)
  | .elm _ prev _ => some prev
  | _ => none

def item : Block E R → Option E
  | .elm _ _ item => some item
  | _ => none

def setFirst (first : Option Nat) : Block E R → Option (Block E R)
  | .head _ last => some (.head first last)
  | _ => none

def setLast (last : Option Link) : Block E R → Option (Block E R)
  | .head first _ => some (.head first last)
  | _ => none

def setNext (next : Option Nat) : Block E R → Option (Block E R)
  | .elm _ prev item => some (.elm next prev item)
  | _ => none

def setPrev (prev : Option Link) : Block E R → Option (Block E R)
  | .elm next _ item => some (.elm next prev item)
  | _ => none

def setItem (item : E) : Block E R → Option (Block E R)
  | .elm next prev _ => some (.elm next prev item)
  | _ => none

end Block

abbrev QueueProg (E R : Type) := HeapProg (Block E R)

/-- `*link = elm` -/
def setLink (link : Option Link) (elm : Option Nat) : QueueProg E R Unit :=
  match link with
  | none => .fault
  | some (.first head) => assign (Block.setFirst elm) head
  | some (.next a) => assign (Block.setNext elm) a

def tailqInit (head : Nat) : QueueProg E R Unit := do
  assign (Block.setFirst none) head
  assign (Block.setLast (some (.first head))) head

def tailqFirst (head : Nat) : QueueProg E R (Option Nat) := loadAs Block.tqhFirst head

def tailqNext (elm : Nat) : QueueProg E R (Option Nat) := loadAs Block.tqeNext elm

def tailqInsertTail (head elm : Nat) : QueueProg E R Unit := do
  assign (Block.setNext none) elm
  let last ← loadAs Block.tqhLast head
  assign (Block.setPrev last) elm
  setLink last (some elm)
  assign (Block.setLast (some (.next elm))) head

/-- The pointer to the link of the element before goes to the next element, or to the head. -/
def setPrevOf (head : Nat) (next : Option Nat) (prev : Option Link) : QueueProg E R Unit :=
  match next with
  | some a => assign (Block.setPrev prev) a
  | none => assign (Block.setLast prev) head

def tailqRemove (head elm : Nat) : QueueProg E R Unit := do
  let next ← loadAs Block.tqeNext elm
  let prev ← loadAs Block.tqePrev elm
  setPrevOf head next prev
  setLink prev next

/-- The address of the first of these elements, and without one what comes after them. -/
def nextOf : List (Nat × E) → Option Nat → Option Nat
  | [], after => after
  | (a, _) :: _, _ => some a

/-- The pointer that ends these elements, if the first of them is pointed to by `link`. -/
def lastLink (link : Link) : List (Nat × E) → Link
  | [] => link
  | (a, _) :: rest => lastLink (.next a) rest

/-- Elements from the one `link` points to on, up to one at the address `after`. -/
def chain (link : Link) : List (Nat × E) → Option Nat → Blocks (Block E R)
  | [], _ => 0
  | (a, e) :: rest, after => {(a, .elm (nextOf rest after) (some link) e)} + chain (.next a) rest after

/-- A queue with these elements, except for its last two pointers. -/
def openQueue (head : Nat) (elms : List (Nat × E)) (after : Option Nat) (last : Link) : Blocks (Block E R) :=
  {(head, .head (nextOf elms after) (some last))} + chain (.first head) elms after

/-- A queue with these elements. -/
def queue (head : Nat) (elms : List (Nat × E)) : Blocks (Block E R) :=
  openQueue head elms none (lastLink (.first head) elms)

section Shape

variable (link : Link) (front back : List (Nat × E)) (after : Option Nat)

theorem nextOf_append : nextOf (front ++ back) after = nextOf front (nextOf back after) := by
  cases front with
  | nil => rfl
  | cons _ _ => rfl

theorem lastLink_append : lastLink link (front ++ back) = lastLink (lastLink link front) back := by
  induction front generalizing link with
  | nil => rfl
  | cons e front ih => exact ih (.next e.1)

theorem chain_append : (chain link (front ++ back) after : Blocks (Block E R)) =
    chain link front (nextOf back after) + chain (lastLink link front) back after := by
  induction front generalizing link with
  | nil => exact (zero_add _).symm
  | cons e front ih =>
      obtain ⟨a, e⟩ := e
      rw [List.cons_append, chain, chain, ih, nextOf_append, lastLink, add_assoc]

/-- All of a queue but one element. -/
def around (head : Nat) (front : List (Nat × E)) (a : Nat) (back : List (Nat × E)) : Blocks (Block E R) :=
  {(head, .head (nextOf front (some a)) (some (lastLink (.next a) back)))} + chain (.first head) front (some a) +
    chain (.next a) back none

/-- The block of an element. -/
def elmBlock (head : Nat) (front : List (Nat × E)) (e : E) (back : List (Nat × E)) : Block E R :=
  .elm (nextOf back none) (some (lastLink (.first head) front)) e

theorem queue_split (head a : Nat) (e : E) : (queue head (front ++ (a, e) :: back) : Blocks (Block E R)) =
    {(a, elmBlock head front e back)} + around head front a back := by
  rw [queue, openQueue, nextOf_append, lastLink_append, chain_append, chain, around, elmBlock]
  simp only [nextOf, lastLink]
  abel

end Shape

section Macros

variable {head a : Nat} {elms rest : List (Nat × E)} {e : E}

/-- The pointer that ends the queue is set to another element. -/
theorem spec_setLink (head : Nat) (elms : List (Nat × E)) (after after' : Option Nat) (last : Link) :
    Spec (openQueue head elms after last : Blocks (Block E R)) (setLink (some (lastLink (.first head) elms)) after')
      fun _ m => m = openQueue head elms after' last := by
  induction elms using List.reverseRecOn with
  | nil => exact Spec.assign rfl rfl rfl
  | append_singleton front e _ =>
      obtain ⟨a, e⟩ := e
      have hsplit : ∀ after, (openQueue head (front ++ [(a, e)]) after last : Blocks (Block E R)) =
          {(a, .elm after (some (lastLink (.first head) front)) e)} +
            ({(head, .head (nextOf front (some a)) (some last))} + chain (.first head) front (some a)) := fun after => by
        rw [openQueue, nextOf_append, chain_append, chain, chain]
        simp only [nextOf]
        abel
      rw [lastLink_append]
      exact Spec.assign (hsplit after) rfl (hsplit after').symm

theorem spec_init (head : Nat) (first : Option Nat) (last : Option Link) :
    Spec ({(head, .head first last)} : Blocks (Block E R)) (tailqInit head) fun _ m => m = queue head [] :=
  Spec.bind_assign (add_zero _).symm rfl (Spec.assign rfl rfl rfl)

theorem mem_queue (head : Nat) (front back : List (Nat × E)) (a : Nat) (e : E) :
    (a, elmBlock head front e back) ∈ (queue head (front ++ (a, e) :: back) : Blocks (Block E R)) := by
  rw [queue_split]
  exact Multiset.mem_add.mpr (Or.inl (Multiset.mem_singleton_self _))

theorem spec_insert_tail (head a : Nat) (elms : List (Nat × E)) (e : E) (next : Option Nat) (prev : Option Link) :
    Spec (queue head elms + {(a, .elm next prev e)} : Blocks (Block E R)) (tailqInsertTail head a) fun _ m =>
      m = queue head (elms ++ [(a, e)]) := by
  refine Spec.bind_assign (add_comm _ _) rfl ?_
  refine Spec.bind_loadAs (b := .head (nextOf elms none) (some (lastLink (.first head) elms)))
    (by simp [queue, openQueue]) rfl ?_
  refine Spec.bind_assign rfl rfl ?_
  refine Spec.of_eq (Spec.bind (spec_setLink head elms none (some a) (lastLink (.first head) elms)) ?_) (add_comm _ _)
  rintro _ _ rfl
  refine Spec.assign (add_assoc _ _ _) rfl ?_
  rw [queue, openQueue, nextOf_append, lastLink_append, chain_append]
  simp only [chain, nextOf, lastLink, add_zero]

theorem spec_remove_first (head a : Nat) (e : E) (rest : List (Nat × E)) :
    Spec (queue head ((a, e) :: rest) : Blocks (Block E R)) (tailqRemove head a) fun _ m =>
      m = queue head rest + {(a, elmBlock head [] e rest)} := by
  have hmem : (a, elmBlock head [] e rest) ∈ (queue head ((a, e) :: rest) : Blocks (Block E R)) := mem_queue head [] rest a e
  refine Spec.bind_loadAs hmem rfl (Spec.bind_loadAs hmem rfl ?_)
  cases rest with
  | nil => exact Spec.bind_assign rfl rfl (Spec.assign rfl rfl rfl)
  | cons e' rest =>
      obtain ⟨b, e'⟩ := e'
      have hnext : (queue head ((a, e) :: (b, e') :: rest) : Blocks (Block E R)) =
          {(b, elmBlock head [(a, e)] e' rest)} + around head [(a, e)] b rest := queue_split [(a, e)] rest head b e'
      refine Spec.bind_assign hnext rfl ?_
      refine Spec.assign (b := .head (some a) (some (lastLink (.next b) rest)))
        (r := {(b, elmBlock head [] e' rest)} + {(a, elmBlock head [] e ((b, e') :: rest))} + chain (.next b) rest none)
        ?_ rfl ?_
      · simp only [around, chain, elmBlock, nextOf, lastLink]
        abel
      · rw [queue, openQueue]
        simp only [chain, elmBlock, nextOf, lastLink]
        abel

end Macros

end Tailq
