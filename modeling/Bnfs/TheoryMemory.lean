import Bnfs.TheoryPrograms
import Mathlib.Algebra.Order.Group.Multiset
import Mathlib.Tactic.Abel

/-! A heap of blocks, and what a program needs of it. An address is given out once only, so that a pointer to a block that
was freed is a pointer to nothing, and whoever follows it or frees it again faults. A program is specified on the blocks it
uses, whatever else there is. -/

namespace Memory

open Commands

variable {B α β : Type}

structure Heap (B : Type) where
  blocks : Nat → Option B
  fresh : Nat
  bounded : ∀ a, fresh ≤ a → blocks a = none

def Heap.empty : Heap B := ⟨fun _ => none, 0, fun _ _ => rfl⟩

def Heap.put (h : Heap B) (a : Nat) (b : Option B) : Heap B where
  blocks x := if x = a then b else h.blocks x
  fresh := max h.fresh (a + 1)
  bounded x hx := by
    rw [if_neg (by omega)]
    exact h.bounded x (by omega)

inductive Command (B : Type) where
  | alloc (b : B)
  | load (a : Nat)
  | store (a : Nat) (b : B)
  | free (a : Nat)

abbrev Command.Reply : Command B → Type
  | .alloc _ => Nat
  | .load _ => B
  | .store _ _ => Unit
  | .free _ => Unit

/-- A block that is not there cannot be read, written or freed. -/
def exec : Exec (Command.Reply (B := B)) (Heap B)
  | .alloc b, h => some (h.fresh, h.put h.fresh (some b))
  | .load a, h => (h.blocks a).map fun b => (b, h)
  | .store a b, h => (h.blocks a).map fun _ => ((), h.put a (some b))
  | .free a, h => (h.blocks a).map fun _ => ((), h.put a none)

/-- A program on the heap. -/
abbrev HeapProg (B : Type) := Prog (Command.Reply (B := B))

def alloc (b : B) : HeapProg B Nat := .command (.alloc b) .done

def free (a : Nat) : HeapProg B Unit := .command (.free a) .done

/-- A part of a block that must be of the right kind. -/
def loadAs (field : B → Option α) (a : Nat) : HeapProg B α :=
  .command (.load a) fun b =>
    match field b with
    | some x => .done x
    | none => .fault

/-- An assignment to a part of a block that must be of the right kind. -/
def assign (change : B → Option B) (a : Nat) : HeapProg B Unit :=
  .command (.load a) fun b =>
    match change b with
    | some b' => .command (.store a b') .done
    | none => .fault

/-- The pointer may be NULL. -/
def freeIfAny : Option Nat → HeapProg B Unit
  | none => pure ()
  | some a => free a

/-- Blocks with their addresses. -/
abbrev Blocks (B : Type) := Multiset (Nat × B)

/-- These are the blocks there are, and each has an address of its own. -/
structure Owns (h : Heap B) (m : Blocks B) : Prop where
  nodup : (m.map Prod.fst).Nodup
  mem : ∀ a b, h.blocks a = some b ↔ (a, b) ∈ m

theorem owns_empty : Owns (Heap.empty : Heap B) 0 where
  nodup := Multiset.nodup_zero
  mem _ _ := iff_of_false (fun h => nomatch h) (Multiset.notMem_zero _)

theorem Owns.eq_none {h : Heap B} {m : Blocks B} (hm : Owns h m) {a : Nat} :
    h.blocks a = none ↔ a ∉ m.map Prod.fst := by
  rw [Multiset.mem_map, Option.eq_none_iff_forall_ne_some]
  constructor
  · rintro hnone ⟨⟨a', b⟩, hmem, rfl⟩
    exact hnone b ((hm.mem a' b).mpr hmem)
  · intro hnot b hsome
    exact hnot ⟨(a, b), (hm.mem a b).mp hsome, rfl⟩

section Changes

variable {h : Heap B} {m : Blocks B} {a : Nat} {b : B}

theorem Owns.put (hm : Owns h m) (hnone : h.blocks a = none) (b : B) : Owns (h.put a (some b)) ({(a, b)} + m) where
  nodup := by
    rw [Multiset.singleton_add, Multiset.map_cons, Multiset.nodup_cons]
    exact ⟨hm.eq_none.mp hnone, hm.nodup⟩
  mem x c := by
    rw [Multiset.singleton_add, Multiset.mem_cons, Prod.mk.injEq]
    unfold Heap.put
    by_cases hx : x = a
    · have hnot : (x, c) ∉ m := fun hmem => by
        rw [← hm.mem, hx, hnone] at hmem
        cases hmem
      simp only [hx, if_true, Option.some.injEq, true_and]
      exact ⟨fun heq => Or.inl heq.symm, fun hor => (hor.resolve_right (hx ▸ hnot)).symm⟩
    · simp only [hx, if_false, false_and, false_or]
      exact hm.mem x c

theorem Owns.remove (hm : Owns h ({(a, b)} + m)) : h.blocks a = some b ∧ Owns (h.put a none) m := by
  have hnodup := hm.nodup
  rw [Multiset.singleton_add, Multiset.map_cons, Multiset.nodup_cons] at hnodup
  refine ⟨(hm.mem a b).mpr (by simp), hnodup.2, fun x c => ?_⟩
  unfold Heap.put
  by_cases hx : x = a
  · simp only [hx, if_true]
    exact iff_of_false (fun heq => nomatch heq) fun hmem => hnodup.1 (Multiset.mem_map.mpr ⟨(a, c), hmem, rfl⟩)
  · simp only [hx, if_false]
    rw [hm.mem, Multiset.singleton_add, Multiset.mem_cons, Prod.mk.injEq]
    simp [hx]

theorem Owns.replace (hm : Owns h ({(a, b)} + m)) (b' : B) : Owns (h.put a (some b')) ({(a, b')} + m) := by
  obtain ⟨_, hrest⟩ := hm.remove
  have hnone : (h.put a none).blocks a = none := if_pos rfl
  have hput := hrest.put hnone b'
  refine ⟨hput.nodup, fun x c => ?_⟩
  rw [← hput.mem]
  unfold Heap.put
  by_cases hx : x = a <;> simp [hx]

end Changes

/-- From these blocks, whatever else there is, the program runs to its end, and leaves the rest alone. -/
def Spec (m : Blocks B) (p : HeapProg B α) (post : α → Blocks B → Prop) : Prop :=
  ∀ h rest, Owns h (m + rest) → ∃ a h' m', p.run exec h = some (a, h') ∧ post a m' ∧ Owns h' (m' + rest)

section Rules

variable {m m' r : Blocks B} {p : HeapProg B α} {f : α → HeapProg B β} {post : β → Blocks B → Prop}
  {mid : α → Blocks B → Prop} {a : Nat} {b : B}

theorem Spec.pure {x : β} (h : post x m) : Spec m (pure x) post := fun h' _ hm => ⟨x, h', m, rfl, h, hm⟩

/-- A call with a specification of its own, on part of the blocks. -/
theorem Spec.bind (hp : Spec m p mid) (hf : ∀ x m', mid x m' → Spec (m' + r) (f x) post) :
    Spec (m + r) (p >>= f) post := by
  intro h other hm
  rw [add_assoc] at hm
  obtain ⟨x, h', m', hrun, hmid, hm'⟩ := hp h (r + other) hm
  rw [← add_assoc] at hm'
  obtain ⟨y, h'', m'', hrun', hpost, hm''⟩ := hf x m' hmid h' other hm'
  refine ⟨y, h'', m'', ?_, hpost, hm''⟩
  rw [run_bind, hrun]
  exact hrun'

theorem Spec.bind_all (hp : Spec m p mid) (hf : ∀ x m', mid x m' → Spec m' (f x) post) : Spec m (p >>= f) post := by
  have h : Spec (m + 0) (p >>= f) post := Spec.bind hp fun x m' hmid => by
    rw [add_zero]
    exact hf x m' hmid
  rwa [add_zero] at h

theorem Spec.of_eq (h : Spec m p mid) (heq : m' = m) : Spec m' p mid := heq ▸ h

theorem Spec.mono {post' : β → Blocks B → Prop} {p : HeapProg B β} (h : Spec m p post)
    (himp : ∀ x m', post x m' → post' x m') : Spec m p post' := by
  intro h' other hm
  obtain ⟨x, h'', m', hrun, hpost, hm'⟩ := h h' other hm
  exact ⟨x, h'', m', hrun, himp x m' hpost, hm'⟩

/-- A program that takes no notice of some blocks leaves them as they are. -/
theorem Spec.frame {p : HeapProg B β} (h : Spec m p post) (r : Blocks B) :
    Spec (m + r) p fun x m' => ∃ used, m' = used + r ∧ post x used := by
  intro h' other hm
  rw [add_assoc] at hm
  obtain ⟨x, h'', m', hrun, hpost, hm'⟩ := h h' (r + other) hm
  exact ⟨x, h'', m' + r, hrun, ⟨m', rfl, hpost⟩, by rwa [add_assoc]⟩

theorem Spec.bind_alloc {f : Nat → HeapProg B β} (h : ∀ a, Spec ({(a, b)} + m) (f a) post) :
    Spec m (Memory.alloc b >>= f) post := by
  intro heap other hm
  have hput := hm.put (heap.bounded _ (le_refl _)) b
  rw [← add_assoc] at hput
  obtain ⟨x, heap', m', hrun, hpost, hm'⟩ := h heap.fresh _ other hput
  exact ⟨x, heap', m', hrun, hpost, hm'⟩

/-- A read, whatever comes after it. -/
theorem Spec.command_load {k : B → HeapProg B β} (hmem : (a, b) ∈ m) (h : Spec m (k b) post) :
    Spec m (.command (.load a) k) post := by
  intro heap other hm
  obtain ⟨x, heap', m', hrun, hpost, hm'⟩ := h heap other hm
  refine ⟨x, heap', m', ?_, hpost, hm'⟩
  have hblock : heap.blocks a = some b := (hm.mem a b).mpr (Multiset.mem_add.mpr (Or.inl hmem))
  rw [Prog.run, exec, hblock]
  exact hrun

theorem Spec.command_store {b' : B} {k : Unit → HeapProg B β} (heq : m = {(a, b)} + r)
    (h : Spec ({(a, b')} + r) (k ()) post) : Spec m (.command (.store a b') k) post := by
  subst heq
  intro heap other hm
  rw [add_assoc] at hm
  have hput := hm.replace b'
  rw [← add_assoc] at hput
  obtain ⟨x, heap', m', hrun, hpost, hm'⟩ := h _ other hput
  refine ⟨x, heap', m', ?_, hpost, hm'⟩
  rw [Prog.run, exec, hm.remove.1]
  exact hrun

theorem Spec.bind_free {f : Unit → HeapProg B β} (heq : m = {(a, b)} + r) (h : Spec r (f ()) post) :
    Spec m (Memory.free a >>= f) post := by
  subst heq
  intro heap other hm
  rw [add_assoc] at hm
  obtain ⟨hblock, hrest⟩ := hm.remove
  obtain ⟨x, heap', m', hrun, hpost, hm'⟩ := h _ other hrest
  refine ⟨x, heap', m', ?_, hpost, hm'⟩
  change (exec (.free a) heap).bind _ = _
  rw [exec, hblock]
  exact hrun

theorem Spec.free {post : Unit → Blocks B → Prop} (heq : m = {(a, b)} + r) (h : post () r) :
    Spec m (Memory.free a) post :=
  Spec.bind_free (f := .done) heq (Spec.pure h)

theorem Spec.bind_loadAs {field : B → Option α} {x : α} (hmem : (a, b) ∈ m) (hfield : field b = some x)
    (h : Spec m (f x) post) : Spec m (loadAs field a >>= f) post := by
  refine Spec.command_load hmem ?_
  simp only [hfield]
  exact h

theorem Spec.loadAs {field : B → Option α} {x : α} (hmem : (a, b) ∈ m) (hfield : field b = some x)
    (h : mid x m) : Spec m (loadAs field a) mid := by
  refine Spec.command_load hmem ?_
  simp only [hfield]
  exact Spec.pure h

theorem Spec.bind_assign {change : B → Option B} {b' : B} {k : Unit → HeapProg B β} (heq : m = {(a, b)} + r)
    (hchange : change b = some b') (h : Spec ({(a, b')} + r) (k ()) post) : Spec m (assign change a >>= k) post := by
  refine Spec.command_load (b := b) (by simp [heq]) ?_
  simp only [hchange]
  exact Spec.command_store heq h

theorem Spec.assign {change : B → Option B} {b' : B} {post : Unit → Blocks B → Prop} (heq : m = {(a, b)} + r)
    (hchange : change b = some b') (h : post () ({(a, b')} + r)) : Spec m (assign change a) post := by
  refine Spec.command_load (b := b) (by simp [heq]) ?_
  simp only [hchange]
  exact Spec.command_store heq (Spec.pure h)

end Rules

end Memory
