import Mathlib.Data.List.Basic

/-! Paths as walks through a tree of directories. A walk goes up, down to a name, or stays where it is; a
position is the list of the names that lead there, the innermost first. From the root no walk goes further
up. What a walk does apart from where it starts is how far it goes up beyond its own names, and the names it
then goes down. -/

namespace Paths

variable {Name : Type}

/-- One step of a walk. -/
inductive Seg (Name : Type) where
  | stay
  | up
  | down (name : Name)
  deriving DecidableEq

/-- Where a walk ends that starts at a position. -/
def walk : List Name → List (Seg Name) → List Name
  | pos, [] => pos
  | pos, .stay :: rest => walk pos rest
  | pos, .up :: rest => walk pos.tail rest
  | pos, .down name :: rest => walk (name :: pos) rest

/-- The levels a walk has gone up beyond its own names, and the names it went down from there, the
innermost first. -/
def reduceFrom : Nat × List Name → List (Seg Name) → Nat × List Name
  | at_, [] => at_
  | at_, .stay :: rest => reduceFrom at_ rest
  | (ups, []), .up :: rest => reduceFrom (ups + 1, []) rest
  | (ups, _ :: names), .up :: rest => reduceFrom (ups, names) rest
  | (ups, names), .down name :: rest => reduceFrom (ups, name :: names) rest

def reduce (segs : List (Seg Name)) : Nat × List Name := reduceFrom (0, []) segs

theorem walk_reduceFrom (start : List Name) (at_ : Nat × List Name) (segs : List (Seg Name)) :
    walk (at_.2 ++ start.drop at_.1) segs =
      (reduceFrom at_ segs).2 ++ start.drop (reduceFrom at_ segs).1 := by
  induction segs generalizing at_ with
  | nil => rfl
  | cons seg rest ih =>
      obtain ⟨ups, names⟩ := at_
      cases seg with
      | stay => exact ih (ups, names)
      | down name => exact ih (ups, name :: names)
      | up =>
          cases names with
          | cons name names => exact ih (ups, names)
          | nil =>
              have htail : (start.drop ups).tail = start.drop (ups + 1) := List.tail_drop
              rw [walk, List.nil_append, htail]
              exact ih (ups + 1, [])

/-- A walk drops the levels it goes up and adds the names it goes down. -/
theorem walk_eq (start : List Name) (segs : List (Seg Name)) :
    walk start segs = (reduce segs).2 ++ start.drop (reduce segs).1 :=
  walk_reduceFrom start (0, []) segs

/-- A position is at another one or below it. -/
def Below (pos base : List Name) : Prop := base <:+ pos

instance [DecidableEq Name] (pos base : List Name) : Decidable (Below pos base) :=
  inferInstanceAs (Decidable (base <:+ pos))

/-- A walk ends below where it starts exactly if it goes down again the names it had gone up. -/
theorem walk_below_iff (start : List Name) (segs : List (Seg Name)) :
    Below (walk start segs) start ↔ start.take (reduce segs).1 <:+ (reduce segs).2 := by
  rw [Below, walk_eq]
  calc start <:+ (reduce segs).2 ++ start.drop (reduce segs).1
      ↔ start.take (reduce segs).1 ++ start.drop (reduce segs).1 <:+
          (reduce segs).2 ++ start.drop (reduce segs).1 := by rw [List.take_append_drop]
    _ ↔ start.take (reduce segs).1 <:+ (reduce segs).2 := List.suffix_append_self_iff

/-- The levels a walk may be up on the way, if it never goes up beyond its own names. -/
def Descends : Nat → List (Seg Name) → Prop
  | _, [] => True
  | depth, .stay :: rest => Descends depth rest
  | 0, .up :: _ => False
  | depth + 1, .up :: rest => Descends depth rest
  | depth, .down _ :: rest => Descends (depth + 1) rest

theorem reduceFrom_of_descends (names : List Name) (segs : List (Seg Name))
    (h : Descends names.length segs) : (reduceFrom (0, names) segs).1 = 0 := by
  induction segs generalizing names with
  | nil => rfl
  | cons seg rest ih =>
      cases seg with
      | stay => exact ih names h
      | down name => exact ih (name :: names) h
      | up =>
          cases names with
          | nil => exact h.elim
          | cons name names => exact ih names h

/-- Such a walk ends below where it starts. -/
theorem walk_below_of_descends (start : List Name) {segs : List (Seg Name)} (h : Descends 0 segs) :
    Below (walk start segs) start := by
  rw [walk_below_iff, reduce, reduceFrom_of_descends [] segs h, List.take_zero]
  exact List.nil_suffix

/-- What stands before a list without the separator goes to the first piece. -/
theorem splitOn_append [BEq Name] [LawfulBEq Name] {sep : Name} {front : List Name}
    (h : sep ∉ front) (rest : List Name) :
    (front ++ rest).splitOn sep = (rest.splitOn sep).modifyHead (front ++ ·) := by
  induction front with
  | nil =>
      have hid : (fun piece : List Name => [] ++ piece) = id := funext fun _ => rfl
      rw [List.nil_append, hid, List.modifyHead_id]
      rfl
  | cons x front ih =>
      have hne : (x == sep) = false := beq_false_of_ne fun heq => h (heq ▸ List.mem_cons_self)
      rw [List.cons_append, List.splitOn_cons_eq_if_modifyHead, if_neg (by rw [hne]; decide),
        ih fun hmem => h (List.mem_cons_of_mem _ hmem), List.modifyHead_modifyHead]
      rfl

end Paths
