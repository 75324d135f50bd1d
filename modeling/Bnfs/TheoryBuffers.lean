import Mathlib.Data.List.TakeWhile
import Mathlib.Tactic.SplitIfs

/-! Arrays of characters and the strings in them, each ended by a zero. A pointer is an index; a load or a store outside
the array is a fault, which is `none`. -/

namespace Buffers

variable {α : Type} [DecidableEq α] [Zero α]

def load (buf : List α) (p : Nat) : Option α := buf[p]?

def store (buf : List α) (p : Nat) (c : α) : Option (List α) :=
  if p < buf.length then some (buf.set p c) else none

/-- Only cells from `lo` up to `hi` may have changed. -/
structure Within (lo hi : Nat) (buf buf' : List α) : Prop where
  length : buf'.length = buf.length
  outside : ∀ q, q < lo ∨ hi ≤ q → buf'[q]? = buf[q]?

section Cells

variable {buf buf' buf'' : List α} {p q lo hi : Nat} {c : α}

omit [DecidableEq α] [Zero α] in
theorem Within.refl (lo hi : Nat) (buf : List α) : Within lo hi buf buf := ⟨rfl, fun _ _ => rfl⟩

omit [DecidableEq α] [Zero α] in
theorem Within.trans (h : Within lo hi buf buf') (h' : Within lo hi buf' buf'') : Within lo hi buf buf'' :=
  ⟨h'.length.trans h.length, fun q hq => (h'.outside q hq).trans (h.outside q hq)⟩

omit [DecidableEq α] [Zero α] in
theorem Within.mono {lo' hi' : Nat} (h : Within lo hi buf buf') (hlo : lo' ≤ lo) (hhi : hi ≤ hi') :
    Within lo' hi' buf buf' :=
  ⟨h.length, fun q hq => h.outside q (by omega)⟩

omit [DecidableEq α] [Zero α] in
theorem store_eq (h : p < buf.length) (c : α) : store buf p c = some (buf.set p c) := if_pos h

omit [DecidableEq α] [Zero α] in
theorem Within.set (hlo : lo ≤ p) (hhi : p < hi) (buf : List α) (c : α) : Within lo hi buf (buf.set p c) where
  length := List.length_set
  outside q hq := List.getElem?_set_ne (by omega)

end Cells

/-- From `p` on stand the characters of the string, and then a zero. -/
structure Holds (buf : List α) (p : Nat) (s : List α) : Prop where
  noZero : 0 ∉ s
  cells : ∃ rest, buf.drop p = s ++ 0 :: rest

/-- The string that begins here. -/
def stringFrom : List α → Option (List α)
  | [] => none
  | c :: rest => if c = 0 then some [] else (stringFrom rest).map (c :: ·)

/-- What a function is given with the pointer `p`. -/
def string (buf : List α) (p : Nat) : Option (List α) := stringFrom (buf.drop p)

def strlen (buf : List α) (p : Nat) : Option Nat := (string buf p).map List.length

section Strings

variable {buf buf' : List α} {p lo hi : Nat} {s a b : List α} {c : α}

theorem Holds.string (h : Holds buf p s) : string buf p = some s := by
  obtain ⟨rest, hcells⟩ := h.cells
  have hfrom : ∀ t : List α, 0 ∉ t → stringFrom (t ++ 0 :: rest) = some t := by
    intro t ht
    induction t with
    | nil => rw [List.nil_append, stringFrom, if_pos rfl]
    | cons d t ih =>
        simp only [List.mem_cons, not_or] at ht
        rw [List.cons_append, stringFrom, if_neg (Ne.symm ht.1), ih ht.2]
        rfl
  rw [Buffers.string, hcells, hfrom s h.noZero]

theorem Holds.strlen (h : Holds buf p s) : strlen buf p = some s.length := by
  rw [Buffers.strlen, h.string]
  rfl

omit [DecidableEq α] in
/-- The rest of a string is a string. -/
theorem Holds.suffix (h : Holds buf p (a ++ b)) : Holds buf (p + a.length) b := by
  obtain ⟨rest, hcells⟩ := h.cells
  refine ⟨fun hmem => h.noZero (List.mem_append_right a hmem), rest, ?_⟩
  rw [← List.drop_drop, hcells, List.append_assoc, List.drop_left]

omit [DecidableEq α] in
theorem Holds.load_front (h : Holds buf p s) : load buf p = some (s.headD 0) := by
  obtain ⟨rest, hcells⟩ := h.cells
  have hget : buf[p]? = (buf.drop p)[0]? := by rw [List.getElem?_drop, Nat.add_zero]
  rw [load, hget, hcells]
  cases s <;> rfl

omit [DecidableEq α] in
theorem Holds.load_end (h : Holds buf p s) : load buf (p + s.length) = some 0 := by
  have hend : Holds buf (p + s.length) [] := Holds.suffix (by rwa [List.append_nil])
  exact hend.load_front

omit [DecidableEq α] in
theorem Holds.lt_length (h : Holds buf p s) : p + s.length < buf.length := by
  have hend := h.load_end
  rw [load] at hend
  exact (List.getElem?_eq_some_iff.mp hend).1

omit [DecidableEq α] in
/-- A zero put into a string ends it there. -/
theorem Holds.cut (h : Holds buf p (a ++ b)) : Holds (buf.set (p + a.length) 0) p a := by
  obtain ⟨rest, hcells⟩ := h.cells
  refine ⟨fun hmem => h.noZero (List.mem_append_left b hmem), ?_⟩
  rw [List.drop_set, if_neg (by omega), hcells, Nat.add_sub_cancel_left, List.append_assoc,
    List.set_append_right _ _ (Nat.le_refl _), Nat.sub_self]
  cases b with
  | nil => exact ⟨rest, rfl⟩
  | cons c b => exact ⟨b ++ 0 :: rest, rfl⟩

omit [DecidableEq α] in
theorem Holds.getElem? (h : Holds buf p s) {i : Nat} (hi : i ≤ s.length) : buf[p + i]? = (s ++ [0])[i]? := by
  obtain ⟨rest, hcells⟩ := h.cells
  have hsplit : s ++ 0 :: rest = (s ++ [0]) ++ rest := by rw [List.append_assoc, List.singleton_append]
  rw [← List.getElem?_drop, hcells, hsplit, List.getElem?_append_left (by simp; omega)]

omit [DecidableEq α] in
/-- A string outside the cells that change stays. -/
theorem Holds.within (h : Holds buf p s) (hwithin : Within lo hi buf buf') (hout : p + s.length < lo ∨ hi ≤ p) :
    Holds buf' p s := by
  refine ⟨h.noZero, buf'.drop (p + s.length + 1), ?_⟩
  have hlt := h.lt_length
  have hcell : ∀ i, i ≤ s.length → buf'[p + i]? = (s ++ [0])[i]? := fun i hi =>
    (hwithin.outside (p + i) (by omega)).trans (h.getElem? hi)
  have hsplit : s ++ 0 :: buf'.drop (p + s.length + 1) = (s ++ [0]) ++ buf'.drop (p + (s ++ [0]).length) := by
    rw [List.append_assoc, List.singleton_append, List.length_append, List.length_singleton, Nat.add_assoc]
  rw [hsplit]
  apply List.ext_getElem?
  intro i
  rw [List.getElem?_drop]
  by_cases hi : i ≤ s.length
  · have hfront : i < (s ++ [0]).length := by
      rw [List.length_append, List.length_singleton]
      omega
    exact (hcell i hi).trans (List.getElem?_append_left hfront).symm
  · rw [List.getElem?_append_right (by simp; omega), List.getElem?_drop]
    congr 1
    simp only [List.length_append, List.length_singleton]
    omega

omit [DecidableEq α] in
/-- A front that is ended by a zero is a string. -/
theorem holds_of_take {i : Nat} (hzero : 0 ∉ s) (hfront : buf.take i = s) (hlt : i < buf.length) :
    Holds (buf.set i 0) 0 s :=
  ⟨hzero, buf.drop (i + 1), by rw [List.drop_zero, List.set_eq_take_append_cons_drop, if_pos hlt, hfront]⟩

omit [DecidableEq α] [Zero α] in
/-- One more character at the end of a front. -/
theorem take_set_succ {i : Nat} (hfront : buf.take i = s) (hlt : i < buf.length) (c : α) :
    (buf.set i c).take (i + 1) = s ++ [c] := by
  rw [List.set_eq_take_append_cons_drop, if_pos hlt, hfront]
  have hlength : i = s.length := by rw [← hfront, List.length_take, Nat.min_eq_left (Nat.le_of_lt hlt)]
  rw [hlength, List.take_length_add_append, List.take_one]
  rfl

end Strings

section Copies

variable {dest src tail s : List α}

/-- The loop of `strcpy` from the `i`-th character on, with the source from there on. -/
def strcpyLoop : List α → Nat → List α → Option (List α)
  | [], _, _ => none
  | c :: src, i, dest => (store dest i c).bind fun dest => if c = 0 then some dest else strcpyLoop src (i + 1) dest

def strcpy (dest src : List α) : Option (List α) := strcpyLoop src 0 dest

/-- What has been copied is the front. -/
theorem strcpyLoop_fits (front : List α) (hs : 0 ∉ s) (hroom : s.length < tail.length) (rest : List α) :
    strcpyLoop (s ++ 0 :: rest) front.length (front ++ tail) = some (front ++ s ++ 0 :: tail.drop (s.length + 1)) := by
  obtain ⟨d, tail, rfl⟩ := List.exists_cons_of_length_pos (Nat.zero_lt_of_lt hroom)
  induction s generalizing front d tail with
  | nil =>
      rw [List.nil_append, strcpyLoop, store_eq (by simp), Option.bind_some, if_pos rfl,
        List.set_append_right _ _ (Nat.le_refl _), Nat.sub_self, List.append_nil]
      rfl
  | cons c s ih =>
      obtain ⟨hne, hs⟩ := not_or.mp (List.mem_cons.not.mp hs)
      have hroom' : s.length < tail.length := Nat.lt_of_succ_lt_succ hroom
      obtain ⟨d', tail, rfl⟩ := List.exists_cons_of_length_pos (Nat.zero_lt_of_lt hroom')
      have hstored : (front ++ d :: d' :: tail).set front.length c = (front ++ [c]) ++ d' :: tail := by
        rw [List.set_append_right _ _ (Nat.le_refl _), Nat.sub_self, List.append_assoc]
        rfl
      have hlength : front.length + 1 = (front ++ [c]).length := by rw [List.length_append, List.length_singleton]
      rw [List.cons_append, strcpyLoop, store_eq (by simp), Option.bind_some, if_neg (Ne.symm hne), hstored, hlength,
        ih (front ++ [c]) hs d' tail hroom', List.append_assoc, List.append_assoc, List.append_assoc]
      rfl

theorem strcpyLoop_leaves (front : List α) (hs : 0 ∉ s) (hroom : tail.length ≤ s.length) (rest : List α) :
    strcpyLoop (s ++ 0 :: rest) front.length (front ++ tail) = none := by
  induction s generalizing front tail with
  | nil =>
      have hnil : tail = [] := List.length_eq_zero_iff.mp (Nat.le_zero.mp hroom)
      rw [hnil, List.append_nil, List.nil_append, strcpyLoop, store, if_neg (Nat.lt_irrefl _)]
      rfl
  | cons c s ih =>
      obtain ⟨hne, hs⟩ := not_or.mp (List.mem_cons.not.mp hs)
      rw [List.cons_append, strcpyLoop]
      cases tail with
      | nil =>
          rw [List.append_nil, store, if_neg (Nat.lt_irrefl _)]
          rfl
      | cons d tail =>
          have hstored : (front ++ d :: tail).set front.length c = (front ++ [c]) ++ tail := by
            rw [List.set_append_right _ _ (Nat.le_refl _), Nat.sub_self, List.append_assoc]
            rfl
          have hlength : front.length + 1 = (front ++ [c]).length := by rw [List.length_append, List.length_singleton]
          rw [store_eq (by simp), Option.bind_some, if_neg (Ne.symm hne), hstored, hlength,
            ih (front ++ [c]) hs (Nat.le_of_succ_le_succ hroom)]

/-- A copy of a string takes its characters and the zero, and spares what is behind. -/
theorem Holds.strcpy (h : Holds src 0 s) (hroom : s.length < dest.length) :
    strcpy dest src = some (s ++ 0 :: dest.drop (s.length + 1)) := by
  obtain ⟨rest, hcells⟩ := h.cells
  rw [List.drop_zero] at hcells
  rw [Buffers.strcpy, hcells]
  exact strcpyLoop_fits [] h.noZero hroom rest

theorem Holds.strcpy_holds (h : Holds src 0 s) (hroom : s.length < dest.length) :
    ∃ dest', Buffers.strcpy dest src = some dest' ∧ Holds dest' 0 s :=
  ⟨_, h.strcpy hroom, h.noZero, _, rfl⟩

/-- It leaves an array that is not longer than the string. -/
theorem Holds.strcpy_eq_none (h : Holds src 0 s) (hroom : dest.length ≤ s.length) : Buffers.strcpy dest src = none := by
  obtain ⟨rest, hcells⟩ := h.cells
  rw [List.drop_zero] at hcells
  rw [Buffers.strcpy, hcells]
  exact strcpyLoop_leaves [] h.noZero hroom rest

end Copies

section Scan

variable {σ : Type} (next : σ → α → Option σ)

/-- The number of cells a pointer moves over, as `next` decides from what it has seen. -/
def scan : σ → List α → Option Nat
  | _, [] => none
  | seen, c :: rest =>
      match next seen c with
      | none => some 0
      | some seen => (scan seen rest).map (· + 1)

/-- The characters of a text it moves over. -/
def passed : σ → List α → List α
  | _, [] => []
  | seen, c :: rest =>
      match next seen c with
      | none => []
      | some seen => c :: passed seen rest

omit [DecidableEq α] [Zero α] in
theorem passed_begins (seen : σ) (s : List α) : passed next seen s <+: s := by
  induction s generalizing seen with
  | nil => exact List.prefix_rfl
  | cons c s ih =>
      rw [passed]
      cases next seen c with
      | none => exact List.nil_prefix
      | some seen => exact (List.prefix_cons_inj c).mpr (ih seen)

variable {next}

omit [DecidableEq α] [Zero α] in
/-- A pointer that has stopped does not see what follows. -/
theorem passed_append_of_ne {seen : σ} {s : List α} (h : passed next seen s ≠ s) (t : List α) :
    passed next seen (s ++ t) = passed next seen s := by
  induction s generalizing seen with
  | nil => exact absurd rfl h
  | cons c s ih =>
      rw [List.cons_append, passed, passed]
      rw [passed] at h
      cases hnext : next seen c with
      | none => rfl
      | some seen =>
          rw [hnext] at h
          exact congrArg (c :: ·) (ih fun heq => h (congrArg (c :: ·) heq))

omit [DecidableEq α] [Zero α] in
/-- One that has not goes on in what follows. -/
theorem passed_append_of_eq {seen : σ} {s : List α} (h : passed next seen s = s) :
    ∃ seen', ∀ t, passed next seen (s ++ t) = s ++ passed next seen' t := by
  induction s generalizing seen with
  | nil => exact ⟨seen, fun _ => rfl⟩
  | cons c s ih =>
      rw [passed] at h
      cases hnext : next seen c with
      | none =>
          rw [hnext] at h
          cases h
      | some seen₁ =>
          rw [hnext] at h
          obtain ⟨seen', hseen⟩ := ih (List.cons.inj h).2
          refine ⟨seen', fun t => ?_⟩
          rw [List.cons_append, passed, hnext]
          exact congrArg (c :: ·) (hseen t)

omit [DecidableEq α] [Zero α] in
/-- One that moves over a text moves over each part it begins with. -/
theorem passed_of_append {seen : σ} {s t : List α} (h : passed next seen (s ++ t) = s ++ t) : passed next seen s = s := by
  by_contra hne
  have hle := (passed_begins next seen s).length_le
  rw [passed_append_of_ne hne] at h
  rw [h, List.length_append] at hle
  have hnil : t = [] := List.length_eq_zero_iff.mp (by omega)
  exact hne (by rw [h, hnil, List.append_nil])

omit [DecidableEq α] in
/-- A pointer that stops at a zero stays in its string. -/
theorem Holds.scan {buf s : List α} {p : Nat} (h : Holds buf p s) (hzero : ∀ seen, next seen 0 = none) (seen : σ) :
    scan next seen (buf.drop p) = some (passed next seen s).length := by
  obtain ⟨rest, hcells⟩ := h.cells
  have hfrom : ∀ (t : List α) (seen : σ), Buffers.scan next seen (t ++ 0 :: rest) = some (passed next seen t).length := by
    intro t
    induction t with
    | nil =>
        intro seen
        rw [List.nil_append, Buffers.scan, hzero]
        rfl
    | cons c t ih =>
        intro seen
        rw [List.cons_append, Buffers.scan, passed]
        cases next seen c with
        | none => rfl
        | some seen => simp only [ih, Option.map_some, List.length_cons]
  rw [hcells, hfrom]

end Scan

end Buffers
