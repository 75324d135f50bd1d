import Mathlib.Data.Nat.Digits.Lemmas

/-! Streams. Reading a sequence in pieces of a fixed size, as a read loop over a buffer does: full pieces as
long as the buffer can be filled, then what is left, which is empty when the size divides the length.
Putting the pieces together again gives the sequence back. Output streams as far as they print natural numbers: the
base and the fill character stay what they were set to; the width is spent on the next number and then zero again. -/

namespace Chunks

variable {α : Type}

/-- The read loop; `fuel` bounds the number of full pieces. -/
def piecesFrom (size : Nat) : Nat → List α → List (List α)
  | 0, xs => [xs]
  | fuel + 1, xs =>
      if size ≤ xs.length then xs.take size :: piecesFrom size fuel (xs.drop size) else [xs]

/-- The pieces a read loop with a buffer of `size` delivers. -/
def pieces (size : Nat) (xs : List α) : List (List α) := piecesFrom size xs.length xs

theorem piecesFrom_flatten (size fuel : Nat) (xs : List α) :
    (piecesFrom size fuel xs).flatten = xs := by
  induction fuel generalizing xs with
  | zero => simp [piecesFrom]
  | succ fuel ih =>
      rw [piecesFrom]
      split
      · rw [List.flatten_cons, ih, List.take_append_drop]
      · simp

@[simp] theorem pieces_flatten (size : Nat) (xs : List α) : (pieces size xs).flatten = xs :=
  piecesFrom_flatten size xs.length xs

theorem piecesFrom_ne_nil (size fuel : Nat) (xs : List α) : piecesFrom size fuel xs ≠ [] := by
  cases fuel with
  | zero => simp [piecesFrom]
  | succ fuel =>
      rw [piecesFrom]
      split <;> simp

theorem pieces_ne_nil (size : Nat) (xs : List α) : pieces size xs ≠ [] :=
  piecesFrom_ne_nil size xs.length xs

end Chunks

namespace Streams

/-- What was written, and the format of the next number. -/
structure OStream (α : Type) where
  text : List α
  base : Nat
  width : Nat
  fill : α

namespace OStream

variable {α : Type}

def setbase (base : Nat) (s : OStream α) : OStream α := { s with base }

def setw (width : Nat) (s : OStream α) : OStream α := { s with width }

def setfill (fill : α) (s : OStream α) : OStream α := { s with fill }

/-- The digits of a number, the most significant first; zero has one. -/
def numeral (digit : Nat → α) (base n : Nat) : List α :=
  if n = 0 then [digit 0] else (base.digits n).reverse.map digit

/-- `<<` on a number: the numeral is filled up on the left. -/
def put (digit : Nat → α) (n : Nat) (s : OStream α) : OStream α :=
  { s with
    text := s.text ++ (List.replicate (s.width - (numeral digit s.base n).length) s.fill ++ numeral digit s.base n)
    width := 0 }

/-- Filled up with zeros, the numeral is all the digits the width has place for. -/
theorem replicate_append_numeral (digit : Nat → α) (base n : Nat) {width : Nat} (hwidth : 0 < width) :
    List.replicate (width - (numeral digit base n).length) (digit 0) ++ numeral digit base n =
      (base.digitsAppend width n).reverse.map digit := by
  unfold numeral Nat.digitsAppend
  split_ifs with hzero
  · have hlast : List.replicate (width - 1) (digit 0) ++ [digit 0] = List.replicate width (digit 0) := by
      rw [← List.replicate_succ', Nat.sub_add_cancel hwidth]
    rw [hzero, Nat.digits_zero, List.nil_append, List.reverse_replicate, List.map_replicate]
    exact hlast
  · rw [List.reverse_append, List.reverse_replicate, List.map_append, List.map_replicate, List.length_map,
      List.length_reverse]

theorem put_of_fill {digit : Nat → α} {s : OStream α} (hfill : s.fill = digit 0) (hwidth : 0 < s.width) (n : Nat) :
    s.put digit n = { s with
      text := s.text ++ (s.base.digitsAppend s.width n).reverse.map digit
      width := 0 } := by
  rw [put, hfill, replicate_append_numeral digit s.base n hwidth]

end OStream

/-- The two digits of a number that has no more. -/
theorem digitsAppend_two {base n : Nat} (hbase : 1 < base) (hn : n < base ^ 2) :
    base.digitsAppend 2 n = [n % base, n / base] := by
  have hdigits : ∀ d ∈ [n % base, n / base], d < base := by
    have hlow : n % base < base := Nat.mod_lt n (by omega)
    have hhigh : n / base < base := Nat.div_lt_of_lt_mul (by rwa [← Nat.pow_two])
    simp [hlow, hhigh]
  have hvalue : Nat.ofDigits base [n % base, n / base] = n := by
    rw [Nat.ofDigits_cons, Nat.ofDigits_singleton, Nat.mod_add_div]
  have hinv := (Nat.setInvOn_digitsAppend_ofDigits hbase 2).1 ⟨rfl, hdigits⟩
  rwa [hvalue] at hinv

end Streams
