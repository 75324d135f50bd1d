import Mathlib.Data.List.DropRight
import Mathlib.Data.List.TakeWhile
import Mathlib.Tactic.SplitIfs

/-! Texts that are read line by line into a buffer of limited size. A line ends with its separator; one that does not
fit is read in several pieces. -/

namespace Texts

variable {α : Type} [DecidableEq α]

/-- `room` is what the buffer has left for the piece that is being read. -/
def piecesFrom (nl : α) (size : Nat) : Nat → List α → List (List α)
  | _, [] => []
  | room, c :: s =>
      if c = nl ∨ room ≤ 1 then [c] :: piecesFrom nl size size s
      else match piecesFrom nl size (room - 1) s with
        | [] => [[c]]
        | piece :: rest => (c :: piece) :: rest

def pieces (nl : α) (size : Nat) (s : List α) : List (List α) := piecesFrom nl size size s

/-- What is read at once. -/
def firstPiece (nl : α) : Nat → List α → List α
  | _, [] => []
  | room, c :: s => if c = nl ∨ room ≤ 1 then [c] else c :: firstPiece nl (room - 1) s

variable {nl : α} {size room : Nat} {s : List α}

theorem firstPiece_begins (nl : α) (room : Nat) (s : List α) : firstPiece nl room s <+: s := by
  induction s generalizing room with
  | nil => exact List.prefix_rfl
  | cons c s ih =>
      rw [firstPiece]
      split_ifs
      · exact ⟨s, rfl⟩
      · exact (List.prefix_cons_inj c).mpr (ih (room - 1))

theorem firstPiece_ne_nil (nl : α) (room : Nat) (hs : s ≠ []) : firstPiece nl room s ≠ [] := by
  cases s with
  | nil => exact absurd rfl hs
  | cons c s =>
      rw [firstPiece]
      split_ifs <;> exact List.cons_ne_nil _ _

theorem length_firstPiece_le (hroom : 0 < room) : (firstPiece nl room s).length ≤ room := by
  induction s generalizing room with
  | nil => exact Nat.zero_le room
  | cons c s ih =>
      rw [firstPiece]
      split_ifs with h
      · exact hroom
      · have hle : (firstPiece nl (room - 1) s).length ≤ room - 1 := ih (by omega)
        simp only [List.length_cons]
        omega

/-- Separators stand at the ends of pieces only. -/
theorem not_mem_dropLast_firstPiece (nl : α) (room : Nat) (s : List α) : nl ∉ (firstPiece nl room s).dropLast := by
  induction s generalizing room with
  | nil => exact List.not_mem_nil
  | cons c s ih =>
      rw [firstPiece]
      split_ifs with h
      · exact List.not_mem_nil
      · cases hrest : firstPiece nl (room - 1) s with
        | nil => exact List.not_mem_nil
        | cons d rest =>
            rw [List.dropLast_cons_cons, List.mem_cons, not_or, ← hrest]
            exact ⟨fun heq => h (Or.inl heq.symm), ih (room - 1)⟩

theorem piecesFrom_eq (hs : s ≠ []) : piecesFrom nl size room s =
    firstPiece nl room s :: pieces nl size (s.drop (firstPiece nl room s).length) := by
  induction s generalizing room with
  | nil => exact absurd rfl hs
  | cons c s ih =>
      rw [piecesFrom, firstPiece]
      split_ifs with h
      · rfl
      · cases s with
        | nil => rfl
        | cons d s =>
            rw [ih (List.cons_ne_nil d s)]
            rfl

theorem pieces_nil : pieces nl size [] = [] := rfl

/-- One read, and what is left. -/
theorem pieces_eq (hs : s ≠ []) : pieces nl size s =
    firstPiece nl size s :: pieces nl size (s.drop (firstPiece nl size s).length) := piecesFrom_eq hs

/-- The rest is shorter. -/
theorem length_drop_firstPiece_lt (nl : α) (room : Nat) (hs : s ≠ []) : (s.drop (firstPiece nl room s).length).length < s.length := by
  have hpiece := List.length_pos_of_ne_nil (firstPiece_ne_nil nl room hs)
  have htext := List.length_pos_of_ne_nil hs
  rw [List.length_drop]
  omega

/-- The reads of a text one after another. -/
theorem pieces_induction (nl : α) (size : Nat) {motive : List α → Prop} (nil : motive [])
    (read : ∀ s, s ≠ [] → motive (s.drop (firstPiece nl size s).length) → motive s) (s : List α) : motive s := by
  induction hn : s.length using Nat.strong_induction_on generalizing s with
  | _ n ih =>
      by_cases hs : s = []
      · rw [hs]
        exact nil
      · exact read s hs (ih _ (hn ▸ length_drop_firstPiece_lt nl size hs) _ rfl)

theorem length_le_of_mem_pieces (hsize : 0 < size) {piece : List α} (h : piece ∈ pieces nl size s) :
    piece.length ≤ size := by
  induction s using pieces_induction nl size with
  | nil => cases h
  | read s hs ih =>
      rw [pieces_eq hs] at h
      rcases List.mem_cons.mp h with rfl | h
      · exact length_firstPiece_le hsize
      · exact ih h

theorem not_mem_dropLast_of_mem_pieces {piece : List α} (h : piece ∈ pieces nl size s) : nl ∉ piece.dropLast := by
  induction s using pieces_induction nl size with
  | nil => cases h
  | read s hs ih =>
      rw [pieces_eq hs] at h
      rcases List.mem_cons.mp h with rfl | h
      · exact not_mem_dropLast_firstPiece nl size s
      · exact ih h

theorem firstPiece_line {line : List α} (hline : nl ∉ line) (hroom : line.length < room) (rest : List α) :
    firstPiece nl room (line ++ nl :: rest) = line ++ [nl] := by
  induction line generalizing room with
  | nil => rw [List.nil_append, List.nil_append, firstPiece, if_pos (Or.inl rfl)]
  | cons c line ih =>
      simp only [List.mem_cons, not_or] at hline
      have hmore : ¬ (c = nl ∨ room ≤ 1) := by
        rintro (heq | hle)
        · exact hline.1 heq.symm
        · simp only [List.length_cons] at hroom
          omega
      rw [List.cons_append, firstPiece, if_neg hmore, ih hline.2 (by simp only [List.length_cons] at hroom; omega),
        List.cons_append]

/-- A line that fits is one piece. -/
theorem pieces_line {line : List α} (hline : nl ∉ line) (hsize : line.length < size) (rest : List α) :
    pieces nl size (line ++ nl :: rest) = (line ++ [nl]) :: pieces nl size rest := by
  have hne : line ++ nl :: rest ≠ [] := by simp
  have hdrop : (line ++ nl :: rest).drop (line ++ [nl]).length = rest := by
    have happend : line ++ nl :: rest = (line ++ [nl]) ++ rest := by simp
    rw [happend]
    exact List.drop_left
  rw [pieces_eq hne, firstPiece_line hline hsize, hdrop]

/-- A text made of lines that fit is read as these lines. -/
theorem pieces_flatten {lines : List (List α)} (h : ∀ line ∈ lines, nl ∉ line ∧ line.length < size) (rest : List α) :
    pieces nl size ((lines.map (· ++ [nl])).flatten ++ rest) = lines.map (· ++ [nl]) ++ pieces nl size rest := by
  induction lines with
  | nil => rfl
  | cons line lines ih =>
      obtain ⟨hline, hsize⟩ := h line List.mem_cons_self
      rw [List.map_cons, List.flatten_cons, List.append_assoc, List.append_assoc, List.singleton_append,
        pieces_line hline hsize, ih fun l hl => h l (List.mem_cons_of_mem _ hl), List.cons_append]

/-- A line that does not fit goes on as if it were the next. -/
theorem pieces_long {front : List α} (hfront : nl ∉ front) (hsize : front.length = size) (hpos : 0 < size)
    (rest : List α) : pieces nl size (front ++ rest) = front :: pieces nl size rest := by
  have hfirst : firstPiece nl size (front ++ rest) = front := by
    subst hsize
    induction front with
    | nil => cases hpos
    | cons c front ih =>
        simp only [List.mem_cons, not_or] at hfront
        rw [List.cons_append, firstPiece]
        split_ifs with h
        · have hshort : front = [] := List.length_eq_zero_iff.mp (by
            rcases h with heq | hle
            · exact absurd heq.symm hfront.1
            · simp only [List.length_cons] at hle
              omega)
          rw [hshort]
        · have hlong : 0 < front.length := by
            simp only [List.length_cons] at h
            omega
          rw [List.length_cons, Nat.add_sub_cancel, ih hfront.2 hlong]
  have hne : front ++ rest ≠ [] := by
    intro heq
    rw [(List.append_eq_nil_iff.mp heq).1] at hsize
    exact hpos.ne hsize
  rw [pieces_eq hne, hfirst, List.drop_left]

/-- A last line that fits is one piece without a separator. -/
theorem pieces_last {line : List α} (hne : line ≠ []) (hline : nl ∉ line) (hsize : line.length < size) :
    pieces nl size line = [line] := by
  have hfirst : ∀ room, line.length < room → firstPiece nl room line = line := by
    clear hne hsize
    induction line with
    | nil => exact fun _ _ => rfl
    | cons c line ih =>
        intro room hroom
        simp only [List.mem_cons, not_or, List.length_cons] at hline hroom
        have hmore : ¬ (c = nl ∨ room ≤ 1) := not_or.mpr ⟨Ne.symm hline.1, by omega⟩
        rw [firstPiece, if_neg hmore, ih hline.2 (room - 1) (by omega)]
  rw [pieces_eq hne, hfirst size hsize, List.drop_length, pieces_nil]

/-- A text is its lines: the last may be without a separator, the others end with one. -/
theorem lines_induction (nl : α) {motive : List α → Prop} (last : ∀ line, nl ∉ line → motive line)
    (line : ∀ line rest, nl ∉ line → motive rest → motive (line ++ nl :: rest)) (s : List α) : motive s := by
  induction hn : s.length using Nat.strong_induction_on generalizing s with
  | _ n ih =>
      by_cases hmem : nl ∈ s
      · obtain ⟨front, rest, rfl, hfront⟩ := List.eq_append_cons_of_mem hmem
        refine line front rest hfront (ih rest.length ?_ rest rfl)
        rw [← hn, List.length_append, List.length_cons]
        omega
      · exact last s hmem

/-- Every line is ended. -/
def Ended (nl : α) (s : List α) : Prop := s = [] ∨ ∃ front, s = front ++ [nl]

/-- Behind an ended text the reading starts anew. -/
theorem pieces_append (h : Ended nl s) (t : List α) : pieces nl size (s ++ t) = pieces nl size s ++ pieces nl size t := by
  have hfrom : ∀ room, s ≠ [] → piecesFrom nl size room (s ++ t) = piecesFrom nl size room s ++ pieces nl size t := by
    induction s with
    | nil => exact fun _ hs => absurd rfl hs
    | cons c s ih =>
        intro room _
        have hnext : Ended nl s ∧ (s = [] → c = nl) := by
          obtain hnil | ⟨front, hfront⟩ := h
          · cases hnil
          · cases front with
            | nil =>
                cases hfront
                exact ⟨Or.inl rfl, fun _ => rfl⟩
            | cons d front =>
                cases hfront
                exact ⟨Or.inr ⟨front, rfl⟩, fun hnil => by simp at hnil⟩
        rw [List.cons_append, piecesFrom, piecesFrom]
        by_cases hs : s = []
        · rw [if_pos (Or.inl (hnext.2 hs)), if_pos (Or.inl (hnext.2 hs)), hs]
          rfl
        · rw [ih hnext.1 size hs, ih hnext.1 (room - 1) hs]
          split_ifs
          · rfl
          · rw [piecesFrom_eq hs]
            rfl
  by_cases hs : s = []
  · rw [hs]
    rfl
  · exact hfrom size hs

/-- The text without the blanks at its ends. -/
def strip {β : Type} (p : β → Bool) (s : List β) : List β := (s.rdropWhile p).dropWhile p

section Strip

variable {β : Type} {p : β → Bool} {t : List β}

theorem rdropWhile_cons_of_neg {c : β} (hc : ¬ p c) : (c :: t).rdropWhile p = c :: t.rdropWhile p := by
  induction t using List.reverseRecOn with
  | nil => simp [hc]
  | append_singleton t d ih =>
      rw [← List.cons_append]
      by_cases hd : p d
      · rw [List.rdropWhile_concat_pos p _ _ hd, List.rdropWhile_concat_pos p _ _ hd, ih]
      · rw [List.rdropWhile_concat_neg p _ _ hd, List.rdropWhile_concat_neg p _ _ hd, List.cons_append]

/-- Nothing before a character that stays is dropped. -/
theorem rdropWhile_append_cons {d : β} (hd : ¬ p d) (front back : List β) :
    (front ++ d :: back).rdropWhile p = front ++ (d :: back).rdropWhile p := by
  induction back using List.reverseRecOn with
  | nil => rw [List.rdropWhile_concat_neg p _ _ hd, rdropWhile_cons_of_neg hd, List.rdropWhile_nil]
  | append_singleton back e ih =>
      rw [← List.cons_append, ← List.append_assoc]
      by_cases he : p e
      · rw [List.rdropWhile_concat_pos p _ _ he, List.rdropWhile_concat_pos p _ _ he, ih]
      · rw [List.rdropWhile_concat_neg p _ _ he, List.rdropWhile_concat_neg p _ _ he, List.append_assoc]

/-- It does not matter which end is cleared first. -/
theorem rdropWhile_dropWhile (p : β → Bool) (t : List β) : (t.dropWhile p).rdropWhile p = strip p t := by
  unfold strip
  induction t with
  | nil => rfl
  | cons c t ih =>
      by_cases hc : p c
      · rw [List.dropWhile_cons_of_pos hc, ih]
        by_cases hall : ∀ d ∈ t, p d
        · have hcons : ∀ d ∈ c :: t, p d := fun d hd => (List.mem_cons.mp hd).elim (· ▸ hc) (hall d)
          rw [List.rdropWhile_eq_nil_iff.mpr hall, List.rdropWhile_eq_nil_iff.mpr hcons]
        · obtain ⟨d, hd, hneg⟩ : ∃ d ∈ t, ¬ p d := by simpa using hall
          obtain ⟨front, back, rfl⟩ := List.append_of_mem hd
          have hcons : (c :: (front ++ d :: back)).rdropWhile p = c :: (front ++ d :: back).rdropWhile p := by
            rw [← List.cons_append, rdropWhile_append_cons hneg, rdropWhile_append_cons hneg, List.cons_append]
          rw [hcons, List.dropWhile_cons_of_pos hc]
      · rw [List.dropWhile_cons_of_neg hc, rdropWhile_cons_of_neg hc, List.dropWhile_cons_of_neg hc]

theorem rdropWhile_append_of_all (t : List β) {blanks : List β} (h : ∀ c ∈ blanks, p c) :
    (t ++ blanks).rdropWhile p = t.rdropWhile p := by
  induction blanks using List.reverseRecOn with
  | nil => rw [List.append_nil]
  | append_singleton blanks c ih =>
      rw [← List.append_assoc, List.rdropWhile_concat_pos p _ _ (h c (by simp))]
      exact ih fun d hd => h d (List.mem_append_left _ hd)

/-- Blanks at the end do not count. -/
theorem strip_append_of_all (t : List β) {blanks : List β} (h : ∀ c ∈ blanks, p c) :
    strip p (t ++ blanks) = strip p t := by rw [strip, rdropWhile_append_of_all t h, strip]

/-- What is stripped off are blanks. -/
theorem exists_strip (p : β → Bool) (t : List β) :
    ∃ lead trail, t = lead ++ (strip p t ++ trail) ∧ (∀ c ∈ lead, p c) ∧ ∀ c ∈ trail, p c := by
  refine ⟨(t.rdropWhile p).takeWhile p, t.rtakeWhile p, ?_, fun c hc => List.mem_takeWhile_imp hc,
    fun c hc => List.mem_rtakeWhile_imp hc⟩
  rw [strip, ← List.append_assoc, List.takeWhile_append_dropWhile, List.rdropWhile_append_rtakeWhile]

/-- Blanks inside a text are not stripped off. -/
theorem strip_append_cons {d : β} (hd : ¬ p d) (front back : List β) :
    strip p (front ++ d :: back) = front.dropWhile p ++ d :: back.rdropWhile p := by
  rw [strip, rdropWhile_append_cons hd, rdropWhile_cons_of_neg hd, List.dropWhile_append, List.dropWhile_cons_of_neg hd]
  split_ifs with hempty
  · rw [List.isEmpty_iff.mp hempty, List.nil_append]
  · rfl

end Strip

end Texts
