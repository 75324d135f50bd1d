import Mathlib.Data.List.Forall2

/-! How a shell splits a line into words, on lines that have no other meaning to it: blanks stand between the words, and
between two quotes every character stands for itself. -/

namespace Shell

variable {α : Type}

/-- The characters that are not part of a word as they are. The special ones start an expansion, an operator, a comment or
the like. -/
structure Lexicon (α : Type) where
  blank : α → Bool
  special : α → Bool
  quote : α

/-- Where the scanner is: between words, in a word, or in the quoted part of one. -/
inductive Mode (α : Type) where
  | gap
  | bare (word : List α)
  | quoted (word : List α)

namespace Lexicon

variable [DecidableEq α] (L : Lexicon α)

/-- The words of a line. None if the line needs more than splitting, or ends in a quotation. -/
def words : Mode α → List α → Option (List (List α))
  | .gap, [] => some []
  | .bare word, [] => some [word]
  | .quoted _, [] => none
  | .gap, c :: rest =>
      if L.blank c then words .gap rest
      else if c = L.quote then words (.quoted []) rest
      else if L.special c then none
      else words (.bare [c]) rest
  | .bare word, c :: rest =>
      if L.blank c then (words .gap rest).map (word :: ·)
      else if c = L.quote then words (.quoted word) rest
      else if L.special c then none
      else words (.bare (word ++ [c])) rest
  | .quoted word, c :: rest =>
      if c = L.quote then words (.bare word) rest else words (.quoted (word ++ [c])) rest

/-- A character that stands for itself. -/
structure Plain (c : α) : Prop where
  blank : L.blank c = false
  quote : c ≠ L.quote
  special : L.special c = false

instance : DecidablePred L.Plain := fun c =>
  decidable_of_iff (L.blank c = false ∧ c ≠ L.quote ∧ L.special c = false)
    ⟨fun h => ⟨h.1, h.2.1, h.2.2⟩, fun h => ⟨h.blank, h.quote, h.special⟩⟩

/-- A word that needs no quoting. -/
structure Bare (word : List α) : Prop where
  nonempty : word ≠ []
  plain : ∀ c ∈ word, L.Plain c

/-- The word in quotes. -/
def inQuotes (word : List α) : List α := L.quote :: (word ++ [L.quote])

variable {L}

theorem Plain.words_gap {c : α} (h : L.Plain c) (rest : List α) :
    L.words .gap (c :: rest) = L.words (.bare [c]) rest := by
  simp [words, h.blank, h.quote, h.special]

theorem Plain.words_bare {c : α} (h : L.Plain c) (front rest : List α) :
    L.words (.bare front) (c :: rest) = L.words (.bare (front ++ [c])) rest := by
  simp [words, h.blank, h.quote, h.special]

theorem words_bare_append {word : List α} (h : ∀ c ∈ word, L.Plain c) (front rest : List α) :
    L.words (.bare front) (word ++ rest) = L.words (.bare (front ++ word)) rest := by
  induction word generalizing front with
  | nil => rw [List.append_nil, List.nil_append]
  | cons c word ih =>
      have hword : ∀ d ∈ word, L.Plain d := fun d hd => h d (List.mem_cons_of_mem _ hd)
      rw [List.cons_append, (h c List.mem_cons_self).words_bare, ih hword, List.append_assoc]
      rfl

theorem Bare.words_append {word : List α} (h : L.Bare word) (rest : List α) :
    L.words .gap (word ++ rest) = L.words (.bare word) rest := by
  cases word with
  | nil => exact absurd rfl h.nonempty
  | cons c word =>
      have hword : ∀ d ∈ word, L.Plain d := fun d hd => h.plain d (List.mem_cons_of_mem _ hd)
      rw [List.cons_append, (h.plain c List.mem_cons_self).words_gap, words_bare_append hword]
      rfl

theorem words_quoted_append {word : List α} (h : L.quote ∉ word) (front rest : List α) :
    L.words (.quoted front) (word ++ rest) = L.words (.quoted (front ++ word)) rest := by
  induction word generalizing front with
  | nil => rw [List.append_nil, List.nil_append]
  | cons c word ih =>
      have hc : c ≠ L.quote := fun heq => h (heq ▸ List.mem_cons_self)
      rw [List.cons_append, words, if_neg hc, ih fun hmem => h (List.mem_cons_of_mem _ hmem), List.append_assoc]
      rfl

theorem words_inQuotes_append (hquote : L.blank L.quote = false) {word : List α} (h : L.quote ∉ word)
    (rest : List α) : L.words .gap (L.inQuotes word ++ rest) = L.words (.bare word) rest := by
  rw [inQuotes, List.cons_append, words, if_neg (by rw [hquote]; decide), if_pos rfl, List.append_assoc,
    words_quoted_append h, List.nil_append, List.singleton_append, words, if_pos rfl]

/-- The text of a word, with or without quotes. -/
inductive Spells (L : Lexicon α) (word : List α) : List α → Prop
  | bare : Spells L word word
  | inQuotes : Spells L word (L.inQuotes word)

theorem Bare.spelled (hquote : L.blank L.quote = false) {word text : List α} (h : L.Bare word)
    (hspells : L.Spells word text) (rest : List α) :
    L.words .gap (text ++ rest) = L.words (.bare word) rest := by
  cases hspells with
  | bare => exact h.words_append rest
  | inQuotes => exact words_inQuotes_append hquote (fun hmem => (h.plain _ hmem).quote rfl) rest

/-- Words that need no quoting are what a line of them is split into, whichever of them are quoted. -/
theorem words_intercalate (hquote : L.blank L.quote = false) {sep : α} (hsep : L.blank sep = true)
    {args texts : List (List α)} (hbare : ∀ word ∈ args, L.Bare word) (h : List.Forall₂ L.Spells args texts) :
    L.words .gap (List.intercalate [sep] texts) = some args := by
  induction h with
  | nil => rfl
  | @cons word text args texts hspells hrest ih =>
      have hword := hbare word List.mem_cons_self
      have hargs := ih fun w hw => hbare w (List.mem_cons_of_mem _ hw)
      cases hrest with
      | nil =>
          have hend := hword.spelled hquote hspells []
          rw [List.append_nil] at hend
          rw [List.intercalate_singleton, hend]
          rfl
      | cons _ _ =>
          rw [List.intercalate_cons_cons, List.append_assoc, hword.spelled hquote hspells, List.singleton_append, words,
            if_pos hsep, hargs]
          rfl

end Lexicon

end Shell
