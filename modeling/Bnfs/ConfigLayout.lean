import Bnfs.ConfigCalls

/-! What the layout of a file changes and what it does not: comments, blanks, the ends of lines, lines too long for the
buffer, and files put one after another. -/

namespace Bnfs

open Buffers

/-- The calls from a place on. -/
def IniPlace.calls (pl : IniPlace) (texts : List Bytes) : List IniCall :=
  (pl.events texts).filterMap fun event => event.2.call?

theorem iniCalls_eq (text : Bytes) : iniCalls text = IniPlace.start.calls ((iniLines text).map cStr) := rfl

namespace IniPlace

theorem calls_append (pl : IniPlace) (texts texts' : List Bytes) :
    pl.calls (texts ++ texts') = pl.calls texts ++ (pl.after texts).calls texts' := by
  rw [calls, events_append, List.filterMap_append]
  rfl

theorem calls_cons (pl : IniPlace) (text : Bytes) (rest : List Bytes) :
    pl.calls (text :: rest) = ((pl.next text).2.call?).toList ++ (pl.next text).1.calls rest := by
  unfold calls
  rw [events, List.filterMap_cons]
  cases (pl.next text).2.call? <;> rfl

theorem after_lineno (pl : IniPlace) (texts : List Bytes) : (pl.after texts).lineno = pl.lineno + texts.length := by
  induction texts generalizing pl with
  | nil => rfl
  | cons text rest ih =>
      rw [after, List.foldl_cons, ← after, ih, next_lineno, List.length_cons]
      omega

/-- The number of a line matters for the mark on the first one only. -/
structure Alike (pl pl' : IniPlace) : Prop where
  section_name : pl.section_name = pl'.section_name
  prev_name : pl.prev_name = pl'.prev_name

theorem Alike.next {pl pl' : IniPlace} (h : Alike pl pl') (text text' : Bytes)
    (hread : IniLine.read (pl.lineno == 0) (pl.prev_name != []) text =
      IniLine.read (pl'.lineno == 0) (pl.prev_name != []) text') :
    Alike (pl.next text).1 (pl'.next text').1 ∧ (pl.next text).2 = (pl'.next text').2 := by
  obtain ⟨section_name, prev_name, lineno⟩ := pl
  obtain ⟨section_name', prev_name', lineno'⟩ := pl'
  obtain ⟨hsection, hprev⟩ := h
  cases hsection
  cases hprev
  unfold IniPlace.next
  rw [hread]
  cases IniLine.read (lineno' == 0) (prev_name != []) text' <;> exact ⟨⟨rfl, rfl⟩, rfl⟩

theorem Alike.calls {pl pl' : IniPlace} (h : Alike pl pl') (hpos : 0 < pl.lineno) (hpos' : 0 < pl'.lineno)
    (texts : List Bytes) : pl.calls texts = pl'.calls texts := by
  induction texts generalizing pl pl' with
  | nil => rfl
  | cons text rest ih =>
      have hflag : (pl.lineno == 0) = (pl'.lineno == 0) := by
        rw [beq_false_of_ne hpos.ne', beq_false_of_ne hpos'.ne']
      obtain ⟨hnext, hevent⟩ := h.next text text (by rw [hflag])
      rw [calls_cons, calls_cons, hevent, ih hnext (by rw [next_lineno]; omega) (by rw [next_lineno]; omega)]

end IniPlace

theorem read_unmarked {text : Bytes} (h : ¬ byteOrderMark <+: text) (first named : Bool) :
    IniLine.read first named text = IniLine.read false named text := by
  have hmark : ∀ first, marked first text = false := fun first => by
    rw [marked, Bool.eq_false_iff.mpr fun hfront => h (List.isPrefixOf_iff_prefix.mp hfront), Bool.and_false]
  unfold IniLine.read indented unmarked
  rw [hmark, hmark]

/-- What one read takes although `back` follows: a line with its end, a last line without one, or as much of a line as
the buffer has place for. -/
structure OneRead (piece back : Bytes) : Prop where
  nonempty : piece ≠ []
  taken : nextLine (piece ++ back) = piece

theorem OneRead.iniLines {piece back : Bytes} (h : OneRead piece back) :
    iniLines (piece ++ back) = piece :: iniLines back := by
  have hne : piece ++ back ≠ [] := fun heq => h.nonempty (List.append_eq_nil_iff.mp heq).1
  rw [iniLines_eq hne, h.taken, List.drop_left]

/-- Nothing but whitespace, or a comment behind it. -/
def CommentText (text : Bytes) : Prop := ∀ c ∈ (Texts.strip isSpace text).head?, c ∈ INI_START_COMMENT_PREFIXES

theorem head?_strip_mark {text : Bytes} (h : byteOrderMark <+: text) :
    (Texts.strip isSpace text).head? = some 0xEF := by
  obtain ⟨rest, rfl⟩ := h
  have hspace : ¬ isSpace 0xEF = true := by decide
  rw [Texts.strip, byteOrderMark, List.cons_append, Texts.rdropWhile_cons_of_neg hspace,
    List.dropWhile_cons_of_neg hspace, List.head?_cons]

theorem CommentText.read {text : Bytes} (h : CommentText text) (first named : Bool) :
    IniLine.read first named text = .blank := by
  have hmark : ¬ byteOrderMark <+: text := fun hfront =>
    absurd (h 0xEF (head?_strip_mark hfront)) (by decide)
  rw [read_unmarked hmark, IniLine.read]
  have hunmarked : unmarked false text = text := rfl
  rw [hunmarked]
  cases hstrip : Texts.strip isSpace text with
  | nil => rfl
  | cons c rest => exact if_pos (h c (by rw [hstrip]; rfl))

/-- A comment, wherever it stands, makes no call and changes none, unless it keeps a byte order mark from the first line.
Of one that is longer than the buffer this holds for what the buffer takes: the rest of it is read as if it stood on a
line of its own. -/
theorem comment_ignored {front piece back : Bytes} (hfront : Texts.Ended 10 front) (hpiece : OneRead piece back)
    (hcomment : CommentText (cStr piece)) (hmark : front ≠ [] ∨ ¬ byteOrderMark <+: back) :
    iniCalls (front ++ (piece ++ back)) = iniCalls (front ++ back) := by
  have hlines : ∀ text, iniLines (front ++ text) = iniLines front ++ iniLines text := Texts.pieces_append hfront
  rw [iniCalls_eq, iniCalls_eq, hlines, hlines, hpiece.iniLines, List.map_append, List.map_append, List.map_cons,
    IniPlace.calls_append, IniPlace.calls_append]
  congr 1
  have hafter := IniPlace.after_lineno IniPlace.start ((iniLines front).map cStr)
  generalize IniPlace.start.after ((iniLines front).map cStr) = pl at hafter
  have hread := hcomment.read (pl.lineno == 0) (pl.prev_name != [])
  have hnext : pl.next (cStr piece) = ({ pl with lineno := pl.lineno + 1 }, .quiet) := by
    rw [IniPlace.next, hread]
    rfl
  rw [IniPlace.calls_cons, hnext]
  change IniPlace.calls { pl with lineno := pl.lineno + 1 } ((iniLines back).map cStr) = pl.calls _
  have halike : IniPlace.Alike { pl with lineno := pl.lineno + 1 } pl := ⟨rfl, rfl⟩
  by_cases hpos : 0 < pl.lineno
  · exact halike.calls (Nat.succ_pos _) hpos _
  · have hzero : pl.lineno = 0 := Nat.eq_zero_of_not_pos hpos
    have hempty : front = [] := by
      by_contra hne
      rw [hzero, List.length_map, iniLines_eq hne, List.length_cons] at hafter
      omega
    have hback := hmark.resolve_left (not_not.mpr hempty)
    by_cases hnil : back = []
    · rw [hnil]
      rfl
    · have hline : ¬ byteOrderMark <+: cStr (nextLine back) := fun hfront =>
        hback ((hfront.trans (List.takeWhile_prefix _)).trans (Texts.firstPiece_begins _ _ _))
      obtain ⟨hnext, hevent⟩ := halike.next (cStr (nextLine back)) (cStr (nextLine back)) (by
        rw [read_unmarked hline, read_unmarked hline (pl.lineno == 0)])
      rw [iniLines_eq hnil, List.map_cons, IniPlace.calls_cons, IniPlace.calls_cons, hevent]
      congr 1
      exact hnext.calls (by rw [IniPlace.next_lineno]; omega) (by rw [IniPlace.next_lineno]; omega) _

theorem comment_ignored_sample :
    iniCalls (ascii "[a]\nx = 1\n" ++ (ascii "  # y = 2\n" ++ ascii "z = 3\n")) =
      iniCalls (ascii "[a]\nx = 1\n" ++ ascii "z = 3\n") := by
  have hcomment : CommentText (cStr (ascii "  # y = 2\n")) := by
    unfold CommentText
    decide +kernel
  refine comment_ignored (Or.inr ⟨ascii "[a]\nx = 1", ?_⟩) ⟨?_, ?_⟩ hcomment (Or.inl ?_)
  all_goals decide +kernel

/-- The two lines say the same wherever they stand. -/
def ReadAlike (text text' : Bytes) : Prop :=
  ∀ first named, IniLine.read first named text = IniLine.read first named text'

theorem IniPlace.events_congr {texts texts' : List Bytes} (h : List.Forall₂ ReadAlike texts texts') (pl : IniPlace) :
    pl.events texts = pl.events texts' := by
  induction h generalizing pl with
  | nil => rfl
  | @cons text text' rest rest' hread _ ih =>
      have hnext : pl.next text = pl.next text' := by rw [next, next, hread]
      rw [events, events, hnext, ih]

section Blanks

variable {text blanks : Bytes} (first : Bool)

/-- No byte of the mark is whitespace. -/
theorem marked_append (h : ∀ c ∈ blanks.head?, isSpace c = true) : marked first (text ++ blanks) = marked first text := by
  unfold marked
  congr 1
  cases blanks with
  | nil => rw [List.append_nil]
  | cons c blanks =>
      have hc : isSpace c = true := h c rfl
      have hne : ∀ b : UInt8, isSpace b = false → (b == c) = false := fun b hb =>
        beq_false_of_ne fun heq => by rw [heq, hc] at hb; cases hb
      have h1 := hne 0xEF (by decide)
      have h2 := hne 0xBB (by decide)
      have h3 := hne 0xBF (by decide)
      rcases text with _ | ⟨a, _ | ⟨b, _ | ⟨d, text⟩⟩⟩ <;> simp [byteOrderMark, List.isPrefixOf, h1, h2, h3]

theorem unmarked_append (h : ∀ c ∈ blanks.head?, isSpace c = true) :
    unmarked first (text ++ blanks) = unmarked first text ++ blanks := by
  unfold unmarked
  rw [marked_append first h]
  split_ifs with hmark
  · obtain ⟨rest, rfl⟩ := List.isPrefixOf_iff_prefix.mp (Bool.and_eq_true_iff.mp hmark).2
    rfl
  · rfl

/-- Whitespace at the end of a line does not count. -/
theorem readAlike_append (h : ∀ c ∈ blanks, isSpace c = true) : ReadAlike (text ++ blanks) text := by
  intro first named
  have hhead : ∀ c ∈ blanks.head?, isSpace c = true := fun c hc => h c (List.mem_of_mem_head? hc)
  unfold IniLine.read indented
  rw [unmarked_append first hhead, marked_append first hhead, Texts.strip_append_of_all _ h]
  cases hline : unmarked first text with
  | nil => rfl
  | cons c rest => rfl

end Blanks

/-- Every line ended with a carriage return and a newline. -/
def toCrlf (text : Bytes) : Bytes := text.flatMap fun c => if c = 10 then [13, 10] else [c]

theorem toCrlf_line {line : Bytes} (h : 10 ∉ line) : toCrlf line = line := by
  induction line with
  | nil => rfl
  | cons c line ih =>
      simp only [List.mem_cons, not_or] at h
      rw [toCrlf, List.flatMap_cons, if_neg (Ne.symm h.1)]
      exact congrArg (c :: ·) (ih h.2)

theorem toCrlf_append (s t : Bytes) : toCrlf (s ++ t) = toCrlf s ++ toCrlf t := List.flatMap_append

/-- No read fills the buffer. -/
def HasRoom (text : Bytes) : Prop := ∀ line ∈ iniLines text, line.length < INI_MAX_LINE - 1

/-- A line in a text that leaves room is short. -/
theorem HasRoom.line {line rest : Bytes} (h : HasRoom (line ++ 10 :: rest)) (hline : 10 ∉ line) :
    line.length + 1 < INI_MAX_LINE - 1 ∧ HasRoom rest := by
  by_cases hshort : line.length < INI_MAX_LINE - 1
  · have hlines : iniLines (line ++ 10 :: rest) = (line ++ [10]) :: iniLines rest := Texts.pieces_line hline hshort rest
    rw [HasRoom, hlines] at h
    have hfirst := h _ List.mem_cons_self
    rw [List.length_append, List.length_singleton] at hfirst
    exact ⟨hfirst, fun l hl => h l (List.mem_cons_of_mem _ hl)⟩
  · have hsplit : line ++ 10 :: rest = line.take 199 ++ (line.drop 199 ++ 10 :: rest) := by
      rw [← List.append_assoc, List.take_append_drop]
    have hlength : (line.take 199).length = INI_MAX_LINE - 1 := by
      rw [List.length_take]
      exact Nat.min_eq_left (Nat.not_lt.mp hshort)
    have hpiece := Texts.pieces_long (fun hmem => hline (List.mem_of_mem_take hmem)) hlength (by decide)
      (line.drop 199 ++ 10 :: rest)
    rw [HasRoom, hsplit, iniLines, hpiece] at h
    exact absurd (h _ List.mem_cons_self) (by rw [hlength]; exact Nat.lt_irrefl _)

theorem HasRoom.last {line : Bytes} (h : HasRoom line) (hline : 10 ∉ line) : line.length < INI_MAX_LINE - 1 := by
  by_cases hshort : line.length < INI_MAX_LINE - 1
  · exact hshort
  · have hlength : (line.take 199).length = INI_MAX_LINE - 1 := by
      rw [List.length_take]
      exact Nat.min_eq_left (Nat.not_lt.mp hshort)
    have hpiece := Texts.pieces_long (fun hmem => hline (List.mem_of_mem_take hmem)) hlength (by decide) (line.drop 199)
    rw [HasRoom, ← List.take_append_drop 199 line, iniLines, hpiece] at h
    exact absurd (h _ List.mem_cons_self) (by rw [hlength]; exact Nat.lt_irrefl _)

/-- What stands behind a NUL is not seen. -/
theorem cStr_append_of_mem {text : Bytes} (h : 0 ∈ text) (tail : Bytes) : cStr (text ++ tail) = cStr text := by
  obtain ⟨front, back, rfl, hfront⟩ := List.eq_append_cons_of_mem h
  have hall : ∀ b ∈ front, (b != 0) = true := fun b hb => bne_iff_ne.mpr fun heq => hfront (heq ▸ hb)
  rw [cStr, cStr, List.append_assoc, List.takeWhile_append_of_pos hall, List.takeWhile_append_of_pos hall]
  rfl

theorem cStr_append_of_noNul {text : Bytes} (h : 0 ∉ text) (tail : Bytes) : cStr (text ++ tail) = text ++ cStr tail :=
  List.takeWhile_append_of_pos fun _ hb => bne_iff_ne.mpr fun heq => h (heq ▸ hb)

theorem readAlike_crlf (line : Bytes) : ReadAlike (cStr (line ++ [13, 10])) (cStr (line ++ [10])) := by
  by_cases hnul : 0 ∈ line
  · rw [cStr_append_of_mem hnul, cStr_append_of_mem hnul]
    exact fun _ _ => rfl
  · rw [cStr_append_of_noNul hnul, cStr_append_of_noNul hnul]
    have hends : cStr [13, 10] = [13, 10] ∧ cStr [10] = [10] := by decide
    rw [hends.1, hends.2]
    intro first named
    rw [readAlike_append (by decide +kernel) first named, readAlike_append (by decide +kernel) first named]

/-- A file whose lines leave room for the carriage returns means the same with them, line by line. -/
theorem meaning_crlf {text : Bytes} (h : HasRoom text) : meaning (toCrlf text) = meaning text := by
  refine IniPlace.events_congr ?_ _
  induction text using Texts.lines_induction (10 : UInt8) with
  | last line hline =>
      rw [toCrlf_line hline]
      exact List.forall₂_same.mpr fun _ _ _ _ => rfl
  | line line rest hline ih =>
      obtain ⟨hshort, hrest⟩ := h.line hline
      have hcrlf : toCrlf (line ++ 10 :: rest) = (line ++ [13]) ++ 10 :: toCrlf rest := by
        rw [toCrlf_append, toCrlf_line hline, List.append_assoc]
        rfl
      have hline' : 10 ∉ line ++ [13] := by simp [hline]
      have hlines : iniLines ((line ++ [13]) ++ 10 :: toCrlf rest) = ((line ++ [13]) ++ [10]) :: iniLines (toCrlf rest) :=
        Texts.pieces_line hline' (by rw [List.length_append, List.length_singleton]; exact hshort) _
      have hlines' : iniLines (line ++ 10 :: rest) = (line ++ [10]) :: iniLines rest :=
        Texts.pieces_line hline (Nat.lt_of_succ_lt hshort) rest
      rw [hcrlf, hlines, hlines', List.map_cons, List.map_cons, List.append_assoc]
      exact .cons (readAlike_crlf line) (ih hrest)

theorem meaning_crlf_sample :
    meaning (toCrlf (ascii "[a]\nx = 1\n  2\n")) = meaning (ascii "[a]\nx = 1\n  2\n") := by
  refine meaning_crlf fun line hline => ?_
  revert line
  decide +kernel

/-- Whitespace and a comment behind it. -/
structure InlineComment (blanks comment : Bytes) : Prop where
  nonempty : blanks ≠ []
  blanks : ∀ c ∈ blanks, isSpace c = true

theorem strchr_of_isSpace {chars : Bytes} (h : ∀ b ∈ chars, isSpace b = false) {c : UInt8} (hc : isSpace c = true) :
    strchr chars c = false := by
  have hzero : c ≠ 0 := fun heq => by
    rw [heq, isSpace_zero] at hc
    cases hc
  have hmem : c ∉ chars := fun hmem => by
    rw [h c hmem] at hc
    cases hc
  simp [strchr, hzero, hmem]

section InlineComments

variable {blanks comment : Bytes} (h : InlineComment blanks comment)

include h

/-- No search goes beyond the comment. -/
theorem passed_comment {chars : Option Bytes} (hchars : ∀ c, isSpace c = true → chars.any (strchr · c) = false)
    (was_space : Bool) : passed (findNext chars) was_space (blanks ++ 59 :: comment) = blanks := by
  obtain ⟨hnonempty, hblanks⟩ := h
  induction blanks generalizing was_space with
  | nil => exact absurd rfl hnonempty
  | cons c blanks ih =>
      have hc : isSpace c = true := hblanks c List.mem_cons_self
      have hzero : c ≠ 0 := fun heq => by
        rw [heq, isSpace_zero] at hc
        cases hc
      have hcomment : strchr INI_INLINE_COMMENT_PREFIXES c = false := strchr_of_isSpace (by decide +kernel) hc
      have hnext : findNext chars was_space c = some true := by
        simp [findNext, hzero, hchars c hc, hcomment, hc]
      rw [List.cons_append, passed, hnext]
      refine congrArg (c :: ·) ?_
      cases blanks with
      | nil =>
          have hstop : findNext chars true 59 = none := by
            simp [findNext, strchr, INI_INLINE_COMMENT_PREFIXES, ascii]
          rw [List.nil_append, passed, hstop]
      | cons d blanks => exact ih true (List.cons_ne_nil d blanks) fun e he => hblanks e (List.mem_cons_of_mem _ he)

/-- A search that found nothing stops at the comment, one that found something does not see it. -/
theorem before_comment {chars : Option Bytes} (hchars : ∀ c, isSpace c = true → chars.any (strchr · c) = false)
    (text : Bytes) :
    (fromThere chars text = [] ∧ before chars (text ++ (blanks ++ 59 :: comment)) = text ++ blanks ∧
      fromThere chars (text ++ (blanks ++ 59 :: comment)) = 59 :: comment) ∨
    ∃ c rest, fromThere chars text = c :: rest ∧
      before chars (text ++ (blanks ++ 59 :: comment)) = before chars text ∧
      fromThere chars (text ++ (blanks ++ 59 :: comment)) = c :: (rest ++ (blanks ++ 59 :: comment)) := by
  have hsplit := before_append_fromThere chars text
  cases hrest : fromThere chars text with
  | nil =>
      rw [hrest, List.append_nil] at hsplit
      obtain ⟨seen, hseen⟩ := passed_append_of_eq hsplit
      have hbefore : before chars (text ++ (blanks ++ 59 :: comment)) = text ++ blanks := by
        rw [before, hseen, passed_comment h hchars]
      refine Or.inl ⟨rfl, hbefore, ?_⟩
      rw [fromThere, hbefore, ← List.append_assoc, List.drop_left]
  | cons c rest =>
      have hne : passed (findNext chars) false text ≠ text := fun heq => by
        change before chars text = text at heq
        rw [fromThere, heq, List.drop_length] at hrest
        cases hrest
      have hbefore : before chars (text ++ (blanks ++ 59 :: comment)) = before chars text := passed_append_of_ne hne _
      refine Or.inr ⟨c, rest, rfl, hbefore, ?_⟩
      have hle : (before chars text).length ≤ text.length := (passed_begins _ _ _).length_le
      rw [fromThere, hbefore, List.drop_append_of_le_length hle]
      change fromThere chars text ++ _ = _
      rw [hrest, List.cons_append]

theorem readHeader_comment (text : Bytes) : readHeader (text ++ (blanks ++ 59 :: comment)) = readHeader text := by
  have hchars : ∀ c, isSpace c = true → (some (ascii "]")).any (strchr · c) = false := fun _ =>
    strchr_of_isSpace (by decide +kernel)
  unfold readHeader
  obtain ⟨hrest, _, hthere⟩ | ⟨c, rest, hrest, hbefore, hthere⟩ := before_comment h hchars text
  · rw [hrest, hthere]
    rfl
  · rw [hrest, hthere, hbefore]

theorem readValue_comment (text : Bytes) : readValue (text ++ (blanks ++ 59 :: comment)) = readValue text := by
  have hnone : ∀ c, isSpace c = true → (none : Option Bytes).any (strchr · c) = false := fun _ _ => rfl
  unfold readValue
  obtain ⟨hrest, hbefore, _⟩ | ⟨c, rest, _, hbefore, _⟩ := before_comment h hnone text
  · have hsplit := before_append_fromThere none text
    rw [hrest, List.append_nil] at hsplit
    rw [hbefore, hsplit, Texts.strip_append_of_all text h.blanks]
  · rw [hbefore]

theorem readOption_comment (text : Bytes) : readOption (text ++ (blanks ++ 59 :: comment)) = readOption text := by
  have hchars : ∀ c, isSpace c = true → (some (ascii "=:")).any (strchr · c) = false := fun _ =>
    strchr_of_isSpace (by decide +kernel)
  unfold readOption
  obtain ⟨hrest, _, hthere⟩ | ⟨c, rest, hrest, hbefore, hthere⟩ := before_comment h hchars text
  · rw [hrest, hthere]
    rfl
  · rw [hrest, hthere, hbefore]
    dsimp only
    rw [readValue_comment h]

/-- The line and its comment. -/
theorem strip_comment (text : Bytes) :
    (Texts.strip isSpace text = [] ∧ ∃ rest, Texts.strip isSpace (text ++ (blanks ++ 59 :: comment)) = 59 :: rest) ∨
    Texts.strip isSpace text ≠ [] ∧ ∃ blanks' comment', InlineComment blanks' comment' ∧
      Texts.strip isSpace (text ++ (blanks ++ 59 :: comment)) =
        Texts.strip isSpace text ++ (blanks' ++ 59 :: comment') := by
  have hspace : ¬ isSpace 59 = true := by decide
  obtain ⟨lead, trail, htext, hlead, htrail⟩ := Texts.exists_strip isSpace text
  have hstrip := Texts.strip_append_cons hspace (text ++ blanks) comment
  rw [List.append_assoc] at hstrip
  rw [hstrip]
  by_cases hempty : Texts.strip isSpace text = []
  · have hall : ∀ c ∈ text ++ blanks, isSpace c = true := by
      intro c hc
      rw [htext, hempty, List.nil_append] at hc
      rcases List.mem_append.mp hc with hc | hc
      · exact (List.mem_append.mp hc).elim (hlead c) (htrail c)
      · exact h.blanks c hc
    exact Or.inl ⟨hempty, _, by rw [List.dropWhile_eq_nil_iff.mpr hall, List.nil_append]⟩
  · refine Or.inr ⟨hempty, trail ++ blanks, comment.rdropWhile isSpace, ⟨by simp [h.nonempty], fun c hc => ?_⟩, ?_⟩
    · exact (List.mem_append.mp hc).elim (htrail c) (h.blanks c)
    · have hdrop : (text ++ blanks).dropWhile isSpace = Texts.strip isSpace text ++ (trail ++ blanks) := by
        obtain ⟨c, rest, hcons⟩ := List.exists_cons_of_ne_nil hempty
        have hc : ¬ isSpace c = true := by
          have hnot := List.head?_dropWhile_not isSpace (text.rdropWhile isSpace)
          rw [Texts.strip] at hcons
          rw [hcons] at hnot
          simpa using hnot
        conv_lhs => rw [htext, hcons]
        rw [hcons, List.append_assoc, List.append_assoc, List.cons_append, List.dropWhile_append_of_pos hlead,
          List.dropWhile_cons_of_neg hc]
      rw [hdrop, List.append_assoc]

theorem head?_comment : ∀ c ∈ (blanks ++ 59 :: comment).head?, isSpace c = true := by
  intro c hc
  obtain ⟨d, rest, hblanks⟩ := List.exists_cons_of_ne_nil h.nonempty
  rw [hblanks] at hc
  exact h.blanks c (hblanks ▸ List.mem_of_mem_head? hc)

theorem indented_comment {text : Bytes} {first : Bool} (hline : Texts.strip isSpace (unmarked first text) ≠ []) :
    indented first (text ++ (blanks ++ 59 :: comment)) = indented first text := by
  have hhead := head?_comment h
  have hne : unmarked first text ≠ [] := fun heq => by
    rw [heq] at hline
    exact hline rfl
  obtain ⟨d, rest, hd⟩ := List.exists_cons_of_ne_nil hne
  rw [indented, indented, marked_append first hhead, unmarked_append first hhead, hd]
  rfl

/-- A comment behind a line that does not continue a value says nothing. -/
theorem read_inline_comment {text : Bytes} {first named : Bool}
    (hmargin : Texts.strip isSpace (unmarked first text) ≠ [] → (named && indented first text) = false) :
    IniLine.read first named (text ++ (blanks ++ 59 :: comment)) = IniLine.read first named text := by
  unfold IniLine.read
  rw [unmarked_append first (head?_comment h)]
  obtain ⟨hempty, rest, hstrip⟩ | ⟨hne, blanks', comment', h', hstrip⟩ := strip_comment h (unmarked first text)
  · rw [hempty, hstrip]
    exact if_pos (by decide)
  · obtain ⟨c, rest, hcons⟩ := List.exists_cons_of_ne_nil hne
    have hconcat : c :: rest ++ (blanks' ++ 59 :: comment') = c :: (rest ++ (blanks' ++ 59 :: comment')) := rfl
    rw [hstrip, hcons, hconcat]
    dsimp only
    rw [indented_comment h hne, hmargin hne, readHeader_comment h', ← hconcat, readOption_comment h']
    simp only [Bool.false_eq_true, if_false]

/-- On a line that continues a value it is a part of the value. -/
theorem read_more_comment {text value : Bytes} {first : Bool} (hindented : indented first text = true)
    (hread : IniLine.read first true text = .more value) :
    ∃ blanks' comment', InlineComment blanks' comment' ∧
      IniLine.read first true (text ++ (blanks ++ 59 :: comment)) = .more (value ++ (blanks' ++ 59 :: comment')) := by
  unfold IniLine.read at hread ⊢
  rw [unmarked_append first (head?_comment h)]
  obtain ⟨hempty, _⟩ | ⟨hne, blanks', comment', h', hstrip⟩ := strip_comment h (unmarked first text)
  · rw [hempty] at hread
    cases hread
  · obtain ⟨c, rest, hcons⟩ := List.exists_cons_of_ne_nil hne
    have hconcat : c :: rest ++ (blanks' ++ 59 :: comment') = c :: (rest ++ (blanks' ++ 59 :: comment')) := rfl
    refine ⟨blanks', comment', h', ?_⟩
    rw [hcons] at hread
    rw [hstrip, hcons, hconcat]
    dsimp only at hread ⊢
    rw [hindented] at hread
    rw [indented_comment h hne, hindented]
    by_cases hcomment : c ∈ INI_START_COMMENT_PREFIXES
    · rw [if_pos hcomment] at hread
      cases hread
    · rw [if_neg hcomment, if_pos (Bool.and_self true)] at hread ⊢
      rw [← IniLine.more.inj hread]
      rfl

end InlineComments

/-- The text that ends a line: the rest of the file behind a newline, or nothing behind a last line that is not empty. -/
def EndsLine (line back : Bytes) : Prop := (∃ rest, back = 10 :: rest) ∨ line ≠ [] ∧ back = []

/-- The line that `back` ends is read with its newline, if it has one. -/
theorem EndsLine.iniLines {line back : Bytes} (h : EndsLine line back) :
    ∃ ending rest, (∀ c ∈ ending, isSpace c = true) ∧ cStr ending = ending ∧
      ∀ text, (line ≠ [] → text ≠ []) → 10 ∉ text → text.length < INI_MAX_LINE - 1 →
        iniLines (text ++ back) = (text ++ ending) :: iniLines rest := by
  obtain ⟨rest, rfl⟩ | ⟨hline, rfl⟩ := h
  · exact ⟨[10], rest, by decide +kernel, by decide +kernel, fun text _ htext hlength => Texts.pieces_line htext hlength rest⟩
  · refine ⟨[], [], List.forall_mem_nil _, rfl, fun text hne htext hlength => ?_⟩
    rw [List.append_nil]
    exact Texts.pieces_last (hne hline) htext hlength

/-- Before the first line there is no name that a line could continue. -/
theorem IniPlace.prev_name_start {texts : List Bytes} (h : (start.after texts).lineno = 0) :
    (start.after texts).prev_name = [] := by
  rw [after_lineno, Nat.add_eq_zero_iff, List.length_eq_zero_iff] at h
  rw [h.2]
  rfl

section MarginLines

variable {line blanks comment ending : Bytes} (hcomment : InlineComment blanks comment)
  (hmargin : ∀ c ∈ line.head?, isSpace c = false)

include hcomment hmargin

theorem IniPlace.read_margin_comment {pl : IniPlace} (hpl : pl.lineno = 0 → pl.prev_name = []) :
    IniLine.read (pl.lineno == 0) (pl.prev_name != []) (line ++ (blanks ++ 59 :: comment)) =
      IniLine.read (pl.lineno == 0) (pl.prev_name != []) line := by
  refine read_inline_comment hcomment fun _ => ?_
  cases hlineno : pl.lineno with
  | zero =>
      rw [hpl hlineno]
      rfl
  | succ n =>
      have hhead : line.head?.any isSpace = false := by
        cases hc : line.head? with
        | none => rfl
        | some c => exact hmargin c hc
      have hindented : indented false line = line.head?.any isSpace := rfl
      have hflag : (n + 1 == 0) = false := rfl
      rw [hflag, hindented, hhead, Bool.and_false]

/-- A line at the margin leads on as it does without its comment, which ends with its own NUL if it has one. -/
theorem IniPlace.next_comment {pl : IniPlace} (hpl : pl.lineno = 0 → pl.prev_name = [])
    (hspace : ∀ c ∈ ending, isSpace c = true) (hnul : cStr ending = ending) :
    pl.next (cStr (line ++ (blanks ++ 59 :: comment) ++ ending)) = pl.next (cStr (line ++ ending)) := by
  by_cases hzero : 0 ∈ line
  · rw [List.append_assoc, cStr_append_of_mem hzero, cStr_append_of_mem hzero]
  · have hblank : 0 ∉ blanks := fun hmem => by
      have hspace := hcomment.blanks 0 hmem
      rw [isSpace_zero] at hspace
      cases hspace
    have hfront : 0 ∉ line ++ (blanks ++ [59]) := by simp [hzero, hblank]
    have hcut : cStr (line ++ (blanks ++ 59 :: comment) ++ ending) =
        line ++ (blanks ++ 59 :: cStr (comment ++ ending)) := by
      have hsplit : line ++ (blanks ++ 59 :: comment) ++ ending = line ++ (blanks ++ [59]) ++ (comment ++ ending) := by
        simp
      rw [hsplit, cStr_append_of_noNul hfront]
      simp
    have hcomment' : InlineComment blanks (cStr (comment ++ ending)) := ⟨hcomment.nonempty, hcomment.blanks⟩
    rw [next, next, hcut, read_margin_comment hcomment' hmargin hpl, cStr_append_of_noNul hzero, hnul,
      readAlike_append hspace]

end MarginLines

/-- A comment behind an option or a section leaves the meaning of a file as it is, if its line still fits and begins at the
margin. -/
theorem inline_comment_ignored {front line blanks comment back : Bytes} (hfront : Texts.Ended 10 front)
    (hcomment : InlineComment blanks comment) (hback : EndsLine line back)
    (hnewline : 10 ∉ line ++ (blanks ++ 59 :: comment))
    (hlength : (line ++ (blanks ++ 59 :: comment)).length < INI_MAX_LINE - 1)
    (hmargin : ∀ c ∈ line.head?, isSpace c = false) :
    meaning (front ++ (line ++ (blanks ++ 59 :: comment) ++ back)) = meaning (front ++ (line ++ back)) := by
  have hlines : ∀ text, iniLines (front ++ text) = iniLines front ++ iniLines text := Texts.pieces_append hfront
  obtain ⟨ending, rest, hspace, hnul, hline⟩ := hback.iniLines
  have hshort : line.length < INI_MAX_LINE - 1 := by
    rw [List.length_append] at hlength
    omega
  rw [meaning, meaning, hlines, hlines, hline _ (fun hne heq => hne (List.append_eq_nil_iff.mp heq).1) hnewline hlength,
    hline line id (fun hmem => hnewline (List.mem_append_left _ hmem)) hshort, List.map_append, List.map_append,
    IniPlace.events_append, IniPlace.events_append, List.map_cons, List.map_cons]
  congr 1
  rw [IniPlace.events, IniPlace.events,
    IniPlace.next_comment hcomment hmargin (fun hzero => IniPlace.prev_name_start hzero) hspace hnul]

theorem inline_comment_ignored_sample :
    meaning (ascii "[a]\n" ++ (ascii "x = 1" ++ (ascii "  " ++ 59 :: ascii " [b] = 2") ++ ascii "\ny = 3\n")) =
      meaning (ascii "[a]\n" ++ (ascii "x = 1" ++ ascii "\ny = 3\n")) := by
  refine inline_comment_ignored (Or.inr ⟨ascii "[a]", ?_⟩) ⟨?_, ?_⟩ (Or.inl ⟨ascii "y = 3\n", ?_⟩) ?_ ?_ ?_
  all_goals decide +kernel

/-- A line at the margin says the same wherever it stands. -/
theorem read_margin {c : UInt8} (hc : isSpace c = false) (hmark : c ≠ 0xEF) (rest : Bytes) (first named : Bool) :
    IniLine.read first named (c :: rest) = IniLine.read false false (c :: rest) := by
  have hfront : ¬ byteOrderMark <+: c :: rest := fun hfront => hmark (List.cons_prefix_cons.mp hfront).1.symm
  have hindented : indented false (c :: rest) = false := hc
  rw [read_unmarked hfront]
  unfold IniLine.read
  rw [hindented, Bool.and_false, Bool.and_false]

/-- A file that begins with a section can be read by itself: it makes the same calls behind any other file whose last line
is ended, and that one makes the same calls before it. -/
theorem calls_concat {front file name : Bytes} (hfront : Texts.Ended 10 front) (hmargin : file.head? = some 91)
    (hopens : IniLine.read false false (cStr (nextLine file)) = .header name) :
    iniCalls (front ++ file) = iniCalls front ++ iniCalls file := by
  obtain ⟨rest, rfl⟩ := List.head?_eq_some_iff.mp hmargin
  have hlines : iniLines (front ++ 91 :: rest) = iniLines front ++ iniLines (91 :: rest) := Texts.pieces_append hfront _
  obtain ⟨line, hline⟩ : ∃ line, cStr (nextLine (91 :: rest)) = 91 :: line := by
    unfold nextLine Texts.firstPiece
    split_ifs <;> exact ⟨_, rfl⟩
  have hread : ∀ first named, IniLine.read first named (cStr (nextLine (91 :: rest))) = .header name :=
    fun first named => by rw [hline, read_margin (by decide) (by decide), ← hline, hopens]
  rw [iniCalls_eq, iniCalls_eq, iniCalls_eq, hlines, List.map_append, IniPlace.calls_append]
  congr 1
  generalize IniPlace.start.after ((iniLines front).map cStr) = pl
  have hnext : ∀ pl : IniPlace, pl.next (cStr (nextLine (91 :: rest))) =
      (⟨name.take (MAX_SECTION - 1), [], pl.lineno + 1⟩, .quiet) := fun pl => by
    rw [IniPlace.next, hread]
    rfl
  rw [iniLines_eq (List.cons_ne_nil _ _), List.map_cons, IniPlace.calls_cons, IniPlace.calls_cons, hnext, hnext]
  congr 1
  have halike : IniPlace.Alike ⟨name.take (MAX_SECTION - 1), [], pl.lineno + 1⟩
      ⟨name.take (MAX_SECTION - 1), [], IniPlace.start.lineno + 1⟩ := ⟨rfl, rfl⟩
  exact halike.calls (Nat.succ_pos _) (Nat.succ_pos _) _

theorem calls_concat_sample :
    iniCalls (ascii "[a]\nx = 1\n" ++ ascii "[b]\ny = 2\n") =
      iniCalls (ascii "[a]\nx = 1\n") ++ iniCalls (ascii "[b]\ny = 2\n") := by
  refine @calls_concat _ _ (ascii "b") (Or.inr ⟨ascii "[a]\nx = 1", ?_⟩) ?_ ?_
  all_goals decide +kernel

end Bnfs
