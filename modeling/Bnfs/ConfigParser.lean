import Bnfs.ConfigGrammar

/-! The parser reads what its lines say. On its arrays it makes no access outside them, whatever the line buffer held
before, and the number of its reads is bounded; what it returns and what it makes of `user` are the events of the text put
one after another to the handler. -/

namespace Bnfs

open Buffers

section Scanning

variable {line : Bytes} {p : Nat} {s : Bytes}

theorem isSpace_zero : isSpace 0 = false := by decide

theorem rstripLoop_eq (h : Holds line p s) : ∃ line', rstripLoop p s.length line = some line' ∧
    Holds line' p (s.rdropWhile isSpace) ∧ Within p (p + s.length) line line' := by
  induction s using List.reverseRecOn generalizing line with
  | nil => exact ⟨line, rfl, h, .refl _ _ _⟩
  | append_singleton s c ih =>
      have hlt := h.lt_length
      simp only [List.length_append, List.length_singleton] at hlt ⊢
      have hload : load line (p + s.length) = some c := h.suffix.load_front
      rw [rstripLoop, hload, Option.bind_some]
      by_cases hc : isSpace c = true
      · rw [if_pos hc, store_eq (by omega), Option.bind_some, List.rdropWhile_concat_pos _ _ _ hc]
        obtain ⟨line', hloop, hholds, hwithin⟩ := ih h.cut
        exact ⟨line', hloop, hholds, (Within.set (by omega) (by omega) _ _).trans
          (hwithin.mono (Nat.le_refl p) (by omega))⟩
      · rw [if_neg hc, List.rdropWhile_concat_neg _ _ _ hc]
        exact ⟨line, rfl, h, .refl _ _ _⟩

/-- `rstrip` changes nothing outside its string. -/
theorem rstrip_eq (h : Holds line p s) : ∃ line', rstrip line p = some line' ∧
    Holds line' p (s.rdropWhile isSpace) ∧ Within p (p + s.length) line line' := by
  rw [rstrip, h.strlen, Option.bind_some]
  exact rstripLoop_eq h

theorem passed_lskipNext (s : Bytes) : passed lskipNext () s = s.takeWhile isSpace := by
  induction s with
  | nil => rfl
  | cons c s ih =>
      rw [passed, lskipNext]
      by_cases hc : isSpace c = true
      · have hne : c ≠ 0 := fun heq => by
          rw [heq, isSpace_zero] at hc
          cases hc
        rw [if_pos ⟨hne, hc⟩, List.takeWhile_cons_of_pos hc]
        exact congrArg (c :: ·) ih
      · rw [if_neg fun hand => hc hand.2, List.takeWhile_cons_of_neg hc]

theorem lskip_eq (h : Holds line p s) : lskip line p = some (p + (s.takeWhile isSpace).length) := by
  have hscan := h.scan (fun _ => rfl : ∀ seen, lskipNext seen 0 = none) ()
  rw [lskip, hscan, passed_lskipNext, Option.map_some]

theorem holds_lskip (h : Holds line p s) : Holds line (p + (s.takeWhile isSpace).length) (s.dropWhile isSpace) :=
  Holds.suffix (by rwa [List.takeWhile_append_dropWhile])

theorem findNext_zero (chars : Option Bytes) (was_space : Bool) : findNext chars was_space 0 = none := by
  simp [findNext]

theorem find_eq (h : Holds line p s) (chars : Option Bytes) :
    findCharsOrComment line p chars = some (p + (before chars s).length) := by
  have hscan := h.scan (findNext_zero chars) false
  rw [findCharsOrComment, hscan, Option.map_some]
  rfl

theorem before_append_fromThere (chars : Option Bytes) (s : Bytes) : before chars s ++ fromThere chars s = s :=
  List.prefix_iff_eq_append.mp (passed_begins _ _ _)

theorem holds_before (h : Holds line p s) (chars : Option Bytes) : Holds line p (before chars s ++ fromThere chars s) := by
  rwa [before_append_fromThere]

/-- The value is cut off where its comment begins. -/
theorem cutValue_eq (h : Holds line p s) : ∃ line',
    ((load line (p + (before none s).length)).bind fun c =>
      if c ≠ 0 then store line (p + (before none s).length) 0 else some line) = some line' ∧
      Holds line' p (before none s) ∧ Within (p + (before none s).length) (p + (before none s).length + 1) line line' := by
  have hsplit := holds_before h none
  have hlt := hsplit.lt_length
  rw [List.length_append] at hlt
  rw [hsplit.suffix.load_front, Option.bind_some]
  cases hrest : fromThere none s with
  | nil =>
      rw [hrest, List.append_nil] at hsplit
      exact ⟨line, rfl, hsplit, .refl _ _ _⟩
  | cons c rest =>
      have hne : c ≠ 0 := fun heq => hsplit.noZero (by rw [hrest, heq]; simp)
      rw [List.headD_cons, if_pos hne, store_eq (by omega)]
      exact ⟨_, rfl, hsplit.cut, .set (Nat.le_refl _) (Nat.lt_succ_self _) _ _⟩

/-- Name and value stay apart: what is done to the one does not reach the other. -/
theorem splitPair_eq {name value : Bytes} {c : UInt8} (h : Holds line p (name ++ c :: value)) :
    ∃ line' q, splitPair line p (p + name.length) = some (line', q) ∧ line'.length = line.length ∧
      Holds line' p (name.rdropWhile isSpace) ∧ Holds line' q (readValue value) := by
  have hlt := h.lt_length
  simp only [List.length_append, List.length_cons] at hlt
  have hvalue : Holds line (p + name.length + 1) value := by
    have hsuffix : Holds line (p + (name ++ [c]).length) value := Holds.suffix (by rwa [List.append_assoc])
    rwa [List.length_append, List.length_singleton, ← Nat.add_assoc] at hsuffix
  have hended : Within (p + name.length) (p + name.length + 1) line (line.set (p + name.length) 0) :=
    .set (Nat.le_refl _) (Nat.lt_succ_self _) _ _
  have hvalue' := hvalue.within hended (Or.inr (Nat.le_refl _))
  obtain ⟨line₂, hstrip, hname, hwithin⟩ := rstrip_eq h.cut
  have hvalue₂ := hvalue'.within hwithin (Or.inr (by omega))
  have hle : (name.rdropWhile isSpace).length ≤ name.length := (List.rdropWhile_prefix _ _).length_le
  obtain ⟨line₃, hcut, hvalue₃, hwithin₃⟩ := cutValue_eq hvalue₂
  have hname₃ := hname.within hwithin₃ (Or.inl (by omega))
  obtain ⟨line₄, hstrip', hvalue₄, hwithin₄⟩ := rstrip_eq (holds_lskip hvalue₃)
  have hname₄ := hname₃.within hwithin₄ (Or.inl (by omega))
  rw [Texts.rdropWhile_dropWhile] at hvalue₄
  refine ⟨line₄, _, ?_, ?_, hname₄, hvalue₄⟩
  · rw [splitPair, store_eq (by omega), Option.bind_some, hstrip, Option.bind_some, find_eq hvalue₂, Option.bind_some,
      hcut, Option.bind_some, lskip_eq hvalue₃, Option.bind_some, hstrip', Option.map_some]
  · rw [hwithin₄.length, hwithin₃.length, hwithin.length, hended.length]

end Scanning

section Copying

variable {src dest : Bytes} {p : Nat} {s : Bytes}

theorem strncpy0Loop_eq (h : Holds src p s) {i n : Nat} (hi : i ≤ s.length) (hcopied : dest.take i = s.take i)
    (hsize : i + n < dest.length) : ∃ dest', strncpy0Loop src p n i dest = some dest' ∧
      Holds dest' 0 (s.take (i + n)) ∧ dest'.length = dest.length := by
  have hnoZero : ∀ i, 0 ∉ s.take i := fun i hmem => h.noZero (List.mem_of_mem_take hmem)
  induction n generalizing i dest with
  | zero =>
      rw [strncpy0Loop, store_eq (by omega)]
      exact ⟨_, rfl, holds_of_take (hnoZero i) hcopied (by omega), List.length_set⟩
  | succ n ih =>
      rw [strncpy0Loop]
      by_cases hend : i = s.length
      · have hload : load src (p + i) = some 0 := hend ▸ h.load_end
        have hall : s.take (i + (n + 1)) = s.take i := by
          rw [List.take_of_length_le (by omega), List.take_of_length_le (by omega)]
        rw [hload, Option.bind_some, if_pos rfl, store_eq (by omega), hall]
        exact ⟨_, rfl, holds_of_take (hnoZero i) hcopied (by omega), List.length_set⟩
      · have hlt : i < s.length := by omega
        have hload : load src (p + i) = some s[i] := by
          rw [load, h.getElem? hi, List.getElem?_append_left hlt, List.getElem?_eq_getElem hlt]
        have hne : s[i] ≠ 0 := fun heq => h.noZero (heq ▸ List.getElem_mem hlt)
        have hcopied' : (dest.set i s[i]).take (i + 1) = s.take (i + 1) := by
          rw [take_set_succ hcopied (by omega), List.take_append_getElem hlt]
        rw [hload, Option.bind_some, if_neg hne, store_eq (by omega), Option.bind_some]
        obtain ⟨dest', hloop, hholds, hlength⟩ := ih (i := i + 1) hlt hcopied' (by rw [List.length_set]; omega)
        refine ⟨dest', hloop, ?_, hlength.trans List.length_set⟩
        rwa [Nat.add_right_comm, Nat.add_assoc] at hholds

/-- The string, or as much of it as fits. -/
theorem strncpy0_eq (h : Holds src p s) {size : Nat} (hpos : 0 < size) (hsize : dest.length = size) :
    ∃ dest', strncpy0 dest src p size = some dest' ∧ Holds dest' 0 (s.take (size - 1)) ∧ dest'.length = size := by
  obtain ⟨dest', hloop, hholds, hlength⟩ := strncpy0Loop_eq (n := size - 1) h (Nat.zero_le _)
    (rfl : dest.take 0 = s.take 0) (by omega)
  rw [Nat.zero_add] at hholds
  exact ⟨dest', hloop, hholds, hlength.trans hsize⟩

end Copying

section Lines

variable {σ : Type} {handler : IniHandler σ} {loc : IniLocals σ} {pl : IniPlace} {acc : Int × σ}

/-- The arrays hold what the parser remembers. -/
structure Stands (loc : IniLocals σ) (pl : IniPlace) : Prop where
  line_size : loc.line.length = INI_MAX_LINE
  section_size : loc.section_name.length = MAX_SECTION
  prev_size : loc.prev_name.length = MAX_NAME
  section_name : Holds loc.section_name 0 pl.section_name
  prev_name : Holds loc.prev_name 0 pl.prev_name
  lineno : loc.lineno = pl.lineno

/-- The result is what the handler makes of an event, and the arrays stand for the place after it. -/
def Makes (handler : IniHandler σ) (acc : Int × σ) (result : Option (IniLocals σ)) (after : IniPlace × IniEvent) : Prop :=
  ∃ loc' : IniLocals σ, Stands loc' after.1 ∧ result =
    (settle handler acc (after.1.lineno, after.2)).map fun acc => { loc' with error := acc.1, user := acc.2 }

theorem Stands.makes_quiet (h : Stands loc pl) : Makes handler (loc.error, loc.user) (some loc) (pl, .quiet) :=
  ⟨loc, h, rfl⟩

theorem Stands.fail_eq (h : Stands loc pl) : loc.fail = { loc with error := firstError loc.error pl.lineno } := by
  unfold IniLocals.fail firstError
  rw [← h.lineno]
  split_ifs <;> rfl

theorem Stands.makes_malformed (h : Stands loc pl) :
    Makes handler (loc.error, loc.user) (some loc.fail) (pl, .malformed) :=
  ⟨loc, h, congrArg some h.fail_eq⟩

theorem Stands.makes_call (h : Stands loc pl) (name value : Bytes) :
    Makes handler (loc.error, loc.user) (loc.call handler name value) (pl, .call ⟨pl.section_name, name, value⟩) := by
  refine ⟨loc, h, ?_⟩
  rw [IniLocals.call, h.section_name.string, Option.bind_some, settle, Option.map_map]
  congr 1
  funext r
  have hstands : Stands { loc with user := r.2 } pl := ⟨h.1, h.2, h.3, h.4, h.5, h.6⟩
  rw [Function.comp_apply, hstands.fail_eq]
  split_ifs <;> rfl

theorem Stands.makes_more (h : Stands loc pl) {start : Nat} {value : Bytes} (hvalue : Holds loc.line start value) :
    Makes handler (loc.error, loc.user) (moreLine handler loc start) (pl.enter (.more value)) := by
  rw [moreLine, h.prev_name.string, Option.bind_some, hvalue.string, Option.bind_some]
  exact h.makes_call _ _

theorem Stands.makes_section (h : Stands loc pl) {start : Nat} {rest : Bytes}
    (hline : Holds loc.line start (91 :: rest)) :
    Makes handler (loc.error, loc.user) (sectionLine loc start) (pl.enter (readHeader rest)) := by
  have hrest : Holds loc.line (start + 1) rest := Holds.suffix (a := [91]) hline
  have hsplit := holds_before hrest (some (ascii "]"))
  have hlt := hsplit.lt_length
  rw [List.length_append] at hlt
  rw [sectionLine, find_eq hrest, Option.bind_some, hsplit.suffix.load_front, Option.bind_some, readHeader]
  generalize fromThere (some (ascii "]")) rest = back at hsplit hlt
  generalize before (some (ascii "]")) rest = name at hsplit hlt
  cases back with
  | nil =>
      rw [List.headD_nil, if_neg (by decide)]
      exact h.makes_malformed
  | cons c more =>
      rw [List.headD_cons]
      by_cases hbracket : c = 93
      · obtain ⟨section_name, hcopy, hsection, hsize⟩ :=
          strncpy0_eq hsplit.cut (by decide : 0 < MAX_SECTION) h.section_size
        have hprev : 0 < loc.prev_name.length := by
          rw [h.prev_size]
          decide
        rw [if_pos hbracket, store_eq (by omega), Option.bind_some, hcopy, Option.bind_some, store_eq hprev,
          Option.map_some]
        simp only [if_pos hbracket]
        refine ⟨⟨_, section_name, loc.prev_name.set 0 0, loc.lineno, loc.error, loc.user⟩, ?_, rfl⟩
        exact ⟨List.length_set.trans h.line_size, hsize, List.length_set.trans h.prev_size, hsection,
          holds_of_take List.not_mem_nil rfl hprev, h.lineno⟩
      · simp only [if_neg hbracket]
        exact h.makes_malformed

theorem Stands.makes_pair (h : Stands loc pl) {start : Nat} {text : Bytes} (hline : Holds loc.line start text) :
    Makes handler (loc.error, loc.user) (pairLine handler loc start) (pl.enter (readOption text)) := by
  have hsplit := holds_before hline (some (ascii "=:"))
  rw [pairLine, find_eq hline, Option.bind_some, hsplit.suffix.load_front, Option.bind_some, readOption]
  generalize fromThere (some (ascii "=:")) text = back at hsplit
  generalize before (some (ascii "=:")) text = name at hsplit
  cases back with
  | nil =>
      rw [List.headD_nil, if_neg (by decide)]
      exact h.makes_malformed
  | cons c value =>
      rw [List.headD_cons]
      by_cases hsep : c = 61 ∨ c = 58
      · obtain ⟨line, q, hpair, hsize, hname, hvalue⟩ := splitPair_eq hsplit
        obtain ⟨prev_name, hcopy, hprev, hprevSize⟩ := strncpy0_eq hname (by decide : 0 < MAX_NAME) h.prev_size
        have hstands : Stands { loc with line, prev_name }
            { pl with prev_name := (name.rdropWhile isSpace).take (MAX_NAME - 1) } :=
          ⟨hsize.trans h.line_size, h.section_size, hprevSize, h.section_name, hprev, h.lineno⟩
        rw [if_pos hsep, hpair, Option.bind_some, hcopy, Option.bind_some, hname.string, Option.bind_some,
          hvalue.string, Option.bind_some]
        simp only [if_pos hsep]
        exact hstands.makes_call _ _
      · simp only [if_neg hsep]
        exact h.makes_malformed

/-- The short-circuit reads three bytes of the line at most, and none past its end. -/
theorem atBom_eq {line text : Bytes} (h : Holds line 0 text) : atBom line = some (byteOrderMark.isPrefixOf text) := by
  rw [atBom, h.load_front, Option.bind_some]
  rcases text with _ | ⟨a, text⟩
  · rfl
  have h1 : Holds line 1 text := Holds.suffix (a := [a]) h
  rw [List.headD_cons]
  by_cases ha : a = 0xEF
  swap
  · have hne : (0xEF == a) = false := beq_false_of_ne (Ne.symm ha)
    rw [if_pos ha, byteOrderMark, List.isPrefixOf, hne, Bool.false_and]
  rw [if_neg (not_not.mpr ha), h1.load_front, Option.bind_some]
  rcases text with _ | ⟨b, text⟩
  · subst ha
    rfl
  have h2 : Holds line 2 text := Holds.suffix (a := [b]) h1
  rw [List.headD_cons]
  by_cases hb : b = 0xBB
  swap
  · have hne : (0xBB == b) = false := beq_false_of_ne (Ne.symm hb)
    rw [if_pos hb, byteOrderMark, List.isPrefixOf, List.isPrefixOf, hne, Bool.false_and, Bool.and_false]
  rw [if_neg (not_not.mpr hb), h2.load_front, Option.map_some]
  subst ha hb
  rcases text with _ | ⟨c, text⟩
  · rfl
  · simp [byteOrderMark, List.isPrefixOf, eq_comm]

/-- Where the parser looks for the line. -/
theorem holds_unmarked {line text : Bytes} (h : Holds line 0 text) (first : Bool) :
    Holds line (if marked first text then 3 else 0) (unmarked first text) := by
  unfold unmarked
  split_ifs with hmarked
  · obtain ⟨rest, rfl⟩ := List.isPrefixOf_iff_prefix.mp (Bool.and_eq_true_iff.mp hmarked).2
    exact Holds.suffix (a := byteOrderMark) h
  · exact h

/-- A line that is not blank is indented exactly if the pointer has moved. -/
theorem indented_iff (first : Bool) (text : Bytes) (h : Texts.strip isSpace (unmarked first text) ≠ []) :
    indented first text = true ↔ (if marked first text then 3 else 0) +
      (((unmarked first text).rdropWhile isSpace).takeWhile isSpace).length > 0 := by
  unfold indented
  cases marked first text with
  | true => exact iff_of_true rfl (Nat.lt_add_right _ (by decide))
  | false =>
      obtain ⟨back, hback⟩ := List.rdropWhile_prefix isSpace (unmarked first text)
      rw [Texts.strip] at h
      generalize (unmarked first text).rdropWhile isSpace = front at h hback
      cases front with
      | nil => exact absurd rfl h
      | cons c front =>
          rw [← hback]
          by_cases hc : isSpace c = true <;> simp [hc]

theorem Stands.makes_next (h : Stands loc pl) {text : Bytes} (hline : Holds loc.line 0 text) :
    Makes handler (loc.error, loc.user) (parseLine handler loc) (pl.next text) := by
  have hbom : (if loc.lineno + 1 = 1 then atBom loc.line else some false) = some (marked (pl.lineno == 0) text) := by
    rw [h.lineno, atBom_eq hline, marked]
    cases pl.lineno with
    | zero => rfl
    | succ n => rfl
  have hprev : load loc.prev_name 0 = some (pl.prev_name.headD 0) := h.prev_name.load_front
  have hnamed : pl.prev_name.headD 0 ≠ 0 ↔ pl.prev_name ≠ [] := by
    have hnoZero := h.prev_name.noZero
    cases hname : pl.prev_name with
    | nil => simp
    | cons c name =>
        rw [hname] at hnoZero
        simp only [List.mem_cons, not_or] at hnoZero
        simpa using Ne.symm hnoZero.1
  obtain ⟨line, hstrip, hstripped, hwithin⟩ := rstrip_eq (holds_unmarked hline (pl.lineno == 0))
  have hstart := holds_lskip hstripped
  have hstands : Stands { loc with lineno := loc.lineno + 1, line } { pl with lineno := pl.lineno + 1 } :=
    ⟨hwithin.length.trans h.line_size, h.section_size, h.prev_size, h.section_name, h.prev_name,
      congrArg (· + 1) h.lineno⟩
  simp only [parseLine]
  rw [hbom, Option.bind_some, hstrip, Option.bind_some, lskip_eq hstripped, Option.bind_some, hstart.load_front,
    Option.bind_some, hprev, Option.bind_some, IniPlace.next, IniLine.read]
  have hindented := indented_iff (pl.lineno == 0) text
  have htext : ((unmarked (pl.lineno == 0) text).rdropWhile isSpace).dropWhile isSpace =
    Texts.strip isSpace (unmarked (pl.lineno == 0) text) := rfl
  rw [htext] at hstart ⊢
  generalize Texts.strip isSpace (unmarked (pl.lineno == 0) text) = stripped at hstart hindented
  generalize (if marked (pl.lineno == 0) text then 3 else 0) +
    (((unmarked (pl.lineno == 0) text).rdropWhile isSpace).takeWhile isSpace).length = start at hstart hindented
  cases stripped with
  | nil => exact hstands.makes_quiet
  | cons c rest =>
      have hne : c ≠ 0 := fun heq => hstart.noZero (heq ▸ List.mem_cons_self)
      have hcomment : strchr INI_START_COMMENT_PREFIXES c = true ↔ c ∈ INI_START_COMMENT_PREFIXES := by
        simp [strchr, hne]
      have hmore : (pl.prev_name.headD 0 ≠ 0 ∧ c ≠ 0 ∧ start > 0) ↔
          (pl.prev_name != [] && indented (pl.lineno == 0) text) = true := by
        rw [hnamed, ← hindented (List.cons_ne_nil c rest), Bool.and_eq_true, bne_iff_ne]
        exact and_congr_right fun _ => and_iff_right hne
      rw [List.headD_cons]
      simp only [hcomment, hmore]
      split_ifs with h1 h2 h3
      · exact hstands.makes_quiet
      · exact hstands.makes_more hstart
      · exact hstands.makes_section (h3 ▸ hstart)
      · exact hstands.makes_pair hstart

end Lines

/-- The string in a buffer that was filled with bytes. -/
theorem holds_cStr (piece rest : Bytes) : Holds (piece ++ 0 :: rest) 0 (cStr piece) := by
  refine ⟨fun hmem => ?_, ?_⟩
  · simpa using List.mem_takeWhile_imp hmem
  · rw [List.drop_zero, cStr]
    induction piece with
    | nil => exact ⟨rest, rfl⟩
    | cons c piece ih =>
        by_cases hc : c = 0
        · exact ⟨piece ++ 0 :: rest, by rw [hc]; rfl⟩
        · obtain ⟨rest', hrest⟩ := ih
          refine ⟨rest', ?_⟩
          rw [List.takeWhile_cons, if_pos (bne_iff_ne.mpr hc), List.cons_append, hrest, List.cons_append]

/-- The line read from a text of which this is left. -/
def nextLine (text : Bytes) : Bytes := Texts.firstPiece 10 (INI_MAX_LINE - 1) text

/-- A reader gives a text line by line. `Left` says what of it a stream still has. -/
structure IniReads {S : Type} (reader : IniReader S) (Left : S → Bytes → Prop) : Prop where
  stop : ∀ {stream}, Left stream [] → ∀ line, reader line INI_MAX_LINE stream = some (false, line, stream)
  read : ∀ {stream text}, Left stream text → text ≠ [] → ∀ line : Bytes, line.length = INI_MAX_LINE →
    ∃ line' stream', reader line INI_MAX_LINE stream = some (true, line', stream') ∧
      line'.length = INI_MAX_LINE ∧ Holds line' 0 (cStr (nextLine text)) ∧
      Left stream' (text.drop (nextLine text).length)

theorem length_nextLine_le (text : Bytes) : (nextLine text).length ≤ 199 := Texts.length_firstPiece_le (by decide)

theorem fgets_reads : IniReads fgets (· = ·) where
  stop h line := by rw [fgets, if_pos (Or.inl h)]
  read := by
    rintro stream text rfl htext line hline
    have hle := length_nextLine_le stream
    have hlt : (nextLine stream).length < line.length := by
      rw [hline]
      exact Nat.lt_succ_of_le hle
    refine ⟨_, _, ?_, ?_, holds_cStr (nextLine stream) (line.drop ((nextLine stream).length + 1)), rfl⟩
    · rw [fgets, if_neg (by simp [htext, INI_MAX_LINE])]
      exact if_pos hlt
    · rw [List.length_append, List.length_cons, List.length_drop, hline]
      rw [hline] at hlt
      omega

/-- What the string of `ini_reader_string` still has, in a memory that ends with a zero. -/
def StringLeft (ctx : IniParseStringCtx) (text : Bytes) : Prop :=
  ctx.num_left = text.length ∧ ∃ rest, ctx.ptr = text ++ rest

theorem readerLoop_eq (text : Bytes) (num strp : Nat) {str front : Bytes} (hfront : str.take strp = front)
    (hroom : strp + (num + 1) < str.length) (rest : Bytes) :
    ∃ str', readerLoop (num + 2) strp str ⟨text ++ rest, text.length⟩ =
        some (strp + (Texts.firstPiece 10 (num + 1) text).length, str',
          ⟨text.drop (Texts.firstPiece 10 (num + 1) text).length ++ rest,
            (text.drop (Texts.firstPiece 10 (num + 1) text).length).length⟩) ∧
      str'.length = str.length ∧
      str'.take (strp + (Texts.firstPiece 10 (num + 1) text).length) = front ++ Texts.firstPiece 10 (num + 1) text := by
  induction text generalizing num strp str front with
  | nil => exact ⟨str, rfl, rfl, hfront.trans (List.append_nil front).symm⟩
  | cons c text ih =>
      have hput := take_set_succ hfront (by omega) c
      rw [List.length_cons, List.cons_append, readerLoop, store_eq (by omega), Option.bind_some, Texts.firstPiece]
      by_cases hc : c = 10
      · rw [if_pos hc, if_pos (Or.inl hc)]
        exact ⟨_, rfl, List.length_set, hput⟩
      rw [if_neg hc]
      cases num with
      | zero =>
          rw [if_pos (Or.inr (Nat.le_refl 1))]
          exact ⟨_, rfl, List.length_set, hput⟩
      | succ num =>
          rw [if_neg (not_or.mpr ⟨hc, by omega⟩), Nat.add_sub_cancel]
          obtain ⟨str', hloop, hlength, htake⟩ := ih num (strp + 1) hput (by rw [List.length_set]; omega)
          refine ⟨str', ?_, hlength.trans List.length_set, ?_⟩
          · rw [hloop, List.length_cons, List.drop_succ_cons, Nat.add_assoc, Nat.add_comm 1]
          · rw [List.length_cons, ← Nat.add_assoc, Nat.add_right_comm, htake, List.append_assoc, List.singleton_append]

theorem iniReaderString_reads : IniReads iniReaderString StringLeft where
  stop h line := if_pos (Or.inl h.1)
  read := by
    rintro ⟨ptr, num_left⟩ text ⟨rfl, rest, rfl⟩ htext line hline
    have hnum : ¬ (text.length = 0 ∨ INI_MAX_LINE < 2) := by simp [htext, INI_MAX_LINE]
    obtain ⟨str', hloop, hlength, htake⟩ := readerLoop_eq text 198 0 (rfl : line.take 0 = [])
      (by rw [hline]; decide) rest
    have hle := length_nextLine_le text
    have hlt : 0 + (nextLine text).length < str'.length := by
      rw [hlength, hline, INI_MAX_LINE]
      omega
    refine ⟨str'.set (0 + (nextLine text).length) 0, ⟨text.drop (nextLine text).length ++ rest, _⟩, ?_, ?_, ?_,
      rfl, rest, rfl⟩
    · rw [iniReaderString, if_neg hnum]
      change ((readerLoop (198 + 2) 0 line _).bind _) = _
      rw [hloop, Option.bind_some]
      exact congrArg (Option.map _) (store_eq hlt 0)
    · rw [List.length_set, hlength, hline]
    · rw [List.set_eq_take_append_cons_drop, if_pos hlt]
      have hfront : str'.take (0 + (nextLine text).length) = nextLine text := htake
      rw [hfront]
      exact holds_cStr _ _

/-! ### The whole text -/

section Parser

variable {σ S : Type} (handler : IniHandler σ) {reader : IniReader S} {Left : S → Bytes → Prop}

theorem iniLines_eq {text : Bytes} (h : text ≠ []) :
    iniLines text = nextLine text :: iniLines (text.drop (nextLine text).length) := Texts.pieces_eq h

theorem parseLoop_eq (hreads : IniReads reader Left) {n : Nat} {stream : S} {text : Bytes} (hleft : Left stream text)
    (hn : text.length < n) {loc : IniLocals σ} {pl : IniPlace} (hstands : Stands loc pl) :
    (parseLoop handler reader n loc stream).map (fun loc => (loc.error, loc.user)) =
      (pl.events ((iniLines text).map cStr)).foldlM (settle handler) (loc.error, loc.user) := by
  induction n generalizing stream text loc pl with
  | zero => exact absurd hn (Nat.not_lt_zero _)
  | succ n ih =>
      rw [parseLoop]
      by_cases htext : text = []
      · subst htext
        rw [hreads.stop hleft]
        rfl
      · obtain ⟨line, stream', hread, hsize, hholds, hleft'⟩ := hreads.read hleft htext loc.line hstands.line_size
        have hline : Stands { loc with line } pl :=
          ⟨hsize, hstands.section_size, hstands.prev_size, hstands.section_name, hstands.prev_name, hstands.lineno⟩
        obtain ⟨loc', hstands', hparse⟩ : Makes handler _ _ _ := hline.makes_next hholds
        have hshort := Texts.length_drop_firstPiece_lt 10 (INI_MAX_LINE - 1) htext
        rw [hread, Option.bind_some, if_pos rfl, hparse, iniLines_eq htext, List.map_cons, IniPlace.events,
          List.foldlM_cons, IniPlace.next_lineno]
        cases settle handler (loc.error, loc.user) (pl.lineno + 1, (pl.next (cStr (nextLine text))).2) with
        | none => rfl
        | some acc =>
            have hstands'' : Stands { loc' with error := acc.1, user := acc.2 } (pl.next (cStr (nextLine text))).1 :=
              ⟨hstands'.1, hstands'.2, hstands'.3, hstands'.4, hstands'.5, hstands'.6⟩
            exact ih hleft' (by exact Nat.lt_of_lt_of_le hshort (Nat.le_of_lt_succ hn)) hstands''

/-- The arrays at the beginning. -/
theorem stands_start {line : Bytes} (hline : line.length = INI_MAX_LINE) (user : σ) :
    Stands ⟨line, List.replicate MAX_SECTION 0, List.replicate MAX_NAME 0, 0, 0, user⟩ IniPlace.start :=
  ⟨hline, rfl, rfl, ⟨List.not_mem_nil, List.replicate 49 0, rfl⟩, ⟨List.not_mem_nil, List.replicate 49 0, rfl⟩, rfl⟩

theorem iniParseStream_eq (hreads : IniReads reader Left) {n : Nat} {stream : S} {text : Bytes}
    (hleft : Left stream text) (hn : text.length < n) {line : Bytes} (hline : line.length = INI_MAX_LINE) (user : σ) :
    iniParseStream handler reader line n stream user = (meaning text).foldlM (settle handler) (0, user) :=
  parseLoop_eq handler hreads hleft hn (stands_start hline user)

theorem iniParseFile_eq {line : Bytes} (hline : line.length = INI_MAX_LINE) (file : Bytes) (user : σ) :
    iniParseFile handler line file user = (meaning file).foldlM (settle handler) (0, user) :=
  iniParseStream_eq handler fgets_reads rfl (Nat.lt_succ_self _) hline user

theorem iniParseString_eq {line : Bytes} (hline : line.length = INI_MAX_LINE) (text : CString) (user : σ) :
    iniParseString handler line text user = (meaning text.bytes).foldlM (settle handler) (0, user) :=
  iniParseStream_eq handler iniReaderString_reads ⟨rfl, [0], rfl⟩ (Nat.lt_succ_self _) hline user

/-- The parser on its arrays reads a file line by line. It leaves no array and loops on no file, and faults only where
the handler does; what `line` holds at first makes no difference, nor does it whether the text is a file or a string. -/
theorem parsers_follow_lines {line line' : Bytes} (hline : line.length = INI_MAX_LINE)
    (hline' : line'.length = INI_MAX_LINE) (user : σ) :
    (∀ file, iniParseFile handler line file user = (meaning file).foldlM (settle handler) (0, user)) ∧
    ∀ text : CString, iniParseString handler line' text user = iniParseFile handler line text.bytes user :=
  ⟨fun file => iniParseFile_eq handler hline file user, fun text =>
    (iniParseString_eq handler hline' text user).trans (iniParseFile_eq handler hline text.bytes user).symm⟩

end Parser

/-- A handler that keeps the values, and takes an empty one for an error. -/
def sampleHandler : IniHandler (List Bytes) := fun user _ _ value =>
  some (if value = [] then 0 else 1, user ++ [value])

theorem parsers_follow_lines_sample :
    iniParseFile sampleHandler (List.replicate 200 77) (ascii "a = 1\n[s]\nb = ; 2\n  3\n") [] =
      some (3, [ascii "1", [], ascii "3"]) := by
  have hline : (List.replicate 200 (77 : UInt8)).length = INI_MAX_LINE := List.length_replicate
  have hfile := (parsers_follow_lines sampleHandler hline hline []).1
    (ascii "a = 1\n[s]\nb = ; 2\n  3\n")
  refine hfile.trans ?_
  decide +kernel

end Bnfs
