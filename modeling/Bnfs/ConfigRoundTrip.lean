import Bnfs.ConfigLayout
import Bnfs.TheoryStream

/-! A configuration can be written down and read back. The layout is that of the manual page: a section for each entry,
and an option a line. -/

namespace Bnfs

open Buffers

/-- A number as `atoi` reads it. -/
def decimal (n : Nat) : Bytes := Streams.OStream.numeral (fun d => UInt8.ofNat (48 + d)) 10 n

def optionLine (key value : Bytes) : Bytes := key ++ 32 :: 61 :: 32 :: value

def sectionHeader (type : ErrinjType) : Bytes := 91 :: (type.errinjName ++ [93])

/-- The options of an entry. -/
def entryOptions (err : ErrinjConf) : List (Bytes × Bytes) :=
  (err.path_regexp.toList.map fun value => (ascii "path_regexp", value)) ++
    (err.op_regexp.toList.map fun value => (ascii "op_regexp", value)) ++
    [(ascii "probability", decimal err.probability), (ascii "duration", decimal err.duration)]

def entryLines (err : ErrinjConf) : List Bytes :=
  sectionHeader err.type :: (entryOptions err).map fun option => optionLine option.1 option.2

/-- The file of a configuration. -/
def renderConfig (cfg : List ErrinjConf) : Bytes := ((cfg.flatMap entryLines).map (· ++ [10])).flatten

/-- A value that the line of its key can hold. -/
structure Writable (key value : Bytes) : Prop where
  noNul : 0 ∉ value
  newline : 10 ∉ value
  stripped : Texts.strip isSpace value = value
  noComment : before none (32 :: value) = 32 :: value
  length : (optionLine key value).length < INI_MAX_LINE - 1

/-- The strings fit their lines, and the numbers are of `unsigned int`. -/
structure WritableConf (err : ErrinjConf) : Prop where
  path_regexp : ∀ value ∈ err.path_regexp, Writable (ascii "path_regexp") value
  op_regexp : ∀ value ∈ err.op_regexp, Writable (ascii "op_regexp") value
  probability : err.probability < 2 ^ 32
  duration : err.duration < 2 ^ 32

theorem leadingNumber_map {digits : List Nat} (h : ∀ d ∈ digits, d < 10) :
    leadingNumber (digits.reverse.map fun d => UInt8.ofNat (48 + d)) = ((Nat.ofDigits 10 digits : Nat) : Int) := by
  have hall : ∀ b ∈ digits.reverse.map fun d => UInt8.ofNat (48 + d), isDigit b = true := by
    intro b hb
    obtain ⟨d, hd, rfl⟩ := List.mem_map.mp hb
    have hlt := h d (List.mem_reverse.mp hd)
    interval_cases d <;> decide
  rw [leadingNumber, List.takeWhile_eq_self_iff.mpr hall, List.foldl_map, List.foldl_reverse]
  clear hall
  induction digits with
  | nil => rfl
  | cons d digits ih =>
      have hd : d < 10 := h d List.mem_cons_self
      have hbyte : ((UInt8.ofNat (48 + d)).toNat : Int) - 48 = d := by
        interval_cases d <;> decide
      rw [List.foldr_cons, ih fun e he => h e (List.mem_cons_of_mem _ he), hbyte, Nat.ofDigits_cons]
      push_cast
      omega

theorem mem_decimal {n : Nat} {b : UInt8} (h : b ∈ decimal n) : 48 ≤ b ∧ b ≤ 57 := by
  have hbyte : ∀ d, d < 10 → 48 ≤ UInt8.ofNat (48 + d) ∧ UInt8.ofNat (48 + d) ≤ 57 := fun d hd => by
    interval_cases d <;> decide
  unfold decimal Streams.OStream.numeral at h
  split_ifs at h
  · rw [List.mem_singleton.mp h]
    decide
  · obtain ⟨d, hd, rfl⟩ := List.mem_map.mp h
    exact hbyte d (Nat.digits_lt_base (by decide) (List.mem_reverse.mp hd))

theorem decimal_ne_nil (n : Nat) : decimal n ≠ [] := by
  unfold decimal Streams.OStream.numeral
  split_ifs with h
  · exact List.cons_ne_nil _ _
  · simpa [Nat.digits_eq_nil_iff_eq_zero] using h

theorem length_decimal_le {n : Nat} (h : n < 2 ^ 32) : (decimal n).length ≤ 10 := by
  unfold decimal Streams.OStream.numeral
  split_ifs
  · exact Nat.succ_le_of_lt (by decide)
  · rw [List.length_map, List.length_reverse, Nat.digits_length_le_iff (by decide)]
    omega

theorem leadingNumber_decimal (n : Nat) : leadingNumber (decimal n) = n := by
  unfold decimal Streams.OStream.numeral
  split_ifs with h
  · subst h
    decide
  · rw [leadingNumber_map fun d hd => Nat.digits_lt_base (by decide) hd, Nat.ofDigits_digits]

theorem digit_facts {b : UInt8} (h : 48 ≤ b ∧ b ≤ 57) : isSpace b = false ∧ b ≠ 0 ∧ b ≠ 59 ∧ b ≠ 45 ∧ b ≠ 43 := by
  obtain ⟨hlow, hhigh⟩ := h
  rw [UInt8.le_iff_toNat_le] at hlow hhigh
  have hne : ∀ c : UInt8, c.toNat < 48 ∨ 57 < c.toNat → b ≠ c := fun c hc heq => by
    rw [heq] at hlow hhigh
    have h48 : (48 : UInt8).toNat = 48 := rfl
    have h57 : (57 : UInt8).toNat = 57 := rfl
    omega
  refine ⟨?_, hne 0 (by decide), hne 59 (by decide), hne 45 (by decide), hne 43 (by decide)⟩
  have h32 : b ≠ 32 := hne 32 (by decide)
  have h13 : ¬ b ≤ 13 := fun hle => by
    rw [UInt8.le_iff_toNat_le] at hle
    have h48 : (48 : UInt8).toNat = 48 := rfl
    have h13 : (13 : UInt8).toNat = 13 := rfl
    omega
  simp [isSpace, h32, h13]

/-- `atoi` reads back what was written. -/
theorem toUnsigned_atoi_decimal {n : Nat} (h : n < 2 ^ 32) : toUnsigned (atoi (decimal n)) = n := by
  obtain ⟨b, rest, hcons⟩ := List.exists_cons_of_ne_nil (decimal_ne_nil n)
  obtain ⟨hspace, _, _, hminus, hplus⟩ := digit_facts (mem_decimal (n := n) (b := b) (hcons ▸ List.mem_cons_self))
  have hsign : signedNumber (decimal n) = leadingNumber (decimal n) := by
    rw [signedNumber, hcons, List.dropWhile_cons_of_neg (by rw [hspace]; decide)]
    split
    · exact absurd (List.cons.inj ‹_›).1 hminus
    · exact absurd (List.cons.inj ‹_›).1 hplus
    · rfl
  exact toUnsigned_atoi_of_lt (hsign.trans (leadingNumber_decimal n)) h

/-- Nothing in the text ends a search. -/
theorem passed_eq_self {chars : Option Bytes} {text : Bytes}
    (h : ∀ c ∈ text, c ≠ 0 ∧ c ≠ 59 ∧ chars.any (strchr · c) = false) (was_space : Bool) :
    passed (findNext chars) was_space text = text := by
  induction text generalizing was_space with
  | nil => rfl
  | cons c text ih =>
      obtain ⟨hzero, hcomment, hchars⟩ := h c List.mem_cons_self
      have hsemi : strchr INI_INLINE_COMMENT_PREFIXES c = false := by
        simp [strchr, hzero, INI_INLINE_COMMENT_PREFIXES, ascii, hcomment]
      have hnext : findNext chars was_space c = some (isSpace c) := by simp [findNext, hzero, hchars, hsemi]
      rw [passed, hnext]
      exact congrArg (c :: ·) (ih (fun d hd => h d (List.mem_cons_of_mem _ hd)) _)

theorem strip_eq_self {text : Bytes} (h : ∀ c ∈ text, isSpace c = false) : Texts.strip isSpace text = text := by
  have hlast : text.rdropWhile isSpace = text := List.rdropWhile_eq_self_iff.mpr fun hne => by
    rw [h _ (List.getLast_mem hne)]
    decide
  rw [Texts.strip, hlast]
  cases text with
  | nil => rfl
  | cons c text => exact List.dropWhile_cons_of_neg (by rw [h c List.mem_cons_self]; decide)

/-- A key without blanks and without what ends a name. -/
structure PlainKey (key : Bytes) : Prop where
  nonempty : key ≠ []
  plain : ∀ c ∈ key, isSpace c = false ∧ c ≠ 0 ∧ c ≠ 59 ∧ c ≠ 61 ∧ c ≠ 58 ∧ c ≠ 35 ∧ c ≠ 91 ∧ c ≠ 0xEF
  length : key.length ≤ 11

theorem writable_decimal {key : Bytes} (hkey : PlainKey key) {n : Nat} (h : n < 2 ^ 32) :
    Writable key (decimal n) := by
  have hdigit : ∀ b ∈ decimal n, isSpace b = false ∧ b ≠ 0 ∧ b ≠ 59 ∧ b ≠ 45 ∧ b ≠ 43 := fun b hb =>
    digit_facts (mem_decimal hb)
  refine ⟨fun hmem => (hdigit 0 hmem).2.1 rfl, fun hmem => ?_, strip_eq_self fun b hb => (hdigit b hb).1, ?_, ?_⟩
  · have hspace := (hdigit 10 hmem).1
    cases hspace
  · refine passed_eq_self (fun c hc => ?_) false
    rcases List.mem_cons.mp hc with rfl | hc
    · decide
    · exact ⟨(hdigit c hc).2.1, (hdigit c hc).2.2.1, rfl⟩
  · have hkeyLength := hkey.length
    have hnumberLength := length_decimal_le h
    simp only [optionLine, List.length_append, List.length_cons, INI_MAX_LINE]
    omega

theorem readOption_optionLine {key value : Bytes} (hkey : PlainKey key) (hvalue : Writable key value) :
    readOption (key ++ 32 :: 61 :: (32 :: value).rdropWhile isSpace) = .option key value := by
  have hname : before (some (ascii "=:")) (key ++ [32]) = key ++ [32] := by
    refine passed_eq_self (fun c hc => ?_) false
    rcases List.mem_append.mp hc with hc | hc
    · obtain ⟨_, hzero, hsemi, heq, hcolon, _⟩ := hkey.plain c hc
      exact ⟨hzero, hsemi, by simp [strchr, ascii, hzero, heq, hcolon]⟩
    · rw [List.mem_singleton.mp hc]
      decide
  obtain ⟨seen, hseen⟩ := passed_append_of_eq hname
  have hsplit : key ++ 32 :: 61 :: (32 :: value).rdropWhile isSpace =
      (key ++ [32]) ++ 61 :: (32 :: value).rdropWhile isSpace := by simp
  have hbefore : before (some (ascii "=:")) ((key ++ [32]) ++ 61 :: (32 :: value).rdropWhile isSpace) = key ++ [32] := by
    have hstop : findNext (some (ascii "=:")) seen 61 = none := by simp [findNext, strchr, ascii]
    rw [before, hseen, passed, hstop, List.append_nil]
  have hstripped : (key ++ [32]).rdropWhile isSpace = key := by
    rw [List.rdropWhile_concat_pos _ _ _ (by decide)]
    refine List.rdropWhile_eq_self_iff.mpr fun hne => ?_
    rw [(hkey.plain _ (List.getLast_mem hne)).1]
    decide
  have hread : readValue ((32 :: value).rdropWhile isSpace) = value := by
    obtain ⟨back, hback⟩ := List.rdropWhile_prefix isSpace (32 :: value)
    have hnoComment : before none ((32 :: value).rdropWhile isSpace ++ back) =
        (32 :: value).rdropWhile isSpace ++ back := by rw [hback, hvalue.noComment]
    have hcomm := Texts.rdropWhile_dropWhile isSpace (32 :: value)
    rw [List.dropWhile_cons_of_pos (by decide), Texts.rdropWhile_dropWhile, hvalue.stripped] at hcomm
    rw [readValue, before, passed_of_append hnoComment, Texts.strip, List.rdropWhile_idempotent]
    exact hcomm.symm
  rw [hsplit, readOption, fromThere, hbefore, List.drop_left]
  simp only [hstripped, hread, true_or, if_true]

theorem read_optionLine {key value : Bytes} (hkey : PlainKey key) (hvalue : Writable key value) (first named : Bool) :
    IniLine.read first named (optionLine key value) = .option key value := by
  obtain ⟨c, rest, rfl⟩ := List.exists_cons_of_ne_nil hkey.nonempty
  obtain ⟨hspace, _, hsemi, _, _, hhash, hbracket, hmark⟩ := hkey.plain c List.mem_cons_self
  have hline : optionLine (c :: rest) value = ((c :: rest) ++ [32]) ++ 61 :: (32 :: value) := by simp [optionLine]
  have hdrop : ((c :: rest) ++ [32]).dropWhile isSpace = (c :: rest) ++ [32] :=
    List.dropWhile_cons_of_neg (by rw [hspace]; decide)
  have hstrip : Texts.strip isSpace (optionLine (c :: rest) value) =
      c :: (rest ++ 32 :: 61 :: (32 :: value).rdropWhile isSpace) := by
    rw [hline, Texts.strip_append_cons (by decide), hdrop]
    simp
  have hcomment : c ∉ INI_START_COMMENT_PREFIXES := by
    simp [INI_START_COMMENT_PREFIXES, ascii, hsemi, hhash]
  have hunmarked : unmarked false (optionLine (c :: rest) value) = optionLine (c :: rest) value := rfl
  have hmargin : IniLine.read first named (optionLine (c :: rest) value) =
      IniLine.read false false (optionLine (c :: rest) value) := read_margin hspace hmark _ first named
  rw [hmargin, IniLine.read, hunmarked, hstrip]
  dsimp only
  rw [if_neg hcomment, Bool.false_and, if_neg Bool.false_ne_true, if_neg hbracket]
  exact readOption_optionLine hkey hvalue

theorem read_sectionHeader (type : ErrinjType) (first named : Bool) :
    IniLine.read first named (sectionHeader type) = .header type.errinjName := by
  have hmargin : IniLine.read first named (sectionHeader type) = IniLine.read false false (sectionHeader type) :=
    read_margin (by decide) (by decide) _ first named
  rw [hmargin]
  cases type <;> decide

/-- A line of a file that is written as it is. -/
structure PlainLine (line : Bytes) : Prop where
  noNul : 0 ∉ line
  newline : 10 ∉ line
  length : line.length < INI_MAX_LINE - 1

theorem plainLine_sectionHeader (type : ErrinjType) : PlainLine (sectionHeader type) := by
  cases type <;> exact ⟨by decide +kernel, by decide, by decide +kernel⟩

theorem plainLine_optionLine {key value : Bytes} (hkey : PlainKey key) (hvalue : Writable key value) :
    PlainLine (optionLine key value) where
  noNul := by
    have hnul : 0 ∉ key := fun hmem => (hkey.plain 0 hmem).2.1 rfl
    simp [optionLine, hnul, hvalue.noNul]
  newline := by
    have hnewline : 10 ∉ key := fun hmem => by
      have hspace := (hkey.plain 10 hmem).1
      cases hspace
    simp [optionLine, hnewline, hvalue.newline]
  length := hvalue.length

theorem PlainLine.read {line : Bytes} (h : PlainLine line) (first named : Bool) :
    IniLine.read first named (cStr (line ++ [10])) = IniLine.read first named line := by
  rw [cStr_of_noNul (by simp [h.noNul]), readAlike_append (by decide +kernel)]

theorem plainKey_of_mem {key : Bytes} (h : key ∈ knownOptions) : PlainKey key := by
  have hall : ∀ key ∈ knownOptions, key ≠ [] ∧ (∀ c ∈ key, isSpace c = false ∧ c ≠ 0 ∧ c ≠ 59 ∧ c ≠ 61 ∧ c ≠ 58 ∧
      c ≠ 35 ∧ c ≠ 91 ∧ c ≠ 0xEF) ∧ key.length ≤ 11 := by decide +kernel
  exact ⟨(hall key h).1, (hall key h).2.1, (hall key h).2.2⟩

theorem entryOptions_plain {err : ErrinjConf} (h : WritableConf err) {option : Bytes × Bytes}
    (hmem : option ∈ entryOptions err) : option.1 ∈ knownOptions ∧ Writable option.1 option.2 := by
  simp only [entryOptions, List.mem_append, List.mem_map, Option.mem_toList, List.mem_cons, List.not_mem_nil,
    or_false] at hmem
  rcases hmem with (⟨value, hvalue, rfl⟩ | ⟨value, hvalue, rfl⟩) | rfl | rfl
  · exact ⟨by simp [knownOptions], h.path_regexp value hvalue⟩
  · exact ⟨by simp [knownOptions], h.op_regexp value hvalue⟩
  · exact ⟨by simp [knownOptions], writable_decimal (plainKey_of_mem (by simp [knownOptions])) h.probability⟩
  · exact ⟨by simp [knownOptions], writable_decimal (plainKey_of_mem (by simp [knownOptions])) h.duration⟩

theorem plainLine_of_mem {cfg : List ErrinjConf} (h : ∀ err ∈ cfg, WritableConf err) {line : Bytes}
    (hmem : line ∈ cfg.flatMap entryLines) : PlainLine line := by
  obtain ⟨err, herr, hline⟩ := List.mem_flatMap.mp hmem
  rcases List.mem_cons.mp hline with rfl | hline
  · exact plainLine_sectionHeader err.type
  · obtain ⟨option, hoption, rfl⟩ := List.mem_map.mp hline
    obtain ⟨hkey, hvalue⟩ := entryOptions_plain (h err herr) hoption
    exact plainLine_optionLine (plainKey_of_mem hkey) hvalue

/-- The lines as the parser gets them. -/
def asRead (lines : List Bytes) : List Bytes := (lines.map (· ++ [10])).map cStr

/-- The call of an option of an entry. -/
def entryCall (err : ErrinjConf) (option : Bytes × Bytes) : IniCall :=
  ⟨err.type.errinjName, option.1, option.2⟩

def entryEvents (err : ErrinjConf) : List IniEvent :=
  .quiet :: (entryOptions err).map fun option => .call (entryCall err option)

theorem events_options {options : List (Bytes × Bytes)} (h : ∀ option ∈ options, PlainKey option.1 ∧ Writable option.1 option.2)
    (pl : IniPlace) :
    (pl.events (asRead (options.map fun option => optionLine option.1 option.2))).map Prod.snd =
      options.map fun option => .call ⟨pl.section_name, option.1, option.2⟩ := by
  induction options generalizing pl with
  | nil => rfl
  | cons option rest ih =>
      obtain ⟨hkey, hvalue⟩ := h option List.mem_cons_self
      have hnext : pl.next (cStr (optionLine option.1 option.2 ++ [10])) =
          (⟨pl.section_name, option.1.take (MAX_NAME - 1), pl.lineno + 1⟩,
            .call ⟨pl.section_name, option.1, option.2⟩) := by
        rw [IniPlace.next, (plainLine_optionLine hkey hvalue).read, read_optionLine hkey hvalue]
        rfl
      have hrest := ih (fun o ho => h o (List.mem_cons_of_mem _ ho))
        ⟨pl.section_name, option.1.take (MAX_NAME - 1), pl.lineno + 1⟩
      rw [asRead, List.map_cons, List.map_cons, List.map_cons, IniPlace.events, hnext, List.map_cons, List.map_cons]
      exact congrArg _ hrest

theorem events_entry {err : ErrinjConf} (h : WritableConf err) (pl : IniPlace) :
    (pl.events (asRead (entryLines err))).map Prod.snd = entryEvents err := by
  have hnext : pl.next (cStr (sectionHeader err.type ++ [10])) =
      (⟨err.type.errinjName.take (MAX_SECTION - 1), [], pl.lineno + 1⟩, .quiet) := by
    rw [IniPlace.next, (plainLine_sectionHeader err.type).read, read_sectionHeader]
    rfl
  have hname : err.type.errinjName.take (MAX_SECTION - 1) = err.type.errinjName := by
    cases err.type <;> rfl
  rw [hname] at hnext
  have hoptions := events_options (fun o ho => (entryOptions_plain h ho).imp_left plainKey_of_mem)
    ⟨err.type.errinjName, [], pl.lineno + 1⟩
  rw [asRead, entryLines, List.map_cons, List.map_cons, IniPlace.events, hnext, List.map_cons]
  exact congrArg _ hoptions

theorem events_config {cfg : List ErrinjConf} (h : ∀ err ∈ cfg, WritableConf err) (pl : IniPlace) :
    (pl.events (asRead (cfg.flatMap entryLines))).map Prod.snd = cfg.flatMap entryEvents := by
  induction cfg generalizing pl with
  | nil => rfl
  | cons err rest ih =>
      have happend : asRead (entryLines err ++ rest.flatMap entryLines) =
          asRead (entryLines err) ++ asRead (rest.flatMap entryLines) := by
        rw [asRead, List.map_append, List.map_append]
        rfl
      rw [List.flatMap_cons, happend, IniPlace.events_append, List.map_append, events_entry (h err List.mem_cons_self),
        ih fun e he => h e (List.mem_cons_of_mem _ he), List.flatMap_cons]

theorem meaning_renderConfig {cfg : List ErrinjConf} (h : ∀ err ∈ cfg, WritableConf err) :
    (meaning (renderConfig cfg)).map Prod.snd = cfg.flatMap entryEvents := by
  have hlines : iniLines (renderConfig cfg) = (cfg.flatMap entryLines).map (· ++ [10]) := by
    have hplain : ∀ line ∈ cfg.flatMap entryLines, 10 ∉ line ∧ line.length < INI_MAX_LINE - 1 := fun line hline =>
      ⟨(plainLine_of_mem h hline).newline, (plainLine_of_mem h hline).length⟩
    have hpieces := Texts.pieces_flatten hplain []
    rwa [List.append_nil, Texts.pieces_nil, List.append_nil] at hpieces
  rw [meaning, hlines]
  exact events_config h IniPlace.start

/-- No line of the file is rejected. -/
theorem find?_rejected {cfg : List ErrinjConf} (h : ∀ err ∈ cfg, WritableConf err) :
    (meaning (renderConfig cfg)).find? rejected = none := by
  refine List.find?_eq_none.mpr fun event hevent => ?_
  have hmem : event.2 ∈ cfg.flatMap entryEvents := meaning_renderConfig h ▸ List.mem_map_of_mem hevent
  obtain ⟨err, herr, hentry⟩ := List.mem_flatMap.mp hmem
  obtain ⟨n, event⟩ := event
  rcases List.mem_cons.mp hentry with heq | hcall
  · cases heq
    exact Bool.false_ne_true
  · obtain ⟨option, hoption, heq⟩ := List.mem_map.mp hcall
    cases heq
    have hknown := (entryOptions_plain (h err herr) hoption).1
    simp [rejected, entryCall, hknown]

theorem iniCalls_renderConfig {cfg : List ErrinjConf} (h : ∀ err ∈ cfg, WritableConf err) :
    iniCalls (renderConfig cfg) = cfg.flatMap fun err => (entryOptions err).map (entryCall err) := by
  have hsnd : iniCalls (renderConfig cfg) = ((meaning (renderConfig cfg)).map Prod.snd).filterMap IniEvent.call? := by
    rw [List.filterMap_map]
    rfl
  rw [hsnd, meaning_renderConfig h, List.filterMap_flatMap]
  congr 1
  funext err
  rw [entryEvents, List.filterMap_cons, List.filterMap_map, ← List.filterMap_eq_map']
  rfl

/-- An option set, by its key. -/
theorem change_entryCall (err e : ErrinjConf) {key value : Bytes} (hkey : key ∈ knownOptions) (hvalue : 0 ∉ value) :
    configTable.change (err.type, confCall (entryCall err (key, value))) e =
      if key = ascii "path_regexp" then { e with path_regexp := some value }
      else if key = ascii "op_regexp" then { e with op_regexp := some value }
      else if key = ascii "probability" then { e with probability := toUnsigned (atoi value) }
      else { e with duration := toUnsigned (atoi value) } := by
  have hkeyBytes : (confCall (entryCall err (key, value))).key.bytes = key :=
    cStr_of_noNul fun hmem => ((plainKey_of_mem hkey).plain 0 hmem).2.1 rfl
  have hvalueBytes : (confCall (entryCall err (key, value))).value.bytes = value := cStr_of_noNul hvalue
  have hcopy : (⟨true, true⟩ : Allocs).copy (confCall (entryCall err (key, value))).value = some value :=
    congrArg some hvalueBytes
  simp only [knownOptions, List.mem_cons, List.not_mem_nil, or_false] at hkey
  change (setOption _ _ _ _).2 = _
  rw [setOption, hkeyBytes, hvalueBytes, hcopy]
  split_ifs with h1 h2 h3 h4
  · rfl
  · rfl
  · rfl
  · rfl
  · exact absurd hkey (by simp [h1, h2, h3, h4])

/-- The calls of an entry, with its type. -/
def entryCalls (err : ErrinjConf) : List (ErrinjType × ConfCall) :=
  (entryOptions err).map fun option => (err.type, confCall (entryCall err option))

/-- The options of an entry make it of a new one. -/
theorem foldl_entryCalls {err : ErrinjConf} (h : WritableConf err) :
    (entryCalls err).foldl (fun e call => configTable.change call e) (.zeroed err.type) = err := by
  have hset := fun (e : ErrinjConf) {key value : Bytes} (hmem : (key, value) ∈ entryOptions err) =>
    change_entryCall err e (entryOptions_plain h hmem).1 (entryOptions_plain h hmem).2.noNul
  have hprobability := toUnsigned_atoi_decimal h.probability
  have hduration := toUnsigned_atoi_decimal h.duration
  obtain ⟨op_regexp, path_regexp, probability, duration, type⟩ := err
  rw [entryCalls, List.foldl_map]
  cases path_regexp <;> cases op_regexp <;>
    simp [entryOptions, hset, ErrinjConf.zeroed, hprobability, hduration, ascii]

theorem knownCalls_renderConfig {cfg : List ErrinjConf} (h : ∀ err ∈ cfg, WritableConf err) :
    knownCalls (fileCalls (renderConfig cfg)) = cfg.flatMap entryCalls := by
  rw [fileCalls, iniCalls_renderConfig h, knownCalls, List.filterMap_map, List.filterMap_flatMap]
  congr 1
  funext err
  have hname : cStr err.type.errinjName = err.type.errinjName := by
    cases err.type <;> decide
  have hknown : ∀ option, errinjTypeByName (confCall (entryCall err option)).section_name.bytes = some err.type :=
    fun _ => errinjTypeByName_iff.mpr hname.symm
  rw [entryCalls, List.filterMap_map, ← List.filterMap_eq_map']
  refine List.filterMap_congr fun option _ => ?_
  simp only [Function.comp_apply, hknown, Option.map_some]

/-- The entries come one behind the other. -/
theorem foldl_entries {cfg : List ErrinjConf} (h : ∀ err ∈ cfg, WritableConf err) {front : List ErrinjConf}
    (hnodup : ((front ++ cfg).map (·.type)).Nodup) :
    (cfg.flatMap entryCalls).foldl (fun entries call => configTable.step call entries) front = front ++ cfg := by
  induction cfg generalizing front with
  | nil => exact (List.append_nil front).symm
  | cons err rest ih =>
      have herr := h err List.mem_cons_self
      have hnew : ∀ entry ∈ front, configTable.keyOf entry ≠ err.type := by
        intro entry hentry
        rw [List.map_append, List.nodup_append'] at hnodup
        exact fun heq => hnodup.2.2 (List.mem_map_of_mem hentry) (by
          change entry.type = err.type at heq
          rw [heq]
          exact List.mem_cons_self)
      have htarget : ∀ call ∈ entryCalls err, configTable.target call = err.type := by
        intro call hcall
        obtain ⟨option, _, rfl⟩ := List.mem_map.mp hcall
        rfl
      have hne : entryCalls err ≠ [] := by simp [entryCalls, entryOptions]
      have hfresh : configTable.fresh err.type = .zeroed err.type := rfl
      rw [List.flatMap_cons, List.foldl_append, configTable.foldl_step_block hnew htarget hne, hfresh,
        foldl_entryCalls herr]
      rw [List.append_cons] at hnodup
      rw [ih (fun e he => h e (List.mem_cons_of_mem _ he)) hnodup, ← List.append_cons]

/-- What is written down is read back: the parser finds no error and makes the configuration again. -/
theorem config_round_trip {cfg : List ErrinjConf} (hnodup : (cfg.map (·.type)).Nodup)
    (hwritable : ∀ err ∈ cfg, WritableConf err) {line : Bytes} (hline : line.length = INI_MAX_LINE) :
    iniParse (totalHandler confAnswer) line (some (renderConfig cfg)) [] = some (0, cfg) := by
  have hconfigured : configured (fileCalls (renderConfig cfg)) = cfg := by
    rw [configured_eq_run, knownCalls_renderConfig hwritable]
    exact foldl_entries hwritable hnodup
  rw [iniParse_configured hline, find?_rejected hwritable, hconfigured]
  rfl

/-- A regular expression with a semicolon, which begins no comment behind a character. -/
theorem config_round_trip_sample :
    iniParse (totalHandler confAnswer) (List.replicate 200 77)
        (some (renderConfig [⟨none, some (ascii "^/a;b$"), 7, 30, .noop⟩])) [] =
      some (0, [⟨none, some (ascii "^/a;b$"), 7, 30, .noop⟩]) := by
  refine config_round_trip (by decide) (fun err herr => ?_) List.length_replicate
  rw [List.mem_singleton.mp herr]
  refine ⟨fun value hvalue => ?_, fun value hvalue => ?_, ?_, ?_⟩
  · cases hvalue
    exact ⟨by decide +kernel, by decide +kernel, by decide +kernel, by decide +kernel, by decide +kernel⟩
  · cases hvalue
  · decide
  · decide

end Bnfs
