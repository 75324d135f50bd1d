import Bnfs.ConfigLines
import Bnfs.ConfigParser

/-! What the handler is given, and what a whole file makes of the configuration. -/

namespace Bnfs

open Buffers

/-- A line as the handler may see it: no zero, a newline only at its end, and no longer than the buffer. -/
structure IsLine (text : Bytes) : Prop where
  noNul : 0 ∉ text
  newline : 10 ∉ text.dropLast
  length : text.length < INI_MAX_LINE

/-- A text between the ends of a line. -/
structure Inline (text : Bytes) : Prop where
  noNul : 0 ∉ text
  newline : 10 ∉ text
  length : text.length < INI_MAX_LINE

theorem Inline.sublist {s t : Bytes} (h : Inline t) (hsub : s.Sublist t) : Inline s :=
  ⟨fun hmem => h.noNul (hsub.subset hmem), fun hmem => h.newline (hsub.subset hmem),
    Nat.lt_of_le_of_lt hsub.length_le h.length⟩

theorem cStr_sublist (s : Bytes) : (cStr s).Sublist s := (List.takeWhile_prefix _).sublist

theorem isLine_of_mem {text line : Bytes} (h : line ∈ iniLines text) : IsLine (cStr line) where
  noNul hmem := by simpa using List.mem_takeWhile_imp hmem
  newline hmem := by
    obtain ⟨back, hback⟩ := List.takeWhile_prefix (l := line) (· != 0)
    refine Texts.not_mem_dropLast_of_mem_pieces h ?_
    rw [← hback, List.dropLast_append]
    split_ifs with hempty
    · exact hmem
    · exact List.mem_append_left _ (List.mem_of_mem_dropLast hmem)
  length := Nat.lt_succ_of_le
    ((cStr_sublist line).length_le.trans (Texts.length_le_of_mem_pieces (by decide) h))

theorem unmarked_suffix (first : Bool) (text : Bytes) : unmarked first text <:+ text := by
  unfold unmarked
  split_ifs
  · exact List.drop_suffix 3 text
  · exact List.suffix_rfl

/-- The whitespace at the end of a line takes its newline with it. -/
theorem IsLine.strip {text : Bytes} (h : IsLine text) (first : Bool) :
    Inline (Texts.strip isSpace (unmarked first text)) := by
  obtain ⟨front, hfront⟩ := unmarked_suffix first text
  generalize unmarked first text = line at hfront
  have hsub : (Texts.strip isSpace line).Sublist line :=
    (List.dropWhile_sublist _).trans (List.rdropWhile_prefix _ _).sublist
  have hline : line.Sublist text := hfront ▸ List.sublist_append_right _ _
  refine ⟨fun hmem => h.noNul (hline.subset (hsub.subset hmem)), fun hmem => ?_,
    Nat.lt_of_le_of_lt (hsub.trans hline).length_le h.length⟩
  have hnewline : 10 ∉ line.dropLast := fun hin => h.newline (by
    rw [← hfront, List.dropLast_append]
    split_ifs with hempty
    · rw [List.isEmpty_iff.mp hempty] at hin
      cases hin
    · exact List.mem_append_right _ hin)
  have hin : 10 ∈ line.rdropWhile isSpace := (List.dropWhile_sublist _).subset hmem
  have hne : line.rdropWhile isSpace ≠ [] := List.ne_nil_of_mem hin
  obtain ⟨back, hback⟩ := List.rdropWhile_prefix isSpace line
  have hall : back = [] := by
    by_contra hback'
    refine hnewline ?_
    rw [← hback, List.dropLast_append, if_neg (by simpa using hback')]
    exact List.mem_append_left _ hin
  rw [hall, List.append_nil] at hback
  have hlast := List.rdropWhile_last_not isSpace line hne
  have hend : (line.rdropWhile isSpace).getLast hne = 10 := by
    have hsplit := List.dropLast_append_getLast hne
    rw [← hsplit, List.mem_append, List.mem_singleton] at hin
    rw [← hback] at hnewline
    exact (hin.resolve_left hnewline).symm
  rw [hend] at hlast
  exact hlast (by decide)

/-- A section as it is remembered. -/
structure SectionName (name : Bytes) : Prop where
  inline : Inline name
  length : name.length < MAX_SECTION
  noBracket : 93 ∉ name

/-- A name of an option, in full or cut off. -/
structure OptionName (name : Bytes) : Prop where
  inline : Inline name
  noSeparator : 61 ∉ name ∧ 58 ∉ name
  first : ∀ c ∈ name.head?, isSpace c = false ∧ c ∉ INI_START_COMMENT_PREFIXES ∧ c ≠ 91

structure OptionValue (value : Bytes) : Prop where
  inline : Inline value
  stripped : Texts.strip isSpace value = value

structure IniCall.WellFormed (c : IniCall) : Prop where
  section_name : SectionName c.section_name
  name : OptionName c.name
  value : OptionValue c.value

/-- What a line says is well formed. -/
def IniLine.WellFormed : IniLine → Prop
  | .blank => True
  | .more value => OptionValue value
  | .header name => Inline name ∧ 93 ∉ name
  | .option name value => OptionName name ∧ OptionValue value
  | .malformed => True

theorem strip_strip (text : Bytes) : Texts.strip isSpace (Texts.strip isSpace text) = Texts.strip isSpace text := by
  have hcomm := Texts.rdropWhile_dropWhile isSpace text
  unfold Texts.strip at hcomm ⊢
  rw [← hcomm, List.rdropWhile_idempotent, hcomm, List.dropWhile_idempotent]

theorem optionValue_strip {text : Bytes} (h : Inline text) : OptionValue (Texts.strip isSpace text) :=
  ⟨h.sublist ((List.dropWhile_sublist _).trans (List.rdropWhile_prefix _ _).sublist), strip_strip text⟩

/-- The characters that end a name are not in it. -/
theorem not_mem_before {chars : Bytes} {c : UInt8} (hc : c ∈ chars) (text : Bytes) : c ∉ before (some chars) text := by
  have hstep : ∀ was_space, findNext (some chars) was_space c = none := fun was_space => by
    simp [findNext, strchr, hc]
  unfold before
  generalize false = was_space
  induction text generalizing was_space with
  | nil => exact List.not_mem_nil
  | cons d text ih =>
      rw [passed]
      cases hnext : findNext (some chars) was_space d with
      | none => exact List.not_mem_nil
      | some seen =>
          rw [List.mem_cons, not_or]
          refine ⟨fun heq => ?_, ih seen⟩
          rw [← heq, hstep] at hnext
          cases hnext

theorem inline_before {text : Bytes} (h : Inline text) (chars : Option Bytes) : Inline (before chars text) :=
  h.sublist (passed_begins _ _ _).sublist

theorem inline_fromThere {text : Bytes} (h : Inline text) (chars : Option Bytes) : Inline (fromThere chars text) :=
  h.sublist (List.drop_sublist _ _)

theorem readHeader_wellFormed {text : Bytes} (h : Inline text) : (readHeader text).WellFormed := by
  unfold readHeader
  split
  · trivial
  · split_ifs
    · exact ⟨inline_before h _, not_mem_before (by decide) _⟩
    · trivial

theorem readOption_wellFormed {c : UInt8} {rest : Bytes} (h : Inline (c :: rest))
    (hc : isSpace c = false ∧ c ∉ INI_START_COMMENT_PREFIXES ∧ c ≠ 91) : (readOption (c :: rest)).WellFormed := by
  unfold readOption
  split
  · trivial
  · rename_i d value heq
    split_ifs
    · have hvalue : Inline value := (inline_fromThere h _).sublist (heq ▸ List.sublist_cons_self d value)
      have hfront : (before (some (ascii "=:")) (c :: rest)).rdropWhile isSpace <+: c :: rest :=
        (List.rdropWhile_prefix _ _).trans (passed_begins _ _ _)
      have hsub := (List.rdropWhile_prefix isSpace (before (some (ascii "=:")) (c :: rest))).subset
      refine ⟨⟨h.sublist hfront.sublist, ⟨fun hmem => ?_, fun hmem => ?_⟩, fun d hd => ?_⟩,
        optionValue_strip (inline_before hvalue none)⟩
      · exact not_mem_before (by decide) _ (hsub hmem)
      · exact not_mem_before (by decide) _ (hsub hmem)
      · obtain ⟨back, hback⟩ := hfront
        cases hname : (before (some (ascii "=:")) (c :: rest)).rdropWhile isSpace with
        | nil =>
            rw [hname] at hd
            cases hd
        | cons e name =>
            rw [hname] at hd hback
            cases hd
            rw [(List.cons.inj hback).1]
            exact hc
    · trivial

theorem read_wellFormed {text : Bytes} (h : IsLine text) (first named : Bool) :
    (IniLine.read first named text).WellFormed := by
  have hinline := h.strip first
  have hstripped := strip_strip (unmarked first text)
  have hfirst : ∀ c ∈ (Texts.strip isSpace (unmarked first text)).head?, isSpace c = false := by
    have hnot := List.head?_dropWhile_not isSpace ((unmarked first text).rdropWhile isSpace)
    intro c hc
    rw [Option.mem_def, Texts.strip] at hc
    rw [hc] at hnot
    simpa using hnot
  unfold IniLine.read
  generalize Texts.strip isSpace (unmarked first text) = line at hinline hstripped hfirst
  cases line with
  | nil => trivial
  | cons c rest =>
      dsimp only
      split_ifs with hcomment hmore hbracket
      · trivial
      · exact ⟨hinline, hstripped⟩
      · exact readHeader_wellFormed (hinline.sublist (List.sublist_cons_self c rest))
      · exact readOption_wellFormed hinline ⟨hfirst c rfl, hcomment, hbracket⟩

/-- The place remembers well-formed names. -/
structure IniPlace.WellFormed (pl : IniPlace) : Prop where
  section_name : SectionName pl.section_name
  prev_name : OptionName pl.prev_name

theorem IniPlace.start_wellFormed : IniPlace.start.WellFormed where
  section_name := ⟨⟨by decide, by decide, by decide⟩, by decide, by decide⟩
  prev_name := ⟨⟨by decide, by decide, by decide⟩, by decide, fun _ h => nomatch h⟩

theorem OptionName.take {name : Bytes} (h : OptionName name) (n : Nat) : OptionName (name.take n) where
  inline := h.inline.sublist (List.take_sublist n name)
  noSeparator := ⟨fun hmem => h.noSeparator.1 (List.mem_of_mem_take hmem),
    fun hmem => h.noSeparator.2 (List.mem_of_mem_take hmem)⟩
  first c hc := by
    cases name with
    | nil => simp at hc
    | cons d name =>
        cases n with
        | zero => cases hc
        | succ n => exact h.first c hc

theorem IniPlace.enter_wellFormed {pl : IniPlace} {line : IniLine} (h : pl.WellFormed) (hline : line.WellFormed) :
    (pl.enter line).1.WellFormed ∧ ∀ c, (pl.enter line).2 = .call c → c.WellFormed := by
  cases line with
  | blank => exact ⟨h, fun _ heq => nomatch heq⟩
  | malformed => exact ⟨h, fun _ heq => nomatch heq⟩
  | more value =>
      refine ⟨h, fun c heq => ?_⟩
      cases heq
      exact ⟨h.section_name, h.prev_name, hline⟩
  | header name =>
      refine ⟨⟨⟨hline.1.sublist (List.take_sublist _ _), ?_, ?_⟩, start_wellFormed.prev_name⟩, fun _ heq => nomatch heq⟩
      · exact Nat.lt_of_le_of_lt (List.length_take_le _ _) (by decide)
      · exact fun hmem => hline.2 (List.mem_of_mem_take hmem)
  | option name value =>
      refine ⟨⟨h.section_name, hline.1.take _⟩, fun c heq => ?_⟩
      cases heq
      exact ⟨h.section_name, hline.1, hline.2⟩

theorem IniPlace.events_wellFormed {pl : IniPlace} (h : pl.WellFormed) {texts : List Bytes}
    (htexts : ∀ text ∈ texts, IsLine text) {n : Nat} {c : IniCall} (hmem : (n, .call c) ∈ pl.events texts) :
    c.WellFormed := by
  induction texts generalizing pl with
  | nil => cases hmem
  | cons text rest ih =>
      have hread := read_wellFormed (htexts text List.mem_cons_self) (pl.lineno == 0) (pl.prev_name != [])
      have hnumbered : IniPlace.WellFormed { pl with lineno := pl.lineno + 1 } := ⟨h.1, h.2⟩
      obtain ⟨hplace, hcall⟩ := enter_wellFormed hnumbered hread
      rcases List.mem_cons.mp hmem with heq | hmem
      · exact hcall c (Prod.mk.inj heq).2.symm
      · exact ih hplace (fun text htext => htexts text (List.mem_cons_of_mem _ htext)) hmem

/-- Whatever the text, the handler is only given well-formed strings. -/
theorem calls_wellFormed (text : Bytes) {n : Nat} {c : IniCall} (h : (n, .call c) ∈ meaning text) : c.WellFormed := by
  refine IniPlace.events_wellFormed IniPlace.start_wellFormed (fun line hline => ?_) h
  obtain ⟨piece, hpiece, rfl⟩ := List.mem_map.mp hline
  exact isLine_of_mem hpiece

section Checked

variable {σ : Type} (handler : IniHandler σ)

open Classical in
/-- The handler, faulting on what is not well formed. -/
noncomputable def IniHandler.checked : IniHandler σ := fun user section_name name value =>
  if IniCall.WellFormed ⟨section_name, name, value⟩ then handler user section_name name value else none

theorem foldlM_checked {events : List (Nat × IniEvent)} (h : ∀ n c, (n, .call c) ∈ events → c.WellFormed)
    (acc : Int × σ) : events.foldlM (settle handler.checked) acc = events.foldlM (settle handler) acc := by
  induction events generalizing acc with
  | nil => rfl
  | cons event rest ih =>
      obtain ⟨n, event⟩ := event
      have hrest := fun n c hmem => h n c (List.mem_cons_of_mem _ hmem)
      have hsame : settle handler.checked acc (n, event) = settle handler acc (n, event) := by
        cases event with
        | quiet => rfl
        | malformed => rfl
        | call c =>
            have hwell : IniCall.WellFormed ⟨c.section_name, c.name, c.value⟩ := h n c List.mem_cons_self
            simp only [settle, IniHandler.checked, if_pos hwell]
      rw [List.foldlM_cons, List.foldlM_cons, hsame]
      exact congrArg _ (funext fun acc => ih hrest acc)

/-- A handler may rely on it, whatever the bytes of the file: no string is longer than a line or holds a newline or a NUL, a
section fits its array, a name has no separator and does not begin like a comment or a section, and a value has no
whitespace at its ends. -/
theorem handler_may_rely {line : Bytes} (hline : line.length = INI_MAX_LINE) (file : Bytes) (user : σ) :
    iniParseFile handler.checked line file user = iniParseFile handler line file user := by
  rw [iniParseFile_eq _ hline, iniParseFile_eq _ hline]
  exact foldlM_checked handler (fun _ _ => calls_wellFormed file) _

end Checked

theorem handler_may_rely_sample :
    iniParseFile (IniHandler.checked sampleHandler) (List.replicate 200 77) (ascii "[s]\nb = x y \n") [] =
      some (0, [ascii "x y"]) := by
  have hline : (List.replicate 200 (77 : UInt8)).length = INI_MAX_LINE := List.length_replicate
  refine (handler_may_rely sampleHandler hline _ []).trans ?_
  decide +kernel

/-- A handler that does not fault. -/
def totalHandler {σ : Type} (h : σ → IniCall → Int × σ) : IniHandler σ := fun user section_name name value =>
  some (h user ⟨section_name, name, value⟩)

/-- The calls a text makes, in their order. -/
def IniEvent.call? : IniEvent → Option IniCall
  | .call c => some c
  | _ => none

def iniCalls (text : Bytes) : List IniCall := (meaning text).filterMap fun event => event.2.call?

section Result

variable {σ : Type} (h : σ → IniCall → Int × σ)

/-- The number of the first line that says nothing the parser knows, or whose call is answered with 0. -/
def firstBad : σ → List (Nat × IniEvent) → Option Nat
  | _, [] => none
  | user, (_, .quiet) :: rest => firstBad user rest
  | _, (n, .malformed) :: _ => some n
  | user, (n, .call c) :: rest => if (h user c).1 = 0 then some n else firstBad (h user c).2 rest

/-- What the parser returns for it. -/
def errorCode : Option Nat → Int
  | none => 0
  | some n => n

/-- What the calls make of `user`. -/
def answered (user : σ) (events : List (Nat × IniEvent)) : σ :=
  (events.filterMap fun event => event.2.call?).foldl (fun user c => (h user c).2) user

theorem settle_total (error : Int) (user : σ) (events : List (Nat × IniEvent)) (hpos : ∀ event ∈ events, 0 < event.1) :
    events.foldlM (settle (totalHandler h)) (error, user) =
      some (if error = 0 then errorCode (firstBad h user events) else error,
        answered h user events) := by
  induction events generalizing error user with
  | nil =>
      by_cases herror : error = 0
      · rw [if_pos herror, herror]
        rfl
      · rw [if_neg herror]
        rfl
  | cons event rest ih =>
      obtain ⟨n, event⟩ := event
      have hn : ((n : Nat) : Int) ≠ 0 := by
        have := hpos _ List.mem_cons_self
        simp only at this
        omega
      have hrest := fun e he => hpos e (List.mem_cons_of_mem _ he)
      have hfirst : firstError error n ≠ 0 := by
        unfold firstError
        split_ifs with herror
        · exact hn
        · exact herror
      rw [List.foldlM_cons]
      cases event with
      | quiet => exact ih error user hrest
      | malformed =>
          change rest.foldlM _ (firstError error n, user) = _
          rw [ih _ user hrest, if_neg hfirst]
          rfl
      | call c =>
          change rest.foldlM _ (if (h user c).1 = 0 then firstError error n else error, (h user c).2) = _
          rw [ih _ _ hrest, firstBad]
          by_cases hzero : (h user c).1 = 0
          · rw [if_pos hzero, if_pos hzero, if_neg hfirst]
            rfl
          · rw [if_neg hzero, if_neg hzero]
            rfl

theorem IniPlace.events_numbers (pl : IniPlace) (texts : List Bytes) :
    (pl.events texts).map Prod.fst = List.range' (pl.lineno + 1) texts.length := by
  induction texts generalizing pl with
  | nil => rfl
  | cons text rest ih =>
      rw [events, List.map_cons, ih, next_lineno, List.length_cons, List.range'_succ]

theorem meaning_numbers (text : Bytes) : (meaning text).map Prod.fst = List.range' 1 (iniLines text).length := by
  rw [meaning, IniPlace.events_numbers, List.length_map]
  rfl

theorem meaning_pos (text : Bytes) : ∀ event ∈ meaning text, 0 < event.1 := by
  intro event hmem
  have hnumber : event.1 ∈ (meaning text).map Prod.fst := List.mem_map_of_mem hmem
  rw [meaning_numbers, List.mem_range'_1] at hnumber
  exact hnumber.1

/-- The parser returns the number of the first bad line, or 0, and makes all the calls in any case. -/
theorem iniParse_result {line : Bytes} (hline : line.length = INI_MAX_LINE) (file : Bytes) (user : σ) :
    iniParse (totalHandler h) line (some file) user =
        some (errorCode (firstBad h user (meaning file)), answered h user (meaning file)) ∧
      (meaning file).map Prod.fst = List.range' 1 (iniLines file).length := by
  refine ⟨?_, meaning_numbers file⟩
  rw [iniParse, iniParseFile_eq _ hline, settle_total h 0 user _ (meaning_pos file), if_pos rfl]

end Result

/-! ### A configuration file -/

/-- The string of these bytes. -/
def CString.ofBytes (s : Bytes) : CString := ⟨cStr s, fun hmem => by simpa using List.mem_takeWhile_imp hmem⟩

def confCall (c : IniCall) : ConfCall := ⟨.ofBytes c.section_name, .ofBytes c.name, .ofBytes c.value⟩

/-- `conf_option_handler`, its allocations succeeding. -/
def confAnswer (cfg : List ErrinjConf) (c : IniCall) : Int × List ErrinjConf :=
  confOptionHandler ⟨true, true⟩ cfg (confCall c)

/-- The parser takes a line for an error if it says nothing, or gives a known injection an unknown option. An unknown
injection is none. -/
def rejected : Nat × IniEvent → Bool
  | (_, .quiet) => false
  | (_, .malformed) => true
  | (_, .call c) => (errinjTypeByName c.section_name).isSome && !knownOptions.contains c.name

theorem setOption_zero_iff (alloc : Allocs) (key value : CString) (err : ErrinjConf) :
    (setOption alloc key value err).1 = 0 ↔ key.bytes ∉ knownOptions := by
  have hone : (1 : Int) ≠ 0 := by decide
  simp only [setOption, knownOptions, List.mem_cons, List.not_mem_nil, or_false, not_or]
  split_ifs with h1 h2 h3 h4
  · exact iff_of_false hone fun h => h.1 h1
  · exact iff_of_false hone fun h => h.2.1 h2
  · exact iff_of_false hone fun h => h.2.2.1 h3
  · exact iff_of_false hone fun h => h.2.2.2 h4
  · exact iff_of_true rfl ⟨h1, h2, h3, h4⟩

theorem handler_zero_iff (cfg : List ErrinjConf) (call : ConfCall) :
    (confOptionHandler ⟨true, true⟩ cfg call).1 = 0 ↔
      (errinjTypeByName call.section_name.bytes).isSome ∧ call.key.bytes ∉ knownOptions := by
  cases htype : errinjTypeByName call.section_name.bytes with
  | none =>
      rw [handler_unknown htype]
      exact iff_of_false (show (-1 : Int) ≠ 0 by decide) fun h => nomatch h.1
  | some cur_type =>
      cases hfound : cfg.findIdx? fun np => np.type = cur_type with
      | some i =>
          rw [handler_found htype hfound, setOption_zero_iff]
          exact (and_iff_right rfl).symm
      | none =>
          rw [handler_created htype hfound rfl, setOption_zero_iff]
          exact (and_iff_right rfl).symm

theorem confCall_bytes {c : IniCall} (h : c.WellFormed) : (confCall c).section_name.bytes = c.section_name ∧
    (confCall c).key.bytes = c.name ∧ (confCall c).value.bytes = c.value :=
  ⟨cStr_of_noNul h.section_name.inline.noNul, cStr_of_noNul h.name.inline.noNul, cStr_of_noNul h.value.inline.noNul⟩

theorem firstBad_confAnswer (events : List (Nat × IniEvent)) (cfg : List ErrinjConf)
    (h : ∀ n c, (n, .call c) ∈ events → c.WellFormed) :
    firstBad confAnswer cfg events = (events.find? rejected).map Prod.fst := by
  induction events generalizing cfg with
  | nil => rfl
  | cons event rest ih =>
      obtain ⟨n, event⟩ := event
      have hrest := fun n c hmem => h n c (List.mem_cons_of_mem _ hmem)
      cases event with
      | quiet => exact ih cfg hrest
      | malformed => rfl
      | call c =>
          obtain ⟨hsection, hkey, _⟩ := confCall_bytes (h n c List.mem_cons_self)
          have hzero := handler_zero_iff cfg (confCall c)
          rw [hsection, hkey] at hzero
          rw [firstBad, List.find?_cons, ih _ hrest]
          by_cases hbad : rejected (n, .call c) = true
          · have hanswer : (confAnswer cfg c).1 = 0 := hzero.mpr (by simpa [rejected] using hbad)
            rw [if_pos hanswer, hbad]
            rfl
          · have hanswer : (confAnswer cfg c).1 ≠ 0 := fun heq => hbad (by simpa [rejected] using hzero.mp heq)
            rw [if_neg hanswer, Bool.eq_false_iff.mpr hbad]

/-- The calls of a file to the handler of the configuration. -/
def fileCalls (file : Bytes) : List ConfCall := (iniCalls file).map confCall

theorem answered_confAnswer (file : Bytes) : answered confAnswer [] (meaning file) = configured (fileCalls file) := by
  rw [answered, configured, fileCalls, List.foldl_map]
  rfl

/-- The parser returns the first rejected line, and the list is what the calls of the file make. -/
theorem iniParse_configured {line : Bytes} (hline : line.length = INI_MAX_LINE) (file : Bytes) :
    iniParse (totalHandler confAnswer) line (some file) [] =
      some (errorCode (((meaning file).find? rejected).map Prod.fst), configured (fileCalls file)) := by
  rw [(iniParse_result confAnswer hline file []).1, answered_confAnswer,
    firstBad_confAnswer _ _ fun _ _ => calls_wellFormed file]

/-- A file and what it makes of the configuration: the parser returns the first rejected line, and the list is what the
calls of the file mean, rejected lines or not. -/
theorem config_file_means {line : Bytes} (hline : line.length = INI_MAX_LINE) (file : Bytes) :
    iniParse (totalHandler confAnswer) line (some file) [] =
        some (errorCode (((meaning file).find? rejected).map Prod.fst), configured (fileCalls file)) ∧
      configInit true true (some ((fileCalls file).map fun call => (⟨true, true⟩, call))) =
        some (configured (fileCalls file)) ∧
      ConfigMeans (fileCalls file) (configured (fileCalls file)) := by
  refine ⟨iniParse_configured hline file, ?_, configured_means _⟩
  rw [configInit, if_neg (by decide), if_neg (by decide), Option.map_some, List.foldl_map]
  rfl

/-- The line that says nothing is the third. The option behind it counts. -/
theorem config_file_means_sample :
    iniParse (totalHandler confAnswer) (List.replicate 200 77)
        (some (ascii "[errinj_noop]\nprobability = 7\nnothing\nduration = 3\n")) [] =
      some (3, [⟨none, none, 7, 3, .noop⟩]) := by
  have hline : (List.replicate 200 (77 : UInt8)).length = INI_MAX_LINE := List.length_replicate
  refine (config_file_means hline _).1.trans ?_
  decide +kernel

end Bnfs
