import Bnfs.ModelIni

/-! What a configuration file says, line by line and without buffers or pointers. A line is read for itself, given
whether it is the first and whether it can continue a value; what the parser remembers from the lines before is a section,
a name and a number. -/

namespace Bnfs

open Buffers

/-- What a line says. -/
inductive IniLine where
  | blank
  | more (value : Bytes)
  | header (name : Bytes)
  | option (name value : Bytes)
  | malformed
  deriving DecidableEq

def byteOrderMark : Bytes := [0xEF, 0xBB, 0xBF]

/-- The first line begins with the mark. -/
def marked (first : Bool) (text : Bytes) : Bool := first && byteOrderMark.isPrefixOf text

def unmarked (first : Bool) (text : Bytes) : Bytes := if marked first text then text.drop 3 else text

/-- The line does not begin at the margin. -/
def indented (first : Bool) (text : Bytes) : Bool :=
  marked first text || (unmarked first text).head?.any isSpace

/-- What stands before one of the characters or an inline comment. -/
def before (chars : Option Bytes) (text : Bytes) : Bytes := passed (findNext chars) false text

/-- What stands from there on. -/
def fromThere (chars : Option Bytes) (text : Bytes) : Bytes := text.drop (before chars text).length

/-- What follows the bracket of a section. -/
def readHeader (text : Bytes) : IniLine :=
  match fromThere (some (ascii "]")) text with
  | [] => .malformed
  | c :: _ => if c = 93 then .header (before (some (ascii "]")) text) else .malformed

/-- A value without its comment and the whitespace around it. -/
def readValue (text : Bytes) : Bytes := Texts.strip isSpace (before none text)

def readOption (text : Bytes) : IniLine :=
  match fromThere (some (ascii "=:")) text with
  | [] => .malformed
  | c :: value =>
      if c = 61 ∨ c = 58 then .option ((before (some (ascii "=:")) text).rdropWhile isSpace) (readValue value)
      else .malformed

/-- `named` says that there is a name whose value the line can continue. -/
def IniLine.read (first named : Bool) (text : Bytes) : IniLine :=
  match Texts.strip isSpace (unmarked first text) with
  | [] => .blank
  | c :: rest =>
      if c ∈ INI_START_COMMENT_PREFIXES then .blank
      else if named && indented first text then .more (c :: rest)
      else if c = 91 then readHeader rest
      else readOption (c :: rest)

/-- What the parser remembers. -/
structure IniPlace where
  section_name : Bytes
  prev_name : Bytes
  lineno : Nat
  deriving DecidableEq

/-- What the handler is called with. -/
structure IniCall where
  section_name : Bytes
  name : Bytes
  value : Bytes
  deriving DecidableEq

/-- What comes of a line. -/
inductive IniEvent where
  | quiet
  | call (c : IniCall)
  | malformed
  deriving DecidableEq

namespace IniPlace

/-- Where the parser begins. -/
def start : IniPlace := ⟨[], [], 0⟩

/-- The place after what a line says, and what comes of it. A name is passed on in full, but remembered with the length of
its array, as a section is. -/
def enter (pl : IniPlace) : IniLine → IniPlace × IniEvent
  | .blank => (pl, .quiet)
  | .more value => (pl, .call ⟨pl.section_name, pl.prev_name, value⟩)
  | .header name => ({ pl with section_name := name.take (MAX_SECTION - 1), prev_name := [] }, .quiet)
  | .option name value => ({ pl with prev_name := name.take (MAX_NAME - 1) }, .call ⟨pl.section_name, name, value⟩)
  | .malformed => (pl, .malformed)

def next (pl : IniPlace) (text : Bytes) : IniPlace × IniEvent :=
  { pl with lineno := pl.lineno + 1 }.enter (IniLine.read (pl.lineno == 0) (pl.prev_name != []) text)

theorem enter_lineno (pl : IniPlace) (line : IniLine) : (pl.enter line).1.lineno = pl.lineno := by
  cases line <;> rfl

theorem next_lineno (pl : IniPlace) (text : Bytes) : (pl.next text).1.lineno = pl.lineno + 1 := enter_lineno _ _

/-- The events of the lines, each with its number. -/
def events : IniPlace → List Bytes → List (Nat × IniEvent)
  | _, [] => []
  | pl, text :: rest => (pl.lineno + 1, (pl.next text).2) :: events (pl.next text).1 rest

/-- The place after all lines. -/
def after (pl : IniPlace) (texts : List Bytes) : IniPlace := texts.foldl (fun pl text => (pl.next text).1) pl

theorem events_append (pl : IniPlace) (texts texts' : List Bytes) :
    pl.events (texts ++ texts') = pl.events texts ++ (pl.after texts).events texts' := by
  induction texts generalizing pl with
  | nil => rfl
  | cons text rest ih =>
      rw [List.cons_append, events, ih, events, List.cons_append]
      rfl

end IniPlace

/-- The lines as the buffer of the parser takes them. -/
def iniLines (text : Bytes) : List Bytes := Texts.pieces 10 (INI_MAX_LINE - 1) text

/-- What the text says. The handler has no part in it. -/
def meaning (text : Bytes) : List (Nat × IniEvent) := IniPlace.start.events ((iniLines text).map cStr)

section Settle

variable {σ : Type} (handler : IniHandler σ)

/-- The first error is kept. -/
def firstError (error : Int) (lineno : Nat) : Int := if error = 0 then lineno else error

/-- The error and `user` after an event. -/
def settle (acc : Int × σ) (event : Nat × IniEvent) : Option (Int × σ) :=
  match event.2 with
  | .quiet => some acc
  | .malformed => some (firstError acc.1 event.1, acc.2)
  | .call c => (handler acc.2 c.section_name c.name c.value).map fun r =>
      (if r.1 = 0 then firstError acc.1 event.1 else acc.1, r.2)

end Settle

end Bnfs
