import Bnfs.ModelConfig
import Bnfs.TheoryBuffers
import Bnfs.TheoryText
import Mathlib.Data.UInt

/-! The INI parser of `conf.c`, as its header configures it: multi-line values, a byte order mark and inline comments are
allowed, the line buffer is on the stack, and an error does not stop it. The arrays are lists of bytes and pointers are
indices into them; a load or a store outside an array is `none`. The handler may fault as well. -/

namespace Bnfs

open Buffers

def MAX_SECTION : Nat := 50

def MAX_NAME : Nat := 50

def INI_MAX_LINE : Nat := 200

def INI_START_COMMENT_PREFIXES : Bytes := ascii ";#"

def INI_INLINE_COMMENT_PREFIXES : Bytes := ascii ";"

/-- `strchr(chars, c)` finds something. The zero at the end of `chars` counts. -/
def strchr (chars : Bytes) (c : UInt8) : Bool := c == 0 || chars.contains c

/-- The loop of `rstrip`, as many characters before the pointer as the number says. -/
def rstripLoop (s : Nat) : Nat → Bytes → Option Bytes
  | 0, line => some line
  | n + 1, line =>
      (load line (s + n)).bind fun c =>
        if isSpace c then (store line (s + n) 0).bind (rstripLoop s n) else some line

/-- The line with the whitespace off the end of the string at `s`. -/
def rstrip (line : Bytes) (s : Nat) : Option Bytes := (strlen line s).bind fun n => rstripLoop s n line

/-- `*s && isspace(*s)` -/
def lskipNext (_ : Unit) (c : UInt8) : Option Unit := if c ≠ 0 ∧ isSpace c then some () else none

def lskip (line : Bytes) (s : Nat) : Option Nat := (scan lskipNext () (line.drop s)).map (s + ·)

/-- The condition of the loop, and `was_space` after the step. `chars` may be NULL. -/
def findNext (chars : Option Bytes) (was_space : Bool) (c : UInt8) : Option Bool :=
  if c ≠ 0 ∧ ¬ chars.any (strchr · c) ∧ ¬ (was_space ∧ strchr INI_INLINE_COMMENT_PREFIXES c) then some (isSpace c)
  else none

def findCharsOrComment (line : Bytes) (s : Nat) (chars : Option Bytes) : Option Nat :=
  (scan (findNext chars) false (line.drop s)).map (s + ·)

/-- The loop of `strncpy0` from its `i`-th step on, with `n` steps left at most. -/
def strncpy0Loop (src : Bytes) (s : Nat) : Nat → Nat → Bytes → Option Bytes
  | 0, i, dest => store dest i 0
  | n + 1, i, dest =>
      (load src (s + i)).bind fun c =>
        if c = 0 then store dest i 0 else (store dest i c).bind (strncpy0Loop src s n (i + 1))

def strncpy0 (dest src : Bytes) (s size : Nat) : Option Bytes := strncpy0Loop src s (size - 1) 0 dest

/-- What a reader makes of the buffer and the stream, and whether it returned the buffer. -/
abbrev IniReader (S : Type) := Bytes → Nat → S → Option (Bool × Bytes × S)

/-- `ini_parse_string_ctx`. The pointer is given by what stands from it on. -/
structure IniParseStringCtx where
  ptr : Bytes
  num_left : Nat

/-- The loop of `ini_reader_string`: where it left `strp`, the buffer and the stream. -/
def readerLoop : Nat → Nat → Bytes → IniParseStringCtx → Option (Nat × Bytes × IniParseStringCtx)
  | num + 2, strp, str, ⟨ptr, num_left + 1⟩ =>
      match ptr with
      | [] => none
      | c :: ptr =>
          (store str strp c).bind fun str =>
            if c = 10 then some (strp + 1, str, ⟨ptr, num_left⟩)
            else readerLoop (num + 1) (strp + 1) str ⟨ptr, num_left⟩
  | _, strp, str, ctx => some (strp, str, ctx)

def iniReaderString : IniReader IniParseStringCtx := fun str num ctx =>
  if ctx.num_left = 0 ∨ num < 2 then some (false, str, ctx)
  else (readerLoop num 0 str ctx).bind fun r => (store r.2.1 r.1 0).map fun str => (true, str, r.2.2)

/-- `fgets` on a file of which these bytes are left, by its documentation: at most one character less than the buffer has
place for, up to a newline, and a zero. What follows in the buffer is not touched. -/
def fgets : IniReader Bytes := fun str num file =>
  if file = [] ∨ num < 2 then some (false, str, file)
  else
    let piece := Texts.firstPiece 10 (num - 1) file
    if piece.length < str.length then
      some (true, piece ++ 0 :: str.drop (piece.length + 1), file.drop piece.length)
    else none

/-- The section, the name and the value. -/
abbrev IniHandler (σ : Type) := σ → Bytes → Bytes → Bytes → Option (Int × σ)

/-- The variables of `ini_parse_stream`. `section` is a word of Lean. -/
structure IniLocals (σ : Type) where
  line : Bytes
  section_name : Bytes
  prev_name : Bytes
  lineno : Nat
  error : Int
  user : σ

section Parser

variable {σ S : Type} (handler : IniHandler σ)

/-- `if (!error) error = lineno` -/
def IniLocals.fail (loc : IniLocals σ) : IniLocals σ :=
  if loc.error = 0 then { loc with error := loc.lineno } else loc

/-- `HANDLER`, and the error if it returns 0. -/
def IniLocals.call (loc : IniLocals σ) (name value : Bytes) : Option (IniLocals σ) :=
  (string loc.section_name 0).bind fun section_name =>
    (handler loc.user section_name name value).map fun r =>
      if r.1 = 0 then { loc with user := r.2 }.fail else { loc with user := r.2 }

/-- The line begins with EF BB BF. -/
def atBom (line : Bytes) : Option Bool :=
  (load line 0).bind fun c =>
    if c ≠ 0xEF then some false
    else (load line 1).bind fun c =>
      if c ≠ 0xBB then some false
      else (load line 2).map fun c => c == 0xBF

/-- A line that continues a value. -/
def moreLine (loc : IniLocals σ) (start : Nat) : Option (IniLocals σ) :=
  (string loc.prev_name 0).bind fun name => (string loc.line start).bind fun value => loc.call handler name value

/-- A line that begins with a bracket. -/
def sectionLine (loc : IniLocals σ) (start : Nat) : Option (IniLocals σ) :=
  (findCharsOrComment loc.line (start + 1) (some (ascii "]"))).bind fun stop =>
    (load loc.line stop).bind fun c =>
      if c = 93 then
        (store loc.line stop 0).bind fun line =>
          (strncpy0 loc.section_name line (start + 1) MAX_SECTION).bind fun section_name =>
            (store loc.prev_name 0 0).map fun prev_name => { loc with line, section_name, prev_name }
      else some loc.fail

/-- The name and the value ended and stripped in place: the line, and where the value begins. -/
def splitPair (line : Bytes) (start stop : Nat) : Option (Bytes × Nat) :=
  (store line stop 0).bind fun line =>
    (rstrip line start).bind fun line =>
      (findCharsOrComment line (stop + 1) none).bind fun stop' =>
        ((load line stop').bind fun c => if c ≠ 0 then store line stop' 0 else some line).bind fun line =>
          (lskip line (stop + 1)).bind fun value => (rstrip line value).map fun line => (line, value)

/-- A line that must be a name and a value. -/
def pairLine (loc : IniLocals σ) (start : Nat) : Option (IniLocals σ) :=
  (findCharsOrComment loc.line start (some (ascii "=:"))).bind fun stop =>
    (load loc.line stop).bind fun c =>
      if c = 61 ∨ c = 58 then
        (splitPair loc.line start stop).bind fun r =>
          (strncpy0 loc.prev_name r.1 start MAX_NAME).bind fun prev_name =>
            (string r.1 start).bind fun name => (string r.1 r.2).bind fun value =>
              { loc with line := r.1, prev_name }.call handler name value
      else some loc.fail

/-- The body of the loop. -/
def parseLine (loc : IniLocals σ) : Option (IniLocals σ) :=
  let loc := { loc with lineno := loc.lineno + 1 }
  (if loc.lineno = 1 then atBom loc.line else some false).bind fun bom =>
    (rstrip loc.line (if bom then 3 else 0)).bind fun line =>
      (lskip line (if bom then 3 else 0)).bind fun start =>
        (load line start).bind fun c =>
          (load loc.prev_name 0).bind fun p =>
            let loc := { loc with line }
            if strchr INI_START_COMMENT_PREFIXES c then some loc
            else if p ≠ 0 ∧ c ≠ 0 ∧ start > 0 then moreLine handler loc start
            else if c = 91 then sectionLine loc start
            else if c ≠ 0 then pairLine handler loc start
            else some loc

/-- The loop, for as many reads as the number says at most. -/
def parseLoop (reader : IniReader S) : Nat → IniLocals σ → S → Option (IniLocals σ)
  | 0, _, _ => none
  | n + 1, loc, stream =>
      (reader loc.line INI_MAX_LINE stream).bind fun r =>
        if r.1 then (parseLine handler { loc with line := r.2.1 }).bind fun loc => parseLoop reader n loc r.2.2
        else some { loc with line := r.2.1 }

/-- The error and what the handler made of `user`. The array `line` holds anything at first. -/
def iniParseStream (reader : IniReader S) (line : Bytes) (n : Nat) (stream : S) (user : σ) : Option (Int × σ) :=
  (parseLoop handler reader n
    ⟨line, List.replicate MAX_SECTION 0, List.replicate MAX_NAME 0, 0, 0, user⟩ stream).map fun loc =>
      (loc.error, loc.user)

/-- No read but the last returns nothing, so there are no more reads than this. -/
def iniParseFile (line file : Bytes) (user : σ) : Option (Int × σ) :=
  iniParseStream handler fgets line (file.length + 1) file user

/-- `none` is a file that cannot be opened. -/
def iniParse (line : Bytes) (file : Option Bytes) (user : σ) : Option (Int × σ) :=
  match file with
  | none => some (-1, user)
  | some file => iniParseFile handler line file user

/-- The string ends with its first zero. -/
def iniParseString (line : Bytes) (text : CString) (user : σ) : Option (Int × σ) :=
  iniParseStream handler iniReaderString line (text.bytes.length + 1)
    ⟨text.bytes ++ [0], text.bytes.length⟩ user

end Parser

end Bnfs
