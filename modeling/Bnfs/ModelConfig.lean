import Bnfs.ModelInject

/-! The configuration of the error injection: what `config_init` makes of the file, call by call of the handler it gives
to the INI parser. The parser itself enters as the calls it makes, and each call with the outcome of its allocations. -/

namespace Bnfs

/-- `errinj_name` -/
def ErrinjType.errinjName : ErrinjType → Bytes
  | .errno => ascii "errinj_errno"
  | .killCaller => ascii "errinj_kill_caller"
  | .noop => ascii "errinj_noop"
  | .slowdown => ascii "errinj_slowdown"
  | .aliceReorder => ascii "errinj_alice_reorder"
  | .aliceDelay => ascii "errinj_alice_delay"

/-- The types in the order of their names in the table. -/
def errinjTypes : List ErrinjType := [.errno, .killCaller, .noop, .slowdown, .aliceReorder, .aliceDelay]

/-- None for -1. The loop goes on after a match. -/
def errinjTypeByName (name : Bytes) : Option ErrinjType :=
  errinjTypes.foldl (fun idx type => if type.errinjName = name then some type else idx) none

theorem errinjTypeByName_iff {name : Bytes} {type : ErrinjType} :
    errinjTypeByName name = some type ↔ type.errinjName = name := by
  constructor
  · intro h
    unfold errinjTypeByName errinjTypes at h
    simp only [List.foldl_cons, List.foldl_nil] at h
    split_ifs at h <;> (cases h; assumption)
  · rintro rfl
    cases type <;> decide

theorem errinjName_injective : Function.Injective ErrinjType.errinjName := fun _ _ h =>
  Option.some.inj ((errinjTypeByName_iff.mpr rfl).symm.trans (errinjTypeByName_iff.mpr h.symm))

/-- `isspace` -/
def isSpace (b : UInt8) : Bool := b == 32 || (9 ≤ b && b ≤ 13)

/-- `isdigit` -/
def isDigit (b : UInt8) : Bool := 48 ≤ b && b ≤ 57

/-- The number whose digits stand at the front. -/
def leadingNumber (s : Bytes) : Int := (s.takeWhile isDigit).foldl (fun n b => 10 * n + (b.toNat - 48)) 0

/-- The number behind a sign. -/
def signedNumber (s : Bytes) : Int :=
  match s.dropWhile isSpace with
  | 45 :: digits => -leadingNumber digits
  | 43 :: digits => leadingNumber digits
  | digits => leadingNumber digits

def LONG_MAX : Int := 2 ^ 63 - 1

def LONG_MIN : Int := -2 ^ 63

/-- `strtol` in base 10: a number for which `long` has no place becomes the last one there is. -/
def strtol (s : Bytes) : Int := max LONG_MIN (min LONG_MAX (signedNumber s))

/-- `atoi` is `(int) strtol(s, NULL, 10)`. -/
def atoi (s : Bytes) : Int := (strtol s).bmod (2 ^ 32)

/-- Conversion to `unsigned int`. -/
def toUnsigned (x : Int) : Nat := (x % 2 ^ 32).toNat

/-- Only the last 32 bits of what `strtol` gives count. -/
theorem toUnsigned_atoi (s : Bytes) : toUnsigned (atoi s) = (strtol s % 2 ^ 32).toNat := by
  have hbmod : (strtol s).bmod (2 ^ 32) % 2 ^ 32 = strtol s % 2 ^ 32 := Int.bmod_emod
  rw [toUnsigned, atoi, hbmod]

/-- A number of `unsigned int` comes through. -/
theorem toUnsigned_atoi_of_lt {s : Bytes} {n : Nat} (hnumber : signedNumber s = n) (hlt : n < 2 ^ 32) :
    toUnsigned (atoi s) = n := by
  have hstrtol : strtol s = n := by
    rw [strtol, hnumber, LONG_MIN, LONG_MAX]
    omega
  rw [toUnsigned_atoi, hstrtol]
  omega

example : atoi (ascii " -12 percent") = -12 ∧ toUnsigned (atoi (ascii "70")) = 70 := by decide

example : toUnsigned (atoi (ascii "99999999999999999999")) = 4294967295 := by decide

/-- The arguments of a call of the handler. `section` is a word of Lean. -/
structure ConfCall where
  section_name : CString
  key : CString
  value : CString
  deriving DecidableEq

/-- Whether the allocations of a call succeed. -/
structure Allocs where
  calloc : Bool
  strdup : Bool
  deriving DecidableEq

/-- `strdup(value)` -/
def Allocs.copy (alloc : Allocs) (value : CString) : Option Bytes := if alloc.strdup then some value.bytes else none

/-- An entry fresh from `calloc`, with its type. -/
def ErrinjConf.zeroed (cur_type : ErrinjType) : ErrinjConf := ⟨none, none, 0, 0, cur_type⟩

/-- What the handler does with the entry once it has it: its result and the entry. -/
def setOption (alloc : Allocs) (key value : CString) (err : ErrinjConf) : Int × ErrinjConf :=
  if key.bytes = ascii "path_regexp" then (1, { err with path_regexp := alloc.copy value })
  else if key.bytes = ascii "op_regexp" then (1, { err with op_regexp := alloc.copy value })
  else if key.bytes = ascii "probability" then (1, { err with probability := toUnsigned (atoi value.bytes) })
  else if key.bytes = ascii "duration" then (1, { err with duration := toUnsigned (atoi value.bytes) })
  else (0, err)

/-- The first entry of the type is changed in place; without one, a new one is put at the end before the key is looked
at. -/
def confOptionHandler (alloc : Allocs) (cfg : List ErrinjConf) (call : ConfCall) : Int × List ErrinjConf :=
  match errinjTypeByName call.section_name.bytes with
  | none => (-1, cfg)
  | some cur_type =>
      match cfg.findIdx? fun np => np.type = cur_type with
      | some i => ((setOption alloc call.key call.value (cfg.getD i (.zeroed cur_type))).1,
          cfg.modify i fun err => (setOption alloc call.key call.value err).2)
      | none =>
          if alloc.calloc then ((setOption alloc call.key call.value (.zeroed cur_type)).1,
            cfg ++ [(setOption alloc call.key call.value (.zeroed cur_type)).2])
          else (-1, cfg)

section Handler

variable {alloc : Allocs} {cfg : List ErrinjConf} {call : ConfCall}

theorem handler_unknown (h : errinjTypeByName call.section_name.bytes = none) :
    confOptionHandler alloc cfg call = (-1, cfg) := by
  simp only [confOptionHandler, h]

variable {cur_type : ErrinjType} (h : errinjTypeByName call.section_name.bytes = some cur_type)

include h

theorem handler_found {i : Nat} (hfound : cfg.findIdx? (fun np => np.type = cur_type) = some i) :
    confOptionHandler alloc cfg call =
      ((setOption alloc call.key call.value (cfg.getD i (.zeroed cur_type))).1,
        cfg.modify i fun err => (setOption alloc call.key call.value err).2) := by
  simp only [confOptionHandler, h, hfound]

theorem handler_created (hnone : cfg.findIdx? (fun np => np.type = cur_type) = none) (hcalloc : alloc.calloc = true) :
    confOptionHandler alloc cfg call =
      ((setOption alloc call.key call.value (.zeroed cur_type)).1,
        cfg ++ [(setOption alloc call.key call.value (.zeroed cur_type)).2]) := by
  simp only [confOptionHandler, h, hnone, hcalloc, if_true]

theorem handler_out_of_memory (hnone : cfg.findIdx? (fun np => np.type = cur_type) = none)
    (hcalloc : alloc.calloc = false) : confOptionHandler alloc cfg call = (-1, cfg) := by
  simp only [confOptionHandler, h, hnone, hcalloc, Bool.false_eq_true, if_false]

end Handler

/-- `calloc` for the list may fail; a file that is not there leaves it empty; and one that cannot be opened, which is
`none` here, has it thrown away. What the handler returns does not stop the parser. -/
def configInit (calloc file_exists : Bool) (parsed : Option (List (Allocs × ConfCall))) : Option (List ErrinjConf) :=
  if calloc = false then none
  else if file_exists = false then some []
  else parsed.map fun calls => calls.foldl (fun cfg call => (confOptionHandler call.1 cfg call.2).2) []

/-- An option changes no type. -/
theorem setOption_type (alloc : Allocs) (key value : CString) (err : ErrinjConf) :
    (setOption alloc key value err).2.type = err.type := by
  unfold setOption
  split_ifs <;> rfl

end Bnfs
