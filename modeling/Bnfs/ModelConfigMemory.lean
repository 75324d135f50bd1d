import Bnfs.ConfigCalls
import Bnfs.TheoryTailq

/-! The configuration of the error injection as it stands in memory: `unreliablefs_errinj.c` again, block by block. The
loops over the entries are cut off after a number of turns. The calls the parser makes for a file are those of its
meaning. -/

namespace Bnfs.InMemory

open Commands Memory Tailq

/-- `struct errinj_conf`, its strings by their addresses. -/
structure Entry where
  op_regexp : Option Nat
  path_regexp : Option Nat
  probability : Nat
  duration : Nat
  type : ErrinjType
  deriving DecidableEq

/-- What else there is in memory: strings, and what error injection uses of `struct unreliablefs_config`. -/
inductive Data where
  | string (s : Bytes)
  | config (errors configPath : Option Nat)
  deriving DecidableEq

abbrev ConfBlock := Block Entry Data

abbrev ConfProg := HeapProg ConfBlock

def string : ConfBlock → Option Bytes
  | .other (.string s) => some s
  | _ => none

def errors : ConfBlock → Option (Option Nat)
  | .other (.config errors _) => some errors
  | _ => none

def configPath : ConfBlock → Option (Option Nat)
  | .other (.config _ path) => some path
  | _ => none

def setErrors (errors : Option Nat) : ConfBlock → Option ConfBlock
  | .other (.config _ path) => some (.other (.config errors path))
  | _ => none

def setConfigPath (path : Option Nat) : ConfBlock → Option ConfBlock
  | .other (.config errors _) => some (.other (.config errors path))
  | _ => none

/-- An assignment to a field of an entry. -/
def setField (change : Entry → Entry) (b : ConfBlock) : Option ConfBlock := b.item.bind fun e => b.setItem (change e)

/-- `none` for NULL, which is no string. -/
def loadString : Option Nat → ConfProg (Option Bytes)
  | none => pure none
  | some a => do pure (some (← loadAs string a))

def strdup (alloc : Allocs) (value : CString) : ConfProg (Option Nat) :=
  if alloc.strdup then do pure (some (← Memory.alloc (.other (.string value.bytes))))
  else pure none

def setPathRegexp (alloc : Allocs) (value : CString) (err : Nat) : ConfProg Unit := do
  freeIfAny (← loadAs Block.item err).path_regexp
  let copy ← strdup alloc value
  assign (setField fun e => { e with path_regexp := copy }) err

def setOpRegexp (alloc : Allocs) (value : CString) (err : Nat) : ConfProg Unit := do
  freeIfAny (← loadAs Block.item err).op_regexp
  let copy ← strdup alloc value
  assign (setField fun e => { e with op_regexp := copy }) err

/-- The second half of the handler. -/
def setOption (alloc : Allocs) (key value : CString) (err : Nat) : ConfProg Int :=
  if key.bytes = ascii "path_regexp" then do
    setPathRegexp alloc value err
    pure 1
  else if key.bytes = ascii "op_regexp" then do
    setOpRegexp alloc value err
    pure 1
  else if key.bytes = ascii "probability" then do
    assign (setField fun e => { e with probability := toUnsigned (atoi value.bytes) }) err
    pure 1
  else if key.bytes = ascii "duration" then do
    assign (setField fun e => { e with duration := toUnsigned (atoi value.bytes) }) err
    pure 1
  else pure 0

/-- The first loop of the handler, from one entry on. -/
def findEntry (cur_type : ErrinjType) : Nat → Option Nat → ConfProg (Option Nat)
  | 0, _ => .fault
  | _ + 1, none => pure none
  | turns + 1, some np => do
      if (← loadAs Block.item np).type = cur_type then pure (some np)
      else
        let next ← tailqNext np
        findEntry cur_type turns next

/-- What `calloc` makes of an entry. -/
def Entry.zero : Entry := ⟨none, none, 0, 0, .errno⟩

def confOptionHandler (turns : Nat) (alloc : Allocs) (cfg : Nat) (call : ConfCall) : ConfProg Int :=
  match errinjTypeByName call.section_name.bytes with
  | none => pure (-1)
  | some cur_type => do
      let first ← tailqFirst cfg
      match ← findEntry cur_type turns first with
      | some err => setOption alloc call.key call.value err
      | none =>
          if alloc.calloc then do
            let err ← Memory.alloc (.elm none none Entry.zero)
            assign (setField fun e => { e with type := cur_type }) err
            tailqInsertTail cfg err
            setOption alloc call.key call.value err
          else pure (-1)

/-- What a load meets: whether the list can be allocated, whether the file is there, what is in it if it can be opened, and
how the allocations of each call of the handler end. -/
structure Load where
  calloc : Bool
  file_exists : Bool
  file : Option Bytes
  allocs : Nat → Allocs

/-- The calls of the parser, from the n-th one on. -/
def handleAll (turns : Nat) (allocs : Nat → Allocs) (errors : Nat) : Nat → List ConfCall → ConfProg Unit
  | _, [] => pure ()
  | n, call :: rest => do
      let _ ← confOptionHandler turns (allocs n) errors call
      handleAll turns allocs errors (n + 1) rest

def configInit (turns : Nat) (load : Load) : ConfProg (Option Nat) :=
  if load.calloc = false then pure none
  else do
    let errors ← Memory.alloc (.head none none)
    tailqInit errors
    if load.file_exists then
      match load.file with
      | none => pure none
      | some file =>
          handleAll turns load.allocs errors 0 (fileCalls file)
          pure (some errors)
    else pure (some errors)

/-- The loop of `config_delete`. -/
def deleteEntries (errors : Nat) : Nat → ConfProg Unit
  | 0 => .fault
  | turns + 1 => do
      match ← tailqFirst errors with
      | none => pure ()
      | some err =>
          freeIfAny (← loadAs Block.item err).path_regexp
          freeIfAny (← loadAs Block.item err).op_regexp
          tailqRemove errors err
          free err
          deleteEntries errors turns

def configDelete (turns : Nat) : Option Nat → ConfProg Unit
  | none => pure ()
  | some errors => do
      deleteEntries errors turns
      free errors

section Inject

variable [PosixRegex]

/-- The body of the loop of `error_inject`, at the k-th entry. -/
def injectEntry (draws : Draws) (path : Bytes) (op : FuseOp) (k err : Nat) (rc : Int) : ConfProg Int := do
  if randRange (draws.chance k) MIN_PROBABLITY MAX_PROBABLITY ≤ (← loadAs Block.item err).probability then
    let path_regexp ← loadString (← loadAs Block.item err).path_regexp
    if isRegexMatched path_regexp path = 0 then
      let op_regexp ← loadString (← loadAs Block.item err).op_regexp
      if isRegexMatched op_regexp op.fuseOpName = 0 then
        let type := (← loadAs Block.item err).type
        pure (type.apply (opRandomErrno draws.past (draws.choice k) op) rc)
      else pure rc
    else pure rc
  else pure rc

/-- The loop from the k-th entry on. -/
def injectEntries (draws : Draws) (path : Bytes) (op : FuseOp) : Nat → Nat → Option Nat → Int → ConfProg Int
  | 0, _, _, _ => .fault
  | _ + 1, _, none, rc => pure rc
  | turns + 1, k, some err, rc => do
      let rc ← injectEntry draws path op k err rc
      let next ← tailqNext err
      injectEntries draws path op turns (k + 1) next rc

/-- The arguments of a call of `error_inject`, the numbers drawn in it, and what it meets if it loads the file. -/
structure Call where
  path : Bytes
  operation : FuseOp
  draws : Draws
  load : Load

/-- What `error_inject` does while it holds the mutex. -/
def errorInject (turns conf : Nat) (call : Call) : ConfProg Int := do
  match ← loadAs configPath conf with
  | none => .fault
  | some path =>
      if call.path = (← loadAs string path) then
        configDelete turns (← loadAs errors conf)
        let loaded ← configInit turns call.load
        assign (setErrors loaded) conf
        pure 0
      else
        match ← loadAs errors conf with
        | none => pure 0
        | some list =>
            let first ← tailqFirst list
            injectEntries call.draws call.path call.operation turns 0 first 0

end Inject

/-- What `main` does to memory before the file system starts, once `malloc` has given it the path of the file. The address
of `conf`. -/
def mainStart (turns : Nat) (path : Bytes) (load : Load) : ConfProg Nat := do
  let conf ← Memory.alloc (.other (.config none none))
  let copy ← Memory.alloc (.other (.string path))
  assign (setConfigPath (some copy)) conf
  let loaded ← configInit turns load
  assign (setErrors loaded) conf
  pure conf

/-- The end of `main`. -/
def mainCleanup (turns conf : Nat) : ConfProg Unit := do
  configDelete turns (← loadAs errors conf)
  freeIfAny (← loadAs configPath conf)

end Bnfs.InMemory
