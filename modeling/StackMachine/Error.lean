import StackMachine.Object

/-!
# Errors

Everything that can end a run early, as causes; the wording of each stands in
one place. A runtime error is the program's own fault and leaves the machine
usable. A fatal error is not: memory ran out, the bytecode makes no sense, or
the output failed.
-/

namespace StackMachine

/-- What a running program did wrong. -/
inductive RuntimeFault where
  | typeMismatch (text : String)
  | undefinedVariable (name : String)
  | arityMismatch (expected got : Nat)
  | notCallable (typeName : String)
  | stackOverflow
  | native (text : String)
  deriving DecidableEq, Repr

def RuntimeFault.message : RuntimeFault → String
  | typeMismatch text => text
  | undefinedVariable name => s!"Undefined variable '{name}'."
  | arityMismatch expected got => s!"Expected {expected} arguments but got {got}."
  | notCallable _ => "Can only call functions and classes."
  | stackOverflow => "Stack overflow."
  | native text => text

/-- A place in the source: a line, and the function it belongs to unless it is
in the script itself. -/
structure TraceEntry where
  function : Option String
  line : Nat
  deriving DecidableEq, Repr

def TraceEntry.text (e : TraceEntry) : String :=
  match e.function with
  | some name => s!"[line {e.line}] in {name}()"
  | none => s!"[line {e.line}] in script"

/-- A fault and where it happened, the innermost call first. -/
structure RuntimeError where
  fault : RuntimeFault
  line : Nat
  trace : List TraceEntry
  deriving DecidableEq, Repr

namespace RuntimeError

/-- The innermost place of the fault. -/
def location (e : RuntimeError) : TraceEntry :=
  e.trace.head?.getD ⟨none, e.line⟩

def message (e : RuntimeError) : String :=
  s!"{e.fault.message}\n{e.location.text}"

/-- The fault followed by every active call. -/
def report (e : RuntimeError) : String :=
  e.trace.foldl (fun text entry => s!"{text}\n{entry.text}") e.fault.message

end RuntimeError

/-- Why bytecode cannot be executed. -/
inductive Corruption where
  | noFrame
  | noFunction
  | pointerOutside
  | unknownOpcode (byte : UInt8)
  | constantOutOfRange (index : Nat)
  | nameNotString
  | localOutOfRange (slot : Nat)
  | jumpOutside
  | stackUnderflow
  | deadCallee (callee : Handle)
  /-- A corruption that the host found, in its own words. -/
  | reported (text : String)
  deriving DecidableEq, Repr

def Corruption.message : Corruption → String
  | noFrame => "no active call frame"
  | noFunction => "frame does not reference a function"
  | pointerOutside => "instruction pointer outside the chunk"
  | unknownOpcode byte => s!"unknown opcode {byte}"
  | constantOutOfRange index => s!"constant index {index} out of range"
  | nameNotString => "global name constant is not a string"
  | localOutOfRange slot => s!"local slot {slot} out of range"
  | jumpOutside => "jump target outside the chunk"
  | stackUnderflow => "value stack underflow"
  | deadCallee callee => s!"callee {callee.text} is not a live object"
  | reported text => text

inductive Error where
  | compile (text : String)
  | runtime (error : RuntimeError)
  | outOfMemory (error : OutOfMemory)
  | corruptBytecode (offset : Nat) (cause : Corruption)
  | output (text : String)
  deriving DecidableEq, Repr

namespace Error

def message : Error → String
  | compile text => text
  | runtime e => e.message
  | outOfMemory e => e.message
  | corruptBytecode offset cause => s!"Corrupt bytecode at offset {offset}: {cause.message}"
  | output text => s!"Output error: {text}"

/-- Whether the machine should not be used any further. -/
def isFatal : Error → Bool
  | compile _ | runtime _ => false
  | outOfMemory _ | corruptBytecode _ _ | output _ => true

/-- The exit code with which a command should report the error. -/
def exitCode : Error → Nat
  | compile _ => 65
  | runtime _ => 70
  | outOfMemory _ | corruptBytecode _ _ | output _ => 71

end Error

end StackMachine
