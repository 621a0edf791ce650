import StackMachine.Machine.Basic

/-!
# Executing

The steps that instructions are made of: pushing and popping values, reading
from the chunk of the innermost call, and the errors that any of them can end in.

An action changes the machine and may halt it. It halts with the result of the
outermost call, with an error, or by crashing, which means that a place on the
stack did not exist although an earlier check should have made sure of it.
-/

namespace StackMachine

/-- Why the machine stops. -/
inductive Halt where
  | returned (value : Value)
  | failed (error : Error)
  | crashed
  deriving DecidableEq, Repr

/-- An action of the machine. -/
abbrev Exec := EStateM Halt Machine

namespace Machine

/-- The place that a frame is about to leave: the line of the last byte it read. -/
def traceEntry (m : Machine) (f : Frame) : TraceEntry :=
  match m.heap.function? f.function with
  | some function =>
    ⟨function.name.bind m.heap.string?, (function.chunk.line? (f.ip - 1)).getD 0⟩
  | none => ⟨none, 0⟩

/-- A fault with one trace entry for each active call. -/
def runtimeError (m : Machine) (fault : RuntimeFault) : RuntimeError :=
  let trace := m.frames.toList.reverse.map m.traceEntry
  ⟨fault, (trace.head?.map TraceEntry.line).getD 0, trace⟩

/-- The offset of the byte read last. -/
def lastOffset (m : Machine) : Nat :=
  (m.frames.back?.map (·.ip - 1)).getD 0

end Machine

namespace Exec

variable {α : Type}

def crash : Exec α := fun m =>
  .error .crashed m

/-- Ends with a fault of the program. -/
def fail (fault : RuntimeFault) : Exec α := fun m =>
  .error (.failed (.runtime (m.runtimeError fault))) m

/-- Ends because the bytecode makes no sense at `offset`. -/
def corruptAt (offset : Nat) (cause : Corruption) : Exec α := fun m =>
  .error (.failed (.corruptBytecode offset cause)) m

/-- Ends because the bytecode makes no sense where it was read last. -/
def corrupt (cause : Corruption) : Exec α := fun m =>
  corruptAt m.lastOffset cause m

/-- Goes on with the result of an operator, or fails with its message. -/
def orMismatch : Except OperandError α → Exec α
  | .ok a => pure a
  | .error e => fail (.typeMismatch e.message)

/-! ## The stack -/

def push (v : Value) : Exec Unit := fun m =>
  if m.stack.size < m.config.maxStack then .ok () { m with stack := m.stack.push v }
  else fail .stackOverflow m

def pop : Exec Value := fun m =>
  match m.stack.back? with
  | some v => .ok v { m with stack := m.stack.pop }
  | none => corrupt .stackUnderflow m

/-- The value `distance` places below the top. -/
def peek (distance : Nat) : Exec Value := fun m =>
  if m.stack.size < distance + 1 then corrupt .stackUnderflow m
  else
    match m.stack[m.stack.size - (distance + 1)]? with
    | some v => .ok v m
    | none => crash m

/-- Drops every value from place `size` on. -/
def truncate (size : Nat) : Exec Unit := fun m =>
  .ok () { m with stack := m.stack.take size }

def getSlot (slot : Nat) : Exec Value := fun m =>
  match m.stack[slot]? with
  | some v => .ok v m
  | none => crash m

def setSlot (slot : Nat) (v : Value) : Exec Unit := fun m =>
  if slot < m.stack.size then .ok () { m with stack := m.stack.setIfInBounds slot v }
  else crash m

/-! ## The innermost call -/

def frame : Exec Frame := fun m =>
  match m.frames.back? with
  | some f => .ok f m
  | none => corruptAt 0 .noFrame m

/-- Moves the innermost call on to an offset. -/
def setPointer (ip : Nat) : Exec Unit := fun m =>
  .ok () { m with frames := m.frames.modify (m.frames.size - 1) ({ · with ip }) }

/-- The function that is being executed. -/
def function : Exec BytecodeFunction := do
  let f ← frame
  match (← get).heap.function? f.function with
  | some function => pure function
  | none => corruptAt f.ip .noFunction

/-- Reads the next instruction and moves behind it. -/
def fetch : Exec (Opcode × Nat) := do
  let f ← frame
  match (← get).heap.function? f.function with
  | none => corruptAt f.ip .pointerOutside
  | some function =>
    match function.chunk.decode f.ip with
    | .pastEnd => corruptAt f.ip .pointerOutside
    | .unknown b => corruptAt f.ip (.unknownOpcode b)
    | .truncated _ => corruptAt function.chunk.size .pointerOutside
    | .instruction op n =>
      setPointer (f.ip + 1 + op.operandWidth)
      pure (op, n)

/-- The constant that an operand names. -/
def constant (index : Nat) : Exec Value := do
  match (← function).chunk.constant? index with
  | some v => pure v
  | none => corrupt (.constantOutOfRange index)

/-- The constant that an operand names, which must be a live string. -/
def name (index : Nat) : Exec Handle := do
  match ← constant index with
  | .object h => if ((← get).heap.string? h).isSome then pure h else corrupt .nameNotString
  | _ => corrupt .nameNotString

/-- The place on the stack of a local variable. -/
def localSlot (n : Nat) : Exec Nat := do
  let slot := (← frame).base + n
  if slot < (← get).stack.size then pure slot else corrupt (.localOutOfRange n)

/-- Goes on at a target, which may be the very end of the code. -/
def jumpTo (target : Int) : Exec Unit := do
  let size := (← function).chunk.size
  if 0 ≤ target ∧ target ≤ size then setPointer target.toNat else corrupt .jumpOutside

/-- Jumps by the distance that an operand gives. -/
def jump (op : Opcode) (distance : Nat) : Exec Unit := do
  jumpTo (Chunk.jumpTarget op (← frame).ip distance)

/-! ## Globals, output and strings -/

/-- Fails because no global has this name. -/
def undefined (name : Handle) : Exec α := fun m =>
  fail (.undefinedVariable ((m.heap.string? name).getD "")) m

def setGlobal (name : Handle) (v : Value) : Exec Unit := fun m =>
  .ok () { m with globals := m.globals.insert name v }

/-- Writes a value as a line of output. -/
def print (v : Value) : Exec Unit := fun m =>
  match m.output.writeLine (m.display v) with
  | .ok output => .ok () { m with output }
  | .error text => .error (.failed (.output text)) m

def intern (text : String) : Exec Handle := fun m =>
  match m.intern text with
  | (.ok h, m) => .ok h m
  | (.error e, m) => .error (.failed (.outOfMemory e)) m

end Exec

end StackMachine
