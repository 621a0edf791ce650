import StackMachine.Machine.Step
import StackMachine.Natives

/-!
# Runs

A run executes instructions until the machine halts. It need not halt at all, so
it is given the number of instructions it may execute; a run that halts does the
same with any larger number.
-/

namespace StackMachine

/-- How a run ends. -/
inductive Outcome where
  | finished (value : Value)
  | failed (error : Error)
  | crashed
  /-- The run did not halt within its number of instructions. -/
  | unfinished
  deriving DecidableEq, Repr

/-- Why a machine cannot be started. -/
inductive StartError where
  | outOfMemory (error : OutOfMemory)
  /-- There cannot be a table for all its frames. -/
  | crashed
  deriving DecidableEq, Repr

namespace Machine

/-- The values on the stack from the bottom up. -/
def stackText (m : Machine) : String :=
  m.stack.foldl (fun text v => text ++ "[ " ++ m.display v ++ " ]") ""

/-- The report of the instruction about to be executed, if there is one. -/
def instructionEvent? (m : Machine) : Option Event := do
  let f ← m.frames.back?
  let function ← m.heap.function? f.function
  return .executing (function.chunk.listingLine m.heap.describe? f.ip) m.stackText

/-- Reports the instruction about to be executed, if anyone wants to know. -/
def recordInstruction (m : Machine) : Machine :=
  match m.journal.scope with
  | .nothing => m
  | _ =>
    match m.instructionEvent? with
    | some e => m.record e
    | none => m

/-- Executes up to `fuel` instructions. Without a reason to halt the machine
could go on. -/
def steps : (fuel : Nat) → Machine → Option Halt × Machine
  | 0, m => (none, m)
  | fuel + 1, m =>
    match Exec.step m.recordInstruction with
    | .ok () m => m.steps fuel
    | .error halt m => (some halt, m)

/-- Calls a function without arguments on an empty stack. A native function has
its result at once. -/
def enter (function : Handle) : Exec Unit := do
  Exec.push (.object function)
  Exec.callValue (.object function) 0
  if (← get).frames.isEmpty then throw (.returned (← Exec.pop))

/-- Reports how the machine halted, and clears the stacks after an error. -/
def conclude (m : Machine) : Halt → Outcome × Machine
  | .returned v => (.finished v, m.record (.runEnded (m.display v) m.heap.objectCount m.heap.bytes))
  | .failed (.runtime e) =>
    (.failed (.runtime e), (m.record (.runtimeError e.fault.message e.line)).resetStacks)
  | .failed e => (.failed e, (m.record (.fatalError e.message)).resetStacks)
  | .crashed => (.crashed, m)

/-- Runs a function that takes no arguments. -/
def runFunction (m : Machine) (fuel : Nat) (function : Handle) : Outcome × Machine :=
  let m := m.resetStacks.record (.runBegun function m.globals.size)
  match enter function m with
  | .error halt m => m.conclude halt
  | .ok () m =>
    match m.steps fuel with
    | (some halt, m) => m.conclude halt
    | (none, m) => (.unfinished, m)

/-- Runs a chunk as a script. -/
def run (m : Machine) (fuel : Nat) (chunk : Chunk) : Outcome × Machine :=
  match m.allocate (.function { chunk }) with
  | (.ok function, m) => m.runFunction fuel function
  | (.error e, m) => (.failed (.outOfMemory e), m)

/-! ## Native functions and the start -/

/-- Makes a native function the value of a global. Its name is pinned while the
function is stored, because nothing else keeps it alive yet. -/
def defineNative (m : Machine) (native : NativeFunction) : Except OutOfMemory Unit × Machine :=
  match m.intern native.name with
  | (.error e, m) => (.error e, m)
  | (.ok key, m) =>
    let (answer, m) := (m.pin key).allocate (.native native)
    let m := m.unpin key
    match answer with
    | .error e => (.error e, m)
    | .ok h =>
      let m := { m with globals := m.globals.insert key (.object h) }
      (.ok (), m.record (.nativeDefined native.name native.arity))

/-- A machine with nothing but the standard native functions, if they are
wanted. The table of frames is set up at its full length. -/
def start (config : MachineConfig) (output : Output := {}) (scope : LogScope := .nothing)
    (world : World := {}) : Except StartError Machine :=
  let m : Machine :=
    { config, heap := Heap.empty config.heap, output, journal := { scope }, world }
  if !config.hasFrameTable then .error .crashed
  else if config.registerBuiltins then
    match m.defineNative NativeFunction.clock with
    | (.ok (), m) => .ok m
    | (.error e, _) => .error (.outOfMemory e)
  else .ok m

end Machine

end StackMachine
