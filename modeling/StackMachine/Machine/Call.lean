import StackMachine.Machine.Exec

/-!
# Calls

The callee lies on the stack below its arguments. Calling a bytecode function
gives it a frame whose locals start at the arguments. A native function runs at
once, and its result takes the place of callee and arguments.
-/

namespace StackMachine

namespace Exec

/-- Answers the requests of a native function until it is done. -/
def runPrimitive : Primitive → Exec (Except String Value)
  | .done result => pure result
  | .inspect next => fun m => runPrimitive (next m.heap.view) m
  | .intern text next => fun m =>
    let (answer, m) := m.intern text
    runPrimitive (next answer) m
  | .look next => fun m => runPrimitive (next m.world.now) { m with world := m.world.later }

/-- Fails unless a callee gets as many arguments as it expects. -/
def checkArity (expected got : Nat) : Exec Unit :=
  if got = expected then pure () else fail (.arityMismatch expected got)

/-- Where the `argc` arguments on top of the stack start. -/
def argumentStart (argc : Nat) : Exec Nat := do
  let size := (← get).stack.size
  if argc ≤ size then pure (size - argc) else crash

def pushFrame (f : Frame) : Exec Unit := fun m =>
  .ok () { m with frames := m.frames.push f }

def callFunction (function : Handle) (arity argc : Nat) : Exec Unit := do
  checkArity arity argc
  let m ← get
  if m.frames.size < m.config.maxFrames then
    pushFrame { function, base := ← argumentStart argc }
  else fail .stackOverflow

def callNative (native : NativeFunction) (argc : Nat) : Exec Unit := do
  checkArity native.arity.toNat argc
  let start ← argumentStart argc
  let arguments := (← get).stack.extract start
  match ← runPrimitive (native.body arguments) with
  | .error text => fail (.native text)
  | .ok result =>
    -- the callee below the arguments goes too
    if start = 0 then crash
    else
      truncate (start - 1)
      push result

/-- Calls a value with the arguments on top of the stack. -/
def callValue (callee : Value) (argc : Nat) : Exec Unit := do
  let heap := (← get).heap
  match callee with
  | .object h =>
    match heap.get? h with
    | some (.function f) => callFunction h f.arity.toNat argc
    | some (.native n) => callNative n argc
    | some (.string _) => fail (.notCallable ObjectKind.string.typeName)
    | none => corrupt (.deadCallee h)
  | _ => fail (.notCallable (callee.typeName heap.describe?))

/-- Leaves the innermost call with a result. -/
def ret : Exec Unit := do
  let result ← pop
  let f ← frame
  modify fun m => { m with frames := m.frames.pop }
  match f.calleeSlot? with
  | none => crash
  | some slot =>
    truncate slot
    if (← get).frames.isEmpty then throw (.returned result) else push result

end Exec

end StackMachine
