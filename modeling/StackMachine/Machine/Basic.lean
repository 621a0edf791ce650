import StackMachine.Error
import StackMachine.Heap.Allocate
import StackMachine.Listing

/-!
# The machine

The state of the bytecode machine: a heap, a stack of values, a frame for every
active call, and the global variables, keyed by the interned object of their
name. Beside these it keeps what it has printed and what it has to report.

Values on the stack, the functions of frames, and the names and values of
globals are the roots of every collection.
-/

namespace StackMachine

/-- An active call. -/
structure Frame where
  function : Handle
  /-- The offset of the next byte to be read. -/
  ip : Nat := 0
  /-- Where the arguments start on the stack; the callee lies just below. -/
  base : Nat
  deriving DecidableEq, Repr

/-- The place of the callee on the stack. No call has its arguments at the
bottom, where there would be no place below them. -/
def Frame.calleeSlot? (f : Frame) : Option Nat :=
  if f.base = 0 then none else some (f.base - 1)

/-- Where printed lines go. -/
structure Output where
  lines : Array String := #[]
  /-- How many more lines can be written, if there is a bound. -/
  room : Option Nat := none
  /-- Why no more can be written then. -/
  refusal : String := "disk full"
  deriving Repr, Inhabited

namespace Output

/-- Writes a line, or answers why it cannot be written. -/
def writeLine (o : Output) (line : String) : Except String Output :=
  match o.room with
  | none => .ok { o with lines := o.lines.push line }
  | some 0 => .error o.refusal
  | some (room + 1) => .ok { o with lines := o.lines.push line, room := some room }

/-- All lines as one text, each with its end. -/
def text (o : Output) : String :=
  o.lines.foldl (fun text line => text ++ line ++ "\n") ""

end Output

/-- Which events are kept. -/
inductive LogScope where
  | nothing
  | instructions
  | everything
  deriving DecidableEq, Repr

/-- The events kept so far. -/
structure Journal where
  scope : LogScope := .nothing
  events : Array Event := #[]
  deriving Repr

namespace Journal

/-- Whether an event is to be kept. -/
def keeps (j : Journal) (e : Event) : Bool :=
  match j.scope with
  | .nothing => false
  | .instructions => e.isInstruction
  | .everything => true

def record (j : Journal) (e : Event) : Journal :=
  if j.keeps e then { j with events := j.events.push e } else j

def recordAll (j : Journal) (es : Array Event) : Journal :=
  es.foldl record j

end Journal

structure Machine where
  config : MachineConfig
  heap : Heap
  stack : Array Value := #[]
  /-- The active calls, the innermost last. -/
  frames : Array Frame := #[]
  globals : Std.HashMap Handle Value := {}
  output : Output := {}
  journal : Journal := {}
  world : World := {}

namespace Machine

/-- Everything that must survive a collection. -/
def roots (m : Machine) : List Handle :=
  handlesOf m.stack.toList ++ m.frames.toList.map Frame.function ++
    m.globals.toList.flatMap fun (name, value) => name :: value.handle?.toList

/-- The value of a global variable. -/
def global? (m : Machine) (name : String) : Option Value :=
  (m.heap.interned? name).bind (m.globals[·]?)

/-- A value as it is printed. -/
def display (m : Machine) (v : Value) : String :=
  v.text m.heap.describe?

/-- Forgets all values and calls. -/
def resetStacks (m : Machine) : Machine :=
  { m with stack := #[], frames := #[] }

def record (m : Machine) (e : Event) : Machine :=
  { m with journal := m.journal.record e }

/-- Takes over what a heap operation left. -/
def absorb {α : Type} (m : Machine) (effect : HeapEffect α) : α × Machine :=
  (effect.answer, { m with heap := effect.heap, journal := m.journal.recordAll effect.events })

/-- The machine in one line, for a host that wants to look at it. -/
def text (m : Machine) : String :=
  s!"Vm \x7b stack: {m.stack.size}, frames: {m.frames.size}, globals: {m.globals.size}, " ++
    s!"heap: {m.heap.text} \x7d"

/-! ## Interning and collecting with the machine's roots -/

def intern (m : Machine) (text : String) : Except OutOfMemory Handle × Machine :=
  m.absorb (m.heap.intern m.roots text)

def allocate (m : Machine) (o : Object) : Except OutOfMemory Handle × Machine :=
  m.absorb (m.heap.allocate m.roots o)

def allocateFunction (m : Machine) (name : Option Handle) (arity : UInt8) :
    Except OutOfMemory Handle × Machine :=
  m.allocate (.function { name, arity })

/-- Collects and answers how many objects were freed. -/
def collect (m : Machine) : Nat × Machine :=
  m.absorb (m.heap.collect m.roots)

def pin (m : Machine) (h : Handle) : Machine :=
  { m with heap := m.heap.pin h }

def unpin (m : Machine) (h : Handle) : Machine :=
  { m with heap := m.heap.unpin h }

/-- Changes a live function, if the handle stands for one. -/
def editFunction (m : Machine) (h : Handle) (edit : BytecodeFunction → BytecodeFunction) :
    Option Machine :=
  (m.heap.editFunction h edit).map fun effect => (m.absorb effect).2

end Machine

end StackMachine
