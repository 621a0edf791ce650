import StackMachine.Assembly.Basic
import StackMachine.Heap.Allocate

/-!
# Loading

Turning assembly into functions on a heap. The strings that the code mentions are
interned first, and pinned for as long as nothing else keeps them alive; however
loading ends, no pin of its own is left behind.
-/

namespace StackMachine

inductive LoadError where
  | outOfMemory (error : OutOfMemory)
  | assembly (error : AssemblyError)
  deriving DecidableEq, Repr

/-- A piece of loading: it works on a heap and reports events. -/
abbrev Loading := EStateM LoadError (Heap × Array Event)

namespace Loading

variable {α : Type}

/-- Does a heap operation. -/
def perform (op : Heap → HeapEffect α) : Loading α := fun (h, events) =>
  let effect := op h
  .ok effect.answer (effect.heap, events ++ effect.events)

/-- Does a heap operation that can run out of memory. -/
def store (op : Heap → HeapEffect (Except OutOfMemory Handle)) : Loading Handle := do
  match ← perform op with
  | .ok h => pure h
  | .error e => throw (.outOfMemory e)

/-- Keeps an object alive throughout an action. -/
def pinned (handle : Handle) (action : Loading α) : Loading α := fun (h, events) =>
  match action (h.pin handle, events) with
  | .ok a (h, events) => .ok a (h.unpin handle, events)
  | .error e (h, events) => .error e (h.unpin handle, events)

/-- Interns texts in order and keeps them alive throughout an action, which is
told what they stand for. A text given twice stands for what was interned last. -/
def withStrings (roots : List Handle) (strings : List (String × Handle))
    (action : List (String × Handle) → Loading α) : List String → Loading α
  | [] => action strings
  | text :: rest => do
    let handle ← store (·.intern roots text)
    pinned handle (withStrings roots ((text, handle) :: strings) action rest)

/-- Applies items to a chunk. The chunk is answered even if an item fails. -/
def applied (symbols : Symbols) (items : List Item) (chunk : Chunk) :
    Chunk × Except LoadError Unit :=
  match Item.applyAll symbols items { chunk } with
  | .ok () a => (a.chunk, .ok ())
  | .error e a => (a.chunk, .error (.assembly e))

def orStop : Except LoadError α → Loading α
  | .ok a => pure a
  | .error e => throw e

/-- The object that an operand stands for, if it is one. -/
def objectOf (symbols : Symbols) (v : Operand) : Loading (Option Handle) := do
  return (← orStop ((symbols.resolve v).mapError .assembly)).handle?

/-- The chunk that items describe. -/
def chunk (symbols : Symbols) (items : List Item) : Loading Chunk := do
  let (chunk, result) := applied symbols items {}
  orStop result
  return chunk

/-- Assembles a chunk whose strings are free to go again. -/
def assemble (roots : List Handle) (names : String → Option Value) (items : List Item) :
    Loading Chunk :=
  withStrings roots [] (fun strings => chunk { strings, names } items) (Item.textsAll items)

/-- Changes a live function. -/
def edit (function : Handle) (f : BytecodeFunction → BytecodeFunction) : Loading Unit :=
  fun (h, events) =>
    match h.editFunction function f with
    | some effect => .ok () (effect.heap, events ++ effect.events)
    | none => .ok () (h, events)

/-- Stores a function with the code that items describe. Its name is looked up
once the code is assembled, when the strings of the code are free to go again. -/
def wrap (roots : List Handle) (names : String → Option Value) (name : Operand) (arity : UInt8)
    (items : List Item) : Loading Handle := do
  let chunk ← assemble roots names items
  let name ← objectOf { names } name
  store (·.allocate roots (.function { name, arity, chunk }))

/-- Appends code to a live function, and answers the length of its code. The
function is looked up once the strings of the code are in place. What was
appended before an item failed stays. -/
def append (roots : List Handle) (names : String → Option Value) (function : Operand)
    (items : List Item) : Loading (Option Nat) :=
  withStrings roots []
    (fun strings => do
      let symbols : Symbols := { strings, names }
      let some function ← objectOf symbols function | return none
      let some f := (← get).1.function? function | return none
      let (chunk, result) := applied symbols items f.chunk
      edit function ({ · with chunk })
      orStop result
      return some chunk.size)
    (Item.textsAll items)

/-- Interns the name of a function and keeps it alive throughout an action. -/
def withName (roots : List Handle) (name : Option String)
    (action : Option Handle → Loading α) : Loading α := do
  match name with
  | none => action none
  | some text =>
    let handle ← store (·.intern roots text)
    pinned handle (action (some handle))

/-- Stores a function with the code that items describe, and pins it if it is to
be kept. -/
def load (roots : List Handle) (names : String → Option Value) (name : Option String)
    (arity : UInt8) (items : List Item) (keep : Bool) : Loading Handle :=
  withStrings roots []
    (fun strings => do
      let chunk ← chunk { strings, names } items
      withName roots name fun name => do
        let function ← store (·.allocateFunction roots name arity)
        edit function ({ · with chunk })
        if keep then modify fun (h, events) => (h.pin function, events)
        return function)
    (Item.textsAll items)

/-- Does some loading on a heap. -/
def on (h : Heap) (action : Loading α) : HeapEffect (Except LoadError α) :=
  match action (h, #[]) with
  | .ok a (h, events) => ⟨.ok a, h, events⟩
  | .error e (h, events) => ⟨.error e, h, events⟩

end Loading

end StackMachine
