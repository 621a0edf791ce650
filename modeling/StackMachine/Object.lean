import StackMachine.Chunk.Basic
import StackMachine.Config

/-!
# Heap objects

Strings, functions compiled to bytecode, and native functions that the host
supplies. A native function runs a `Primitive`: a small program that may look at
the heap and at the world outside, intern strings, and ends in a value or an
error text. It has no other way to touch the heap.

What a native function sees of the world differs from one look to the next: the
time moves, and the host may keep any state of its own. None of this is known to
the machine, so the world is a sequence of moments that is given from outside,
and every look takes the next one.
-/

namespace StackMachine

inductive ObjectKind where
  | string
  | function
  | native
  deriving DecidableEq, Repr

/-- The kind as a program sees it. -/
def ObjectKind.typeName : ObjectKind → String
  | string => "string"
  | function => "function"
  | native => "native function"

/-- The kind as the log names it. -/
def ObjectKind.tag : ObjectKind → String
  | string => "String"
  | function => "Function"
  | native => "NativeFunction"

/-- A function compiled to bytecode. The name is the handle of a string; a
script has none. -/
structure BytecodeFunction where
  name : Option Handle := none
  arity : UInt8 := 0
  chunk : Chunk := {}
  deriving DecidableEq, Inhabited

/-- What can be read of an object. -/
inductive Description where
  | string (text : String)
  | function (f : BytecodeFunction)
  | native (name : String) (arity : UInt8)

namespace Description

def kind : Description → ObjectKind
  | string _ => .string
  | function _ => .function
  | native _ _ => .native

/-- The bytes that an object is charged for beside its slot. -/
def payload : Description → Nat
  | string s => s.utf8ByteSize
  | function f => f.chunk.footprint
  | native name _ => name.utf8ByteSize

/-- The objects that an object keeps alive: a function's name, then the objects
in its constant pool. -/
def children : Description → List Handle
  | function f => f.name.toList ++ handlesOf f.chunk.constants.toList
  | _ => []

/-- The content of a string. -/
def string? : Description → Option String
  | string s => some s
  | _ => none

end Description

namespace Value

/-- The name of a value's type, given what its handle stands for. A handle that
stands for nothing any more is just an object. -/
def typeName (describe : Handle → Option Description) : Value → String
  | nil => "nil"
  | bool _ => "bool"
  | number _ => "number"
  | object h =>
    match describe h with
    | some d => d.kind.typeName
    | none => "object"

/-- A value as it is printed. -/
def text (describe : Handle → Option Description) : Value → String
  | nil => "null"
  | bool true => "true"
  | bool false => "false"
  | number n => n.text
  | object h =>
    match describe h with
    | some (.string s) => s
    | some (.function f) =>
      match f.name.bind fun name => (describe name).bind Description.string? with
      | some name => s!"<fn {name}>"
      | none => "<script>"
    | some (.native name _) => s!"<native fn {name}>"
    | none => s!"<freed {h.text}>"

end Value

/-- An allocation that the heap's limit does not admit. -/
structure OutOfMemory where
  requested : Nat
  limit : Nat
  deriving DecidableEq, Repr

def OutOfMemory.message (e : OutOfMemory) : String :=
  s!"Out of memory: requested {e.requested} bytes with a limit of {e.limit} bytes"

/-- Counts over the life of a heap. -/
structure HeapStats where
  collections : Nat := 0
  allocated : Nat := 0
  freed : Nat := 0
  bytesFreed : Nat := 0
  peakBytes : Nat := 0
  deriving DecidableEq, Repr

/-- What a heap shows to those who may read it only. -/
structure HeapView where
  config : HeapConfig
  stats : HeapStats
  bytes : Nat
  threshold : Nat
  objectCount : Nat
  internedCount : Nat
  freeCount : Nat
  describe : Handle → Option Description
  interned? : String → Option Handle

/-- What the world shows to one look at it. -/
structure Moment where
  /-- The time in nanoseconds since the epoch, below zero before it. -/
  time : Int := 0
  /-- All else that a native function goes by, such as a state that its host
  keeps from one call to the next, as one number. -/
  hidden : Nat := 0
  deriving DecidableEq, Repr, Inhabited

/-- The world outside the machine, from one look at it to the next. -/
structure World where
  moments : Nat → Moment := fun _ => {}
  /-- How often it has been looked at. -/
  looks : Nat := 0
  deriving Inhabited

namespace World

/-- What the next look shows. -/
def now (w : World) : Moment :=
  w.moments w.looks

/-- The world after a look. -/
def later (w : World) : World :=
  { w with looks := w.looks + 1 }

end World

/-- What a native function does, one request to the machine after the other. -/
inductive Primitive where
  | done (result : Except String Value)
  | inspect (next : HeapView → Primitive)
  | intern (text : String) (next : Except OutOfMemory Handle → Primitive)
  | look (next : Moment → Primitive)

/-- A function that the host supplies. -/
structure NativeFunction where
  name : String
  arity : UInt8
  body : Array Value → Primitive

/-- A native function as messages show it. -/
def NativeFunction.text (n : NativeFunction) : String :=
  s!"NativeFunction({n.name}/{n.arity})"

inductive Object where
  | string (text : String)
  | function (f : BytecodeFunction)
  | native (n : NativeFunction)

namespace Object

def describe : Object → Description
  | string s => .string s
  | function f => .function f
  | native n => .native n.name n.arity

def kind (o : Object) : ObjectKind :=
  o.describe.kind

def children (o : Object) : List Handle :=
  o.describe.children

/-- The bytes charged for the slot of an object, whatever it holds. -/
def slotCost : Nat := 104

/-- The bytes an object is charged for in all. -/
def cost (o : Object) : Nat :=
  slotCost + o.describe.payload

end Object

end StackMachine
