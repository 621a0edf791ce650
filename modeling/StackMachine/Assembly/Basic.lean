import StackMachine.Chunk.Emit

/-!
# Assembly

Code for a chunk as a list of items. An item emits an instruction or a constant,
sets the source line of what follows, or names a place in the code for a jump to
be aimed at. Constants may be given by their text or by a name that the host has
bound to a value.
-/

namespace StackMachine

/-- A value in assembly. -/
inductive Operand where
  | value (v : Value)
  /-- The interned string with this content. -/
  | text (s : String)
  /-- The value that the host has bound to a name. -/
  | named (name : String)
  deriving DecidableEq, Repr

/-- A place in the code. -/
inductive Place where
  | label (name : String)
  | offset (n : Nat)
  deriving DecidableEq, Repr

inductive Item where
  | bare (op : Opcode)
  | withByte (op : Opcode) (operand : UInt8)
  | line (n : Nat)
  | bytes (bs : List UInt8)
  /-- Pools a constant and loads it. -/
  | load (v : Operand)
  /-- Pools a constant. -/
  | pool (v : Operand)
  /-- An instruction on the global variable with this name. -/
  | global (op : Opcode) (name : String)
  | jump (op : Opcode) (label : String)
  /-- Aims the jump at this place at the end of the code. -/
  | patch (place : Place)
  | label (name : String)
  | loop (place : Place)
  | times (n : Nat) (body : List Item)

inductive AssemblyError where
  | unbound (name : String)
  | noLabel (name : String)
  | stopped (cause : EmitStop)
  deriving DecidableEq, Repr

/-- A chunk in the making. -/
structure Assembly where
  chunk : Chunk := {}
  line : Nat := 1
  labels : List (String × Nat) := []

/-- What texts and names in assembly stand for. -/
structure Symbols where
  strings : List (String × Handle) := []
  names : String → Option Value := fun _ => none

abbrev Assemble := EStateM AssemblyError Assembly

namespace Symbols

/-- The value of an operand. -/
def resolve (s : Symbols) : Operand → Except AssemblyError Value
  | .value v => .ok v
  | .text t =>
    match s.strings.lookup t with
    | some h => .ok (.object h)
    | none => .error (.unbound t)
  | .named n =>
    match s.names n with
    | some v => .ok v
    | none => .error (.unbound n)

end Symbols

namespace Assemble

variable {α : Type}

/-- Emits into the chunk. -/
def emit (e : Emit α) : Assemble α := fun a =>
  match e a.chunk with
  | .ok x chunk => .ok x { a with chunk }
  | .error cause chunk => .error (.stopped cause) { a with chunk }

/-- Appends to the chunk, at the current line. -/
def write (f : Chunk → Nat → Chunk) : Assemble Unit :=
  modify fun a => { a with chunk := f a.chunk a.line }

def orStop : Except AssemblyError α → Assemble α
  | .ok a => pure a
  | .error e => throw e

/-- The offset of a place. -/
def offsetOf : Place → Assemble Nat
  | .offset n => pure n
  | .label name => fun a =>
    match a.labels.lookup name with
    | some n => .ok n a
    | none => .error (.noLabel name) a

def bindLabel (name : String) (offset : Nat) : Assemble Unit :=
  modify fun a => { a with labels := (name, offset) :: a.labels }

/-- Repeats an action, up to the first failure. -/
def repeated (action : Assemble Unit) : Nat → Assemble Unit
  | 0 => pure ()
  | n + 1 => do
    action
    repeated action n

end Assemble

open Assemble in
mutual

/-- Applies an item. What pools a constant answers its index, and a jump answers
the offset to be patched. -/
def Item.apply (s : Symbols) : Item → Assemble (Option Nat)
  | .bare op => do
    write (·.writeOp op)
    return none
  | .withByte op operand => do
    write (·.writeOpByte op operand)
    return none
  | .line n => do
    modify ({ · with line := n })
    return none
  | .bytes bs => do
    write fun c line => bs.foldl (·.write · line) c
    return none
  | .load v => do
    let v ← orStop (s.resolve v)
    return some (← emit (Chunk.writeConstant v (← get).line)).toNat
  | .pool v => do
    let v ← orStop (s.resolve v)
    return some (← emit (Chunk.addConstant v)).toNat
  | .global op name => do
    let v ← orStop (s.resolve (.text name))
    let index ← emit (Chunk.addConstant v)
    write (·.writeOpByte op index)
    return some index.toNat
  | .jump op name => do
    let offset ← emit (Chunk.emitJump op (← get).line)
    bindLabel name offset
    return some offset
  | .patch place => do
    emit (Chunk.patchJump (← offsetOf place))
    return none
  | .label name => do
    bindLabel name (← get).chunk.size
    return none
  | .loop place => do
    emit (Chunk.emitLoop (← offsetOf place) (← get).line)
    return none
  | .times n body => do
    repeated (Item.applyAll s body) n
    return none

/-- Applies items in order, up to the first failure. -/
def Item.applyAll (s : Symbols) : List Item → Assemble Unit
  | [] => pure ()
  | item :: rest => do
    let _ ← item.apply s
    Item.applyAll s rest

end

/-- The text of an operand that is given by one. -/
def Operand.texts : Operand → List String
  | .text s => [s]
  | _ => []

mutual

/-- The texts that an item mentions, in order; a repeated body counts once. -/
def Item.texts : Item → List String
  | .load v | .pool v => v.texts
  | .global _ name => [name]
  | .times _ body => Item.textsAll body
  | _ => []

def Item.textsAll : List Item → List String
  | [] => []
  | item :: rest => item.texts ++ Item.textsAll rest

end

end StackMachine
