import StackMachine.Value
import StackMachine.Opcode

/-!
# Chunks

A chunk is compiled code: bytes, the source line of every byte, and the pool of
constants that one-byte operands index. Its footprint is what the heap charges
for it, which is the places set aside for its three lists and not the items in
them. A list that is full sets aside twice as many places, and no fewer than a
small first allotment; a copy of a chunk has just the places that it needs.
-/

namespace StackMachine

/-- The places that a chunk has set aside for its three lists. -/
structure Capacity where
  code : Nat := 0
  lines : Nat := 0
  constants : Nat := 0
  deriving DecidableEq, Inhabited

structure Chunk where
  code : Array UInt8 := #[]
  lines : Array Nat := #[]
  constants : Array Value := #[]
  capacity : Capacity := {}
  deriving DecidableEq, Inhabited

namespace Chunk

/-- The length of the code in bytes. -/
def size (c : Chunk) : Nat :=
  c.code.size

def isEmpty (c : Chunk) : Bool :=
  c.code.isEmpty

def byte? (c : Chunk) (offset : Nat) : Option UInt8 :=
  c.code[offset]?

def line? (c : Chunk) (offset : Nat) : Option Nat :=
  c.lines[offset]?

def constant? (c : Chunk) (index : Nat) : Option Value :=
  c.constants[index]?

/-- Two bytes as one number, the high byte first. -/
def word (high low : UInt8) : Nat :=
  high.toNat * 256 + low.toNat

/-- The two bytes at an offset as one number. -/
def word? (c : Chunk) (offset : Nat) : Option Nat :=
  match c.byte? offset, c.byte? (offset + 1) with
  | some high, some low => some (word high low)
  | _, _ => none

/-- The places a list has set aside once another item is in it, if it held `size`
items before and had `capacity` places. The first allotment holds `first`. -/
def grown (first capacity size : Nat) : Nat :=
  if size < capacity then capacity else max first (2 * capacity)

/-- The bytes a chunk is charged for: one for each place in the code, eight for
a line and sixteen for a constant. -/
def footprint (c : Chunk) : Nat :=
  c.capacity.code + 8 * c.capacity.lines + 16 * c.capacity.constants

/-- A copy of a chunk, with no place to spare. -/
def copy (c : Chunk) : Chunk :=
  { c with capacity := ⟨c.code.size, c.lines.size, c.constants.size⟩ }

end Chunk

end StackMachine
