import StackMachine.Chunk.Basic

/-!
# Decoding

Reading one instruction at an offset, for the listing and for execution alike.
Any byte string can be read at any offset, so the reader names the three ways in
which there is no instruction to be read.
-/

namespace StackMachine

/-- What stands at an offset of a chunk. -/
inductive Decoded where
  /-- The offset lies behind the code. -/
  | pastEnd
  | unknown (byte : UInt8)
  /-- Some of the operand bytes are missing. -/
  | truncated (op : Opcode)
  | instruction (op : Opcode) (operand : Nat)
  deriving DecidableEq, Repr

namespace Chunk

/-- The operand of an opcode at `offset`, or `none` if its bytes are not all
there. An opcode without operand bytes has operand 0. -/
def operand? (c : Chunk) (offset : Nat) (op : Opcode) : Option Nat :=
  match op.operandWidth with
  | 0 => some 0
  | 1 => (c.byte? (offset + 1)).map UInt8.toNat
  | _ => c.word? (offset + 1)

def decode (c : Chunk) (offset : Nat) : Decoded :=
  match c.byte? offset with
  | none => .pastEnd
  | some b =>
    match Opcode.ofByte? b with
    | none => .unknown b
    | some op =>
      match c.operand? offset op with
      | none => .truncated op
      | some n => .instruction op n

end Chunk

/-- The offset behind an instruction. What is no instruction counts as one byte,
and an operand counts in full even where bytes of it are missing. -/
def Decoded.next (offset : Nat) : Decoded → Nat
  | pastEnd | unknown _ => offset + 1
  | truncated op | instruction op _ => offset + 1 + op.operandWidth

theorem Decoded.lt_next (offset : Nat) (d : Decoded) : offset < d.next offset := by
  cases d <;> simp [Decoded.next] <;> omega

end StackMachine
