import StackMachine.Chunk.Basic

/-!
# Emitting code

What a compiler does to a chunk: append bytes, pool constants, leave room for a
forward jump and fill it in later, jump back to an earlier offset.

An emission can end in three ways. It succeeds; it is refused, because an
operand would not fit its bytes; or it crashes, because the caller named an
offset that the code does not have. Whatever was appended before a refusal or a
crash stays in the chunk.
-/

namespace StackMachine

/-- Why an emission is refused. -/
inductive EmitError where
  | tooManyConstants
  | jumpTooFar
  | loopTooLarge
  deriving DecidableEq, Repr

def EmitError.message : EmitError → String
  | tooManyConstants => "Too many constants in one chunk."
  | jumpTooFar => "Too much code to jump over."
  | loopTooLarge => "Loop body too large."

/-- How an emission ends without a result. -/
inductive EmitStop where
  | refused (cause : EmitError)
  | crashed
  deriving DecidableEq, Repr

/-- An emission: it reads and extends a chunk, which it hands back however it
ends. -/
abbrev Emit := EStateM EmitStop Chunk

namespace Chunk

/-- The largest distance two operand bytes can hold. -/
def maxDistance : Nat := 65535

/-- How many constants one operand byte can tell apart. -/
def maxConstants : Nat := 256

def highByte (n : Nat) : UInt8 := (n / 256).toUInt8

def lowByte (n : Nat) : UInt8 := n.toUInt8

/-- Appends a byte that belongs to a source line. -/
def write (c : Chunk) (b : UInt8) (line : Nat) : Chunk :=
  let capacity :=
    { c.capacity with
      code := grown 8 c.capacity.code c.code.size
      lines := grown 4 c.capacity.lines c.lines.size }
  { c with code := c.code.push b, lines := c.lines.push line, capacity }

def writeOp (c : Chunk) (op : Opcode) (line : Nat) : Chunk :=
  c.write op.toByte line

/-- Appends an opcode and a one-byte operand. -/
def writeOpByte (c : Chunk) (op : Opcode) (operand : UInt8) (line : Nat) : Chunk :=
  (c.writeOp op line).write operand line

/-- Appends a constant to the pool. -/
def pushConstant (c : Chunk) (v : Value) : Chunk :=
  let capacity :=
    { c.capacity with constants := grown 4 c.capacity.constants c.constants.size }
  { c with constants := c.constants.push v, capacity }

/-- Puts a constant into the pool, unless it is there already, and gives its
index. -/
def addConstant (v : Value) : Emit UInt8 := fun c =>
  match c.constants.idxOf? v with
  | some i => .ok i.toUInt8 c
  | none =>
    if c.constants.size < maxConstants then
      .ok c.constants.size.toUInt8 (c.pushConstant v)
    else .error (.refused .tooManyConstants) c

/-- Pools a constant and appends the instruction that loads it. -/
def writeConstant (v : Value) (line : Nat) : Emit UInt8 := do
  let i ← addConstant v
  modify (·.writeOpByte .constant i line)
  return i

/-- Appends a jump with a distance to be filled in, and gives the offset of that
distance. -/
def emitJump (op : Opcode) (line : Nat) : Emit Nat := fun c =>
  let c := ((c.writeOp op line).write 0xff line).write 0xff line
  .ok (c.size - 2) c

/-- Fills in the distance at an offset so that the jump lands at the end of the
code. -/
def patchJump (offset : Nat) : Emit Unit := fun c =>
  if c.size < offset + 2 then .error .crashed c
  else
    let distance := c.size - offset - 2
    if maxDistance < distance then .error (.refused .jumpTooFar) c
    else
      let code := c.code.setIfInBounds offset (highByte distance)
      .ok () { c with code := code.setIfInBounds (offset + 1) (lowByte distance) }

/-- Appends a jump back to an earlier offset. -/
def emitLoop (start line : Nat) : Emit Unit := fun c =>
  let c := c.writeOp .loop line
  if c.size < start then .error .crashed c
  else
    let distance := c.size - start + 2
    if maxDistance < distance then .error (.refused .loopTooLarge) c
    else .ok () ((c.write (highByte distance) line).write (lowByte distance) line)

end Chunk

end StackMachine
