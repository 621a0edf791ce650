import StackMachine.Chunk.Decode
import StackMachine.Object

/-!
# Listings

A chunk in readable form, one instruction a line: its offset, its source line
(a bar where that is the line of the byte before), the opcode and what its
operand stands for.

    == add ==
    0000    1 CONSTANT            0 '1'
    0002    | CONSTANT            1 '2'
    0004    | ADD
    0005    2 RETURN
-/

namespace StackMachine

/-- Fills a text up on the left. -/
def alignRight (fill : Char) (width : Nat) (s : String) : String :=
  String.ofList (List.replicate (width - s.length) fill) ++ s

/-- Fills a text up with blanks on the right. -/
def alignLeft (width : Nat) (s : String) : String :=
  s ++ String.ofList (List.replicate (width - s.length) ' ')

namespace Chunk

/-- The column that holds the source line. -/
def lineColumn (c : Chunk) (offset : Nat) : String :=
  match c.line? offset with
  | none => "   ?"
  | some line =>
    if 0 < offset ∧ c.line? (offset - 1) = some line then "   |"
    else alignRight ' ' 4 (toString line)

/-- Where a jump leads, given the offset behind it. It may lead out of the code
on either side. -/
def jumpTarget (op : Opcode) (next distance : Nat) : Int :=
  match op with
  | .loop => (next : Int) - distance
  | _ => (next : Int) + distance

/-- A constant as an operand shows it. -/
def constantText (c : Chunk) (describe : Handle → Option Description) (index : Nat) : String :=
  match c.constant? index with
  | some v => v.text describe
  | none => "<out of range>"

/-- An instruction without the offset and the line in front of it. -/
def instructionText (c : Chunk) (describe : Handle → Option Description) (offset : Nat) : String :=
  match c.decode offset with
  | .pastEnd => "<end>"
  | .unknown b => s!"Unknown opcode {b}"
  | .truncated op => alignLeft 16 op.name ++ " <truncated>"
  | .instruction op n =>
    let name := alignLeft 16 op.name
    let operand := alignRight ' ' 4 (toString n)
    match op with
    | .constant | .getGlobal | .defineGlobal | .setGlobal =>
      let shown := c.constantText describe n
      s!"{name} {operand} '{shown}'"
    | .getLocal | .setLocal | .call => s!"{name} {operand}"
    | .jump | .jumpIfFalse | .loop =>
      let source := alignRight ' ' 4 (toString offset)
      let target := jumpTarget op (offset + 1 + op.operandWidth) n
      s!"{name} {source} -> {target}"
    | _ => op.name

/-- One line of a listing. -/
def listingLine (c : Chunk) (describe : Handle → Option Description) (offset : Nat) : String :=
  let place := alignRight '0' 4 (toString offset)
  let line := c.lineColumn offset
  let instruction := c.instructionText describe offset
  s!"{place} {line} {instruction}"

/-- The offset of the instruction behind the one at `offset`. -/
def nextOffset (c : Chunk) (offset : Nat) : Nat :=
  (c.decode offset).next offset

/-- One line of a listing with its end, and the offset of the next one. Offsets
are words of 64 bits, so the last of them has no next one. -/
def listed? (c : Chunk) (describe : Handle → Option Description) (offset : Nat) :
    Option (String × Nat) :=
  let next := c.nextOffset offset
  if next < Nat.pow 2 64 then some (c.listingLine describe offset ++ "\n", next) else none

/-- The offsets at which a listing from `offset` on has a line. -/
def offsetsFrom (c : Chunk) (offset : Nat) : List Nat :=
  if offset < c.size then offset :: c.offsetsFrom (c.nextOffset offset) else []
termination_by c.size - offset
decreasing_by
  have := Decoded.lt_next offset (c.decode offset)
  unfold nextOffset
  omega

/-- A chunk in readable form under a heading. -/
def listing (c : Chunk) (describe : Handle → Option Description) (name : String) : String :=
  (c.offsetsFrom 0).foldl (fun text offset => text ++ c.listingLine describe offset ++ "\n")
    s!"== {name} ==\n"

end Chunk

end StackMachine
