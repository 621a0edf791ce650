import StackMachine.Listing

/-!
# What stands at an offset

Decoding is settled by the bytes: the byte at the offset is an opcode or it is not, and
the bytes of the operand are all there or they are not. In each case the listing has a
line of its own kind.
-/

namespace StackMachine

namespace Chunk

variable {c : Chunk} {offset : Nat} {op : Opcode}

/-- The opcode at an offset, if the byte there is one. -/
def opcode? (c : Chunk) (offset : Nat) : Option Opcode :=
  (c.byte? offset).bind Opcode.ofByte?

theorem lt_size_of_byte? {b : UInt8} (h : c.byte? offset = some b) : offset < c.size :=
  (Array.getElem?_eq_some_iff.mp h).1

theorem byte?_isSome_iff : (c.byte? offset).isSome ↔ offset < c.size := by
  simp [byte?, size]

theorem word?_isSome_iff : (c.word? offset).isSome ↔ offset + 1 < c.size := by
  have hboth : (c.word? offset).isSome ↔
      (c.byte? offset).isSome ∧ (c.byte? (offset + 1)).isSome := by
    unfold word?
    cases c.byte? offset <;> cases c.byte? (offset + 1) <;> simp
  rw [hboth, byte?_isSome_iff, byte?_isSome_iff]
  omega

/-- An operand can be read if all of its bytes are there. -/
theorem operand?_isSome_iff (h : offset < c.size) :
    (c.operand? offset op).isSome ↔ offset + 1 + op.operandWidth ≤ c.size := by
  have hwidth : op.operandWidth = 0 ∨ op.operandWidth = 1 ∨ op.operandWidth = 2 := by
    cases op <;> decide
  rcases hwidth with hw | hw | hw
  · simp only [operand?, hw]
    exact iff_of_true rfl h
  · simp only [operand?, hw, Option.isSome_map, byte?_isSome_iff]
    omega
  · simp only [operand?, hw, word?_isSome_iff]
    omega

theorem lt_size_of_opcode? (h : c.opcode? offset = some op) : offset < c.size := by
  obtain ⟨b, hb, _⟩ := Option.bind_eq_some_iff.mp h
  exact lt_size_of_byte? hb

theorem decode_unknown {b : UInt8} (hb : c.byte? offset = some b) (hop : Opcode.ofByte? b = none) :
    c.decode offset = .unknown b := by
  simp only [decode, hb, hop]

theorem decode_truncated (hop : c.opcode? offset = some op)
    (hsize : c.size < offset + 1 + op.operandWidth) : c.decode offset = .truncated op := by
  have hmissing : ¬ (c.operand? offset op).isSome := by
    rw [operand?_isSome_iff (lt_size_of_opcode? hop)]
    omega
  obtain ⟨b, hb, hop⟩ := Option.bind_eq_some_iff.mp hop
  simp only [decode, hb, hop, Option.not_isSome_iff_eq_none.mp hmissing]

theorem decode_instruction (hop : c.opcode? offset = some op)
    (hsize : offset + 1 + op.operandWidth ≤ c.size) : ∃ n, c.decode offset = .instruction op n := by
  have hthere := (operand?_isSome_iff (lt_size_of_opcode? hop)).mpr hsize
  obtain ⟨n, hn⟩ := Option.isSome_iff_exists.mp hthere
  obtain ⟨b, hb, hop⟩ := Option.bind_eq_some_iff.mp hop
  exact ⟨n, by simp only [decode, hb, hop, hn]⟩

/-- An instruction lies within its code, operand included. -/
theorem decode_inside {n : Nat} (h : c.decode offset = .instruction op n) :
    offset + 1 + op.operandWidth ≤ c.size := by
  unfold decode at h
  split at h
  · exact absurd h (by simp)
  · rename_i b hb
    split at h
    · exact absurd h (by simp)
    · split at h
      · exact absurd h (by simp)
      · rename_i k hk
        obtain ⟨rfl, rfl⟩ := Decoded.instruction.inj h
        exact (operand?_isSome_iff (lt_size_of_byte? hb)).mp (by rw [hk]; rfl)

/-! ## The line of a listing -/

/-- What the listing has at an offset: a line that shows `shown`, and `next` as the offset
of the line after it. -/
structure Lists (c : Chunk) (describe : Handle → Option Description) (offset : Nat)
    (shown : String) (next : Nat) : Prop where
  line : c.listingLine describe offset =
    alignRight '0' 4 (toString offset) ++ " " ++ c.lineColumn offset ++ " " ++ shown
  next : c.nextOffset offset = next

variable {describe : Handle → Option Description}

theorem lists_of {shown : String} {d : Decoded} (hd : c.decode offset = d)
    (hshown : c.instructionText describe offset = shown) :
    c.Lists describe offset shown (d.next offset) where
  line := by
    simp only [listingLine, hshown]
    rfl
  next := by rw [nextOffset, hd]

theorem lists_unknown {b : UInt8} (hd : c.decode offset = .unknown b) :
    c.Lists describe offset ("Unknown opcode " ++ toString b) (offset + 1) :=
  lists_of hd (by simp only [instructionText, hd]; rfl)

theorem lists_truncated (hd : c.decode offset = .truncated op) :
    c.Lists describe offset (alignLeft 16 op.name ++ " <truncated>")
      (offset + 1 + op.operandWidth) :=
  lists_of hd (by simp only [instructionText, hd])

/-- The line of a jump shows where it leads. -/
theorem lists_jump {n : Nat} (hd : c.decode offset = .instruction op n)
    (hop : op = .jump ∨ op = .jumpIfFalse ∨ op = .loop) :
    c.Lists describe offset
      (alignLeft 16 op.name ++ " " ++ alignRight ' ' 4 (toString offset) ++ " -> " ++
        toString (jumpTarget op (offset + 1 + op.operandWidth) n))
      (offset + 1 + op.operandWidth) := by
  refine lists_of hd ?_
  rcases hop with rfl | rfl | rfl
  · simp only [instructionText, hd]
    rfl
  · simp only [instructionText, hd]
    rfl
  · simp only [instructionText, hd]
    rfl

end Chunk

end StackMachine
