import StackMachine.Proofs.Chunk.Decoding
import StackMachine.Proofs.Chunk.Patching

/-!
# What a refusal leaves

An emission is refused when an operand would not fit its bytes. Three of the four that
can be refused look before they write: a constant that the pool has no place for and a
forward jump that leads too far leave the chunk as it was. A backward jump is measured
from behind its opcode, so the opcode has been written by the time the distance turns
out to be too large, and it is not taken back.

The chunk then ends in half an instruction. A listing shows it as cut off, and whatever
is emitted next is read as its distance.
-/

namespace StackMachine

namespace Chunk

/-- An emission at `c` is refused just if `condition` holds. The reason is then `cause`,
and what is left is `c'`. -/
def RefusedWhen {α : Type} (x : Emit α) (c : Chunk) (condition : Prop) (cause : EmitError)
    (c' : Chunk) : Prop :=
  ∀ why left, x c = .error (.refused why) left ↔ condition ∧ why = cause ∧ left = c'

/-- The chunk `c'` is `c` with the opcode of a backward jump behind it, and nothing else. -/
structure HalfLoop (c : Chunk) (line : Nat) (c' : Chunk) : Prop where
  code : c'.code = c.code.push Opcode.loop.toByte
  lines : c'.lines = c.lines.push line
  constants : c'.constants = c.constants
  /-- The places for the opcode and its line stay set aside. -/
  capacity : c'.capacity =
    { c.capacity with
      code := grown 8 c.capacity.code c.code.size
      lines := grown 4 c.capacity.lines c.lines.size }
  /-- There is no distance to be read. -/
  decoded : c'.decode c.size = .truncated .loop
  /-- The next two bytes are read as the distance, whatever they were meant for. -/
  swallows : ∀ high low line₁ line₂,
    ((c'.write high line₁).write low line₂).decode c.size = .instruction .loop (word high low)

variable {c : Chunk}

/-! ## Each emission on its own -/

theorem refusedWhen_of_error {α : Type} {x : Emit α} {condition : Prop} {cause : EmitError}
    {c' : Chunk} (hx : x c = .error (.refused cause) c') (h : condition) :
    RefusedWhen x c condition cause c' := by
  intro why left
  rw [hx]
  constructor
  · intro heq
    obtain ⟨hstop, hleft⟩ := EStateM.Result.error.inj heq
    exact ⟨h, (EmitStop.refused.inj hstop).symm, hleft.symm⟩
  · rintro ⟨-, rfl, rfl⟩
    rfl

theorem refusedWhen_of_not {α : Type} {x : Emit α} {condition : Prop} {cause : EmitError}
    {c' : Chunk} (hx : ∀ why left, x c ≠ .error (.refused why) left) (h : ¬ condition) :
    RefusedWhen x c condition cause c' :=
  fun why left => iff_of_false (hx why left) fun hc => h hc.1

theorem addConstant_refusedWhen (v : Value) (c : Chunk) :
    RefusedWhen (addConstant v) c (v ∉ c.constants ∧ maxConstants ≤ c.constants.size)
      .tooManyConstants c := by
  rcases addConstant_cases v c with ⟨i, hi, hok⟩ | ⟨_, hroom, hok⟩ | ⟨hv, hfull, herr⟩
  · refine refusedWhen_of_not (fun why left => by rw [hok]; exact nofun) fun hc => ?_
    exact hc.1 (Array.mem_of_getElem? hi)
  · exact refusedWhen_of_not (fun why left => by rw [hok]; exact nofun) fun hc => by omega
  · exact refusedWhen_of_error herr ⟨hv, hfull⟩

/-- The instruction comes after the constant, so it is not there if the constant is not. -/
theorem writeConstant_refusedWhen (v : Value) (line : Nat) (c : Chunk) :
    RefusedWhen (writeConstant v line) c (v ∉ c.constants ∧ maxConstants ≤ c.constants.size)
      .tooManyConstants c := by
  intro why left
  rw [← addConstant_refusedWhen v c why left]
  cases hadd : addConstant v c with
  | ok i c' =>
      rw [writeConstant_of_ok line hadd]
      exact iff_of_false nofun nofun
  | error stop c' => rw [writeConstant_of_error line hadd]

theorem patchJump_refusedWhen (offset : Nat) (c : Chunk) :
    RefusedWhen (patchJump offset) c
      (offset + 2 ≤ c.size ∧ maxDistance < c.size - offset - 2) .jumpTooFar c := by
  by_cases hin : offset + 2 ≤ c.size
  · have heq := patchJump_eq hin
    split at heq
    · rename_i hfar
      exact refusedWhen_of_error heq ⟨hin, hfar⟩
    · rename_i hnear
      exact refusedWhen_of_not (fun why left => by rw [heq]; exact nofun) fun hc => hnear hc.2
  · have hcrash : patchJump offset c = .error .crashed c := by
      simp only [patchJump, if_pos (Nat.not_le.mp hin)]
    exact refusedWhen_of_not (fun why left => by rw [hcrash]; simp) fun hc => hin hc.1

theorem emitLoop_refusedWhen (start line : Nat) (c : Chunk) :
    RefusedWhen (emitLoop start line) c
      (start ≤ c.size + 1 ∧ maxDistance < c.size + 3 - start) .loopTooLarge
      (c.writeOp .loop line) := by
  by_cases hin : start ≤ c.size + 1
  · have heq := emitLoop_eq line hin
    split at heq
    · rename_i hfar
      exact refusedWhen_of_error heq ⟨hin, hfar⟩
    · rename_i hnear
      exact refusedWhen_of_not (fun why left => by rw [heq]; exact nofun) fun hc => hnear hc.2
  · have hshort : (c.writeOp .loop line).size < start := by
      rw [writeOp, size_write]
      omega
    have hcrash : emitLoop start line c = .error .crashed (c.writeOp .loop line) := by
      simp only [emitLoop, if_pos hshort]
    exact refusedWhen_of_not (fun why left => by rw [hcrash]; simp) fun hc => hin hc.1

/-! ## Half an instruction -/

theorem byte?_write (c : Chunk) (b : UInt8) (line i : Nat) :
    (c.write b line).byte? i = if i = c.size then some b else c.byte? i :=
  Array.getElem?_push

theorem halfLoop (c : Chunk) (line : Nat) : c.HalfLoop line (c.writeOp .loop line) where
  code := rfl
  lines := rfl
  constants := rfl
  capacity := rfl
  decoded := by
    have hop : (c.writeOp .loop line).opcode? c.size = some .loop := by
      rw [opcode?, writeOp, byte?_write, if_pos rfl]
      exact Opcode.ofByte?_toByte .loop
    refine decode_truncated hop ?_
    rw [writeOp, size_write]
    exact Nat.lt_add_of_pos_right (by decide)
  swallows := by
    intro high low line₁ line₂
    have hcode : ∀ i, (((c.writeOp .loop line).write high line₁).write low line₂).byte? i =
        if i = c.size + 2 then some low else if i = c.size + 1 then some high
        else if i = c.size then some Opcode.loop.toByte else c.byte? i := by
      intro i
      simp only [byte?_write, writeOp, size_write]
    have hop := hcode c.size
    have hhigh := hcode (c.size + 1)
    have hlow := hcode (c.size + 2)
    rw [if_neg (by omega), if_neg (by omega), if_pos rfl] at hop
    rw [if_neg (by omega), if_pos rfl] at hhigh
    rw [if_pos rfl] at hlow
    simp only [decode, hop, Opcode.ofByte?_toByte, operand?, Opcode.operandWidth, word?, hhigh, hlow]

/-- **What a refusal leaves.** Pooling a constant, loading one and filling in a distance
leave the chunk as it was when they are refused. A backward jump is refused just if its
distance is too large, and leaves half an instruction. -/
theorem refusal_leaves (c : Chunk) :
    (∀ v, RefusedWhen (addConstant v) c
      (v ∉ c.constants ∧ maxConstants ≤ c.constants.size) .tooManyConstants c) ∧
    (∀ v line, RefusedWhen (writeConstant v line) c
      (v ∉ c.constants ∧ maxConstants ≤ c.constants.size) .tooManyConstants c) ∧
    (∀ offset, RefusedWhen (patchJump offset) c
      (offset + 2 ≤ c.size ∧ maxDistance < c.size - offset - 2) .jumpTooFar c) ∧
    ∀ start line, ∃ c', c.HalfLoop line c' ∧ RefusedWhen (emitLoop start line) c
      (start ≤ c.size + 1 ∧ maxDistance < c.size + 3 - start) .loopTooLarge c' :=
  ⟨fun v => addConstant_refusedWhen v c, fun v line => writeConstant_refusedWhen v line c,
    fun offset => patchJump_refusedWhen offset c,
    fun start line => ⟨_, halfLoop c line, emitLoop_refusedWhen start line c⟩⟩

/-- Code of `n` instructions that push nil. -/
def nils (n : Nat) : Chunk :=
  emitted {} (List.replicate n (.writeOp .pushNil 1))

theorem size_nils (n : Nat) : (nils n).size = n := by
  induction n with
  | zero => rfl
  | succ n ih =>
      rw [nils, List.replicate_succ', emitted_append]
      exact (size_write ..).trans (congrArg (· + 1) ih)

/-- A loop around 65533 bytes is refused, and the code is one byte longer afterwards. -/
theorem refused_loop_leaves_opcode :
    ∃ c', emitLoop 0 1 (nils 65533) = .error (.refused .loopTooLarge) c' ∧
      (nils 65533).size = 65533 ∧ c'.size = 65534 ∧ c'.code ≠ (nils 65533).code := by
  have hsize := size_nils 65533
  have hlonger : ((nils 65533).writeOp .loop 1).size = 65534 := by rw [writeOp, size_write, hsize]
  refine ⟨(nils 65533).writeOp .loop 1, ?_, hsize, hlonger, fun hsame => ?_⟩
  · rw [emitLoop_eq 1 (Nat.zero_le _), if_pos (by rw [hsize]; decide)]
  · have hequal : ((nils 65533).writeOp .loop 1).size = (nils 65533).size := congrArg Array.size hsame
    omega

end Chunk

end StackMachine
