import StackMachine.Proofs.Chunk.Decoding
import StackMachine.Proofs.Chunk.Patching

/-!
# Decoding what was emitted

A chunk that is built of whole instructions is listed as it was built. The listing comes
to every instruction, in the order in which they were asked for, and to no other offset;
each is shown with the opcode, the operand, the constant and the line that were given;
and the listing ends where the code ends.

Every emission appends one instruction or none, so the offset behind an instruction is
the offset of the next one. Distances that are filled in later change neither an opcode
nor an operand of one byte.
-/

namespace StackMachine

/-- An instruction as a compiler asks for it. -/
structure Request where
  op : Opcode
  operand : Option UInt8 := none
  constant : Option Value := none
  line : Nat
  deriving DecidableEq

/-- The instruction that an emission asks for. -/
def Emission.request? : Emission → Option Request
  | writeOp op line => some { op, line }
  | writeOpByte op operand line => some { op, operand := some operand, line }
  | writeConstant v line => some { op := .constant, constant := some v, line }
  | emitJump op line => some { op, line }
  | emitLoop _ line => some { op := .loop, line }
  | write _ _ | addConstant _ | patchJump _ => none

def Emit.succeeds {α : Type} (x : Emit α) (c : Chunk) : Bool :=
  match x c with
  | .ok _ _ => true
  | .error _ _ => false

/-- Whether an emission succeeds and appends nothing but a whole instruction. -/
def Emission.orderly (c : Chunk) : Emission → Bool
  | write _ _ => false
  | writeOp op _ => op.operandWidth == 0
  | writeOpByte op _ _ => op.operandWidth == 1
  | addConstant v => Emit.succeeds (Chunk.addConstant v) c
  | writeConstant v line => Emit.succeeds (Chunk.writeConstant v line) c
  | emitJump op _ => op == .jump || op == .jumpIfFalse
  | patchJump offset => Emit.succeeds (Chunk.patchJump offset) c
  | emitLoop start line => Emit.succeeds (Chunk.emitLoop start line) c

namespace Chunk

/-- Whether every emission of a sequence is orderly. -/
def orderly : Chunk → List Emission → Bool
  | _, [] => true
  | c, e :: es => e.orderly c && (e.apply c).orderly es

/-- The instructions that a sequence of emissions asks for, with the offsets at which they
are appended. -/
def requests : Chunk → List Emission → List (Nat × Request)
  | _, [] => []
  | c, e :: es => (e.request?.map fun r => (c.size, r)).toList ++ (e.apply c).requests es

/-- A listing from `offset` on has lines at `offsets` and ends at `last`. -/
inductive Visits (c : Chunk) : (offset : Nat) → (offsets : List Nat) → (last : Nat) → Prop where
  | done {offset : Nat} : c.size ≤ offset → Visits c offset [] offset
  | line {offset last : Nat} {offsets : List Nat} : offset < c.size →
      Visits c (c.nextOffset offset) offsets last → Visits c offset (offset :: offsets) last

/-- What stands at an offset is read as it was asked for. -/
structure Reads (c : Chunk) (offset : Nat) (r : Request) : Prop where
  decoded : ∃ n, c.decode offset = .instruction r.op n ∧
    (∀ b, r.operand = some b → n = b.toNat) ∧ ∀ v, r.constant = some v → c.constant? n = some v
  lines : ∀ k ≤ r.op.operandWidth, c.line? (offset + k) = some r.line

/-- The bytes at an offset are those of an instruction as it was asked for. -/
structure Stores (c : Chunk) (offset : Nat) (r : Request) : Prop where
  opcode : c.byte? offset = some r.op.toByte
  operand : ∀ b, r.operand = some b → r.op.operandWidth = 1 ∧ c.byte? (offset + 1) = some b
  constant : ∀ v, r.constant = some v → r.op.operandWidth = 1 ∧
    ∃ b, c.byte? (offset + 1) = some b ∧ c.constant? b.toNat = some v
  lines : ∀ k ≤ r.op.operandWidth, c.line? (offset + k) = some r.line
  inside : offset + 1 + r.op.operandWidth ≤ c.size

variable {c c' : Chunk} {e : Emission} {es before later : List Emission} {r : Request}
  {offset last : Nat} {offsets : List Nat}

theorem Visits.offsetsFrom (h : c.Visits offset offsets last) :
    c.offsetsFrom offset = offsets := by
  induction h with
  | done hend => rw [Chunk.offsetsFrom, if_neg (by omega)]
  | line hlt _ ih => rw [Chunk.offsetsFrom, if_pos hlt, ih]

/-! ## From bytes to instructions -/

theorem decode_byte {op : Opcode} {b : UInt8} (hwidth : op.operandWidth = 1)
    (hop : c.byte? offset = some op.toByte) (hb : c.byte? (offset + 1) = some b) :
    c.decode offset = .instruction op b.toNat := by
  simp only [decode, hop, Opcode.ofByte?_toByte, operand?, hwidth, hb, Option.map_some]

theorem Stores.reads (h : c.Stores offset r) : c.Reads offset r := by
  have hop : c.opcode? offset = some r.op := by
    rw [opcode?, h.opcode, Option.bind_some, Opcode.ofByte?_toByte]
  obtain ⟨n, hd⟩ := decode_instruction hop h.inside
  refine ⟨⟨n, hd, fun b hb => ?_, fun v hv => ?_⟩, h.lines⟩
  · obtain ⟨hwidth, hbyte⟩ := h.operand b hb
    exact (Decoded.instruction.inj (hd.symm.trans (decode_byte hwidth h.opcode hbyte))).2
  · obtain ⟨hwidth, b, hbyte, hconst⟩ := h.constant v hv
    have hn := (Decoded.instruction.inj (hd.symm.trans (decode_byte hwidth h.opcode hbyte))).2
    rw [hn]
    exact hconst

/-! ## One emission -/

theorem lines_writeAll (c : Chunk) (bytes : List UInt8) (line : Nat) :
    (c.writeAll bytes line).lines = c.lines ++ Array.replicate bytes.length line := by
  induction bytes generalizing c with
  | nil => exact Array.append_empty.symm
  | cons b bytes ih =>
      have hstep : c.writeAll (b :: bytes) line = (c.write b line).writeAll bytes line := rfl
      have hlines : (c.write b line).lines = c.lines ++ #[line] := Array.push_eq_append
      rw [hstep, ih, hlines, Array.append_assoc]
      simp [Array.replicate_succ']

/-- What an emission appends for the instruction that it asks for: `pooled` is the chunk
with the constant in its pool, and `bytes` are those of the operand. -/
structure Appends (c : Chunk) (r : Request) (c' pooled : Chunk) (bytes : List UInt8) : Prop where
  code : pooled.code = c.code
  lines : pooled.lines = c.lines
  written : c' = pooled.writeAll (r.op.toByte :: bytes) r.line
  width : bytes.length = r.op.operandWidth
  operand : ∀ b, r.operand = some b → bytes = [b]
  constant : ∀ v, r.constant = some v → ∃ b, bytes = [b] ∧ pooled.constant? b.toNat = some v

theorem Appends.size {pooled : Chunk} {bytes : List UInt8} (h : c.Appends r c' pooled bytes) :
    c'.size = c.size + 1 + r.op.operandWidth := by
  have hcode : c'.code.size = c.code.size + (bytes.length + 1) := by
    rw [h.written, code_writeAll, h.code, Array.size_append]
    rfl
  have hwidth := h.width
  simp only [Chunk.size]
  omega

theorem succeeds_iff {α : Type} {x : Emit α} : x.succeeds c = true ↔ ∃ a c', x c = .ok a c' := by
  unfold Emit.succeeds
  cases x c with
  | ok a c' => exact iff_of_true rfl ⟨a, c', rfl⟩
  | error stop c' => exact iff_of_false Bool.false_ne_true (by simp)

/-- An orderly emission appends the instruction that it asks for. -/
theorem Consistent.appends (hc : c.Consistent) (h : e.orderly c = true)
    (hr : e.request? = some r) : ∃ pooled bytes, c.Appends r (e.apply c) pooled bytes := by
  cases e with
  | write b line => exact absurd hr (by simp [Emission.request?])
  | addConstant v => exact absurd hr (by simp [Emission.request?])
  | patchJump offset => exact absurd hr (by simp [Emission.request?])
  | writeOp op line =>
      obtain rfl := Option.some.inj hr
      have hwidth : op.operandWidth = 0 := by simpa [Emission.orderly] using h
      exact ⟨c, [], rfl, rfl, rfl, hwidth.symm, nofun, nofun⟩
  | writeOpByte op operand line =>
      obtain rfl := Option.some.inj hr
      have hwidth : op.operandWidth = 1 := by simpa [Emission.orderly] using h
      refine ⟨c, [operand], rfl, rfl, rfl, hwidth.symm, fun b hb => ?_, nofun⟩
      rw [Option.some.inj hb]
  | writeConstant v line =>
      obtain rfl := Option.some.inj hr
      obtain ⟨i, c', hok⟩ := succeeds_iff.mp h
      cases hadd : addConstant v c with
      | error stop c₁ =>
          exact absurd (hok.symm.trans (writeConstant_of_error line hadd)) (by simp)
      | ok j c₁ =>
          have happly : Emission.apply c (.writeConstant v line) =
              c₁.writeOpByte .constant j line :=
            left_of_ok (writeConstant_of_ok line hadd)
          have hpool := hc.addConstant_index hadd
          have hsame : c₁.code = c.code ∧ c₁.lines = c.lines := by
            rcases addConstant_cases v c with ⟨_, _, hok'⟩ | ⟨_, _, hok'⟩ | ⟨_, _, herr⟩
            · obtain ⟨-, rfl⟩ := EStateM.Result.ok.inj (hadd.symm.trans hok')
              exact ⟨rfl, rfl⟩
            · obtain ⟨-, rfl⟩ := EStateM.Result.ok.inj (hadd.symm.trans hok')
              exact ⟨rfl, rfl⟩
            · exact absurd (hadd.symm.trans herr) (by simp)
          refine ⟨c₁, [j], hsame.1, hsame.2, happly, rfl, nofun, fun w hw => ⟨j, rfl, ?_⟩⟩
          rw [← Option.some.inj hw]
          exact hpool
  | emitJump op line =>
      obtain rfl := Option.some.inj hr
      have hop : op = .jump ∨ op = .jumpIfFalse := by simpa [Emission.orderly] using h
      have hwidth : op.operandWidth = 2 := by
        rcases hop with rfl | rfl <;> rfl
      exact ⟨c, [0xff, 0xff], rfl, rfl, left_of_ok (emitJump_eq op line c), hwidth.symm, nofun,
        nofun⟩
  | emitLoop start line =>
      obtain rfl := Option.some.inj hr
      obtain ⟨_, c', hok⟩ := succeeds_iff.mp h
      rcases emitLoop_cases start line c with ⟨stop, herr⟩ | ⟨high, low, hok'⟩
      · exact absurd (hok.symm.trans herr) (by simp)
      · exact ⟨c, [high, low], rfl, rfl, left_of_ok hok', rfl, nofun, nofun⟩

/-- An orderly emission that asks for no instruction leaves the code as long as it is. -/
theorem size_apply_of_none (h : e.orderly c = true) (hr : e.request? = none) :
    (e.apply c).size = c.size := by
  cases e with
  | write b line => exact absurd h (by simp [Emission.orderly])
  | addConstant v =>
      obtain ⟨i, c', hok⟩ := succeeds_iff.mp h
      rcases addConstant_cases v c with ⟨_, _, hok'⟩ | ⟨_, _, hok'⟩ | ⟨_, _, herr⟩
      · rw [Emission.apply, left_of_ok hok']
      · rw [Emission.apply, left_of_ok hok']
        rfl
      · exact absurd (hok.symm.trans herr) (by simp)
  | patchJump offset =>
      obtain ⟨_, c', hok⟩ := succeeds_iff.mp h
      rw [Emission.apply, left_of_ok hok]
      exact (filled_of_patchJump hok).size
  | _ => exact absurd hr (by simp [Emission.request?])

theorem Appends.stores {pooled : Chunk} {bytes : List UInt8} (h : c.Appends r c' pooled bytes)
    (hc : c.Consistent) : c'.Stores c.size r := by
  have hsize : pooled.size = c.size := congrArg Array.size h.code
  have hlines : pooled.lines.size = c.size := by rw [h.lines, hc.lines, Chunk.size]
  have hbytes := byte?_writeAll pooled (r.op.toByte :: bytes) r.line
  rw [← h.written, hsize] at hbytes
  have hwidth := h.width
  refine ⟨hbytes 0, fun b hb => ?_, fun v hv => ?_, fun k hk => ?_, ?_⟩
  · have hlist := h.operand b hb
    rw [hlist] at hwidth hbytes
    exact ⟨hwidth.symm, hbytes 1⟩
  · obtain ⟨b, hlist, hconst⟩ := h.constant v hv
    rw [hlist] at hwidth hbytes
    refine ⟨hwidth.symm, b, hbytes 1, ?_⟩
    rw [h.written, hlist]
    exact hconst
  · rw [line?, h.written, lines_writeAll, Array.getElem?_append_right (by omega),
      Array.getElem?_replicate, if_pos]
    rw [List.length_cons]
    omega
  · exact Nat.le_of_eq h.size.symm

/-! ## All that follows -/

theorem Extends.line? {changed : List Nat} (h : c.Extends changed c') {i line : Nat}
    (hline : c.line? i = some line) : c'.line? i = some line := by
  rw [Chunk.line?, ← Array.getElem?_toList] at hline ⊢
  obtain ⟨hi, hget⟩ := List.getElem?_eq_some_iff.mp hline
  rw [List.prefix_iff_getElem?.mp h.lines i hi, hget]

/-- Later emissions leave an instruction as it was asked for. -/
theorem Stores.lasts (h : (e.apply (emitted {} before)).Stores (emitted {} before).size r)
    (hsize : (e.apply (emitted {} before)).size =
      (emitted {} before).size + 1 + r.op.operandWidth)
    (htargets : ∀ q ∈ Emission.targets later, q ∈ placeholders {} (before ++ e :: later)) :
    ((e.apply (emitted {} before)).emitted later).Stores (emitted {} before).size r := by
  have hextends := (grows_emitted later (e.apply (emitted {} before))).appends
  -- a distance is open behind the opcode, in an operand of two bytes
  have hbyte : r.op.operandWidth = 1 →
      ((e.apply (emitted {} before)).emitted later).byte?
        ((emitted {} before).size + 1) =
      (e.apply (emitted {} before)).byte? ((emitted {} before).size + 1) := by
    intro hwidth
    refine byte?_apply_emitted htargets (by omega) (by omega) fun q hq => ?_
    have hplace := placeholder?_eq_some hq
    omega
  refine ⟨?_, fun b hb => ?_, fun v hv => ?_, fun k hk => hextends.line? (h.lines k hk), ?_⟩
  · rw [byte?_apply_emitted htargets (Nat.le_refl _) (by omega) fun q hq => ?_]
    · exact h.opcode
    · have hplace := placeholder?_eq_some hq
      omega
  · obtain ⟨hwidth, hget⟩ := h.operand b hb
    exact ⟨hwidth, (hbyte hwidth).trans hget⟩
  · obtain ⟨hwidth, b, hget, hconst⟩ := h.constant v hv
    exact ⟨hwidth, b, (hbyte hwidth).trans hget, hextends.constant? hconst⟩
  · have hgrows := hextends.size
    omega

/-- The listing of the finished code, from where the code ended at some time in its
construction. -/
theorem visits_emitted (horderly : (emitted {} before).orderly es = true)
    (htargets : ∀ q ∈ Emission.targets (before ++ es), q ∈ placeholders {} (before ++ es)) :
    (emitted {} (before ++ es)).Visits (emitted {} before).size
      (((emitted {} before).requests es).map Prod.fst) (emitted {} (before ++ es)).size ∧
    ∀ x ∈ (emitted {} before).requests es, (emitted {} (before ++ es)).Reads x.1 x.2 := by
  induction es generalizing before with
  | nil =>
      rw [List.append_nil]
      exact ⟨.done (Nat.le_refl _), fun x hx => absurd hx (by simp [requests])⟩
  | cons e es ih =>
      rw [orderly, Bool.and_eq_true] at horderly
      obtain ⟨he, hes⟩ := horderly
      have hsplit : before ++ e :: es = (before ++ [e]) ++ es := by simp
      have hnext : emitted {} (before ++ [e]) = e.apply (emitted {} before) := emitted_append ..
      have hwhole : emitted {} (before ++ e :: es) = (e.apply (emitted {} before)).emitted es :=
        emitted_append ..
      have hes' : (emitted {} (before ++ [e])).orderly es = true := by
        rw [hnext]
        exact hes
      have hrest := ih hes' (by rw [← hsplit]; exact htargets)
      rw [hnext, ← hsplit] at hrest
      obtain ⟨hvisits, hreads⟩ := hrest
      have hc := (grows_emitted before {}).consistent .empty
      rw [requests]
      cases hr : e.request? with
      | none =>
          rw [size_apply_of_none he hr] at hvisits
          exact ⟨hvisits, hreads⟩
      | some r =>
          obtain ⟨pooled, bytes, happends⟩ := hc.appends he hr
          have hsize := happends.size
          have hstores := (happends.stores hc).lasts hsize fun q hq =>
            htargets q (mem_targets_append.mpr (Or.inr (mem_targets_cons_of_mem hq)))
          rw [← hwhole] at hstores
          have hread := hstores.reads
          obtain ⟨n, hd, _⟩ := hread.decoded
          have hinside := hstores.inside
          have hoffset : (emitted {} (before ++ e :: es)).nextOffset (emitted {} before).size =
              (e.apply (emitted {} before)).size := by
            rw [nextOffset, hd, hsize]
            rfl
          rw [← hoffset] at hvisits
          refine ⟨.line (by omega) hvisits, fun x hx => ?_⟩
          rcases List.mem_cons.mp hx with rfl | hx
          · exact hread
          · exact hreads x hx

/-- **Decoding undoes emission.** A chunk that was built by orderly emissions, and in which
only open distances were filled in, is listed at the offsets of the instructions that were
asked for, in that order. Each of them is read as it was asked for, and the listing ends at
the end of the code. -/
theorem decoding_undoes_emission (es : List Emission) (horderly : orderly {} es = true)
    (htargets : ∀ q ∈ Emission.targets es, q ∈ placeholders {} es) :
    (emitted {} es).offsetsFrom 0 = (requests {} es).map Prod.fst ∧
    (emitted {} es).Visits 0 ((emitted {} es).offsetsFrom 0) (emitted {} es).size ∧
    ∀ x ∈ requests {} es, (emitted {} es).Reads x.1 x.2 := by
  have hstart : (emitted {} []).orderly es = true := horderly
  obtain ⟨hvisits, hreads⟩ := visits_emitted hstart htargets
  have hoffsets := hvisits.offsetsFrom
  refine ⟨hoffsets, ?_, hreads⟩
  have hsame : (emitted {} es).offsetsFrom 0 = (requests {} es).map Prod.fst := hoffsets
  rw [hsame]
  exact hvisits

/-- Code with a constant that is used twice and a jump over the end of a loop. -/
def loopingProgram : List Emission :=
  [.writeConstant (.bool true) 1, .emitJump .jumpIfFalse 1, .writeOpByte .getLocal 0 2,
    .writeOp .pop 2, .addConstant .nil, .writeConstant (.bool true) 3, .emitLoop 0 3, .patchJump 3,
    .writeOp .ret 4]

theorem decoding_undoes_emission_looping :
    orderly {} loopingProgram = true ∧
    (emitted {} loopingProgram).offsetsFrom 0 = [0, 2, 5, 7, 8, 10, 13] ∧
    (emitted {} loopingProgram).Visits 0 [0, 2, 5, 7, 8, 10, 13] 14 ∧
    (emitted {} loopingProgram).Reads 8
      { op := .constant, constant := some (.bool true), line := 3 } := by
  have horderly : orderly {} loopingProgram = true := by decide +kernel
  have hlist : (requests {} loopingProgram).map Prod.fst = [0, 2, 5, 7, 8, 10, 13] := by
    decide +kernel
  have hsize : (emitted {} loopingProgram).size = 14 := by decide +kernel
  obtain ⟨hoffsets, hvisits, hreads⟩ :=
    decoding_undoes_emission loopingProgram horderly (by decide +kernel)
  rw [hlist] at hoffsets
  rw [hoffsets, hsize] at hvisits
  exact ⟨horderly, hoffsets, hvisits, hreads (8, _) (by decide +kernel)⟩

end Chunk

end StackMachine
