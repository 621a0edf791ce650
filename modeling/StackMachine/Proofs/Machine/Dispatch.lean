import StackMachine.Proofs.Chunk.Decoding
import StackMachine.Proofs.Machine.Transition

/-!
# Listing and executing

The listing of a chunk and the machine that executes it read the same instructions, in
any bytes and at any offset. Where there is no instruction the listing says so and a step
fails. Where there is one, a step goes on at the offset that the listing has for its next
line, or at the target that the line shows if the instruction jumps.

A step reads an instruction at once, operand and all. `stepByByte` reads it the way it is
written, one byte after the other: first the opcode, and then what the opcode asks for.
It comes to the same, so the bytes that the listing takes for an operand are those that
the instruction would have read.
-/

namespace StackMachine

/-- Where a jump over a distance lands, unless it leads out of the code. -/
def Chunk.landing? (c : Chunk) (backward : Bool) (ip distance : Nat) : Option Nat :=
  if backward && ip < distance then none
  else
    let target := if backward then ip - distance else ip + distance
    if target ≤ c.size then some target else none

namespace Exec

/-! ## One byte after the other -/

/-- Reads the next byte of the innermost call. -/
def readByte : Exec UInt8 := do
  let f ← frame
  match ((← get).heap.function? f.function).bind fun g => g.chunk.byte? f.ip with
  | some b =>
    setPointer (f.ip + 1)
    pure b
  | none => corruptAt f.ip .pointerOutside

/-- Reads the next two bytes, the high one first. -/
def readWord : Exec Nat := do
  let high ← readByte
  let low ← readByte
  pure (Chunk.word high low)

/-- Jumps over a distance, forward or back. -/
def leap (backward : Bool) (distance : Nat) : Exec Unit := do
  let chunk := (← function).chunk
  match chunk.landing? backward (← frame).ip distance with
  | some target => setPointer target
  | none => corrupt .jumpOutside

/-- Executes an instruction of which the opcode has been read. -/
def dispatch (op : Opcode) : Exec Unit :=
  match op with
  | .constant | .getLocal | .setLocal | .getGlobal | .defineGlobal | .setGlobal | .call => do
    perform op (← readByte).toNat
  | .jump => do leap false (← readWord)
  | .loop => do leap true (← readWord)
  | .jumpIfFalse => do
    let distance ← readWord
    let condition ← pop
    if !condition.isTruthy then leap false distance
  | _ => perform op 0

/-- Reads and executes one instruction, one byte after the other. -/
def stepByByte : Exec Unit := do
  let b ← readByte
  match Opcode.ofByte? b with
  | some op => dispatch op
  | none => corrupt (.unknownOpcode b)

/-- What is left for a run to go on with: the machine, or the reason to halt. -/
def leaves (x : Exec Unit) (m : Machine) : Except Halt Machine :=
  match x m with
  | .ok () m' => .ok m'
  | .error halt _ => .error halt

end Exec

/-! ## Jumps -/

theorem Chunk.landing?_eq (c : Chunk) (op : Opcode) (ip distance : Nat) :
    c.landing? (op == .loop) ip distance =
      if 0 ≤ jumpTarget op ip distance ∧ jumpTarget op ip distance ≤ c.size then
        some (jumpTarget op ip distance).toNat
      else none := by
  unfold landing?
  by_cases hop : op = .loop
  · subst hop
    have htarget : jumpTarget .loop ip distance = (ip : Int) - distance := rfl
    simp only [BEq.rfl, Bool.true_and, decide_eq_true_eq, if_true, htarget]
    by_cases hlt : ip < distance
    · rw [if_pos hlt, if_neg (by omega)]
    · have hnat : ((ip : Int) - distance).toNat = ip - distance := by omega
      rw [if_neg hlt, hnat]
      by_cases hle : ip - distance ≤ c.size
      · rw [if_pos hle, if_pos (by omega)]
      · rw [if_neg hle, if_neg (by omega)]
  · have htarget : jumpTarget op ip distance = (ip : Int) + distance := by
      unfold jumpTarget
      split
      · exact absurd rfl hop
      · rfl
    have hnat : ((ip : Int) + distance).toNat = ip + distance := by omega
    simp only [beq_false_of_ne hop, Bool.false_and, Bool.false_eq_true, if_false, htarget, hnat]
    by_cases hle : ip + distance ≤ c.size
    · rw [if_pos hle, if_pos (by omega)]
    · rw [if_neg hle, if_neg (by omega)]

namespace Exec

section

variable {m : Machine} {rest : Array Frame} {f : Frame} {g : BytecodeFunction}
  {E : Halt → Machine → Prop}

theorem frame_eq (hf : m.frames = rest.push f) : frame m = .ok f m := by
  unfold frame
  rw [hf, Array.back?_push]

theorem function_eq (hf : m.frames = rest.push f) (hg : m.heap.function? f.function = some g) :
    function m = .ok g m := by
  have hends : Ends function m (fun g' m' => g' = g ∧ m' = m) fun _ _ => False := by
    refine ends_function hf (fun g' hg' => ⟨Option.some.inj (hg'.symm.trans hg), rfl⟩) ?_
    intro hnone
    exact absurd (hnone.symm.trans hg) (by simp)
  obtain ⟨g', m', h, rfl, rfl⟩ := hends.total
  exact h

/-- A jump that tells forward from back lands where one by the signed distance does. -/
theorem leap_eq (hf : m.frames = rest.push f) (hg : m.heap.function? f.function = some g)
    (op : Opcode) (distance : Nat) :
    leap (op == .loop) distance m = jump op distance m := by
  have hleap : leap (op == .loop) distance m = _ :=
    (bind_of_ok (function_eq hf hg)).trans (bind_of_ok (frame_eq hf))
  have hjump : jump op distance m = _ :=
    (bind_of_ok (frame_eq hf)).trans (bind_of_ok (function_eq hf hg))
  rw [hleap, hjump, Chunk.landing?_eq]
  by_cases hin : 0 ≤ Chunk.jumpTarget op f.ip distance ∧
      Chunk.jumpTarget op f.ip distance ≤ g.chunk.size
  · simp only [if_pos hin]
  · simp only [if_neg hin]

theorem ends_leap {Q : Unit → Machine → Prop} {op : Opcode} {distance : Nat}
    (h : Ends (jump op distance) m Q E) (hf : m.frames = rest.push f)
    (hg : m.heap.function? f.function = some g) : Ends (leap (op == .loop) distance) m Q E := by
  unfold Ends at h ⊢
  rw [leap_eq hf hg]
  exact h

theorem ends_pop_keeps (m : Machine) : Ends pop m
    (fun _ m' => m'.frames = m.frames ∧ m'.heap = m.heap) fun _ _ => True :=
  ends_pop (fun _ _ _ => ⟨rfl, rfl⟩) fun _ => trivial

/-! ## Reading an operand -/

/-- A byte that is missing is missing at the end of the code, if the call has not gone
further than that. -/
theorem ends_readByte {Q : UInt8 → Machine → Prop} (hf : m.frames = rest.push f)
    (hg : m.heap.function? f.function = some g) (hip : f.ip ≤ g.chunk.size)
    (hok : ∀ b, g.chunk.byte? f.ip = some b →
      Q b { m with frames := rest.push { f with ip := f.ip + 1 } })
    (herr : g.chunk.byte? f.ip = none →
      E (.failed (.corruptBytecode g.chunk.size .pointerOutside)) m) :
    Ends readByte m Q E := by
  refine ends_bind (ends_frame hf (ends_get ?_))
  simp only [hg, Option.bind_some]
  cases hb : g.chunk.byte? f.ip with
  | some b => exact ends_bind (ends_setPointer hf (ends_pure (hok b hb)))
  | none =>
      have hend : f.ip = g.chunk.size := by
        have hnot : ¬ (g.chunk.byte? f.ip).isSome := by rw [hb]; exact Bool.false_ne_true
        rw [Chunk.byte?_isSome_iff] at hnot
        omega
      have hhalt := herr hb
      rw [← hend] at hhalt
      exact ends_corruptAt hhalt

theorem ends_readWord {Q : Nat → Machine → Prop} (hf : m.frames = rest.push f)
    (hg : m.heap.function? f.function = some g) (hip : f.ip ≤ g.chunk.size)
    (hok : ∀ n, g.chunk.word? f.ip = some n →
      Q n { m with frames := rest.push { f with ip := f.ip + 2 } })
    (herr : g.chunk.word? f.ip = none → ∀ m',
      E (.failed (.corruptBytecode g.chunk.size .pointerOutside)) m') :
    Ends readWord m Q E := by
  refine ends_bind (ends_readByte hf hg hip (fun high hhigh => ?_) fun hnone => ?_)
  · have hlt := Chunk.lt_size_of_byte? hhigh
    refine ends_bind (ends_readByte rfl hg hlt (fun low hlow => ?_) fun hnone => ?_)
    · exact ends_pure (hok _ (by simp only [Chunk.word?, hhigh, hlow]))
    · exact herr (by simp only [Chunk.word?, hhigh, hnone]) _
  · exact herr (by simp only [Chunk.word?, hnone]) _

/-- Executing an instruction of which the opcode has been read: its operand is read as
`operand?` has it, and then it is performed. -/
theorem ends_dispatch {Q : Unit → Machine → Prop} (hf : m.frames = rest.push f)
    (hg : m.heap.function? f.function = some g) {offset : Nat} (hip : f.ip = offset + 1)
    (hlt : offset < g.chunk.size) {op : Opcode}
    (hok : ∀ n, g.chunk.operand? offset op = some n → Ends (perform op n)
      { m with frames := rest.push { f with ip := offset + 1 + op.operandWidth } } Q E)
    (herr : g.chunk.operand? offset op = none → ∀ m',
      E (.failed (.corruptBytecode g.chunk.size .pointerOutside)) m') :
    Ends (dispatch op) m Q E := by
  have hin : f.ip ≤ g.chunk.size := by omega
  have hplain : op.operandWidth = 0 → Ends (perform op 0) m Q E := by
    intro hw
    have h := hok 0 (by simp only [Chunk.operand?, hw])
    rw [hw, Nat.add_zero, ← hip, ← hf] at h
    exact h
  have hbyte : op.operandWidth = 1 → Ends (do perform op (← readByte).toNat) m Q E := by
    intro hw
    refine ends_bind (ends_readByte hf hg hin (fun b hb => ?_) fun hb => ?_)
    · rw [hip] at hb
      have h := hok b.toNat (by simp only [Chunk.operand?, hw, hb, Option.map_some])
      rw [hw, ← hip] at h
      exact h
    · rw [hip] at hb
      exact herr (by simp only [Chunk.operand?, hw, hb, Option.map_none]) m
  have hword : op.operandWidth = 2 → ∀ k : Nat → Exec Unit,
      (∀ n, Ends (perform op n) { m with frames := rest.push { f with ip := f.ip + 2 } } Q E →
        Ends (k n) { m with frames := rest.push { f with ip := f.ip + 2 } } Q E) →
      Ends (readWord >>= k) m Q E := by
    intro hw k hk
    refine ends_bind (ends_readWord hf hg hin (fun n hn => hk n ?_) fun hn m' => ?_)
    · rw [hip] at hn
      have h := hok n (by simp only [Chunk.operand?, hw, hn])
      rw [hw, ← hip] at h
      exact h
    · rw [hip] at hn
      exact herr (by simp only [Chunk.operand?, hw, hn]) m'
  cases op with
  | constant | getLocal | setLocal | getGlobal | defineGlobal | setGlobal | call => exact hbyte rfl
  | jump => exact hword rfl _ fun n h => ends_leap h rfl hg
  | loop => exact hword rfl _ fun n h => ends_leap h rfl hg
  | jumpIfFalse =>
      refine hword rfl _ fun n h => ends_bind ?_
      refine (h.of_bind.and (ends_pop_keeps _)).mono (fun v m' hv => ?_) fun _ _ hv => hv.1
      obtain ⟨hend, hframes, hheap⟩ := hv
      cases hb : v.isTruthy with
      | true =>
          rw [hb] at hend
          exact hend
      | false =>
          rw [hb] at hend
          exact ends_leap hend hframes (by rw [hheap]; exact hg)
  | _ => exact hplain rfl

/-! ## What a step makes of the bytes -/

theorem leaves_eq {x : Exec Unit} {r : Except Halt Machine}
    (h : Ends x m (fun _ m' => r = .ok m') fun halt _ => r = .error halt) : x.leaves m = r := by
  cases hx : x m with
  | ok a m' => rw [leaves, hx, h.of_ok hx]
  | error halt m' => rw [leaves, hx, h.of_error hx]

theorem ends_leaves (x : Exec Unit) (m : Machine) :
    Ends x m (fun _ m' => x.leaves m = .ok m') fun halt _ => x.leaves m = .error halt := by
  unfold Ends leaves
  cases x m with
  | ok a m' => rfl
  | error halt m' => rfl

/-- **Reading byte by byte comes to the same** as reading an instruction at once. -/
theorem leaves_stepByByte (hf : m.frames = rest.push f) (hg : m.heap.function? f.function = some g)
    (hlt : f.ip < g.chunk.size) : stepByByte.leaves m = step.leaves m := by
  refine leaves_eq (ends_bind ?_)
  refine ends_readByte hf hg (Nat.le_of_lt hlt) (fun b hb => ?_) fun hb => ?_
  · cases hop : Opcode.ofByte? b with
    | none =>
        have hstep : step.leaves m = .error (.failed (.corruptBytecode f.ip (.unknownOpcode b))) :=
          leaves_eq (ends_step_unknown hf hg (Chunk.decode_unknown hb hop) rfl)
        refine ends_corrupt ?_
        rw [hstep]
        simp [Machine.lastOffset]
    | some op =>
        refine ends_dispatch (m := { m with frames := rest.push { f with ip := f.ip + 1 } })
          (f := { f with ip := f.ip + 1 }) rfl hg rfl hlt (fun n hn => ?_) fun hn m' => ?_
        · have hd : g.chunk.decode f.ip = .instruction op n := by
            simp only [Chunk.decode, hb, hop, hn]
          have hstep : step.leaves m = (perform op n).leaves _ :=
            leaves_eq (ends_step hf hg hd (ends_leaves _ _))
          rw [hstep]
          exact ends_leaves _ _
        · have hd : g.chunk.decode f.ip = .truncated op := by
            simp only [Chunk.decode, hb, hop, hn]
          exact leaves_eq (ends_step_truncated hf hg hd rfl)
  · have hthere := Chunk.byte?_isSome_iff.mpr hlt
    rw [hb] at hthere
    exact absurd hthere Bool.false_ne_true

end

end Exec

namespace Machine

variable {m : Machine} {rest : Array Frame} {f : Frame} {g : BytecodeFunction} {op : Opcode}
  {n : Nat}

/-- A jump that is taken ends at its target, or in corrupt bytecode if there is no code. -/
theorem ends_step_jump (hf : m.frames = rest.push f) (hg : m.heap.function? f.function = some g)
    (hd : g.chunk.decode f.ip = .instruction op n) (hjump : m.Jumps op) {target : Int}
    (htarget : Chunk.jumpTarget op (f.ip + 1 + op.operandWidth) n = target) :
    Exec.Ends Exec.step m
      (fun _ m' => ∃ ip : Nat, (ip : Int) = target ∧ ip ≤ g.chunk.size ∧
        m'.frames[rest.size]? = some { f with ip })
      fun halt _ => (∃ offset, halt = .failed (.corruptBytecode offset .jumpOutside)) ∧
        (target < 0 ∨ (g.chunk.size : Int) < target) := by
  subst htarget
  refine Exec.ends_step hf hg hd ?_
  refine Exec.ends_perform_jump (m := { m with frames := rest.push (f.past op) }) rfl hg hjump
    (fun ip m' hip hle hframes _ => ⟨ip, hip, hle, ?_⟩) fun m' hout _ => ⟨⟨_, rfl⟩, ?_⟩
  · rw [hframes, Array.getElem?_push, if_pos rfl]
    rfl
  · have hpast : (f.past op).ip = f.ip + 1 + op.operandWidth := rfl
    rw [hpast] at hout
    omega

/-- A step of the machine takes the innermost call to a target, or ends in corrupt bytecode
if the target does not lie in the code. -/
structure Lands (m : Machine) (rest : Array Frame) (f : Frame) (c : Chunk) (target : Int) :
    Prop where
  arrives : ∀ m', Exec.step m = .ok () m' →
    ∃ ip : Nat, (ip : Int) = target ∧ m'.frames[rest.size]? = some { f with ip }
  fails_iff : (∃ offset cause m',
    Exec.step m = .error (.failed (.corruptBytecode offset cause)) m') ↔
      target < 0 ∨ (c.size : Int) < target
  succeeds : 0 ≤ target → target ≤ c.size → ∃ m', Exec.step m = .ok () m'

theorem lands_jump (hf : m.frames = rest.push f) (hg : m.heap.function? f.function = some g)
    (hd : g.chunk.decode f.ip = .instruction op n) (hjump : m.Jumps op) {target : Int}
    (htarget : Chunk.jumpTarget op (f.ip + 1 + op.operandWidth) n = target) :
    m.Lands rest f g.chunk target := by
  have hends := ends_step_jump hf hg hd hjump htarget
  cases hs : Exec.step m with
  | ok _ m' =>
      obtain ⟨ip, hip, hle, hframes⟩ := hends.of_ok hs
      refine ⟨fun m₁ hs₁ => ?_, ⟨fun hfails => ?_, fun hout => by omega⟩, fun _ _ => ⟨m', hs⟩⟩
      · obtain ⟨-, rfl⟩ := EStateM.Result.ok.inj (hs.symm.trans hs₁)
        exact ⟨ip, hip, hframes⟩
      · obtain ⟨_, _, _, hs₁⟩ := hfails
        exact absurd (hs.symm.trans hs₁) (by simp)
  | error halt m' =>
      obtain ⟨⟨offset, rfl⟩, hout⟩ := hends.of_error hs
      refine ⟨fun m₁ hs₁ => ?_, ⟨fun _ => hout, fun _ => ⟨offset, _, m', hs⟩⟩, fun _ _ => by omega⟩
      exact absurd (hs.symm.trans hs₁) (by simp)

/-- A step of the machine goes on as the listing has it. The innermost call is `f`, which
executes the code `c` and lies on the calls `rest`. -/
structure FollowsListing (m : Machine) (rest : Array Frame) (f : Frame) (c : Chunk)
    (describe : Handle → Option Description) : Prop where
  /-- A byte that is no opcode is reported where it stands. -/
  unknown : ∀ b, c.byte? f.ip = some b → Opcode.ofByte? b = none →
    c.Lists describe f.ip ("Unknown opcode " ++ toString b) (f.ip + 1) ∧
    ∃ m', Exec.step m = .error (.failed (.corruptBytecode f.ip (.unknownOpcode b))) m'
  /-- An operand that is cut off is reported at the end of the code. -/
  truncated : ∀ op, c.opcode? f.ip = some op → c.size < f.ip + 1 + op.operandWidth →
    c.Lists describe f.ip (alignLeft 16 op.name ++ " <truncated>")
      (f.ip + 1 + op.operandWidth) ∧
    ∃ m', Exec.step m = .error (.failed (.corruptBytecode c.size .pointerOutside)) m'
  /-- Without a jump the call goes on at the next line, be it at once or after the return
  of a function that it calls. -/
  passes : ∀ op m', c.opcode? f.ip = some op → op ≠ .ret → ¬ m.Jumps op →
    Exec.step m = .ok () m' → m'.frames[rest.size]? = some { f with ip := c.nextOffset f.ip }
  /-- A jump that is taken leads where its line says, if that lies in the code. -/
  jumps : ∀ op, c.opcode? f.ip = some op → f.ip + 1 + op.operandWidth ≤ c.size → m.Jumps op →
    ∃ target : Int,
      c.Lists describe f.ip
        (alignLeft 16 op.name ++ " " ++ alignRight ' ' 4 (toString f.ip) ++ " -> " ++
          toString target) (f.ip + 1 + op.operandWidth) ∧
      m.Lands rest f c target

theorem Jumps.opcode (h : m.Jumps op) : op = .jump ∨ op = .jumpIfFalse ∨ op = .loop := by
  cases op with
  | jump => exact Or.inl rfl
  | jumpIfFalse => exact Or.inr (Or.inl rfl)
  | loop => exact Or.inr (Or.inr rfl)
  | _ => exact h.elim

/-- **Listing and executing decode alike**, in any machine and in any code. Reading an
instruction byte by byte gives no other reading. -/
theorem listing_followed (hf : m.frames = rest.push f) (hg : m.heap.function? f.function = some g)
    (hlt : f.ip < g.chunk.size) (describe : Handle → Option Description) :
    m.FollowsListing rest f g.chunk describe ∧
      Exec.stepByByte.leaves m = Exec.step.leaves m := by
  refine ⟨⟨fun b hb hop => ?_, fun op hop hsize => ?_, fun op m' hop hret hjump hs => ?_,
    fun op hop hsize hjump => ?_⟩, Exec.leaves_stepByByte hf hg hlt⟩
  · have hd := Chunk.decode_unknown hb hop
    have hfails : Exec.Ends Exec.step m (fun _ _ => False) fun halt _ =>
        halt = .failed (.corruptBytecode f.ip (.unknownOpcode b)) :=
      Exec.ends_step_unknown hf hg hd rfl
    obtain ⟨halt, m', hs, rfl⟩ := hfails.fails
    exact ⟨Chunk.lists_unknown hd, m', hs⟩
  · have hd := Chunk.decode_truncated hop hsize
    have hfails : Exec.Ends Exec.step m (fun _ _ => False) fun halt _ =>
        halt = .failed (.corruptBytecode g.chunk.size .pointerOutside) :=
      Exec.ends_step_truncated hf hg hd rfl
    obtain ⟨halt, m', hs, rfl⟩ := hfails.fails
    exact ⟨Chunk.lists_truncated hd, m', hs⟩
  · by_cases hsize : f.ip + 1 + op.operandWidth ≤ g.chunk.size
    · obtain ⟨n, hd⟩ := Chunk.decode_instruction hop hsize
      have ht := (Exec.transition_next hf hg hd).of_ok hs
      rw [ht.behind hret hjump, Chunk.nextOffset, hd]
      rfl
    · have hfails : Exec.Ends Exec.step m (fun _ _ => False) fun _ _ => True :=
        Exec.ends_step_truncated hf hg (Chunk.decode_truncated hop (by omega)) trivial
      exact (hfails.of_ok hs).elim
  · obtain ⟨n, hd⟩ := Chunk.decode_instruction hop hsize
    exact ⟨_, Chunk.lists_jump hd hjump.opcode, lands_jump hf hg hd hjump rfl⟩

/-- Code with a loop that leads out of it. -/
def loopingChunk : Chunk := Chunk.copy
  { code := #[1, 25, 0, 9]
    lines := #[1, 1, 1, 1] }

/-- A machine whose only call stands before the loop. -/
def loopingMachine : Machine where
  config := {}
  heap :=
    { config := {}
      slots := ⟨#[some { object := .function { chunk := loopingChunk }, size := 140 }], #[0]⟩ }
  stack := #[.object ⟨0, 0⟩, .nil]
  frames := #[⟨⟨0, 0⟩, 1, 1⟩]

/-- The line shows a target before the code, and the step fails. -/
theorem listing_followed_looping :
    loopingMachine.FollowsListing #[] ⟨⟨0, 0⟩, 1, 1⟩ loopingChunk (fun _ => none) ∧
    loopingChunk.listingLine (fun _ => none) 1 = "0001    | LOOP                1 -> -5" ∧
    Exec.stepByByte.leaves loopingMachine =
      .error (.failed (.corruptBytecode 3 .jumpOutside)) := by
  have hf : loopingMachine.frames = (#[] : Array Frame).push ⟨⟨0, 0⟩, 1, 1⟩ := rfl
  have hg : loopingMachine.heap.function? ⟨0, 0⟩ = some { chunk := loopingChunk } := rfl
  obtain ⟨hfollows, hbytes⟩ := listing_followed hf hg (by decide) fun _ => none
  exact ⟨hfollows, by decide +kernel, hbytes.trans rfl⟩

end Machine

end StackMachine
