import StackMachine.Proofs.Chunk.Patching
import StackMachine.Proofs.Machine.Dispatch

/-!
# Where jumps land

The target of a jump is worked out three times: from the length of the code when the
distance is written, from the offset behind the operand when the jump is executed, and
from the offset of the next line when it is listed. They agree. A jump forward lands where
the code ended when its distance was filled in, and a jump back at the offset it was
aimed at, whatever was emitted in the meantime and later.
-/

namespace StackMachine

namespace Chunk

/-- The jump at an offset leads to a target: a machine that takes it goes there, and the
listing shows it. -/
structure LeadsTo (c : Chunk) (op : Opcode) (offset target : Nat) : Prop where
  executed : ∀ (m : Machine) (rest : Array Frame) (f : Frame) (g : BytecodeFunction),
    m.frames = rest.push f → f.ip = offset → m.heap.function? f.function = some g →
    g.chunk = c → m.Jumps op →
    ∃ m', Exec.step m = .ok () m' ∧ m'.frames = rest.push { f with ip := target }
  listed : ∀ describe, c.Lists describe offset
    (alignLeft 16 op.name ++ " " ++ alignRight ' ' 4 (toString offset) ++ " -> " ++
      toString target) (offset + 3)

/-- What becomes of a jump whose distance is open at `offset` when the code is `c`. -/
structure FillsIn (c : Chunk) (op : Opcode) (offset : Nat) (later : List Emission) : Prop where
  inside : offset + 2 ≤ c.size
  safe : ∀ c', patchJump offset c ≠ .error .crashed c'
  succeeds_iff : (∃ c', patchJump offset c = .ok () c') ↔ c.size - offset - 2 ≤ 65535
  leads : ∀ c', patchJump offset c = .ok () c' →
    (c'.emitted later).LeadsTo op (offset - 1) c.size

/-- What becomes of a jump back to `start` when the code is `c`. -/
structure LoopsBack (c : Chunk) (start line : Nat) (later : List Emission) : Prop where
  safe : ∀ c', emitLoop start line c ≠ .error .crashed c'
  succeeds_iff : (∃ c', emitLoop start line c = .ok () c') ↔ c.size + 3 - start ≤ 65535
  leads : ∀ c', emitLoop start line c = .ok () c' →
    (c'.emitted later).LeadsTo .loop c.size start

variable {c c' : Chunk} {op : Opcode} {offset target distance : Nat}

/-! ## Reading a jump -/

theorem decode_jump (hwidth : op.operandWidth = 2) (hop : c.byte? offset = some op.toByte)
    (hhigh : c.byte? (offset + 1) = some (highByte distance))
    (hlow : c.byte? (offset + 2) = some (lowByte distance)) (hmax : distance ≤ maxDistance) :
    c.decode offset = .instruction op distance := by
  have hword : c.word? (offset + 1) = some distance := by
    simp only [word?, hhigh, hlow, word_highByte_lowByte hmax]
  simp only [decode, hop, Opcode.ofByte?_toByte, operand?, hwidth, hword]

/-- The machine and the listing take the same target from an instruction. -/
theorem leadsTo_of_decode (hd : c.decode offset = .instruction op distance)
    (hop : op = .jump ∨ op = .jumpIfFalse ∨ op = .loop)
    (htarget : jumpTarget op (offset + 3) distance = (target : Int)) (hin : target ≤ c.size) :
    c.LeadsTo op offset target := by
  have hwidth : op.operandWidth = 2 := by
    rcases hop with rfl | rfl | rfl <;> rfl
  have hnext : offset + 1 + op.operandWidth = offset + 3 := by omega
  refine ⟨fun m rest f g hf hip hg hc hjump => ?_, fun describe => ?_⟩
  · subst hip
    subst hc
    have hends : Exec.Ends Exec.step m
        (fun _ m' => m'.frames = rest.push { f with ip := target }) fun _ _ => False := by
      refine Exec.ends_step hf hg hd ?_
      have hpast : (f.past op).ip = f.ip + 3 := hnext
      refine Exec.ends_perform_jump (m := { m with frames := rest.push (f.past op) }) rfl hg hjump
        (fun ip m' hip _ hframes _ => ?_) fun m' hout _ => ?_
      · rw [hpast, htarget] at hip
        obtain rfl := Int.ofNat.inj hip
        exact hframes
      · rw [hpast, htarget] at hout
        omega
    obtain ⟨_, m', hs, hframes⟩ := hends.total
    exact ⟨m', hs, hframes⟩
  · have hlists : c.Lists describe offset _ _ := lists_jump hd hop
    rw [hnext, htarget] at hlists
    exact hlists

/-! ## Forward -/

/-- A jump whose distance has been filled in leads to where the code ended then. -/
theorem Filled.leadsTo {later : List Emission} (h : Filled (offset + 1) c c')
    (hop : op = .jump ∨ op = .jumpIfFalse)
    (hbyte : (c'.emitted later).byte? offset = some op.toByte)
    (hapart : ∀ q ∈ Emission.targets later, offset + 1 ≠ q ∧ offset + 1 ≠ q + 1 ∧ offset + 2 ≠ q) :
    (c'.emitted later).LeadsTo op offset c.size := by
  have hsize := h.size
  have hinside := h.inside
  have hgrows := size_le_emitted later c'
  have hkept : ∀ i, i = offset + 1 ∨ i = offset + 2 →
      (c'.emitted later).byte? i = c'.byte? i := by
    intro i hi
    refine byte?_emitted (by omega) fun q hq => ?_
    have hne := hapart q hq
    omega
  have hwidth : op.operandWidth = 2 := by
    rcases hop with rfl | rfl <;> rfl
  have hd := decode_jump hwidth hbyte ((hkept _ (Or.inl rfl)).trans h.high)
    ((hkept _ (Or.inr rfl)).trans h.low) h.near
  have htarget : jumpTarget op (offset + 3) (c.size - (offset + 1) - 2) = (c.size : Int) := by
    rcases hop with rfl | rfl <;> (simp only [jumpTarget]; omega)
  refine leadsTo_of_decode hd ?_ htarget (by omega)
  rcases hop with rfl | rfl
  · exact Or.inl rfl
  · exact Or.inr (Or.inl rfl)

/-- What is open can be filled in, unless the code has grown too long. -/
theorem fillsIn_of_open {later : List Emission} (hin : offset + 2 ≤ c.size)
    (hleads : ∀ c', patchJump offset c = .ok () c' →
      (c'.emitted later).LeadsTo op (offset - 1) c.size) : c.FillsIn op offset later := by
  have hmax : maxDistance = 65535 := rfl
  have heq := patchJump_eq hin
  by_cases hfar : maxDistance < c.size - offset - 2
  · rw [if_pos hfar] at heq
    refine ⟨hin, fun c' => by simp [heq], iff_of_false (by simp [heq]) (by omega), fun c' hok => ?_⟩
    exact absurd (heq.symm.trans hok) (by simp)
  · rw [if_neg hfar] at heq
    exact ⟨hin, fun c' => by simp [heq], iff_of_true ⟨_, heq⟩ (by omega), hleads⟩

/-- **A jump forward lands where the code ended when it was filled in.** -/
theorem fillsIn_emitJump {before middle later : List Emission} {line : Nat}
    (hop : op = .jump ∨ op = .jumpIfFalse)
    (hopen : emitJump op line (emitted {} before) = .ok offset c)
    (hothers : ∀ q ∈ Emission.targets (middle ++ later), q ≠ offset ∧
      q ∈ placeholders {} (before ++ .emitJump op line :: (middle ++ .patchJump offset :: later))) :
    (c.emitted middle).FillsIn op offset later := by
  have happly : Emission.apply (emitted {} before) (.emitJump op line) = c := left_of_ok hopen
  have hown : Emission.placeholder? (emitted {} before) (.emitJump op line) = some offset := by
    simp only [Emission.placeholder?, hopen]
  obtain ⟨hoffset, hsize⟩ := placeholder?_eq_some hown
  rw [happly] at hsize
  -- no other distance overlaps the three bytes of the jump
  have hapart : ∀ q ∈ Emission.targets (middle ++ later), ∀ i,
      (emitted {} before).size ≤ i → i < c.size → i ≠ q ∧ i ≠ q + 1 := by
    intro q hq i hlow hhigh
    obtain ⟨hne, hplace⟩ := hothers q hq
    refine placeholder_apart hplace hlow (by rw [happly]; exact hhigh) fun hsame => ?_
    exact hne (Option.some.inj (hsame.symm.trans hown))
  have hbyte : c.byte? (emitted {} before).size = some op.toByte := by
    obtain ⟨-, rfl⟩ := EStateM.Result.ok.inj ((emitJump_eq op line _).symm.trans hopen)
    exact byte?_writeAll _ [op.toByte, 0xff, 0xff] line 0
  have hmiddle := size_le_emitted middle c
  refine fillsIn_of_open (by omega) fun c' hok => ?_
  subst hoffset
  refine (filled_of_patchJump hok).leadsTo hop ?_ fun q hq => ?_
  · have hwhole : c'.emitted later = c.emitted
        (middle ++ .patchJump ((emitted {} before).size + 1) :: later) := by
      rw [emitted_append, emitted_cons]
      exact congrArg (emitted · later) (left_of_ok hok).symm
    rw [hwhole, byte?_emitted (by omega) fun q hq => ?_]
    · exact hbyte
    · rw [mem_targets_append, mem_targets_patchJump] at hq
      rcases hq with hq | rfl | hq
      · exact hapart q (mem_targets_append.mpr (Or.inl hq)) _ (Nat.le_refl _) (by omega)
      · omega
      · exact hapart q (mem_targets_append.mpr (Or.inr hq)) _ (Nat.le_refl _) (by omega)
  · have hq' : q ∈ Emission.targets (middle ++ later) := mem_targets_append.mpr (Or.inr hq)
    have hfirst := hapart q hq' ((emitted {} before).size + 1) (by omega) (by omega)
    have hsecond := hapart q hq' ((emitted {} before).size + 2) (by omega) (by omega)
    omega

/-! ## Back -/

/-- **A jump back lands where it is aimed.** -/
theorem loopsBack_emitLoop {before later : List Emission} {start line : Nat}
    (hstart : start ≤ (emitted {} before).size + 1)
    (hothers : ∀ q ∈ Emission.targets later,
      q ∈ placeholders {} (before ++ .emitLoop start line :: later)) :
    (emitted {} before).LoopsBack start line later := by
  have hmax : maxDistance = 65535 := rfl
  have heq := emitLoop_eq line hstart
  by_cases hfar : maxDistance < (emitted {} before).size + 3 - start
  · rw [if_pos hfar] at heq
    refine ⟨fun c' => by simp [heq], iff_of_false (by simp [heq]) (by omega), fun c' hok => ?_⟩
    exact absurd (heq.symm.trans hok) (by simp)
  · rw [if_neg hfar] at heq
    refine ⟨fun c' => by simp [heq], iff_of_true ⟨_, heq⟩ (by omega), fun c' hok => ?_⟩
    have happly : Emission.apply (emitted {} before) (.emitLoop start line) = c' := left_of_ok hok
    obtain ⟨-, hc'⟩ := EStateM.Result.ok.inj (heq.symm.trans hok)
    have hsize : c'.size = (emitted {} before).size + 3 := by
      simp [← hc', writeOp]
    have hgrows := size_le_emitted later c'
    have hkept : ∀ i, (emitted {} before).size ≤ i → i < c'.size →
        (c'.emitted later).byte? i = c'.byte? i := by
      intro i hlow hhigh
      rw [← happly] at hhigh ⊢
      exact byte?_apply_emitted hothers hlow hhigh (by simp [Emission.placeholder?])
    have hd : (c'.emitted later).decode (emitted {} before).size =
        .instruction .loop ((emitted {} before).size + 3 - start) := by
      have hbytes := byte?_writeAll (emitted {} before) [Opcode.loop.toByte,
        highByte ((emitted {} before).size + 3 - start),
        lowByte ((emitted {} before).size + 3 - start)] line
      rw [← hc'] at hkept hsize ⊢
      refine decode_jump rfl ?_ ?_ ?_ (by omega)
      · exact (hkept _ (by omega) (by omega)).trans (hbytes 0)
      · exact (hkept _ (by omega) (by omega)).trans (hbytes 1)
      · exact (hkept _ (by omega) (by omega)).trans (hbytes 2)
    refine leadsTo_of_decode hd (Or.inr (Or.inr rfl)) ?_ (by omega)
    simp only [jumpTarget]
    omega

/-! ## Both ways -/

/-- **Jumps land where they were aimed.** The code may be built in any way before, between
and after the emissions that make up a jump, as long as only open distances are filled in
and each jump's own is filled in once. -/
theorem jumps_land_where_aimed (before middle later : List Emission) (line : Nat) :
    (∀ op offset c, op = .jump ∨ op = .jumpIfFalse →
      emitJump op line (emitted {} before) = .ok offset c →
      (∀ q ∈ Emission.targets (middle ++ later), q ≠ offset ∧ q ∈ placeholders {}
        (before ++ .emitJump op line :: (middle ++ .patchJump offset :: later))) →
      (c.emitted middle).FillsIn op offset later) ∧
    ∀ start, start ≤ (emitted {} before).size + 1 →
      (∀ q ∈ Emission.targets later,
        q ∈ placeholders {} (before ++ .emitLoop start line :: later)) →
      (emitted {} before).LoopsBack start line later :=
  ⟨fun _ _ _ hop hopen hothers => fillsIn_emitJump hop hopen hothers,
    fun _ hstart hothers => loopsBack_emitLoop hstart hothers⟩

/-- Two jumps that are open at once, the outer of which is filled in last. -/
theorem jumps_land_where_aimed_nested :
    (emitted {} [.emitJump .jump 1, .emitJump .jumpIfFalse 1, .writeOp .pop 2, .patchJump 4,
      .emitLoop 3 2, .patchJump 1]).LeadsTo .jumpIfFalse 3 7 ∧
    (emitted {} [.emitJump .jump 1, .emitJump .jumpIfFalse 1, .writeOp .pop 2, .patchJump 4,
      .emitLoop 3 2, .patchJump 1]).LeadsTo .loop 7 3 := by
  have hforward := (jumps_land_where_aimed [.emitJump .jump 1] [.writeOp .pop 2]
    [.emitLoop 3 2, .patchJump 1] 1).1 .jumpIfFalse 4 _ (Or.inr rfl) rfl (by decide)
  have hback := (jumps_land_where_aimed [.emitJump .jump 1, .emitJump .jumpIfFalse 1,
    .writeOp .pop 2, .patchJump 4] [] [.patchJump 1] 2).2 3 (by decide) (by decide)
  exact ⟨hforward.leads _ rfl, hback.leads _ rfl⟩

end Chunk

end StackMachine
