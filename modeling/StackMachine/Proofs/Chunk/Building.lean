import StackMachine.Chunk.Emit

/-!
# Chunks under construction

A compiler builds a chunk by one emission after the other, and may go on after a refusal
or a crash. Whatever it emits, every byte has a line, the pool of constants has no constant
twice and none that one operand byte could not name, and no list holds more than there are
places set aside for it: a chunk is charged for no less than it holds.

Construction only appends. Lines and constants stay as they are, and so do the bytes,
but for the two that hold the distance of a jump when it is filled in. So the index that
a constant was given names that constant, and no other, ever after.
-/

namespace StackMachine

/-! ## Sameness of constants -/

/-- Whether two constants are the same: numbers bit for bit, everything else as a program
sees it. -/
def Value.sameConstant : Value → Value → Bool
  | .number a, .number b => a.bits == b.bits
  | a, b => a.equal b

/-- Constants that are the same are equal as terms. -/
theorem Value.sameConstant_iff {a b : Value} : a.sameConstant b ↔ a = b := by
  cases a with
  | nil => cases b <;> simp [sameConstant, equal]
  | bool p => cases b <;> simp [sameConstant, equal]
  | object x => cases b <;> simp [sameConstant, equal]
  | number m =>
      cases b with
      | number n =>
          obtain ⟨bits⟩ := m
          obtain ⟨bits'⟩ := n
          simp [sameConstant]
      | _ => simp [sameConstant, equal]

/-- Zero and negative zero are two constants, although a program cannot tell them apart. -/
example : (Value.number ⟨0⟩).sameConstant (.number ⟨0x8000000000000000⟩) = false := by decide

/-! ## Emissions -/

/-- A call of a chunk's interface. -/
inductive Emission where
  | write (b : UInt8) (line : Nat)
  | writeOp (op : Opcode) (line : Nat)
  | writeOpByte (op : Opcode) (operand : UInt8) (line : Nat)
  | addConstant (v : Value)
  | writeConstant (v : Value) (line : Nat)
  | emitJump (op : Opcode) (line : Nat)
  | patchJump (offset : Nat)
  | emitLoop (start line : Nat)

/-- The chunk that an emission leaves, however it ends. -/
def Emit.left {α : Type} (x : Emit α) (c : Chunk) : Chunk :=
  match x c with
  | .ok _ c' => c'
  | .error _ c' => c'

def Emission.apply (c : Chunk) : Emission → Chunk
  | write b line => c.write b line
  | writeOp op line => c.writeOp op line
  | writeOpByte op operand line => c.writeOpByte op operand line
  | addConstant v => Emit.left (Chunk.addConstant v) c
  | writeConstant v line => Emit.left (Chunk.writeConstant v line) c
  | emitJump op line => Emit.left (Chunk.emitJump op line) c
  | patchJump offset => Emit.left (Chunk.patchJump offset) c
  | emitLoop start line => Emit.left (Chunk.emitLoop start line) c

/-- The offsets at which an emission fills in a distance. -/
def Emission.patched (c : Chunk) : Emission → List Nat
  | patchJump offset =>
    match Chunk.patchJump offset c with
    | .ok _ _ => [offset, offset + 1]
    | .error _ _ => []
  | _ => []

namespace Chunk

/-- The chunk that a sequence of emissions leaves. -/
def emitted (c : Chunk) (es : List Emission) : Chunk :=
  es.foldl Emission.apply c

/-- The offsets at which a sequence of emissions fills in distances. -/
def patched : Chunk → List Emission → List Nat
  | _, [] => []
  | c, e :: es => e.patched c ++ (e.apply c).patched es

/-- No list of a chunk holds more than there are places for. -/
structure Fits (c : Chunk) : Prop where
  code : c.code.size ≤ c.capacity.code
  lines : c.lines.size ≤ c.capacity.lines
  constants : c.constants.size ≤ c.capacity.constants

/-- What holds of every chunk under construction. -/
structure Consistent (c : Chunk) : Prop where
  lines : c.lines.size = c.code.size
  room : c.constants.size ≤ maxConstants
  distinct : ∀ {i j : Nat} {v w : Value}, c.constants[i]? = some v → c.constants[j]? = some w →
    v.sameConstant w → i = j
  fits : c.Fits

/-- The chunk `c'` is what `c` has become, with no byte changed except at `offsets`. -/
structure Extends (offsets : List Nat) (c c' : Chunk) : Prop where
  size : c.size ≤ c'.size
  code : ∀ i, i < c.size → i ∉ offsets → c'.byte? i = c.byte? i
  lines : c.lines.toList <+: c'.lines.toList
  constants : c.constants.toList <+: c'.constants.toList

/-- What an emission does to a chunk. -/
structure Grows (offsets : List Nat) (c c' : Chunk) : Prop where
  appends : c.Extends offsets c'
  consistent : c.Consistent → c'.Consistent

variable {c c' c'' : Chunk} {offsets offsets' : List Nat}

namespace Extends

theorem refl (c : Chunk) : c.Extends [] c :=
  ⟨Nat.le_refl _, fun _ _ _ => rfl, List.prefix_refl _, List.prefix_refl _⟩

theorem trans (h : c.Extends offsets c') (h' : c'.Extends offsets' c'') :
    c.Extends (offsets ++ offsets') c'' where
  size := Nat.le_trans h.size h'.size
  code := by
    intro i hi hnot
    rw [List.mem_append] at hnot
    have hsize := h.size
    rw [h'.code i (by omega) fun hin => hnot (Or.inr hin), h.code i hi fun hin => hnot (Or.inl hin)]
  lines := h.lines.trans h'.lines
  constants := h.constants.trans h'.constants

theorem write (h : c.Extends offsets c') (b : UInt8) (line : Nat) :
    c.Extends offsets (c'.write b line) where
  size := by
    have hsize := h.size
    simp only [Chunk.write, Chunk.size, Array.size_push] at hsize ⊢
    omega
  code := by
    intro i hi hnot
    have hsize := h.size
    rw [← h.code i hi hnot]
    simp only [Chunk.size] at hi hsize
    simp only [byte?, Chunk.write, Array.getElem?_push]
    rw [if_neg (by omega)]
  lines := by
    simp only [Chunk.write, Array.toList_push]
    exact h.lines.trans (List.prefix_append _ _)
  constants := h.constants

theorem constant? (h : c.Extends offsets c') {i : Nat} {v : Value}
    (hv : c.constants[i]? = some v) : c'.constants[i]? = some v := by
  rw [← Array.getElem?_toList] at hv ⊢
  obtain ⟨hi, hget⟩ := List.getElem?_eq_some_iff.mp hv
  rw [List.prefix_iff_getElem?.mp h.constants i hi, hget]

end Extends

/-- A list that has grown has a place for one more item. -/
theorem lt_grown {first capacity size : Nat} (hfirst : 0 < first) (h : size ≤ capacity) :
    size < grown first capacity size := by
  unfold grown
  split
  · assumption
  · omega

namespace Fits

theorem write (h : c.Fits) (b : UInt8) (line : Nat) : (c.write b line).Fits where
  code := by
    simp only [Chunk.write, Array.size_push]
    exact lt_grown (by decide) h.code
  lines := by
    simp only [Chunk.write, Array.size_push]
    exact lt_grown (by decide) h.lines
  constants := h.constants

theorem pushConstant (h : c.Fits) (v : Value) : (c.pushConstant v).Fits where
  code := h.code
  lines := h.lines
  constants := by
    simp only [Chunk.pushConstant, Array.size_push]
    exact lt_grown (by decide) h.constants

theorem copy (c : Chunk) : c.copy.Fits :=
  ⟨Nat.le_refl _, Nat.le_refl _, Nat.le_refl _⟩

end Fits

namespace Consistent

theorem empty : Consistent {} :=
  ⟨rfl, Nat.zero_le _, fun h => absurd h (by simp), .copy {}⟩

theorem write (h : c.Consistent) (b : UInt8) (line : Nat) : (c.write b line).Consistent where
  lines := by
    simp only [Chunk.write, Array.size_push]
    rw [h.lines]
  room := h.room
  distinct := h.distinct
  fits := h.fits.write b line

theorem pushConstant (h : c.Consistent) {v : Value} (hv : v ∉ c.constants)
    (hroom : c.constants.size < maxConstants) : (c.pushConstant v).Consistent where
  lines := h.lines
  room := by
    simp only [Chunk.pushConstant, Array.size_push]
    omega
  fits := h.fits.pushConstant v
  distinct := by
    intro i j w w' hi hj hsame
    obtain rfl := Value.sameConstant_iff.mp hsame
    simp only [Chunk.pushConstant, Array.getElem?_push] at hi hj
    -- the last place has the new constant, and no other place has it
    by_cases hlast : w = v
    · subst hlast
      have hplace : ∀ k, (if k = c.constants.size then some w else c.constants[k]?) = some w →
          k = c.constants.size := by
        intro k hk
        by_cases heq : k = c.constants.size
        · exact heq
        · rw [if_neg heq] at hk
          exact absurd (Array.mem_of_getElem? hk) hv
      rw [hplace i hi, hplace j hj]
    · have hplace : ∀ k, (if k = c.constants.size then some v else c.constants[k]?) = some w →
          c.constants[k]? = some w := by
        intro k hk
        by_cases heq : k = c.constants.size
        · rw [if_pos heq] at hk
          exact absurd (Option.some.inj hk).symm hlast
        · rw [if_neg heq] at hk
          exact hk
      exact h.distinct (hplace i hi) (hplace j hj) hsame

end Consistent

namespace Grows

theorem refl (c : Chunk) : c.Grows [] c :=
  ⟨.refl c, id⟩

theorem trans (h : c.Grows offsets c') (h' : c'.Grows offsets' c'') :
    c.Grows (offsets ++ offsets') c'' :=
  ⟨h.appends.trans h'.appends, fun hc => h'.consistent (h.consistent hc)⟩

theorem write (h : c.Grows offsets c') (b : UInt8) (line : Nat) :
    c.Grows offsets (c'.write b line) :=
  ⟨h.appends.write b line, fun hc => (h.consistent hc).write b line⟩

end Grows

/-! ## The pool -/

/-- A constant is found in the pool, put into it, or refused because the pool is full. -/
theorem addConstant_cases (v : Value) (c : Chunk) :
    (∃ i : Nat, c.constants[i]? = some v ∧ addConstant v c = .ok i.toUInt8 c) ∨
    (v ∉ c.constants ∧ c.constants.size < maxConstants ∧
      addConstant v c = .ok c.constants.size.toUInt8 (c.pushConstant v)) ∨
    (v ∉ c.constants ∧ maxConstants ≤ c.constants.size ∧
      addConstant v c = .error (.refused .tooManyConstants) c) := by
  cases hidx : c.constants.idxOf? v with
  | some i =>
      refine Or.inl ⟨i, ?_, by simp only [addConstant, hidx]⟩
      rw [Array.idxOf?_eq_map_finIdxOf?_val] at hidx
      obtain ⟨k, hk, rfl⟩ := Option.map_eq_some_iff.mp hidx
      have hget := (Array.finIdxOf?_eq_some_iff.mp hk).1
      exact Array.getElem?_eq_some_iff.mpr ⟨k.isLt, hget⟩
  | none =>
      have hv := Array.idxOf?_eq_none_iff.mp hidx
      by_cases hroom : c.constants.size < maxConstants
      · exact Or.inr (Or.inl ⟨hv, hroom, by simp only [addConstant, hidx, if_pos hroom]⟩)
      · exact Or.inr (Or.inr ⟨hv, by omega, by simp only [addConstant, hidx, if_neg hroom]⟩)

theorem left_of_ok {α : Type} {x : Emit α} {a : α} (h : x c = .ok a c') : x.left c = c' := by
  rw [Emit.left, h]

theorem left_of_error {α : Type} {x : Emit α} {stop : EmitStop} (h : x c = .error stop c') :
    x.left c = c' := by
  rw [Emit.left, h]

theorem writeConstant_of_ok {v : Value} {i : UInt8} (line : Nat) (h : addConstant v c = .ok i c') :
    writeConstant v line c = .ok i (c'.writeOpByte .constant i line) := by
  show EStateM.bind (addConstant v) _ c = _
  unfold EStateM.bind
  rw [h]
  rfl

theorem writeConstant_of_error {v : Value} {stop : EmitStop} (line : Nat)
    (h : addConstant v c = .error stop c') : writeConstant v line c = .error stop c' := by
  show EStateM.bind (addConstant v) _ c = _
  unfold EStateM.bind
  rw [h]

theorem grows_addConstant (v : Value) (c : Chunk) : c.Grows [] (Emit.left (addConstant v) c) := by
  rcases addConstant_cases v c with ⟨i, _, hok⟩ | ⟨hv, hroom, hok⟩ | ⟨_, _, herr⟩
  · rw [left_of_ok hok]
    exact .refl c
  · rw [left_of_ok hok]
    refine ⟨⟨Nat.le_refl _, fun _ _ _ => rfl, List.prefix_refl _, ?_⟩, fun hc => hc.pushConstant hv hroom⟩
    simp only [pushConstant, Array.toList_push]
    exact List.prefix_append _ _
  · rw [left_of_error herr]
    exact .refl c

/-! ## Jumps -/

theorem patchJump_cases (offset : Nat) (c : Chunk) :
    (∃ stop, patchJump offset c = .error stop c) ∨
    (offset + 2 ≤ c.size ∧ c.size - offset - 2 ≤ maxDistance ∧ patchJump offset c = .ok () { c with
      code := (c.code.setIfInBounds offset (highByte (c.size - offset - 2))).setIfInBounds
        (offset + 1) (lowByte (c.size - offset - 2)) }) := by
  by_cases hshort : c.size < offset + 2
  · exact Or.inl ⟨.crashed, by simp only [patchJump, if_pos hshort]⟩
  · by_cases hfar : maxDistance < c.size - offset - 2
    · exact Or.inl ⟨.refused .jumpTooFar, by simp only [patchJump, if_neg hshort, if_pos hfar]⟩
    · exact Or.inr ⟨by omega, by omega, by simp only [patchJump, if_neg hshort, if_neg hfar]⟩

theorem grows_patchJump (offset : Nat) (c : Chunk) :
    c.Grows (Emission.patched c (.patchJump offset)) (Emit.left (patchJump offset) c) := by
  rcases patchJump_cases offset c with ⟨stop, herr⟩ | ⟨_, _, hok⟩
  · simp only [Emission.patched, herr, left_of_error herr]
    exact .refl c
  · simp only [Emission.patched, hok, left_of_ok hok]
    refine ⟨⟨?_, fun i _ hnot => ?_, List.prefix_refl _, List.prefix_refl _⟩, fun hc => ?_⟩
    · simp only [Chunk.size, Array.size_setIfInBounds]
      exact Nat.le_refl _
    · rw [List.mem_cons, List.mem_singleton] at hnot
      simp only [byte?, Array.getElem?_setIfInBounds]
      rw [if_neg (by omega), if_neg (by omega)]
    · refine ⟨?_, hc.room, hc.distinct, ?_, hc.fits.lines, hc.fits.constants⟩
      · simp only [Array.size_setIfInBounds]
        exact hc.lines
      · simp only [Array.size_setIfInBounds]
        exact hc.fits.code

theorem emitLoop_cases (start line : Nat) (c : Chunk) :
    (∃ stop, emitLoop start line c = .error stop (c.writeOp .loop line)) ∨
    ∃ high low, emitLoop start line c =
      .ok () (((c.writeOp .loop line).write high line).write low line) := by
  by_cases hshort : (c.writeOp .loop line).size < start
  · exact Or.inl ⟨.crashed, by simp only [emitLoop, if_pos hshort]⟩
  · by_cases hfar : maxDistance < (c.writeOp .loop line).size - start + 2
    · exact Or.inl ⟨.refused .loopTooLarge, by simp only [emitLoop, if_neg hshort, if_pos hfar]⟩
    · exact Or.inr ⟨_, _, by simp only [emitLoop, if_neg hshort, if_neg hfar]; rfl⟩

/-! ## One emission and many -/

/-- **One emission** keeps a chunk consistent and only appends to it, but for the distance
that it fills in. It does so also when it is refused or crashes. -/
theorem grows_apply (e : Emission) (c : Chunk) : c.Grows (e.patched c) (e.apply c) := by
  have hrefl := Grows.refl c
  cases e with
  | write b line => exact hrefl.write b line
  | writeOp op line => exact hrefl.write op.toByte line
  | writeOpByte op operand line => exact (hrefl.write op.toByte line).write operand line
  | addConstant v => exact grows_addConstant v c
  | writeConstant v line =>
      have hpool := grows_addConstant v c
      show c.Grows [] (Emit.left (writeConstant v line) c)
      cases hadd : addConstant v c with
      | ok i c' =>
          rw [left_of_ok hadd] at hpool
          rw [left_of_ok (writeConstant_of_ok line hadd)]
          exact (hpool.write Opcode.constant.toByte line).write i line
      | error stop c' =>
          rw [left_of_error hadd] at hpool
          rw [left_of_error (writeConstant_of_error line hadd)]
          exact hpool
  | emitJump op line => exact ((hrefl.write op.toByte line).write 0xff line).write 0xff line
  | patchJump offset => exact grows_patchJump offset c
  | emitLoop start line =>
      have hop := hrefl.write Opcode.loop.toByte line
      show c.Grows [] (Emit.left (emitLoop start line) c)
      rcases emitLoop_cases start line c with ⟨stop, herr⟩ | ⟨high, low, hok⟩
      · rw [left_of_error herr]
        exact hop
      · rw [left_of_ok hok]
        exact (hop.write high line).write low line

/-- **Any number of emissions** do what one does. -/
theorem grows_emitted (es : List Emission) (c : Chunk) : c.Grows (c.patched es) (c.emitted es) := by
  induction es generalizing c with
  | nil => exact .refl c
  | cons e es ih => exact (grows_apply e c).trans (ih (e.apply c))

/-! ## What an index stands for -/

theorem toNat_toUInt8 {i : Nat} (h : i < maxConstants) : i.toUInt8.toNat = i := by
  have hmax : maxConstants = 256 := rfl
  have hmod : i.toUInt8.toNat = i % 256 := UInt8.toNat_ofNat'
  rw [hmod, Nat.mod_eq_of_lt (by omega)]

/-- The index that a constant is given is its place in the pool. -/
theorem Consistent.addConstant_index (h : c.Consistent) {v : Value} {i : UInt8}
    (hok : Chunk.addConstant v c = .ok i c') : c'.constants[i.toNat]? = some v := by
  rcases addConstant_cases v c with ⟨k, hk, hok'⟩ | ⟨_, hroom, hok'⟩ | ⟨_, _, herr⟩
  · obtain ⟨rfl, rfl⟩ := EStateM.Result.ok.inj (hok.symm.trans hok')
    have hlt := (Array.getElem?_eq_some_iff.mp hk).1
    rw [toNat_toUInt8 (Nat.lt_of_lt_of_le hlt h.room)]
    exact hk
  · obtain ⟨rfl, rfl⟩ := EStateM.Result.ok.inj (hok.symm.trans hok')
    rw [toNat_toUInt8 hroom, Chunk.pushConstant, Array.getElem?_push, if_pos rfl]
  · exact absurd (hok.symm.trans herr) (by simp)

/-- What the pool of a chunk does with a constant. -/
structure Pools (c : Chunk) (v : Value) : Prop where
  succeeds_iff : (∃ i c', addConstant v c = .ok i c') ↔
    (∃ w ∈ c.constants, w.sameConstant v) ∨ c.constants.size < maxConstants
  /-- Whatever is emitted later, the index names this constant and no other index does. -/
  index : ∀ i c', addConstant v c = .ok i c' → ∀ later j,
    (∃ w, (c'.emitted later).constants[j]? = some w ∧ w.sameConstant v) ↔ j = i.toNat

theorem Consistent.pools (h : c.Consistent) (v : Value) : c.Pools v where
  succeeds_iff := by
    have hmem : (∃ w ∈ c.constants, w.sameConstant v) ↔ v ∈ c.constants := by
      simp only [Value.sameConstant_iff, exists_eq_right]
    rw [hmem]
    rcases addConstant_cases v c with ⟨k, hk, hok⟩ | ⟨_, hroom, hok⟩ | ⟨hv, hfull, herr⟩
    · exact iff_of_true ⟨_, _, hok⟩ (Or.inl (Array.mem_of_getElem? hk))
    · exact iff_of_true ⟨_, _, hok⟩ (Or.inr hroom)
    · refine iff_of_false (fun hex => ?_) (fun hor => ?_)
      · obtain ⟨i, c', hok⟩ := hex
        exact absurd (hok.symm.trans herr) (by simp)
      · rcases hor with hin | hroom
        · exact hv hin
        · omega
  index := by
    intro i c' hok later j
    have hc' : c'.Consistent := by
      rw [← left_of_ok hok]
      exact (grows_addConstant v c).consistent h
    have hlater := grows_emitted later c'
    have hplace := hlater.appends.constant? (h.addConstant_index hok)
    constructor
    · intro hex
      obtain ⟨w, hw, hsame⟩ := hex
      exact (hlater.consistent hc').distinct hw hplace hsame
    · intro hj
      subst hj
      exact ⟨v, hplace, Value.sameConstant_iff.mpr rfl⟩

/-- **Construction keeps a chunk's representation.** After any sequence of emissions the
chunk is consistent, any further ones only append to it but for the distances that they
fill in, and its pool has a place for a constant or is full without it. -/
theorem construction_keeps_chunk (before later : List Emission) :
    (emitted {} before).Consistent ∧
    (emitted {} before).Extends (patched (emitted {} before) later) (emitted {} (before ++ later)) ∧
    ∀ v, (emitted {} before).Pools v := by
  have hc := (grows_emitted before {}).consistent .empty
  refine ⟨hc, ?_, fun v => hc.pools v⟩
  have happend : emitted {} (before ++ later) = (emitted {} before).emitted later :=
    List.foldl_append
  rw [happend]
  exact (grows_emitted later _).appends

end Chunk

end StackMachine
