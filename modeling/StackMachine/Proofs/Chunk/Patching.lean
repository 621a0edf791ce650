import StackMachine.Proofs.Chunk.Building

/-!
# Filling in distances

A jump is appended with its distance open, and the two bytes that are to hold it are
filled in when the code has reached the place it leads to. Many jumps can be open at a
time, and they are filled in in any order.

They do not get in each other's way. Between two open distances there is always an
opcode, so filling in one of them leaves the bytes of every other instruction alone, and
of its own instruction the opcode. All of this holds as long as a compiler fills in only
what it was told to be open.
-/

namespace StackMachine

/-- The offset of the distance that an emission leaves open. -/
def Emission.placeholder? (c : Chunk) : Emission → Option Nat
  | emitJump op line =>
    match Chunk.emitJump op line c with
    | .ok offset _ => some offset
    | .error _ _ => none
  | _ => none

/-- The offset at which an emission is to fill in a distance. -/
def Emission.target? : Emission → Option Nat
  | patchJump offset => some offset
  | _ => none

/-- The offsets at which a sequence of emissions is to fill in distances. -/
def Emission.targets (es : List Emission) : List Nat :=
  es.filterMap target?

namespace Chunk

/-- The offsets of the distances that a sequence of emissions leaves open. -/
def placeholders : Chunk → List Emission → List Nat
  | _, [] => []
  | c, e :: es => (e.placeholder? c).toList ++ (e.apply c).placeholders es

variable {c : Chunk} {e : Emission} {es before later : List Emission} {i q : Nat}

/-! ## Two bytes -/

/-- The two bytes of a distance are read back as the distance. -/
theorem word_highByte_lowByte {distance : Nat} (h : distance ≤ maxDistance) :
    word (highByte distance) (lowByte distance) = distance := by
  have hmax : maxDistance = 65535 := rfl
  have hhigh : (highByte distance).toNat = distance / 256 % 256 := UInt8.toNat_ofNat'
  have hlow : (lowByte distance).toNat = distance % 256 := UInt8.toNat_ofNat'
  rw [word, hhigh, hlow]
  omega

@[simp]
theorem size_write (c : Chunk) (b : UInt8) (line : Nat) : (c.write b line).size = c.size + 1 :=
  Array.size_push ..

/-- Appends bytes of one source line. -/
def writeAll (c : Chunk) (bytes : List UInt8) (line : Nat) : Chunk :=
  bytes.foldl (fun c b => c.write b line) c

theorem code_writeAll (c : Chunk) (bytes : List UInt8) (line : Nat) :
    (c.writeAll bytes line).code = c.code ++ bytes.toArray := by
  induction bytes generalizing c with
  | nil => exact Array.append_empty.symm
  | cons b bytes ih =>
      have hstep : c.writeAll (b :: bytes) line = (c.write b line).writeAll bytes line := rfl
      rw [hstep, ih, write, Array.push_eq_append, Array.append_assoc]
      simp

/-- The bytes stand where the code ended. -/
theorem byte?_writeAll (c : Chunk) (bytes : List UInt8) (line k : Nat) :
    (c.writeAll bytes line).byte? (c.size + k) = bytes[k]? := by
  rw [byte?, code_writeAll, size, Array.getElem?_append_right (by omega), Nat.add_sub_cancel_left,
    List.getElem?_toArray]

/-! ## What a jump is told -/

/-- Filling in a distance that lies in the code can be refused but does not crash. -/
theorem patchJump_eq (hin : q + 2 ≤ c.size) :
    patchJump q c =
      if maxDistance < c.size - q - 2 then .error (.refused .jumpTooFar) c
      else .ok () { c with
        code := (c.code.setIfInBounds q (highByte (c.size - q - 2))).setIfInBounds (q + 1)
          (lowByte (c.size - q - 2)) } := by
  simp only [patchJump, if_neg (Nat.not_lt.mpr hin)]

/-- The chunk `c'` is `c` with the distance to its end filled in at an offset. -/
structure Filled (offset : Nat) (c c' : Chunk) : Prop where
  inside : offset + 2 ≤ c.size
  near : c.size - offset - 2 ≤ maxDistance
  size : c'.size = c.size
  high : c'.byte? offset = some (highByte (c.size - offset - 2))
  low : c'.byte? (offset + 1) = some (lowByte (c.size - offset - 2))

theorem filled_of_patchJump {c' : Chunk} (hok : patchJump q c = .ok () c') : Filled q c c' := by
  rcases patchJump_cases q c with ⟨stop, herr⟩ | ⟨hin, hnear, hok'⟩
  · exact absurd (hok.symm.trans herr) (by simp)
  · obtain ⟨-, rfl⟩ := EStateM.Result.ok.inj (hok.symm.trans hok')
    have hlow : q + 1 < c.code.size := hin
    have hhigh : q < c.code.size := by omega
    refine ⟨hin, hnear, ?_, ?_, ?_⟩
    · simp only [Chunk.size, Array.size_setIfInBounds]
    · simp only [byte?, Array.getElem?_setIfInBounds]
      rw [if_neg (by omega), if_pos trivial, if_pos hhigh]
    · simp only [byte?, Array.getElem?_setIfInBounds, Array.size_setIfInBounds]
      rw [if_pos trivial, if_pos hlow]

theorem emitLoop_eq {start : Nat} (line : Nat) (hin : start ≤ c.size + 1) :
    emitLoop start line c =
      if maxDistance < c.size + 3 - start then
        .error (.refused .loopTooLarge) (c.writeOp .loop line)
      else .ok () (((c.writeOp .loop line).write (highByte (c.size + 3 - start)) line).write
        (lowByte (c.size + 3 - start)) line) := by
  have hsize : (c.writeOp .loop line).size = c.size + 1 := size_write ..
  have hdistance : c.size + 1 - start + 2 = c.size + 3 - start := by omega
  simp only [emitLoop, hsize, hdistance, if_neg (Nat.not_lt.mpr hin)]

/-! ## Where distances are open -/

theorem emitted_cons (c : Chunk) (e : Emission) (es : List Emission) :
    c.emitted (e :: es) = (e.apply c).emitted es :=
  rfl

theorem emitted_append (c : Chunk) (es es' : List Emission) :
    c.emitted (es ++ es') = (c.emitted es).emitted es' :=
  List.foldl_append

theorem emitJump_eq (op : Opcode) (line : Nat) (c : Chunk) :
    emitJump op line c =
      .ok (c.size + 1) (((c.writeOp op line).write 0xff line).write 0xff line) := by
  simp [emitJump, writeOp]

/-- An open distance stands right behind its opcode and is the end of the code. -/
theorem placeholder?_eq_some (h : e.placeholder? c = some q) :
    q = c.size + 1 ∧ (e.apply c).size = q + 2 := by
  cases e with
  | emitJump op line =>
      have heq := emitJump_eq op line c
      simp only [Emission.placeholder?, heq, Option.some.injEq] at h
      subst h
      have happly : Emission.apply c (.emitJump op line) = _ := left_of_ok heq
      simp [happly, writeOp]
  | _ => exact absurd h (by simp [Emission.placeholder?])

theorem size_le_apply (e : Emission) (c : Chunk) : c.size ≤ (e.apply c).size :=
  (grows_apply e c).appends.size

theorem size_le_emitted (es : List Emission) (c : Chunk) : c.size ≤ (c.emitted es).size :=
  (grows_emitted es c).appends.size

theorem placeholders_append (c : Chunk) (es es' : List Emission) :
    c.placeholders (es ++ es') = c.placeholders es ++ (c.emitted es).placeholders es' := by
  induction es generalizing c with
  | nil => rfl
  | cons e es ih =>
      rw [List.cons_append, placeholders, placeholders, ih, emitted_cons, List.append_assoc]

/-- A distance is left open in code that was not there before. -/
theorem placeholder_bounds (h : q ∈ c.placeholders es) :
    c.size < q ∧ q + 2 ≤ (c.emitted es).size := by
  induction es generalizing c with
  | nil => exact absurd h (by simp [placeholders])
  | cons e es ih =>
      rw [placeholders, List.mem_append, Option.mem_toList] at h
      rw [emitted_cons]
      rcases h with hown | hlater
      · obtain ⟨hq, hsize⟩ := placeholder?_eq_some hown
        have hgrows := size_le_emitted es (e.apply c)
        omega
      · obtain ⟨hlt, hle⟩ := ih hlater
        have hgrows := size_le_apply e c
        omega

/-- Seen from one emission, a distance is left open before it, by it or after it. -/
theorem placeholder_cases (h : q ∈ c.placeholders (before ++ e :: later)) :
    q + 2 ≤ (c.emitted before).size ∨ e.placeholder? (c.emitted before) = some q ∨
      (e.apply (c.emitted before)).size < q := by
  rw [placeholders_append, List.mem_append, placeholders, List.mem_append, Option.mem_toList] at h
  rcases h with hbefore | hown | hlater
  · exact Or.inl (placeholder_bounds hbefore).2
  · exact Or.inr (Or.inl hown)
  · exact Or.inr (Or.inr (placeholder_bounds hlater).1)

/-! ## What stays as it is -/

theorem mem_targets_append :
    q ∈ Emission.targets (before ++ later) ↔
      q ∈ Emission.targets before ∨ q ∈ Emission.targets later := by
  simp only [Emission.targets, List.filterMap_append, List.mem_append]

theorem mem_targets_cons_of_mem (h : q ∈ Emission.targets es) :
    q ∈ Emission.targets (e :: es) := by
  obtain ⟨e', he', htarget⟩ := List.mem_filterMap.mp h
  exact List.mem_filterMap.mpr ⟨e', List.mem_cons_of_mem _ he', htarget⟩

theorem mem_targets_patchJump {offset : Nat} :
    q ∈ Emission.targets (.patchJump offset :: es) ↔ q = offset ∨ q ∈ Emission.targets es :=
  List.mem_cons

theorem mem_patched (h : i ∈ c.patched es) : ∃ q ∈ Emission.targets es, i = q ∨ i = q + 1 := by
  induction es generalizing c with
  | nil => exact absurd h (by simp [patched])
  | cons e es ih =>
      rw [patched, List.mem_append] at h
      rcases h with hown | hlater
      · cases e with
        | patchJump offset =>
            refine ⟨offset, by simp [Emission.targets, Emission.target?], ?_⟩
            rcases patchJump_cases offset c with ⟨stop, herr⟩ | ⟨_, _, hok⟩
            · simp only [Emission.patched, herr] at hown
              exact absurd hown (by simp)
            · simp only [Emission.patched, hok] at hown
              simpa using hown
        | _ => exact absurd hown (by simp [Emission.patched])
      · obtain ⟨q, hq, hi⟩ := ih hlater
        exact ⟨q, mem_targets_cons_of_mem hq, hi⟩

/-- A byte stays as it is unless a distance is filled in there. -/
theorem byte?_emitted (hi : i < c.size)
    (h : ∀ q ∈ Emission.targets es, i ≠ q ∧ i ≠ q + 1) :
    (c.emitted es).byte? i = c.byte? i := by
  refine (grows_emitted es c).appends.code i hi fun hin => ?_
  obtain ⟨q, hq, heq⟩ := mem_patched hin
  have hne := h q hq
  omega

/-- The bytes of an emission are no part of a distance that another emission left open. -/
theorem placeholder_apart (hq : q ∈ placeholders {} (before ++ e :: later))
    (hlow : (emitted {} before).size ≤ i) (hhigh : i < (e.apply (emitted {} before)).size)
    (hown : e.placeholder? (emitted {} before) ≠ some q) : i ≠ q ∧ i ≠ q + 1 := by
  rcases placeholder_cases hq with hbefore | hsame | hafter
  · omega
  · exact absurd hsame hown
  · omega

/-- The bytes of an emission stay as they are, but for the distance that it left open. -/
theorem byte?_apply_emitted
    (htargets : ∀ q ∈ Emission.targets later, q ∈ placeholders {} (before ++ e :: later))
    (hlow : (emitted {} before).size ≤ i) (hhigh : i < (e.apply (emitted {} before)).size)
    (hown : ∀ q, e.placeholder? (emitted {} before) = some q → i < q) :
    ((e.apply (emitted {} before)).emitted later).byte? i =
      (e.apply (emitted {} before)).byte? i := by
  refine byte?_emitted hhigh fun q hq => ?_
  by_cases hsame : e.placeholder? (emitted {} before) = some q
  · have hlt := hown q hsame
    omega
  · exact placeholder_apart (htargets q hq) hlow hhigh hsame

end Chunk

end StackMachine
