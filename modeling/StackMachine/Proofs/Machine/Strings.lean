import StackMachine.Proofs.Heap.Interning
import StackMachine.Proofs.Machine.Containment

/-!
# Strings as programs see them

A program compares two strings by their handles and joins them by interning. Every
machine that can arise makes strings by interning alone, so the first decides whether
the contents are equal, and the second gives the one string of the joined content.

Neither can fail for want of a place on the stack, because the two operands make
room for the result. Joining can fail for want of memory, but only if the machine
has no string of the joined content yet.
-/

namespace StackMachine

/-- A machine about to execute `op` on two live strings. -/
def Machine.OnStrings (m : Machine) (op : Opcode) (rest : Array Value) (s t : String) : Prop :=
  ∃ n x y, m.next? = some (op, n) ∧ m.stack = (rest.push (.object x)).push (.object y) ∧
    m.heap.string? x = some s ∧ m.heap.string? y = some t

/-- What joining two strings leaves: the one string of the joined content, which is
the string there was if there was one. -/
def Machine.Joined (m : Machine) (rest : Array Value) (text : String) (m' : Machine) : Prop :=
  ∃ z, m'.stack = rest.push (.object z) ∧ m'.heap.interned? text = some z ∧
    m'.heap.string? z = some text ∧
    ∀ y, m.heap.string? y = some text → y = z ∧ m'.heap = m.heap

/-- How joining two strings fails: there is no string of the joined content, and
no room for one. -/
def Machine.Unjoinable (m : Machine) (text : String) (halt : Halt) : Prop :=
  (∃ e, halt = .failed (.outOfMemory e)) ∧ (∀ y, m.heap.string? y ≠ some text) ∧
    ¬ (m.heap.prepared m.roots (.string text)).Admits (.string text)

namespace Exec

open Machine

variable {m : Machine} {E : Halt → Machine → Prop}

/-- Two values make room for one. -/
theorem ends_replaceTwo {rest : Array Value} {a b : Value} {r : Value → Value → Value}
    {Q : Unit → Machine → Prop} (hs : m.stack = (rest.push a).push b)
    (hroom : m.stack.size ≤ m.config.maxStack) (h : Q () { m with stack := rest.push (r a b) }) :
    Ends (do let b ← pop; let a ← pop; push (r a b)) m Q E := by
  rw [hs, Array.size_push, Array.size_push] at hroom
  refine ends_bind (ends_pop_top hs (ends_bind (ends_pop_top rfl ?_)))
  exact ends_push (fun _ => h) fun hfull => absurd hroom (by simp only at hfull; omega)

/-- Joining interns the text of both strings. The operands are still on the stack
then, and give way to the answer. -/
theorem ends_add_strings {rest : Array Value} {x y : Handle} {s t : String}
    {Q : Unit → Machine → Prop} (hs : m.stack = (rest.push (.object x)).push (.object y))
    (hroom : m.stack.size ≤ m.config.maxStack) (hx : m.heap.string? x = some s)
    (hy : m.heap.string? y = some t)
    (hok : ∀ z, (m.intern (s ++ t)).1 = .ok z →
      Q () { (m.intern (s ++ t)).2 with stack := rest.push (.object z) })
    (herr : ∀ e, (m.intern (s ++ t)).1 = .error e →
      E (.failed (.outOfMemory e)) (m.intern (s ++ t)).2) : Ends add m Q E := by
  have hsize : m.stack.size = rest.size + 2 := by simp [hs]
  refine ends_bind (ends_peek_some (v := .object y) (by omega) ?_ ?_)
  · rw [hs, Array.getElem?_push]
    simp
  refine ends_bind (ends_peek_some (v := .object x) (by omega) ?_ (ends_get ?_))
  · rw [hs, Array.getElem?_push, Array.getElem?_push]
    simp
  · simp only [concatenation?, hx, hy]
    refine ends_bind (ends_intern (fun z m' hm' => ?_) fun e m' hm' => ?_)
    · have h := hok z (by rw [hm'])
      have hu : m'.stack = m.stack ∧ m'.config = m.config := by
        have : m' = (m.intern (s ++ t)).2 := by rw [hm']
        rw [this]
        exact ⟨rfl, rfl⟩
      rw [hm'] at h
      exact ends_replaceTwo (r := fun _ _ => .object z) (hu.1.trans hs)
        (by rw [hu.1, hu.2]; exact hroom) h
    · have h := herr e (by rw [hm'])
      rw [hm'] at h
      exact h

end Exec

namespace Machine

variable {m : Machine}

theorem Reached.contained (h : m.Reached) {op : Opcode} {n : Nat} (hn : m.next? = some (op, n)) :
    m.Contained m.config := by
  rcases h with hi | ⟨m₀, m₁, function, c, hi, hc, hr⟩
  · -- between two calls there is no instruction
    obtain ⟨rest, f, _, hf, _⟩ := Exec.next?_eq_some.mp hn
    rw [hi.clean.2] at hf
    exact absurd (congrArg Array.size hf) (by simp)
  · have hcontained := hr.contained (hi.regular.runs hc)
    rw [hcontained.config]
    exact hcontained

/-- The roots do not depend on where a call stands in its code. -/
theorem roots_setPointer {rest : Array Frame} {f : Frame} (hf : m.frames = rest.push f) (ip : Nat)
    (journal : Journal) :
    roots { m with frames := rest.push { f with ip }, journal } = m.roots := by
  simp [roots, hf]

theorem ends_equal_strings (h : m.Reached) {rest : Array Value} {s t : String}
    (ho : m.OnStrings .equal rest s t) :
    Exec.Ends Exec.step m.recordInstruction
      (fun _ m' => m'.stack = rest.push (.bool (decide (s = t))) ∧ m'.heap = m.heap)
      fun _ _ => False := by
  obtain ⟨n, x, y, hn, hs, hx, hy⟩ := ho
  have hroom := (h.contained hn).stack
  have hsame := (h.regular.sound.faithful.canonical h.regular.sound.wellFormed).same x y s t hx hy
  refine ends_step_next hn fun _ _ _ _ _ => Exec.ends_replaceTwo hs hroom ⟨?_, rfl⟩
  have hequal : (Value.object x).equal (.object y) = decide (s = t) := by
    show (x == y) = decide (s = t)
    rw [Bool.eq_iff_iff, beq_iff_eq, decide_eq_true_iff]
    exact hsame
  rw [hequal]

theorem ends_add_joined (h : m.Reached) {rest : Array Value} {s t : String}
    (ho : m.OnStrings .add rest s t) :
    Exec.Ends Exec.step m.recordInstruction
      (fun _ m' => m.Joined rest (s ++ t) m') fun halt _ => m.Unjoinable (s ++ t) halt := by
  obtain ⟨n, x, y, hn, hs, hx, hy⟩ := ho
  have hroom := (h.contained hn).stack
  have hsound := h.regular.sound
  have hc := hsound.faithful.canonical hsound.wellFormed
  have hc' := (hsound.intern m.roots (s ++ t)).faithful.canonical
    (hsound.intern m.roots (s ++ t)).wellFormed
  refine ends_step_next hn fun frames f ip journal hf => ?_
  have hroots := roots_setPointer hf ip journal
  refine Exec.ends_add_strings hs hroom hx hy (fun z hz => ?_) fun e he => ?_
  · simp only [intern, absorb, hroots] at hz ⊢
    have hlive := hc.resolves m.roots (s ++ t) z hz
    refine ⟨z, rfl, (hc'.table _ _).mpr hlive, hlive, fun w hw => ?_⟩
    rw [hc.hit m.roots (s ++ t) w hw] at hz ⊢
    exact ⟨Except.ok.inj hz, rfl⟩
  · simp only [intern, absorb, hroots] at he
    have hnone : ∀ w, m.heap.string? w ≠ some (s ++ t) := by
      intro w hw
      rw [hc.hit m.roots (s ++ t) w hw] at he
      exact absurd he (by simp)
    refine ⟨⟨e, rfl⟩, hnone, fun hadmits => ?_⟩
    obtain ⟨z, hz⟩ := (hc.miss m.roots (s ++ t) hnone).mpr hadmits
    rw [he] at hz
    exact absurd hz (by simp)

/-- **Interning is a bijection between contents and live strings**, in every heap
that makes strings by interning alone and in every machine that can arise. So a
program that compares two strings compares their contents, and one that joins them
gets the one string of the joined content. -/
theorem strings_canonical :
    (∀ config calls, (∀ c ∈ calls, HeapCall.Interns c) → (Heap.after config calls).Canonical) ∧
    ∀ m : Machine, m.Reached → m.heap.Canonical ∧ ∀ rest s t,
      (m.OnStrings .equal rest s t → Exec.Ends Exec.step m.recordInstruction
        (fun _ m' => m'.stack = rest.push (.bool (decide (s = t))) ∧ m'.heap = m.heap)
        fun _ _ => False) ∧
      (m.OnStrings .add rest s t → Exec.Ends Exec.step m.recordInstruction
        (fun _ m' => m.Joined rest (s ++ t) m') fun halt _ => m.Unjoinable (s ++ t) halt) := by
  refine ⟨fun config calls hcalls => ?_, fun m h => ⟨?_, fun rest s t => ⟨?_, ?_⟩⟩⟩
  · exact (Heap.after_faithful config calls hcalls).canonical
      (Heap.after_reachable config calls).wellFormed
  · exact h.regular.sound.faithful.canonical h.regular.sound.wellFormed
  · exact ends_equal_strings h
  · exact ends_add_joined h

/-- A function that answers its two constants joined. -/
def joinFunction : BytecodeFunction where
  chunk := Chunk.copy
    { code := #[0, 0, 0, 1, 16, 27]
      lines := #[1, 1, 1, 1, 1, 1]
      constants := #[.object ⟨0, 0⟩, .object ⟨1, 0⟩] }

/-- A machine with two words and the function that joins them. -/
def joinMachine : Machine :=
  [HostCall.intern "left", .pin ⟨0, 0⟩, .intern "right", .pin ⟨1, 0⟩, .allocateFunction none 0,
    .editFunction ⟨2, 0⟩ fun _ => joinFunction].foldl (fun m c => c.apply m) underStress

/-- The heap of that machine. -/
def joinHeap (names : Std.HashMap String Handle) : Heap :=
  .stocked { stress := true } [.string "left", .string "right", .function joinFunction] names
    #[⟨0, 0⟩, ⟨1, 0⟩]

/-- The machine in the middle of a run of the function. -/
def joinAt (heap : Heap) (ip : Nat) (operands : List Value) : Machine :=
  { underStress with
    heap
    stack := (.object ⟨2, 0⟩ :: operands).toArray
    frames := #[{ function := ⟨2, 0⟩, ip, base := 1 }] }

theorem joinMachine_eq : ∃ names t stats, joinMachine =
    { underStress with heap := (joinHeap names).noted t stats } := by
  have hroots := underStress_roots {}
  obtain ⟨m₁, hi₁, hleft⟩ := (underStress_stocks {}).intern rfl hroots rfl rfl (by decide) "left"
    (by simp) (by cbv)
  obtain ⟨m₂, hi₂, hright⟩ := (hleft.pin ⟨0, 0⟩).intern rfl hroots rfl rfl (by decide) "right"
    (by cbv) (by cbv)
  obtain ⟨hsame, t, stats, hheap⟩ := (hright.pin ⟨1, 0⟩).storeFunction rfl hroots rfl rfl
    (by decide) none 0 joinFunction (by cbv)
  rw [hheap, ← show (HostCall.intern "right").apply _ = m₂ from congrArg Prod.snd hi₂,
    ← show (HostCall.intern "left").apply _ = m₁ from congrArg Prod.snd hi₁] at hsame
  exact ⟨_, t, stats, hsame⟩

/-- Two words are interned and the second is freed, and a machine joins two words. -/
theorem strings_canonical_join :
    (Heap.after {} [.intern [] "left", .intern [] "right", .collect [⟨0, 0⟩]]).Canonical ∧
    ∃ m : Machine, m.Reached ∧ m.OnStrings .add #[.object ⟨2, 0⟩] "left" "right" ∧
      Exec.Ends Exec.step m.recordInstruction
        (fun _ m' => m.Joined #[.object ⟨2, 0⟩] "leftright" m')
        fun halt _ => m.Unjoinable "leftright" halt := by
  obtain ⟨hheap, hmachine⟩ := strings_canonical
  have hidle : joinMachine.Idle := (underStress_idle {}).calls (by simp [HostCall.outcome?])
  obtain ⟨m, hr, hon⟩ : ∃ m, InRun joinMachine ⟨2, 0⟩ m ∧
      m.OnStrings .add #[.object ⟨2, 0⟩] "left" "right" := by
    obtain ⟨names, t, stats, hm⟩ := joinMachine_eq
    have hstart : InRun joinMachine ⟨2, 0⟩ (joinAt ((joinHeap names).noted t stats) 0 []) :=
      .enter (by rw [hm]; rfl)
    have hleft : InRun joinMachine ⟨2, 0⟩
        (joinAt ((joinHeap names).noted t stats) 2 [.object ⟨0, 0⟩]) := .step hstart rfl
    exact ⟨joinAt ((joinHeap names).noted t stats) 4 [.object ⟨0, 0⟩, .object ⟨1, 0⟩],
      .step hleft rfl, 0, ⟨0, 0⟩, ⟨1, 0⟩, rfl, rfl, rfl, rfl⟩
  have hreached : m.Reached :=
    Or.inr ⟨_, _, _, .runFunction 9 ⟨2, 0⟩, hidle, ⟨rfl, rfl⟩, hr⟩
  exact ⟨hheap _ _ (by simp [HeapCall.Interns]),
    ⟨m, hreached, hon, ((hmachine m hreached).2 _ _ _).2 hon⟩⟩

end Machine

end StackMachine
