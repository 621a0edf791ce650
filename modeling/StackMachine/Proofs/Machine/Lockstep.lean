import StackMachine.Proofs.Heap.Correspondence
import StackMachine.Proofs.Machine.Hosting

/-!
# Two machines in lockstep

Two machines are alike when they hold the same values and calls, up to a
one-to-one relation between the handles of one and of the other. Then they read
the same instruction, and each action does the same in both: it answers values
that are alike, or halts both for the same reason.

Only interning can tell the two apart. It may collect in one machine and not in
the other, so that afterwards a smaller relation holds, between what both can
still reach, together with the string just interned. And one of the machines may
run out of memory, which ends the comparison.
-/

namespace StackMachine

/-! ## What it means to be alike -/

section

variable (ρ : Handle → Handle → Prop)

structure Frame.Alike (f g : Frame) : Prop where
  function : ρ f.function g.function
  ip : f.ip = g.ip
  base : f.base = g.base

/-- Native functions' programs that use neither the heap nor each other's handles
end in the same way. -/
inductive Primitive.Alike : Primitive → Primitive → Prop where
  | answer {v w : Value} : v.Alike ρ w → Alike (.done (.ok v)) (.done (.ok w))
  | refusal (text : String) : Alike (.done (.error text)) (.done (.error text))
  | look {next next' : Moment → Primitive} : (∀ moment, Alike (next moment) (next' moment)) →
      Alike (.look next) (.look next')

inductive Halt.Alike : Halt → Halt → Prop where
  | returned {v w : Value} : v.Alike ρ w → Alike (.returned v) (.returned w)
  | failed (e : Error) : Alike (.failed e) (.failed e)
  | crashed : Alike .crashed .crashed

end

/-- A native function that neither inspects the heap nor allocates, and answers
alike when its arguments are alike. It may know some pinned objects. -/
def NativeFunction.Uniform (pins : List Handle) (n : NativeFunction) : Prop :=
  ∀ ρ : Handle → Handle → Prop,
    (∀ {x y y'}, ρ x y → ρ x y' → y = y') → (∀ {x x' y}, ρ x y → ρ x' y → x = x') →
    (∀ x ∈ pins, ρ x x) →
    ∀ as bs : Array Value, as.size = n.arity.toNat → Pointwise (Value.Alike ρ) as bs →
      (n.body as).Alike ρ (n.body bs)

/-- Whether a machine stops because its heap is full. -/
def Halt.OutOfMemory (halt : Halt) : Prop :=
  ∃ e, halt = .failed (.outOfMemory e)

/-- Machines that hold the same up to a relation of their handles. Both have some
objects pinned, which are the same in both. -/
structure Machine.Alike (pins : List Handle) (ρ : Handle → Handle → Prop) (m₁ m₂ : Machine) :
    Prop where
  heap : Heap.Matching ρ m₁.heap m₂.heap
  sound₁ : m₁.heap.Sound
  sound₂ : m₂.heap.Sound
  stack : Pointwise (Value.Alike ρ) m₁.stack m₂.stack
  frames : Pointwise (Frame.Alike ρ) m₁.frames m₂.frames
  globals : ∀ k k', ρ k k' → Option.Rel (Value.Alike ρ) m₁.globals[k]? m₂.globals[k']?
  names₁ : ∀ k v, m₁.globals[k]? = some v → ∃ k', ρ k k'
  names₂ : ∀ k' v, m₂.globals[k']? = some v → ∃ k, ρ k k'
  output : m₁.output = m₂.output
  world : m₁.world = m₂.world
  maxStack : m₁.config.maxStack = m₂.config.maxStack
  maxFrames : m₁.config.maxFrames = m₂.config.maxFrames
  pins₁ : ∀ x ∈ pins, x ∈ m₁.heap.pinned
  pins₂ : ∀ x ∈ pins, x ∈ m₂.heap.pinned
  pinned : ∀ x ∈ pins, ρ x x
  uniform : ∀ x y n, ρ x y → m₁.heap.get? x = some (.native n) → n.Uniform pins

namespace Machine.Alike

variable {pins : List Handle} {ρ : Handle → Handle → Prop} {m₁ m₂ : Machine}

theorem symm (h : m₁.Alike pins ρ m₂) : m₂.Alike pins (fun y x => ρ x y) m₁ where
  heap := h.heap.symm
  sound₁ := h.sound₂
  sound₂ := h.sound₁
  stack := h.stack.symm.mono fun _ _ _ _ hvw => Value.Alike.symm hvw
  frames := h.frames.symm.mono fun _ _ _ _ hfg => ⟨hfg.function, hfg.ip.symm, hfg.base.symm⟩
  globals := fun k' k hk => rel_mono (rel_symm (h.globals k k' hk)) fun _ _ _ _ => Value.Alike.symm
  names₁ := h.names₂
  names₂ := h.names₁
  output := h.output.symm
  world := h.world.symm
  maxStack := h.maxStack.symm
  maxFrames := h.maxFrames.symm
  pins₁ := h.pins₂
  pins₂ := h.pins₁
  pinned := h.pinned
  uniform := by
    -- objects that are alike are the same native function
    intro y x n hxy hy
    obtain ⟨d, e, hd, he, hde⟩ := h.heap.objects hxy
    rw [hy] at he
    cases Option.some.inj he
    cases hde with
    | native n => exact h.uniform x y n hxy hd

/-! ## What is the same in both -/

/-- Every root has its counterpart among the roots of the other machine. -/
theorem root (h : m₁.Alike pins ρ m₂) {x : Handle} (hx : x ∈ m₁.roots) :
    ∃ y ∈ m₂.roots, ρ x y := by
  rcases mem_roots.mp hx with hv | ⟨f, hf, rfl⟩ | ⟨k, v, hk, hkv⟩
  · obtain ⟨w, hw, hvw⟩ := h.stack.mem hv
    cases hvw with
    | object hxy => exact ⟨_, mem_roots.mpr (Or.inl hw), hxy⟩
  · obtain ⟨g, hg, hfg⟩ := h.frames.mem hf
    exact ⟨_, mem_roots.mpr (Or.inr (Or.inl ⟨g, hg, rfl⟩)), hfg.function⟩
  · obtain ⟨k', hk'⟩ := h.names₁ k v hk
    obtain ⟨w, hw, hvw⟩ := rel_some (h.globals k k' hk') hk
    rcases hkv with rfl | rfl
    · exact ⟨k', mem_roots.mpr (Or.inr (Or.inr ⟨k', w, hw, Or.inl rfl⟩)), hk'⟩
    · cases hvw with
      | object hxy => exact ⟨_, mem_roots.mpr (Or.inr (Or.inr ⟨k', _, hw, Or.inr rfl⟩)), hxy⟩

theorem display (h : m₁.Alike pins ρ m₂) {v w : Value} (hvw : v.Alike ρ w) :
    m₁.display v = m₂.display w :=
  h.heap.text hvw

theorem lastOffset (h : m₁.Alike pins ρ m₂) : m₁.lastOffset = m₂.lastOffset := by
  unfold Machine.lastOffset
  rw [rel_map_eq h.frames.back? fun f g hfg => by rw [hfg.ip]]

theorem traceEntry (h : m₁.Alike pins ρ m₂) {f g : Frame} (hfg : f.Alike ρ g) :
    m₁.traceEntry f = m₂.traceEntry g := by
  unfold Machine.traceEntry
  rcases rel_cases (h.heap.function? hfg.function) with ⟨h₁, h₂⟩ | ⟨k, k', h₁, h₂, hk⟩
  · rw [h₁, h₂]
  · rw [h₁, h₂]
    simp only [h.heap.name_text hk, Chunk.line?, hk.lines, hfg.ip]

theorem runtimeError (h : m₁.Alike pins ρ m₂) (fault : RuntimeFault) :
    m₁.runtimeError fault = m₂.runtimeError fault := by
  unfold Machine.runtimeError
  rw [List.map_reverse, List.map_reverse, h.frames.map_eq fun f g => h.traceEntry]

/-! ## Changes that leave the heaps alone -/

theorem setStack (h : m₁.Alike pins ρ m₂) {s₁ s₂ : Array Value}
    (hs : Pointwise (Value.Alike ρ) s₁ s₂) :
    Machine.Alike pins ρ { m₁ with stack := s₁ } { m₂ with stack := s₂ } :=
  { h with stack := hs }

theorem setFrames (h : m₁.Alike pins ρ m₂) {f₁ f₂ : Array Frame}
    (hf : Pointwise (Frame.Alike ρ) f₁ f₂) :
    Machine.Alike pins ρ { m₁ with frames := f₁ } { m₂ with frames := f₂ } :=
  { h with frames := hf }

theorem setJournal (h : m₁.Alike pins ρ m₂) (j₁ j₂ : Journal) :
    Machine.Alike pins ρ { m₁ with journal := j₁ } { m₂ with journal := j₂ } :=
  { h with }

theorem setOutput (h : m₁.Alike pins ρ m₂) (output : Output) :
    Machine.Alike pins ρ { m₁ with output } { m₂ with output } :=
  { h with output := rfl }

theorem setGlobal (h : m₁.Alike pins ρ m₂) {k k' : Handle} (hk : ρ k k') {v w : Value}
    (hvw : v.Alike ρ w) :
    Machine.Alike pins ρ { m₁ with globals := m₁.globals.insert k v }
      { m₂ with globals := m₂.globals.insert k' w } := by
  refine
    { h with
      globals := fun x y hxy => ?_
      names₁ := fun x u hx => ?_
      names₂ := fun y u hy => ?_ }
  · simp only [Std.HashMap.getElem?_insert, beq_iff_eq]
    by_cases hkx : k = x
    · subst hkx
      rw [if_pos rfl, if_pos (h.heap.functional hk hxy)]
      exact .some hvw
    · -- a relation that is not one-to-one could change two globals by one
      have hky : k' ≠ y := by
        rintro rfl
        exact hkx (h.heap.injective hk hxy)
      rw [if_neg hkx, if_neg hky]
      exact h.globals x y hxy
  · simp only [Std.HashMap.getElem?_insert, beq_iff_eq] at hx
    split at hx
    · rename_i hkx; subst hkx; exact ⟨k', hk⟩
    · exact h.names₁ x u hx
  · simp only [Std.HashMap.getElem?_insert, beq_iff_eq] at hy
    split at hy
    · rename_i hky; subst hky; exact ⟨k, hk⟩
    · exact h.names₂ y u hy

/-! ## Interning -/

/-- Machines stay alike in new heaps under a relation that matches these and
contains the old one between roots. -/
theorem setHeap (h : m₁.Alike pins ρ m₂) {ρ' : Handle → Handle → Prop} {h₁ h₂ : Heap}
    (hmatch : Heap.Matching ρ' h₁ h₂) (hs₁ : h₁.Sound) (hs₂ : h₂.Sound)
    (hp₁ : h₁.pinned = m₁.heap.pinned) (hp₂ : h₂.pinned = m₂.heap.pinned)
    (hroot : ∀ a b, ρ a b → a ∈ m₁.roots → b ∈ m₂.roots → ρ' a b)
    (hpinned : ∀ x ∈ pins, ρ' x x)
    (huniform : ∀ x y n, ρ' x y → h₁.get? x = some (.native n) → n.Uniform pins)
    (j₁ j₂ : Journal) :
    Machine.Alike pins ρ' { m₁ with heap := h₁, journal := j₁ }
      { m₂ with heap := h₂, journal := j₂ } := by
  -- a global of one machine is one of the other, and its name is a root in both
  have hglobal₁ : ∀ k v, m₁.globals[k]? = some v →
      ∃ k' w, ρ' k k' ∧ m₂.globals[k']? = some w ∧ v.Alike ρ' w := by
    intro k v hv
    obtain ⟨k', hk⟩ := h.names₁ k v hv
    obtain ⟨w, hw, hvw⟩ := rel_some (h.globals k k' hk) hv
    refine ⟨k', w, hroot k k' hk ?_ ?_, hw, hvw.mono fun a b ha hb hab => hroot a b hab ?_ ?_⟩
    · exact mem_roots.mpr (Or.inr (Or.inr ⟨k, v, hv, Or.inl rfl⟩))
    · exact mem_roots.mpr (Or.inr (Or.inr ⟨k', w, hw, Or.inl rfl⟩))
    · exact mem_roots.mpr (Or.inr (Or.inr ⟨k, v, hv, Or.inr ha⟩))
    · exact mem_roots.mpr (Or.inr (Or.inr ⟨k', w, hw, Or.inr hb⟩))
  have hglobal₂ : ∀ k' w, m₂.globals[k']? = some w → ∃ k v, ρ' k k' ∧ m₁.globals[k]? = some v := by
    intro k' w hw
    obtain ⟨k, hk⟩ := h.names₂ k' w hw
    obtain ⟨v, hv, _⟩ := rel_some (rel_symm (h.globals k k' hk)) hw
    refine ⟨k, v, hroot k k' hk ?_ ?_, hv⟩
    · exact mem_roots.mpr (Or.inr (Or.inr ⟨k, v, hv, Or.inl rfl⟩))
    · exact mem_roots.mpr (Or.inr (Or.inr ⟨k', w, hw, Or.inl rfl⟩))
  refine
    { heap := hmatch, sound₁ := hs₁, sound₂ := hs₂
      stack := h.stack.mono fun v w hv hw hvw => hvw.mono fun a b ha hb hab => ?_
      frames := h.frames.mono fun f g hf hg hfg => ⟨?_, hfg.ip, hfg.base⟩
      globals := fun k k' hk => ?_
      names₁ := fun k v hv => ?_
      names₂ := fun k' w hw => ?_
      output := h.output, world := h.world, maxStack := h.maxStack, maxFrames := h.maxFrames
      pins₁ := fun x hx => ?_
      pins₂ := fun x hx => ?_
      pinned := hpinned, uniform := huniform }
  · subst ha hb
    exact hroot a b hab (mem_roots.mpr (Or.inl hv)) (mem_roots.mpr (Or.inl hw))
  · exact hroot _ _ hfg.function (mem_roots.mpr (Or.inr (Or.inl ⟨f, hf, rfl⟩)))
      (mem_roots.mpr (Or.inr (Or.inl ⟨g, hg, rfl⟩)))
  · show Option.Rel (Value.Alike ρ') m₁.globals[k]? m₂.globals[k']?
    cases hv : m₁.globals[k]? with
    | some v =>
        obtain ⟨k'', w, hk'', hw, hvw⟩ := hglobal₁ k v hv
        rw [hmatch.functional hk hk'', hw]
        exact .some hvw
    | none =>
        cases hw : m₂.globals[k']? with
        | none => exact .none
        | some w =>
            obtain ⟨k₀, v, hk₀, hv'⟩ := hglobal₂ k' w hw
            rw [hmatch.injective hk₀ hk, hv] at hv'
            exact absurd hv' (by simp)
  · obtain ⟨k', _, hk, _⟩ := hglobal₁ k v hv
    exact ⟨k', hk⟩
  · obtain ⟨k, _, hk, _⟩ := hglobal₂ k' w hw
    exact ⟨k, hk⟩
  · show x ∈ h₁.pinned
    rw [hp₁]
    exact h.pins₁ x hx
  · show x ∈ h₂.pinned
    rw [hp₂]
    exact h.pins₂ x hx

/-- **Interning keeps machines alike**, whichever of the two it makes collect.
What both can reach stays related, and the string joins it. -/
theorem intern (h : m₁.Alike pins ρ m₂) {text : String} {x y : Handle} {m₁' m₂' : Machine}
    (h₁ : m₁.intern text = (.ok x, m₁')) (h₂ : m₂.intern text = (.ok y, m₂')) :
    ∃ ρ', m₁'.Alike pins ρ' m₂' ∧ ρ' x y := by
  have he₁ := Heap.intern_evolves h.sound₁.wellFormed m₁.roots text
  have he₂ := Heap.intern_evolves h.sound₂.wellFormed m₂.roots text
  have hs₁ := h.sound₁.intern m₁.roots text
  have hs₂ := h.sound₂.intern m₂.roots text
  have hx := Heap.intern_get? h.sound₁.wellFormed h.sound₁.faithful (congrArg Prod.fst h₁)
  have hy := Heap.intern_get? h.sound₂.wellFormed h.sound₂.faithful (congrArg Prod.fst h₂)
  -- what one machine frees the other may keep, so the relation is cut down first
  have hmatch := (h.heap.evolve he₁ he₂).insert hs₁.faithful hs₂.faithful hx hy
  have hstart : ∀ a b, ρ a b → a ∈ m₁.roots ++ m₁.heap.pinned.toList →
      b ∈ m₂.roots ++ m₂.heap.pinned.toList →
      Heap.Matching.Between ρ m₁.heap (m₁.roots ++ m₁.heap.pinned.toList) m₂.heap
        (m₂.roots ++ m₂.heap.pinned.toList) a b := by
    intro a b hab ha hb
    obtain ⟨d, e, hd, he, _⟩ := h.heap.objects hab
    exact ⟨hab, .root ha hd, .root hb he⟩
  obtain rfl : _ = m₁' := congrArg Prod.snd h₁
  obtain rfl : _ = m₂' := congrArg Prod.snd h₂
  refine ⟨_, h.setHeap hmatch hs₁ hs₂ he₁.pinned he₂.pinned (fun a b hab ha hb => Or.inl ?_)
    (fun a ha => Or.inl ?_) (fun a b n hab ha => ?_) _ _, Or.inr ⟨rfl, rfl⟩⟩
  · exact hstart a b hab (List.mem_append_left _ ha) (List.mem_append_left _ hb)
  · exact hstart a a (h.pinned a ha)
      (List.mem_append_right _ (Array.mem_toList_iff.mpr (h.pins₁ a ha)))
      (List.mem_append_right _ (Array.mem_toList_iff.mpr (h.pins₂ a ha)))
  · rcases hab with ⟨hab, hra, _⟩ | ⟨rfl, _⟩
    · exact h.uniform a b n hab ((he₁.kept a hra).symm.trans ha)
    · exact absurd (hx.symm.trans ha) (by simp)

end Machine.Alike

namespace Exec

variable {α β α' β' : Type} {pins : List Handle} {ρ : Handle → Handle → Prop} {m₁ m₂ : Machine}

/-- Two results of one kind, unless a machine ran out of memory. -/
inductive Paired (Q : α → β → Machine → Machine → Prop)
    (E : Halt → Halt → Machine → Machine → Prop) :
    EStateM.Result Halt Machine α → EStateM.Result Halt Machine β → Prop where
  | ok {a b m₁ m₂} : Q a b m₁ m₂ → Paired Q E (.ok a m₁) (.ok b m₂)
  | error {halt₁ halt₂ m₁ m₂} : E halt₁ halt₂ m₁ m₂ → Paired Q E (.error halt₁ m₁) (.error halt₂ m₂)
  | starved₁ {halt m r} : halt.OutOfMemory → Paired Q E (.error halt m) r
  | starved₂ {halt m r} : halt.OutOfMemory → Paired Q E r (.error halt m)

/-- Both machines have halted for the same reason, and are still alike. -/
def Halted (pins : List Handle) (halt₁ halt₂ : Halt) (m₁ m₂ : Machine) : Prop :=
  ∃ ρ, m₁.Alike pins ρ m₂ ∧ halt₁.Alike ρ halt₂

/-- Two actions that keep machines alike as they are, and whose answers are
related. -/
def Lockstep (pins : List Handle) (ρ : Handle → Handle → Prop) (A : α → β → Prop)
    (x₁ : Exec α) (x₂ : Exec β) : Prop :=
  ∀ m₁ m₂, m₁.Alike pins ρ m₂ →
    Paired (fun a b m₁' m₂' => m₁'.Alike pins ρ m₂' ∧ A a b) (Halted pins) (x₁ m₁) (x₂ m₂)

theorem Paired.mono {Q Q' : α → β → Machine → Machine → Prop}
    {E : Halt → Halt → Machine → Machine → Prop} {r₁ r₂} (h : Paired Q E r₁ r₂)
    (hQ : ∀ a b m₁ m₂, Q a b m₁ m₂ → Q' a b m₁ m₂) : Paired Q' E r₁ r₂ := by
  cases h with
  | ok hq => exact .ok (hQ _ _ _ _ hq)
  | error he => exact .error he
  | starved₁ ho => exact .starved₁ ho
  | starved₂ ho => exact .starved₂ ho

/-- Where neither machine runs out of memory, both go on or both halt. -/
theorem Paired.cases {Q : α → β → Machine → Machine → Prop}
    {E : Halt → Halt → Machine → Machine → Prop} {r₁ r₂} (h : Paired Q E r₁ r₂)
    (ho₁ : ∀ halt m, r₁ = .error halt m → ¬ halt.OutOfMemory)
    (ho₂ : ∀ halt m, r₂ = .error halt m → ¬ halt.OutOfMemory) :
    (∃ a b m₁ m₂, r₁ = .ok a m₁ ∧ r₂ = .ok b m₂ ∧ Q a b m₁ m₂) ∨
      ∃ halt₁ halt₂ m₁ m₂, r₁ = .error halt₁ m₁ ∧ r₂ = .error halt₂ m₂ ∧ E halt₁ halt₂ m₁ m₂ := by
  cases h with
  | ok hq => exact Or.inl ⟨_, _, _, _, rfl, rfl, hq⟩
  | error he => exact Or.inr ⟨_, _, _, _, rfl, rfl, he⟩
  | starved₁ ho => exact absurd ho (ho₁ _ _ rfl)
  | starved₂ ho => exact absurd ho (ho₂ _ _ rfl)

theorem paired_bind {Q : α → β → Machine → Machine → Prop}
    {Q' : α' → β' → Machine → Machine → Prop} {E : Halt → Halt → Machine → Machine → Prop}
    {x₁ : Exec α} {x₂ : Exec β} {f₁ : α → Exec α'} {f₂ : β → Exec β'}
    (hx : Paired Q E (x₁ m₁) (x₂ m₂))
    (hf : ∀ a b m₁' m₂', Q a b m₁' m₂' → Paired Q' E (f₁ a m₁') (f₂ b m₂')) :
    Paired Q' E ((x₁ >>= f₁) m₁) ((x₂ >>= f₂) m₂) := by
  show Paired Q' E (EStateM.bind x₁ f₁ m₁) (EStateM.bind x₂ f₂ m₂)
  unfold EStateM.bind
  generalize x₁ m₁ = r₁ at hx
  generalize x₂ m₂ = r₂ at hx
  cases hx with
  | ok hq => exact hf _ _ _ _ hq
  | error he => exact .error he
  | starved₁ ho => exact .starved₁ ho
  | starved₂ ho => exact .starved₂ ho

theorem paired_get {Q : α → β → Machine → Machine → Prop}
    {E : Halt → Halt → Machine → Machine → Prop} {f₁ : Machine → Exec α} {f₂ : Machine → Exec β}
    (h : Paired Q E (f₁ m₁ m₁) (f₂ m₂ m₂)) : Paired Q E ((get >>= f₁) m₁) ((get >>= f₂) m₂) := h

section

variable {A : α → β → Prop} {B : α' → β' → Prop}

theorem lockstep_pure {a : α} {b : β} (h : A a b) : Lockstep pins ρ A (pure a) (pure b) :=
  fun _ _ hm => .ok ⟨hm, h⟩

theorem lockstep_bind {x₁ : Exec α} {x₂ : Exec β} {f₁ : α → Exec α'} {f₂ : β → Exec β'}
    (hx : Lockstep pins ρ A x₁ x₂) (hf : ∀ a b, A a b → Lockstep pins ρ B (f₁ a) (f₂ b)) :
    Lockstep pins ρ B (x₁ >>= f₁) (x₂ >>= f₂) :=
  fun m₁ m₂ hm => paired_bind (hx m₁ m₂ hm) fun a b m₁' m₂' h => hf a b h.2 m₁' m₂' h.1

/-- Both machines take the same branch. -/
theorem lockstep_ite {c₁ c₂ : Prop} [Decidable c₁] [Decidable c₂] {x₁ y₁ : Exec α}
    {x₂ y₂ : Exec β} (hc : c₁ ↔ c₂) (hx : c₁ → Lockstep pins ρ A x₁ x₂)
    (hy : ¬ c₁ → Lockstep pins ρ A y₁ y₂) :
    Lockstep pins ρ A (if c₁ then x₁ else y₁) (if c₂ then x₂ else y₂) := by
  by_cases h : c₁
  · rw [if_pos h, if_pos (hc.mp h)]; exact hx h
  · rw [if_neg h, if_neg fun h' => h (hc.mpr h')]; exact hy h

theorem lockstep_get : Lockstep pins ρ (Machine.Alike pins ρ) get get :=
  fun _ _ hm => .ok ⟨hm, hm⟩

theorem lockstep_crash : Lockstep pins ρ A crash crash :=
  fun _ _ hm => .error ⟨ρ, hm, .crashed⟩

theorem lockstep_returned {v w : Value} (hvw : v.Alike ρ w) :
    Lockstep pins ρ A (throw (.returned v)) (throw (.returned w)) :=
  fun _ _ hm => .error ⟨ρ, hm, .returned hvw⟩

theorem lockstep_fail (fault : RuntimeFault) : Lockstep pins ρ A (fail fault) (fail fault) := by
  intro m₁ m₂ hm
  unfold fail
  rw [hm.runtimeError]
  exact .error ⟨ρ, hm, .failed _⟩

theorem lockstep_corruptAt (offset : Nat) (cause : Corruption) :
    Lockstep pins ρ A (corruptAt offset cause) (corruptAt offset cause) :=
  fun _ _ hm => .error ⟨ρ, hm, .failed _⟩

theorem lockstep_corrupt (cause : Corruption) :
    Lockstep pins ρ A (corrupt cause) (corrupt cause) := by
  intro m₁ m₂ hm
  unfold corrupt corruptAt
  rw [hm.lastOffset]
  exact .error ⟨ρ, hm, .failed _⟩

end

/-! ## The stack -/

theorem lockstep_push {v w : Value} (hvw : v.Alike ρ w) :
    Lockstep pins ρ (fun _ _ => True) (push v) (push w) := by
  intro m₁ m₂ hm
  unfold push
  rw [hm.stack.size_eq, hm.maxStack]
  split
  · exact .ok ⟨hm.setStack (hm.stack.push hvw), trivial⟩
  · exact lockstep_fail _ m₁ m₂ hm

theorem lockstep_pop : Lockstep pins ρ (Value.Alike ρ) pop pop := by
  intro m₁ m₂ hm
  unfold pop
  rcases rel_cases hm.stack.back? with ⟨h₁, h₂⟩ | ⟨v, w, h₁, h₂, hvw⟩
  · rw [h₁, h₂]; exact lockstep_corrupt _ m₁ m₂ hm
  · rw [h₁, h₂]; exact .ok ⟨hm.setStack hm.stack.pop, hvw⟩

theorem lockstep_peek (distance : Nat) :
    Lockstep pins ρ (Value.Alike ρ) (peek distance) (peek distance) := by
  intro m₁ m₂ hm
  unfold peek
  rw [hm.stack.size_eq]
  split
  · exact lockstep_corrupt _ m₁ m₂ hm
  · rcases rel_cases (hm.stack (m₂.stack.size - (distance + 1))) with ⟨h₁, h₂⟩ | ⟨v, w, h₁, h₂, hvw⟩
    · rw [h₁, h₂]; exact lockstep_crash m₁ m₂ hm
    · rw [h₁, h₂]; exact .ok ⟨hm, hvw⟩

theorem lockstep_truncate (size : Nat) :
    Lockstep pins ρ (fun _ _ => True) (truncate size) (truncate size) :=
  fun _ _ hm => .ok ⟨hm.setStack (hm.stack.extract 0 size), trivial⟩

theorem lockstep_getSlot (slot : Nat) :
    Lockstep pins ρ (Value.Alike ρ) (getSlot slot) (getSlot slot) := by
  intro m₁ m₂ hm
  unfold getSlot
  rcases rel_cases (hm.stack slot) with ⟨h₁, h₂⟩ | ⟨v, w, h₁, h₂, hvw⟩
  · rw [h₁, h₂]; exact lockstep_crash m₁ m₂ hm
  · rw [h₁, h₂]; exact .ok ⟨hm, hvw⟩

theorem lockstep_setSlot (slot : Nat) {v w : Value} (hvw : v.Alike ρ w) :
    Lockstep pins ρ (fun _ _ => True) (setSlot slot v) (setSlot slot w) := by
  intro m₁ m₂ hm
  unfold setSlot
  rw [hm.stack.size_eq]
  split
  · exact .ok ⟨hm.setStack (hm.stack.setIfInBounds slot hvw), trivial⟩
  · exact lockstep_crash m₁ m₂ hm

/-- Replacing the two topmost values by another. -/
theorem lockstep_replaceTwo {v w : Value} (hvw : v.Alike ρ w) :
    Lockstep pins ρ (fun _ _ => True) (do let _ ← pop; let _ ← pop; push v)
      (do let _ ← pop; let _ ← pop; push w) :=
  lockstep_bind lockstep_pop fun _ _ _ => lockstep_bind lockstep_pop fun _ _ _ =>
    lockstep_push hvw

/-! ## The innermost call -/

/-- What stands at an offset is a matter of the code alone. -/
theorem decode_congr {c c' : Chunk} (h : c.code = c'.code) (offset : Nat) :
    c.decode offset = c'.decode offset := by
  unfold Chunk.decode Chunk.operand? Chunk.word? Chunk.byte?
  rw [h]

theorem lockstep_frame : Lockstep pins ρ (Frame.Alike ρ) frame frame := by
  intro m₁ m₂ hm
  unfold frame
  rcases rel_cases hm.frames.back? with ⟨h₁, h₂⟩ | ⟨f, g, h₁, h₂, hfg⟩
  · rw [h₁, h₂]; exact lockstep_corruptAt _ _ m₁ m₂ hm
  · rw [h₁, h₂]; exact .ok ⟨hm, hfg⟩

theorem lockstep_setPointer (ip : Nat) :
    Lockstep pins ρ (fun _ _ => True) (setPointer ip) (setPointer ip) := by
  intro m₁ m₂ hm
  refine .ok ⟨hm.setFrames fun i => ?_, trivial⟩
  rw [Array.getElem?_modify, Array.getElem?_modify, hm.frames.size_eq]
  split
  · rcases rel_cases (hm.frames i) with ⟨h₁, h₂⟩ | ⟨f, g, h₁, h₂, hfg⟩
    · rw [h₁, h₂]; exact .none
    · rw [h₁, h₂]; exact .some ⟨hfg.function, rfl, hfg.base⟩
  · exact hm.frames i

theorem lockstep_function : Lockstep pins ρ (BytecodeFunction.Alike ρ) function function := by
  refine lockstep_bind lockstep_frame fun f g hfg => lockstep_bind lockstep_get fun m₁ m₂ hm => ?_
  rcases rel_cases (hm.heap.function? hfg.function) with ⟨h₁, h₂⟩ | ⟨k, k', h₁, h₂, hk⟩
  · simp only [h₁, h₂, hfg.ip]; exact lockstep_corruptAt _ _
  · simp only [h₁, h₂]; exact lockstep_pure hk

theorem lockstep_fetch : Lockstep pins ρ Eq fetch fetch := by
  refine lockstep_bind lockstep_frame fun f g hfg => lockstep_bind lockstep_get fun m₁ m₂ hm => ?_
  rcases rel_cases (hm.heap.function? hfg.function) with ⟨h₁, h₂⟩ | ⟨k, k', h₁, h₂, hk⟩
  · simp only [h₁, h₂, hfg.ip]; exact lockstep_corruptAt _ _
  · simp only [h₁, h₂, hfg.ip, decode_congr hk.code, Chunk.size, hk.code]
    split
    · exact lockstep_corruptAt _ _
    · exact lockstep_corruptAt _ _
    · exact lockstep_corruptAt _ _
    · exact lockstep_bind (lockstep_setPointer _) fun _ _ _ => lockstep_pure rfl

theorem lockstep_constant (n : Nat) :
    Lockstep pins ρ (Value.Alike ρ) (constant n) (constant n) := by
  refine lockstep_bind lockstep_function fun k k' hk => ?_
  rcases rel_cases (hk.constants n) with ⟨h₁, h₂⟩ | ⟨v, w, h₁, h₂, hvw⟩
  · simp only [Chunk.constant?, h₁, h₂]; exact lockstep_corrupt _
  · simp only [Chunk.constant?, h₁, h₂]; exact lockstep_pure hvw

theorem lockstep_name (n : Nat) : Lockstep pins ρ ρ (name n) (name n) := by
  refine lockstep_bind (lockstep_constant n) fun v w hvw => ?_
  cases hvw with
  | nil => exact lockstep_corrupt _
  | bool b => exact lockstep_corrupt _
  | number a => exact lockstep_corrupt _
  | object hxy =>
      refine lockstep_bind lockstep_get fun m₁ m₂ hm => ?_
      refine lockstep_ite ?_ (fun _ => lockstep_pure hxy) fun _ => lockstep_corrupt _
      rw [hm.heap.string? hxy]

theorem lockstep_localSlot (n : Nat) : Lockstep pins ρ Eq (localSlot n) (localSlot n) := by
  refine lockstep_bind lockstep_frame fun f g hfg => lockstep_bind lockstep_get fun m₁ m₂ hm => ?_
  rw [hfg.base]
  refine lockstep_ite ?_ (fun _ => lockstep_pure rfl) fun _ => lockstep_corrupt _
  rw [hm.stack.size_eq]

theorem lockstep_jump (op : Opcode) (distance : Nat) :
    Lockstep pins ρ (fun _ _ => True) (jump op distance) (jump op distance) := by
  refine lockstep_bind lockstep_frame fun f g hfg =>
    lockstep_bind lockstep_function fun k k' hk => ?_
  rw [hfg.ip]
  refine lockstep_ite ?_ (fun _ => lockstep_setPointer _) fun _ => lockstep_corrupt _
  rw [Chunk.size, hk.code, Chunk.size]

/-! ## Globals, output and operators -/

theorem lockstep_undefined {x y : Handle} (hxy : ρ x y) {A : α → β → Prop} :
    Lockstep pins ρ A (undefined x) (undefined y) := by
  intro m₁ m₂ hm
  unfold undefined
  rw [hm.heap.string? hxy]
  exact lockstep_fail _ m₁ m₂ hm

theorem lockstep_setGlobal {x y : Handle} (hxy : ρ x y) {v w : Value} (hvw : v.Alike ρ w) :
    Lockstep pins ρ (fun _ _ => True) (setGlobal x v) (setGlobal y w) :=
  fun _ _ hm => .ok ⟨hm.setGlobal hxy hvw, trivial⟩

theorem lockstep_print {v w : Value} (hvw : v.Alike ρ w) :
    Lockstep pins ρ (fun _ _ => True) (print v) (print w) := by
  intro m₁ m₂ hm
  unfold print
  rw [hm.display hvw, hm.output]
  split
  · exact .ok ⟨hm.setOutput _, trivial⟩
  · exact .error ⟨ρ, hm, .failed _⟩

/-- Values that are alike, or one and the same error. -/
def Results {ε : Type} (ρ : Handle → Handle → Prop) (r₁ r₂ : Except ε Value) : Prop :=
  (∃ v w, r₁ = .ok v ∧ r₂ = .ok w ∧ v.Alike ρ w) ∨ ∃ e, r₁ = .error e ∧ r₂ = .error e

theorem results_onNumbers {op : Number → Number → Value} (hop : ∀ x y, (op x y).Alike ρ (op x y))
    {a b a' b' : Value} (ha : a.Alike ρ a') (hb : b.Alike ρ b') :
    Results ρ (Value.onNumbers op a b) (Value.onNumbers op a' b') := by
  cases ha with
  | number x =>
      cases hb with
      | number y => exact Or.inl ⟨_, _, rfl, rfl, hop x y⟩
      | nil => exact Or.inr ⟨_, rfl, rfl⟩
      | bool b => exact Or.inr ⟨_, rfl, rfl⟩
      | object h => exact Or.inr ⟨_, rfl, rfl⟩
  | nil => exact Or.inr ⟨_, rfl, rfl⟩
  | bool b => exact Or.inr ⟨_, rfl, rfl⟩
  | object h => exact Or.inr ⟨_, rfl, rfl⟩

theorem results_add {a b a' b' : Value} (ha : a.Alike ρ a') (hb : b.Alike ρ b') :
    Results ρ ((a.add b).mapError fun _ => OperandError.notAddable)
      ((a'.add b').mapError fun _ => OperandError.notAddable) := by
  have h : Results ρ (a.add b) (a'.add b') := results_onNumbers (fun _ _ => .number _) ha hb
  rcases h with ⟨v, w, hv, hw, hvw⟩ | ⟨e, hv, hw⟩
  · exact Or.inl ⟨v, w, by rw [hv]; rfl, by rw [hw]; rfl, hvw⟩
  · exact Or.inr ⟨.notAddable, by rw [hv]; rfl, by rw [hw]; rfl⟩

theorem results_negate {v w : Value} (hvw : v.Alike ρ w) : Results ρ v.negate w.negate := by
  cases hvw with
  | number n => exact Or.inl ⟨_, _, rfl, rfl, .number _⟩
  | nil => exact Or.inr ⟨_, rfl, rfl⟩
  | bool b => exact Or.inr ⟨_, rfl, rfl⟩
  | object h => exact Or.inr ⟨_, rfl, rfl⟩

theorem isTruthy_alike {v w : Value} (hvw : v.Alike ρ w) : v.isTruthy = w.isTruthy := by
  cases hvw with
  | nil => rfl
  | bool b => rfl
  | number n => rfl
  | object h => rfl

theorem lockstep_orMismatch {r₁ r₂ : Except OperandError Value} (h : Results ρ r₁ r₂) :
    Lockstep pins ρ (Value.Alike ρ) (orMismatch r₁) (orMismatch r₂) := by
  rcases h with ⟨v, w, rfl, rfl, hvw⟩ | ⟨e, rfl, rfl⟩
  · exact lockstep_pure hvw
  · exact lockstep_fail _

theorem lockstep_binary {op : Value → Value → Except OperandError Value}
    (hop : ∀ {a b a' b' : Value}, a.Alike ρ a' → b.Alike ρ b' → Results ρ (op a b) (op a' b')) :
    Lockstep pins ρ (fun _ _ => True) (binary op) (binary op) :=
  lockstep_bind (lockstep_peek 0) fun _ _ hb => lockstep_bind (lockstep_peek 1) fun _ _ ha =>
    lockstep_bind (lockstep_orMismatch (hop ha hb)) fun _ _ hr => lockstep_replaceTwo hr

theorem lockstep_arithmetic (op : Number → Number → Number) :
    Lockstep pins ρ (fun _ _ => True) (binary (Value.onNumbers fun x y => .number (op x y)))
      (binary (Value.onNumbers fun x y => .number (op x y))) :=
  lockstep_binary fun ha hb => results_onNumbers (fun _ _ => .number _) ha hb

theorem lockstep_order (op : Number → Number → Bool) :
    Lockstep pins ρ (fun _ _ => True) (binary (Value.onNumbers fun x y => .bool (op x y)))
      (binary (Value.onNumbers fun x y => .bool (op x y))) :=
  lockstep_binary fun ha hb => results_onNumbers (fun _ _ => .bool _) ha hb

/-- Equality is tested alike because the relation is one-to-one. -/
theorem lockstep_compare {p : Value → Value → Bool}
    (hp : ∀ {h₁ h₂ : Heap} {a b a' b' : Value}, Heap.Matching ρ h₁ h₂ → a.Alike ρ a' →
      b.Alike ρ b' → p a b = p a' b') :
    Lockstep pins ρ (fun _ _ => True) (compare p) (compare p) := by
  intro m₁ m₂ hm
  have hpush : ∀ {a b a' b' : Value}, b.Alike ρ b' → a.Alike ρ a' →
      Lockstep pins ρ (fun _ _ => True) (push (.bool (p a b))) (push (.bool (p a' b'))) := by
    intro a b a' b' hb ha
    rw [hp hm.heap ha hb]
    exact lockstep_push (.bool _)
  have hall : Lockstep pins ρ (fun _ _ => True) (compare p) (compare p) :=
    lockstep_bind lockstep_pop fun _ _ hb => lockstep_bind lockstep_pop fun _ _ ha => hpush hb ha
  exact hall m₁ m₂ hm

/-! ## Calls -/

theorem lockstep_checkArity (expected got : Nat) :
    Lockstep pins ρ (fun _ _ => got = expected) (checkArity expected got)
      (checkArity expected got) := by
  unfold checkArity
  split
  · rename_i h; exact lockstep_pure h
  · exact lockstep_fail _

/-- The arguments start at the same place in both machines. -/
theorem paired_argumentStart {Q : α → β → Machine → Machine → Prop} {f₁ : Nat → Exec α}
    {f₂ : Nat → Exec β} (hm : m₁.Alike pins ρ m₂) {argc : Nat}
    (hok : argc ≤ m₁.stack.size → Paired Q (Halted pins) (f₁ (m₁.stack.size - argc) m₁)
      (f₂ (m₁.stack.size - argc) m₂)) :
    Paired Q (Halted pins) ((argumentStart argc >>= f₁) m₁) ((argumentStart argc >>= f₂) m₂) := by
  show Paired Q _
    (((if argc ≤ m₁.stack.size then pure (m₁.stack.size - argc) else crash) >>= f₁) m₁)
    (((if argc ≤ m₂.stack.size then pure (m₂.stack.size - argc) else crash) >>= f₂) m₂)
  rw [← hm.stack.size_eq]
  by_cases h : argc ≤ m₁.stack.size
  · rw [if_pos h]; exact hok h
  · rw [if_neg h]; exact .error ⟨ρ, hm, .crashed⟩

theorem lockstep_callFunction {x y : Handle} (hxy : ρ x y) (arity argc : Nat) :
    Lockstep pins ρ (fun _ _ => True) (callFunction x arity argc) (callFunction y arity argc) := by
  refine lockstep_bind (lockstep_checkArity arity argc) fun _ _ _ =>
    lockstep_bind lockstep_get fun m₁ m₂ hm => ?_
  refine lockstep_ite ?_ (fun _ => ?_) fun _ => lockstep_fail _
  · rw [hm.frames.size_eq, hm.maxFrames]
  · refine fun m₁ m₂ hm => paired_argumentStart hm fun _ => ?_
    exact .ok ⟨hm.setFrames (hm.frames.push ⟨hxy, rfl, rfl⟩), trivial⟩

/-- A uniform native function leaves both machines as they are, but for how often they
have looked at the world. -/
theorem lockstep_runPrimitive {p q : Primitive} (h : p.Alike ρ q) :
    Lockstep pins ρ (Results ρ) (runPrimitive p) (runPrimitive q) := by
  induction h with
  | answer hvw => exact lockstep_pure (Or.inl ⟨_, _, rfl, rfl, hvw⟩)
  | refusal text => exact lockstep_pure (Or.inr ⟨text, rfl, rfl⟩)
  | look hnext ih =>
      intro m₁ m₂ hm
      simp only [runPrimitive, hm.world]
      exact ih m₂.world.now { m₁ with world := m₂.world.later } { m₂ with world := m₂.world.later }
        { hm with world := rfl }

theorem lockstep_callNative {n : NativeFunction} (hn : n.Uniform pins) (argc : Nat) :
    Lockstep pins ρ (fun _ _ => True) (callNative n argc) (callNative n argc) := by
  refine lockstep_bind (lockstep_checkArity _ argc) fun _ _ hargc => ?_
  subst hargc
  refine fun m₁ m₂ hm => paired_argumentStart hm fun hle => ?_
  have hsize : (m₁.stack.extract (m₁.stack.size - n.arity.toNat)).size = n.arity.toNat := by
    rw [Array.size_extract]
    omega
  have hargs : Pointwise (Value.Alike ρ) (m₁.stack.extract (m₁.stack.size - n.arity.toNat))
      (m₂.stack.extract (m₁.stack.size - n.arity.toNat)) := by
    have h := hm.stack.extract (m₁.stack.size - n.arity.toNat) m₁.stack.size
    rwa [hm.stack.size_eq] at h ⊢
  -- the function sees its arguments only, and these are alike
  have hbody := hn ρ hm.heap.functional hm.heap.injective hm.pinned _ _ hsize hargs
  refine paired_get (paired_bind (lockstep_runPrimitive hbody m₁ m₂ hm) ?_)
  rintro r r' m₁' m₂' ⟨hm', ⟨v, w, rfl, rfl, hvw⟩ | ⟨text, rfl, rfl⟩⟩
  · refine lockstep_ite Iff.rfl (fun _ => lockstep_crash) (fun _ => ?_) m₁' m₂' hm'
    exact lockstep_bind (lockstep_truncate _) fun _ _ _ => lockstep_push hvw
  · exact lockstep_fail _ m₁' m₂' hm'

theorem lockstep_callValue {v w : Value} (hvw : v.Alike ρ w) (argc : Nat) :
    Lockstep pins ρ (fun _ _ => True) (callValue v argc) (callValue w argc) := by
  refine lockstep_bind lockstep_get fun m₁ m₂ hm => ?_
  have hname := hm.heap.typeName hvw
  cases hvw with
  | nil => exact lockstep_fail _
  | bool b => exact lockstep_fail _
  | number n => exact lockstep_fail _
  | object hxy =>
      obtain ⟨d, e, hd, he, hde⟩ := hm.heap.objects hxy
      simp only [hd, he]
      cases hde with
      | string s => exact lockstep_fail _
      | function hfg => simp only [hfg.arity]; exact lockstep_callFunction hxy _ argc
      | native n => exact lockstep_callNative (hm.uniform _ _ n hxy hd) argc

theorem lockstep_ret : Lockstep pins ρ (fun _ _ => True) ret ret := by
  refine lockstep_bind lockstep_pop fun v w hvw => lockstep_bind lockstep_frame fun f g hfg => ?_
  refine lockstep_bind (A := fun _ _ => True)
    (fun m₁ m₂ hm => .ok ⟨hm.setFrames hm.frames.pop, trivial⟩) fun _ _ _ => ?_
  unfold Frame.calleeSlot?
  rw [hfg.base]
  split
  · exact lockstep_crash
  · refine lockstep_bind (lockstep_truncate _) fun _ _ _ => lockstep_bind lockstep_get fun m₁ m₂ hm => ?_
    refine lockstep_ite ?_ (fun _ => lockstep_returned hvw) fun _ => lockstep_push hvw
    rw [Array.isEmpty_iff_size_eq_zero, Array.isEmpty_iff_size_eq_zero, hm.frames.size_eq]

/-! ## Instructions -/

theorem concatenation?_alike {h₁ h₂ : Heap} (hm : Heap.Matching ρ h₁ h₂) {a a' b b' : Value}
    (ha : a.Alike ρ a') (hb : b.Alike ρ b') : concatenation? h₁ a b = concatenation? h₂ a' b' := by
  cases ha with
  | nil => rfl
  | bool b => rfl
  | number n => rfl
  | object hxy =>
      cases hb with
      | nil => rfl
      | bool b => rfl
      | number n => rfl
      | object hxy' => simp only [concatenation?, hm.string? hxy, hm.string? hxy']

theorem paired_intern (hm : m₁.Alike pins ρ m₂) (text : String) :
    Paired (fun x y m₁' m₂' => ∃ ρ', m₁'.Alike pins ρ' m₂' ∧ ρ' x y) (Halted pins)
      (intern text m₁) (intern text m₂) := by
  unfold intern
  cases h₁ : m₁.intern text with
  | mk answer₁ m₁' =>
      cases h₂ : m₂.intern text with
      | mk answer₂ m₂' =>
          cases answer₁ with
          | error e => exact .starved₁ ⟨e, rfl⟩
          | ok x =>
              cases answer₂ with
              | error e => exact .starved₂ ⟨e, rfl⟩
              | ok y => exact .ok (hm.intern h₁ h₂)

theorem paired_add (hm : m₁.Alike pins ρ m₂) :
    Paired (fun _ _ m₁' m₂' => ∃ ρ', m₁'.Alike pins ρ' m₂') (Halted pins) (add m₁) (add m₂) := by
  refine paired_bind (lockstep_peek 0 m₁ m₂ hm) ?_
  rintro b b' m₁ m₂ ⟨hm, hb⟩
  refine paired_bind (lockstep_peek 1 m₁ m₂ hm) ?_
  rintro a a' m₁ m₂ ⟨hm, ha⟩
  refine paired_get ?_
  rw [concatenation?_alike hm.heap ha hb]
  cases concatenation? m₂.heap a' b' with
  | some joined =>
      -- the operands are looked at but not used after this, so a new relation is no harm
      refine paired_bind (paired_intern hm joined) ?_
      rintro x y m₁ m₂ ⟨ρ', hm', hxy⟩
      exact (lockstep_replaceTwo (.object hxy) m₁ m₂ hm').mono fun _ _ _ _ h => ⟨ρ', h.1⟩
  | none =>
      refine Paired.mono (lockstep_bind (lockstep_orMismatch (results_add ha hb))
        (fun v w hvw => lockstep_replaceTwo hvw) m₁ m₂ hm) fun _ _ _ _ h => ⟨ρ, h.1⟩

/-- Every instruction but `add` keeps the relation as it is. -/
theorem lockstep_perform {op : Opcode} (hop : op ≠ .add) (n : Nat) :
    Lockstep pins ρ (fun _ _ => True) (perform op n) (perform op n) := by
  cases op with
  | constant => exact lockstep_bind (lockstep_constant n) fun _ _ hvw => lockstep_push hvw
  | pushNil => exact lockstep_push .nil
  | pushTrue => exact lockstep_push (.bool _)
  | pushFalse => exact lockstep_push (.bool _)
  | pop => exact lockstep_bind lockstep_pop fun _ _ _ => lockstep_pure trivial
  | getLocal =>
      refine lockstep_bind (lockstep_localSlot n) fun slot _ hslot => ?_
      subst hslot
      exact lockstep_bind (lockstep_getSlot slot) fun _ _ hvw => lockstep_push hvw
  | setLocal =>
      refine lockstep_bind (lockstep_localSlot n) fun slot _ hslot => ?_
      subst hslot
      exact lockstep_bind (lockstep_peek 0) fun _ _ hvw => lockstep_setSlot slot hvw
  | getGlobal =>
      refine lockstep_bind (lockstep_name n) fun key key' hkey =>
        lockstep_bind lockstep_get fun m₁ m₂ hm => ?_
      rcases rel_cases (hm.globals key key' hkey) with ⟨h₁, h₂⟩ | ⟨v, w, h₁, h₂, hvw⟩
      · simp only [h₁, h₂]; exact lockstep_undefined hkey
      · simp only [h₁, h₂]; exact lockstep_push hvw
  | defineGlobal =>
      exact lockstep_bind (lockstep_name n) fun _ _ hkey => lockstep_bind (lockstep_peek 0)
        fun _ _ hvw => lockstep_bind (lockstep_setGlobal hkey hvw) fun _ _ _ =>
          lockstep_bind lockstep_pop fun _ _ _ => lockstep_pure trivial
  | setGlobal =>
      refine lockstep_bind (lockstep_name n) fun key key' hkey => lockstep_bind (lockstep_peek 0)
        fun v w hvw => lockstep_bind lockstep_get fun m₁ m₂ hm => ?_
      refine lockstep_ite ?_ (fun _ => lockstep_setGlobal hkey hvw)
        fun _ => lockstep_undefined hkey
      rw [Std.HashMap.contains_eq_isSome_getElem?, Std.HashMap.contains_eq_isSome_getElem?]
      rcases rel_cases (hm.globals key key' hkey) with ⟨h₁, h₂⟩ | ⟨v, w, h₁, h₂, _⟩
      · rw [h₁, h₂]
      · rw [h₁, h₂]; exact Iff.rfl
  | equal => exact lockstep_compare fun hm => hm.equal
  | notEqual => exact lockstep_compare fun hm ha hb => congrArg (! ·) (hm.equal ha hb)
  | greater => exact lockstep_order _
  | greaterEqual => exact lockstep_order _
  | less => exact lockstep_order _
  | lessEqual => exact lockstep_order _
  | add => exact absurd rfl hop
  | subtract => exact lockstep_arithmetic _
  | multiply => exact lockstep_arithmetic _
  | divide => exact lockstep_arithmetic _
  | not =>
      refine lockstep_bind lockstep_pop fun v w hvw => lockstep_push ?_
      rw [Value.not, Value.not, isTruthy_alike hvw]
      exact .bool _
  | negate =>
      exact lockstep_bind (lockstep_peek 0) fun _ _ hvw =>
        lockstep_bind (lockstep_orMismatch (results_negate hvw)) fun _ _ hr =>
          lockstep_bind lockstep_pop fun _ _ _ => lockstep_push hr
  | print => exact lockstep_bind lockstep_pop fun _ _ hvw => lockstep_print hvw
  | jump => exact lockstep_jump _ n
  | loop => exact lockstep_jump _ n
  | jumpIfFalse =>
      refine lockstep_bind lockstep_pop fun v w hvw => ?_
      refine lockstep_ite ?_ (fun _ => lockstep_jump _ n) fun _ => lockstep_pure trivial
      rw [isTruthy_alike hvw]
  | call => exact lockstep_bind (lockstep_peek n) fun _ _ hvw => lockstep_callValue hvw n
  | ret => exact lockstep_ret

/-- **Machines that are alike take the same step.** -/
theorem paired_step (hm : m₁.Alike pins ρ m₂) :
    Paired (fun _ _ m₁' m₂' => ∃ ρ', m₁'.Alike pins ρ' m₂') (Halted pins)
      (step m₁.recordInstruction) (step m₂.recordInstruction) := by
  obtain ⟨j₁, h₁⟩ := m₁.recordInstruction_eq
  obtain ⟨j₂, h₂⟩ := m₂.recordInstruction_eq
  rw [h₁, h₂]
  refine paired_bind (lockstep_fetch _ _ (hm.setJournal j₁ j₂)) ?_
  rintro ⟨op, n⟩ _ m₁' m₂' ⟨hm', rfl⟩
  by_cases hop : op = .add
  · subst hop
    exact paired_add hm'
  · exact (lockstep_perform hop n m₁' m₂' hm').mono fun _ _ _ _ h => ⟨ρ, h.1⟩

theorem lockstep_enter {x y : Handle} (hxy : ρ x y) :
    Lockstep pins ρ (fun _ _ => True) (Machine.enter x) (Machine.enter y) := by
  refine lockstep_bind (lockstep_push (.object hxy)) fun _ _ _ =>
    lockstep_bind (lockstep_callValue (.object hxy) 0) fun _ _ _ =>
      lockstep_bind lockstep_get fun m₁ m₂ hm => ?_
  refine lockstep_ite ?_ (fun _ => ?_) fun _ => lockstep_pure trivial
  · rw [Array.isEmpty_iff_size_eq_zero, Array.isEmpty_iff_size_eq_zero, hm.frames.size_eq]
  · exact lockstep_bind lockstep_pop fun _ _ hvw => lockstep_returned hvw

end Exec

end StackMachine
