import StackMachine.Proofs.Machine.Dangling
import StackMachine.Proofs.Machine.Lockstep

/-!
# The collector cannot be observed

A run does the same whatever the collector's settings are. Two copies of a
machine that differ in these settings alone start alike, by the identity on live
handles. Steps keep them alike, under a relation that changes from step to step.
So both runs read the same instructions, print the same lines and end together,
and what a host can reach afterwards is the same in both, up to the names of its
objects.

Running out of memory is the one thing that the settings decide.
-/

namespace StackMachine

inductive Outcome.Alike (ρ : Handle → Handle → Prop) : Outcome → Outcome → Prop where
  | finished {v w : Value} : v.Alike ρ w → Alike ρ (.finished v) (.finished w)
  | failed (e : Error) : Alike ρ (.failed e) (.failed e)
  | crashed : Alike ρ .crashed .crashed
  | unfinished : Alike ρ .unfinished .unfinished

theorem Outcome.Alike.symm {ρ : Handle → Handle → Prop} {o₁ o₂ : Outcome} (h : o₁.Alike ρ o₂) :
    o₂.Alike (fun y x => ρ x y) o₁ := by
  cases h with
  | finished hvw => exact .finished hvw.symm
  | failed e => exact .failed e
  | crashed => exact .crashed
  | unfinished => exact .unfinished

/-- The object that a run answers. -/
def Outcome.handles : Outcome → List Handle
  | finished (.object x) => [x]
  | _ => []

namespace Machine

/-- The machine with other collector settings. -/
def tuned (m : Machine) (settings : HeapConfig) (threshold : Nat) : Machine :=
  { m with
    config := { m.config with heap := settings }
    heap := { m.heap with config := settings, threshold } }

/-- The live objects among those that the host has pinned. -/
def livePins (m : Machine) : List Handle :=
  m.heap.pinned.toList.filter m.heap.contains

/-- What a machine is about to execute: how many calls are active, the offset in
the innermost one, and what stands there. -/
def instruction? (m : Machine) : Option (Nat × Nat × Decoded) := do
  let f ← m.frames.back?
  let g ← m.heap.function? f.function
  return (m.frames.size, f.ip, g.chunk.decode f.ip)

/-- What a machine executes in up to `fuel` instructions. -/
def executed : (fuel : Nat) → Machine → List (Option (Nat × Nat × Decoded))
  | 0, _ => []
  | fuel + 1, m => m.instruction? ::
      match Exec.step m.recordInstruction with
      | .ok () m' => m'.executed fuel
      | .error _ _ => []

/-- What a run of a function executes. -/
def executedBy (m : Machine) (fuel : Nat) (function : Handle) :
    List (Option (Nat × Nat × Decoded)) :=
  match enter function (m.begun function) with
  | .ok () m' => m'.executed fuel
  | .error _ _ => []

/-- What a host can start from after a run: the globals, what the run answered,
and what was pinned before. -/
def inHand (m : Machine) (pins : List Handle) (outcome : Outcome) : List Handle :=
  m.roots ++ pins ++ outcome.handles

/-- Two ends of a run that a host cannot tell apart: the same was printed, the
result has the same text, and a one-to-one relation between all that can be
reached preserves the contents, relates the results and relates the globals. -/
structure Indistinguishable (pins : List Handle) (end₁ end₂ : Outcome × Machine) : Prop where
  output : end₁.2.output = end₂.2.output
  text : ∀ v w, end₁.1 = .finished v → end₂.1 = .finished w → end₁.2.display v = end₂.2.display w
  bijection : ∃ ρ, end₁.2.Alike pins ρ end₂.2 ∧ end₁.1.Alike ρ end₂.1 ∧
    (∀ x, Reach end₁.2.heap.get? (end₁.2.inHand pins end₁.1) x ↔ ∃ y, ρ x y) ∧
    ∀ y, Reach end₂.2.heap.get? (end₂.2.inHand pins end₂.1) y ↔ ∃ x, ρ x y

variable {pins : List Handle} {ρ : Handle → Handle → Prop} {m₁ m₂ : Machine}

/-! ## The start -/

theorem alike_refl_value {v : Value} (h : ∀ x, v = .object x → ρ x x) : v.Alike ρ v := by
  cases v with
  | nil => exact .nil
  | bool b => exact .bool b
  | number n => exact .number n
  | object x => exact .object (h x rfl)

theorem alike_refl_object {d : Object} (h : ∀ x ∈ d.children, ρ x x) : d.Alike ρ d := by
  cases d with
  | string s => exact .string s
  | native n => exact .native n
  | function f =>
      refine .function ⟨?_, rfl, rfl, rfl, fun i => ?_⟩
      · cases hf : f.name with
        | none => exact .none
        | some x => exact .some (h x (mem_children.mpr ⟨f, rfl, Or.inl hf⟩))
      · cases hi : f.chunk.constants[i]? with
        | none => exact .none
        | some v =>
            refine .some (alike_refl_value fun x hx => h x (mem_children.mpr ⟨f, rfl, Or.inr ?_⟩))
            rw [← hx]
            exact Array.mem_of_getElem? hi

theorem tuned_sound {m : Machine} (h : m.heap.Sound) (s : HeapConfig) (t : Nat) :
    (m.tuned s t).heap.Sound :=
  ⟨{ h.wellFormed with }, h.faithful⟩

/-- Copies of a machine that differ in the collector's settings begin a run
alike. -/
theorem alike_begun {m : Machine} (hr : m.Regular) (hl : m.Linked)
    (hn : ∀ x n, m.heap.native? x = some n → n.Uniform m.livePins) (function : Handle)
    (s₁ s₂ : HeapConfig) (t₁ t₂ : Nat) :
    ((m.tuned s₁ t₁).begun function).Alike m.livePins (fun x y => x = y ∧ m.heap.contains x)
      ((m.tuned s₂ t₂).begun function) := by
  have hlive : ∀ x d, m.heap.get? x = some d → ∀ y ∈ d.children, m.heap.contains y := by
    intro x d hx y hy
    obtain ⟨f, rfl, hf⟩ := mem_children.mp hy
    exact hl.functions x f (Heap.function?_eq_some.mpr hx) y hf
  -- a pin that is dead leads to nothing and has no counterpart
  have hpin : ∀ x ∈ m.livePins, x ∈ m.heap.pinned ∧ m.heap.contains x := by
    intro x hx
    obtain ⟨hx, hc⟩ := List.mem_filter.mp hx
    exact ⟨Array.mem_toList_iff.mp hx, hc⟩
  refine
    { heap := ⟨?_, ?_, ?_⟩, sound₁ := tuned_sound hr.sound s₁ t₁, sound₂ := tuned_sound hr.sound s₂ t₂
      stack := .empty, frames := .empty
      globals := ?_
      names₁ := fun k v hk => ⟨k, rfl, (hl.globals k v hk).1⟩
      names₂ := fun k v hk => ⟨k, rfl, (hl.globals k v hk).1⟩
      output := rfl, world := rfl, maxStack := rfl, maxFrames := rfl
      pins₁ := fun x hx => (hpin x hx).1
      pins₂ := fun x hx => (hpin x hx).1
      pinned := fun x hx => ⟨rfl, (hpin x hx).2⟩
      uniform := fun x _ n _ hx => hn x n (Heap.native?_eq_some.mpr hx) }
  · rintro x y y' ⟨rfl, _⟩ ⟨rfl, _⟩; rfl
  · rintro x x' y ⟨rfl, _⟩ ⟨rfl, _⟩; rfl
  · rintro x y ⟨rfl, hx⟩
    obtain ⟨d, hd⟩ := Heap.contains_iff.mp hx
    exact ⟨d, d, hd, hd, alike_refl_object fun y hy => ⟨rfl, hlive x d hd y hy⟩⟩
  · rintro k k' ⟨rfl, _⟩
    show Option.Rel _ m.globals[k]? m.globals[k]?
    cases hk : m.globals[k]? with
    | none => exact .none
    | some v => exact .some (alike_refl_value fun x hx => ⟨rfl, (hl.globals k v hk).2 x hx⟩)

/-! ## The run -/

theorem Alike.instruction? (h : m₁.Alike pins ρ m₂) : m₁.instruction? = m₂.instruction? := by
  unfold Machine.instruction?
  refine rel_bind_eq h.frames.back? fun f g hfg => ?_
  refine rel_bind_eq (h.heap.function? hfg.function) fun k k' hk => ?_
  rw [h.frames.size_eq, hfg.ip, Exec.decode_congr hk.code]

/-- **Machines that are alike run alike**, as long as neither runs out of memory.
The induction is on the instructions left; each step may change the relation. -/
theorem Alike.steps (h : m₁.Alike pins ρ m₂) (fuel : Nat)
    (ho₁ : ∀ halt, (m₁.steps fuel).1 = some halt → ¬ halt.OutOfMemory)
    (ho₂ : ∀ halt, (m₂.steps fuel).1 = some halt → ¬ halt.OutOfMemory) :
    m₁.executed fuel = m₂.executed fuel ∧
      ∃ ρ', (m₁.steps fuel).2.Alike pins ρ' (m₂.steps fuel).2 ∧
        Option.Rel (Halt.Alike ρ') (m₁.steps fuel).1 (m₂.steps fuel).1 := by
  induction fuel generalizing ρ m₁ m₂ with
  | zero => exact ⟨rfl, ρ, h, .none⟩
  | succ fuel ih =>
      simp only [Machine.steps, Machine.executed, h.instruction?] at ho₁ ho₂ ⊢
      -- running out of memory in this step is running out of memory in the run
      rcases (Exec.paired_step h).cases (fun halt m he => ho₁ halt (by rw [he]))
        (fun halt m he => ho₂ halt (by rw [he])) with
        ⟨_, _, m₁', m₂', h₁, h₂, ρ', hm⟩ | ⟨halt₁, halt₂, m₁', m₂', h₁, h₂, ρ', hm, hhalt⟩
      · rw [h₁] at ho₁ ⊢
        rw [h₂] at ho₂ ⊢
        obtain ⟨hexec, hend⟩ := ih hm ho₁ ho₂
        exact ⟨congrArg _ hexec, hend⟩
      · rw [h₁, h₂]
        exact ⟨rfl, ρ', hm, .some hhalt⟩

theorem Alike.record (h : m₁.Alike pins ρ m₂) (e₁ e₂ : Event) :
    (m₁.record e₁).Alike pins ρ (m₂.record e₂) :=
  h.setJournal _ _

theorem Alike.resetStacks (h : m₁.Alike pins ρ m₂) : m₁.resetStacks.Alike pins ρ m₂.resetStacks :=
  (h.setStack .empty).setFrames .empty

theorem Alike.conclude (h : m₁.Alike pins ρ m₂) {halt₁ halt₂ : Halt} (hh : halt₁.Alike ρ halt₂) :
    (m₁.conclude halt₁).2.Alike pins ρ (m₂.conclude halt₂).2 ∧
      (m₁.conclude halt₁).1.Alike ρ (m₂.conclude halt₂).1 := by
  cases hh with
  | returned hvw => exact ⟨h.record _ _, .finished hvw⟩
  | crashed => exact ⟨h, .crashed⟩
  | failed e =>
      unfold Machine.conclude
      cases e with
      | runtime e => exact ⟨(h.record _ _).resetStacks, .failed _⟩
      | compile text => exact ⟨(h.record _ _).resetStacks, .failed _⟩
      | outOfMemory e => exact ⟨(h.record _ _).resetStacks, .failed _⟩
      | corruptBytecode offset cause => exact ⟨(h.record _ _).resetStacks, .failed _⟩
      | output text => exact ⟨(h.record _ _).resetStacks, .failed _⟩

/-- A machine that halts out of memory says so. -/
theorem finish_outOfMemory {r : Option Halt × Machine} {halt : Halt} (hr : r.1 = some halt)
    (h : halt.OutOfMemory) : ∃ e, (finish r).1 = .failed (.outOfMemory e) := by
  obtain ⟨e, rfl⟩ := h
  obtain ⟨_, m⟩ := r
  obtain rfl := hr
  exact ⟨e, rfl⟩

theorem launch_alike {function : Handle} (hρ : ρ function function)
    (h : (m₁.begun function).Alike pins ρ (m₂.begun function)) (fuel : Nat)
    (ho₁ : ∀ halt, (m₁.launch fuel function).1 = some halt → ¬ halt.OutOfMemory)
    (ho₂ : ∀ halt, (m₂.launch fuel function).1 = some halt → ¬ halt.OutOfMemory) :
    m₁.executedBy fuel function = m₂.executedBy fuel function ∧
      ∃ ρ', (m₁.launch fuel function).2.Alike pins ρ' (m₂.launch fuel function).2 ∧
        Option.Rel (Halt.Alike ρ') (m₁.launch fuel function).1 (m₂.launch fuel function).1 := by
  unfold launch at ho₁ ho₂ ⊢
  unfold executedBy
  rcases (Exec.lockstep_enter hρ _ _ h).cases (fun halt m he => ho₁ halt (by rw [he]))
    (fun halt m he => ho₂ halt (by rw [he])) with
    ⟨_, _, m₁', m₂', h₁, h₂, hm, _⟩ | ⟨halt₁, halt₂, m₁', m₂', h₁, h₂, ρ', hm, hhalt⟩
  · rw [h₁] at ho₁ ⊢
    rw [h₂] at ho₂ ⊢
    exact hm.steps fuel ho₁ ho₂
  · rw [h₁, h₂]
    exact ⟨rfl, ρ', hm, .some hhalt⟩

theorem finish_alike {r₁ r₂ : Option Halt × Machine} (h : r₁.2.Alike pins ρ r₂.2)
    (hr : Option.Rel (Halt.Alike ρ) r₁.1 r₂.1) :
    (finish r₁).2.Alike pins ρ (finish r₂).2 ∧ (finish r₁).1.Alike ρ (finish r₂).1 := by
  obtain ⟨halt₁, m₁⟩ := r₁
  obtain ⟨halt₂, m₂⟩ := r₂
  cases hr with
  | none => exact ⟨h, .unfinished⟩
  | some hhalt => exact h.conclude hhalt

/-! ## What can be reached afterwards -/

theorem Alike.inHand (h : m₁.Alike pins ρ m₂) {o₁ o₂ : Outcome} (ho : o₁.Alike ρ o₂) {x : Handle}
    (hx : x ∈ m₁.inHand pins o₁) : ∃ y ∈ m₂.inHand pins o₂, ρ x y := by
  rcases List.mem_append.mp hx with hx | hx
  · rcases List.mem_append.mp hx with hx | hx
    · obtain ⟨y, hy, hxy⟩ := h.root hx
      exact ⟨y, List.mem_append_left _ (List.mem_append_left _ hy), hxy⟩
    · exact ⟨x, List.mem_append_left _ (List.mem_append_right _ hx), h.pinned x hx⟩
  · cases ho with
    | finished hvw =>
        cases hvw with
        | object hxy =>
            rw [List.mem_singleton.mp hx]
            exact ⟨_, List.mem_append_right _ (List.mem_singleton.mpr rfl), hxy⟩
        | nil => exact absurd hx (by simp [Outcome.handles])
        | bool b => exact absurd hx (by simp [Outcome.handles])
        | number n => exact absurd hx (by simp [Outcome.handles])
    | failed e => exact absurd hx (by simp [Outcome.handles])
    | crashed => exact absurd hx (by simp [Outcome.handles])
    | unfinished => exact absurd hx (by simp [Outcome.handles])

/-- Between machines that are alike there is a bijection of what can be reached. -/
theorem Alike.bijection (h : m₁.Alike pins ρ m₂) {o₁ o₂ : Outcome} (ho : o₁.Alike ρ o₂) :
    ∃ ρ', m₁.Alike pins ρ' m₂ ∧ o₁.Alike ρ' o₂ ∧
      (∀ x, Reach m₁.heap.get? (m₁.inHand pins o₁) x ↔ ∃ y, ρ' x y) ∧
      ∀ y, Reach m₂.heap.get? (m₂.inHand pins o₂) y ↔ ∃ x, ρ' x y := by
  -- the relation is cut down as if both heaps were collected now
  have hmatch := h.heap.evolve
    (Heap.evolves_refl m₁.heap (m₁.inHand pins o₁) fun _ _ => False)
    (Heap.evolves_refl m₂.heap (m₂.inHand pins o₂) fun _ _ => False)
  have hbetween : ∀ x y, ρ x y → x ∈ m₁.inHand pins o₁ → y ∈ m₂.inHand pins o₂ →
      Heap.Matching.Between ρ m₁.heap (m₁.inHand pins o₁) m₂.heap (m₂.inHand pins o₂) x y := by
    intro x y hxy hx hy
    obtain ⟨d, e, hd, he, _⟩ := h.heap.objects hxy
    exact ⟨hxy, .root hx hd, .root hy he⟩
  have halike := h.setHeap hmatch h.sound₁ h.sound₂ rfl rfl
    (fun x y hxy hx hy => hbetween x y hxy (List.mem_append_left _ (List.mem_append_left _ hx))
      (List.mem_append_left _ (List.mem_append_left _ hy)))
    (fun x hx => hbetween x x (h.pinned x hx) (List.mem_append_left _ (List.mem_append_right _ hx))
      (List.mem_append_left _ (List.mem_append_right _ hx)))
    (fun x y n hxy hx => h.uniform x y n hxy.1 hx) m₁.journal m₂.journal
  refine ⟨_, halike, ?_, fun x => ⟨fun hx => ?_, ?_⟩, fun y => ⟨fun hy => ?_, ?_⟩⟩
  · cases ho with
    | finished hvw =>
        refine .finished (hvw.mono fun x y hx hy hxy => hbetween x y hxy ?_ ?_)
        · subst hx; exact List.mem_append_right _ (List.mem_singleton.mpr rfl)
        · subst hy; exact List.mem_append_right _ (List.mem_singleton.mpr rfl)
    | failed e => exact .failed e
    | crashed => exact .crashed
    | unfinished => exact .unfinished
  · obtain ⟨y, hxy, hy⟩ := h.heap.reach (fun x hx _ _ => h.inHand ho hx) hx
    exact ⟨y, hxy, hx, hy⟩
  · rintro ⟨y, _, hx, _⟩; exact hx
  · obtain ⟨x, hxy, hx⟩ := h.heap.symm.reach (fun y hy _ _ => h.symm.inHand ho.symm hy) hy
    exact ⟨x, hxy, hx, hy⟩
  · rintro ⟨x, _, _, hy⟩; exact hy

theorem indistinguishable {end₁ end₂ : Outcome × Machine} (h : end₁.2.Alike pins ρ end₂.2)
    (ho : end₁.1.Alike ρ end₂.1) : Indistinguishable pins end₁ end₂ := by
  refine ⟨h.output, fun v w hv hw => ?_, h.bijection ho⟩
  rw [hv, hw] at ho
  cases ho with
  | finished hvw => exact h.display hvw

/-- **The collector cannot be observed.** A function run in two copies of a
machine that differ in the collector's settings executes the same instructions
and comes to the same end, whatever the number of instructions, unless a copy
runs out of memory. -/
theorem collector_unobservable {m : Machine} (hi : m.Idle) (hl : m.Linked) {function : Handle}
    (hf : m.heap.contains function)
    (hn : ∀ x n, m.heap.native? x = some n → n.Uniform m.livePins)
    (s₁ s₂ : HeapConfig) (t₁ t₂ fuel : Nat)
    (ho₁ : ∀ e, ((m.tuned s₁ t₁).runFunction fuel function).1 ≠ .failed (.outOfMemory e))
    (ho₂ : ∀ e, ((m.tuned s₂ t₂).runFunction fuel function).1 ≠ .failed (.outOfMemory e)) :
    (m.tuned s₁ t₁).executedBy fuel function = (m.tuned s₂ t₂).executedBy fuel function ∧
    Indistinguishable m.livePins ((m.tuned s₁ t₁).runFunction fuel function)
      ((m.tuned s₂ t₂).runFunction fuel function) := by
  have hbegun := alike_begun hi.regular hl hn function s₁ s₂ t₁ t₂
  rw [runFunction_eq] at ho₁ ho₂ ⊢
  rw [runFunction_eq]
  obtain ⟨hexec, ρ, hm, hr⟩ := launch_alike ⟨rfl, hf⟩ hbegun fuel
    (fun halt hr ho => by
      obtain ⟨e, he⟩ := finish_outOfMemory hr ho
      exact ho₁ e he)
    (fun halt hr ho => by
      obtain ⟨e, he⟩ := finish_outOfMemory hr ho
      exact ho₂ e he)
  obtain ⟨hm', ho⟩ := finish_alike hm hr
  exact ⟨hexec, indistinguishable hm' ho⟩

/-- What `poll` answers depends on the world alone. -/
theorem poll_uniform (pins : List Handle) : poll.Uniform pins := by
  intro ρ _ _ _ as bs _ _
  exact .look fun moment => .answer (.bool _)

theorem waitingMachine_tuned (s : HeapConfig) (t : Nat) : ∃ stats,
    waitingMachine.tuned s t = waitingAt ((waitingHeap s).noted t stats) #[] #[] := by
  obtain ⟨_, stats, hm⟩ := waitingMachine_eq
  rw [hm]
  exact ⟨stats, rfl⟩

/-- A run that never collects and one that always does, both to the end. What was printed is
freed in one of them only, and the results have different handles. -/
theorem collector_unobservable_waiting :
    let spared := (waitingMachine.tuned {} 1048576).runFunction 19 ⟨4, 0⟩
    let stressed := (waitingMachine.tuned { stress := true } 0).runFunction 19 ⟨4, 0⟩
    spared.1 = .finished (.object ⟨6, 0⟩) ∧ stressed.1 = .finished (.object ⟨5, 1⟩) ∧
      spared.2.heap.string? ⟨5, 0⟩ = some "ticktick" ∧ stressed.2.heap.get? ⟨5, 0⟩ = none ∧
      spared.2.output.lines = #["ticktick"] ∧ spared.2.display (.object ⟨6, 0⟩) = "tickpoll" ∧
      (waitingMachine.tuned {} 1048576).executedBy 19 ⟨4, 0⟩ =
        (waitingMachine.tuned { stress := true } 0).executedBy 19 ⟨4, 0⟩ ∧
      Indistinguishable waitingMachine.livePins spared stressed := by
  intro spared stressed
  obtain ⟨stats₁, hm₁⟩ := waitingMachine_tuned {} 1048576
  obtain ⟨stats₂, hm₂⟩ := waitingMachine_tuned { stress := true } 0
  obtain ⟨stats, hspared⟩ := waiting_unhurried {} 1048576 stats₁ rfl rfl (by decide)
  obtain ⟨t', stats', hstressed⟩ := waiting_stressed { stress := true } 0 stats₂ rfl rfl
  rw [← hm₁] at hspared
  rw [← hm₂] at hstressed
  have hn : ∀ x n, waitingMachine.heap.native? x = some n → n.Uniform waitingMachine.livePins := by
    intro x n hx
    rw [waitingMachine_native? hx]
    exact poll_uniform _
  have hf : waitingMachine.heap.contains ⟨4, 0⟩ := waitingMachine_contains (by decide)
  have hsame := collector_unobservable waitingMachine_idle waitingMachine_closed.toLinked hf hn {}
    { stress := true } 1048576 0 19 (fun e => by rw [hspared]; simp)
    fun e => by rw [hstressed]; simp
  have hs : spared = _ := hspared
  have ht : stressed = _ := hstressed
  exact ⟨by rw [hs], by rw [ht], by rw [hs]; rfl, by rw [ht]; rfl, by rw [hs]; rfl,
    by rw [hs]; rfl, hsame⟩

end Machine

end StackMachine
