import StackMachine.Proofs.Machine.Dangling
import StackMachine.Proofs.Machine.Depth

/-!
# Certified functions do not go wrong

Calls and returns keep the calls of a machine fitting together, as the other
instructions do. So the calls fit together throughout a run, and then no
instruction finds the stack too short, an operand that names nothing or a place
outside the code. What is left are the errors of the program itself and those of
the world around it: no memory, no room for the output.
-/

namespace StackMachine

namespace Exec

open Machine

variable {m : Machine} {o : Output}

/-! ## Calls and returns -/

/-- The result of a native function takes the place of callee and arguments. -/
theorem shifted_callNative (hs : m.Safe o) (native : NativeFunction) {argc : Nat}
    (hargc : argc < m.stack.size) :
    Ends (callNative native argc) m (fun _ => Shifted (-argc) m) Halt.Proper := by
  refine ends_callNative_undisturbed hs.sound.wellFormed native hargc (fun m₁ v hu => ?_)
    fun _ _ => trivial
  refine ⟨hu.frames, hu.functions, ?_⟩
  simp only [Array.size_push, Array.take_eq_extract, Array.size_extract]
  omega

/-- A certified function starts with its arguments. -/
theorem running_callFunction (hv : m.heap.Verified) {x : Handle} {g : BytecodeFunction}
    (hx : m.heap.get? x = some (.function g)) {argc : Nat} (hargc : argc ≤ m.stack.size)
    (hcallers : CallsFit m.heap m.frames.toList.reverse (m.stack.size - argc)) :
    Ends (callFunction x g.arity.toNat argc) m (fun _ m' => m'.Running) Halt.Proper := by
  refine ends_callFunction (fun harity _ _ => ⟨by simp, ?_⟩) (fun _ => trivial) (fun _ => trivial)
    fun h => absurd h (by omega)
  have hg := Heap.function?_eq_some.mpr hx
  obtain ⟨depth, hc⟩ := hv x g hg
  have hfit := CallsFit.push (f := { function := x, base := m.stack.size - argc }) hcallers hg hc
    hc.entry
  rwa [← harity, Nat.sub_add_cancel hargc] at hfit

/-- A call of a live value starts a function, or is over at once. -/
theorem running_callValue (hs : m.Safe o) (hv : m.heap.Verified) {v : Value}
    (hlive : v.LiveIn m.heap) {argc : Nat} (hargc : argc < m.stack.size)
    (hcallers : CallsFit m.heap m.frames.toList.reverse (m.stack.size - argc)) :
    Ends (callValue v argc) m (fun _ m' => m'.Running ∨ Shifted (-argc) m m') Halt.Proper := by
  refine ends_callValue (fun x g _ hx => ?_) (fun x n _ _ => ?_) (fun _ => trivial)
    fun x hvx hdead => ?_
  · exact (running_callFunction hv hx (by omega) hcallers).mono (fun _ _ => Or.inl) fun _ _ => id
  · exact (shifted_callNative hs n hargc).mono (fun _ _ => Or.inr) fun _ _ => id
  · obtain ⟨d, hd⟩ := Heap.contains_iff.mp (hlive x hvx)
    exact absurd hd (by rw [hdead]; simp)

section

variable {n : Nat} {rest : Array Frame} {f : Frame} {g : BytecodeFunction}
  {depth : Nat → Option Nat} {d : Nat}

theorem running_call (hs : m.Safe o) (hv : m.heap.Verified)
    (h : m.Executing .call n rest f g depth d) :
    Ends (perform .call n) m (fun _ m' => m'.Running) Halt.Proper := by
  have hneeds : n + 1 ≤ d := h.needs
  have hheight := h.height
  refine ends_bind (ends_peek (fun v hlt hv' => ?_) fun hshort => absurd hshort (by omega))
  obtain ⟨offset, d', hoffset, hd', heffect⟩ := h.next _ List.mem_cons_self
  have hip : f.ip = offset := Int.ofNat.inj hoffset
  subst hip
  -- while the callee runs, its caller counts as having returned from it already
  have hcallers : CallsFit m.heap m.frames.toList.reverse (m.stack.size - n) := by
    have hfit := CallsFit.push h.callers h.function h.certified hd'
    rw [← h.frames] at hfit
    have hbase : m.stack.size - n = f.base + d' := by
      simp only [Opcode.effect] at heffect
      omega
    rwa [hbase]
  refine (running_callValue hs hv (hs.slot_live hv') hlt hcallers).mono (fun _ m' h' => ?_)
    fun _ _ => id
  rcases h' with hrunning | hshifted
  · exact hrunning
  · exact h.arrive_next List.mem_cons_self hshifted

theorem running_ret (h : m.Executing .ret n rest f g depth d) :
    Ends ret m (fun _ m' => m'.Running) Halt.Proper := by
  have hneeds : 1 ≤ d := h.needs
  have hheight := h.height
  have hbase := h.callers.pos
  refine ends_ret h.frames (fun hempty => ?_) (fun _ _ _ hzero => absurd hzero (by omega))
    (fun values v hv _ hrest => ?_) fun values v hv _ hrest => ?_
  · rw [hempty] at hheight
    exact absurd hheight (by simp only [List.size_toArray, List.length_nil]; omega)
  · -- below the outermost call lies its callee alone
    have hcallers := h.callers
    subst hrest
    have hone : f.base = 1 := by
      generalize f.base = base at hcallers
      cases hcallers with
      | bottom => rfl
    exact ⟨by rw [hone]; simp, rfl⟩
  · refine ends_push (fun _ => ⟨hrest, ?_⟩) fun _ => trivial
    have hsize : ((values.take (f.base - 1)).push v).size = f.base := by
      rw [hv, Array.size_push] at hheight
      simp only [Array.size_push, Array.take_eq_extract, Array.size_extract]
      omega
    simp only [hsize]
    exact h.callers

end

/-! ## Steps and the entry into a run -/

/-- **An instruction keeps a machine running**, or halts it properly. -/
theorem running_step (hs : m.Safe o) (hv : m.heap.Verified) (hr : m.Running) :
    Ends step m.recordInstruction (fun _ m' => m'.Running) Halt.Proper := by
  obtain ⟨journal, hj⟩ := m.recordInstruction_eq
  have hsr : m.recordInstruction.Safe o := hs.recordInstruction
  rw [hj] at hsr ⊢
  rcases m.frames_cases with hnone | ⟨rest, f, hf⟩
  · exact absurd hnone hr.active
  · have hcalls := hr.calls
    rw [hf, Array.toList_push, List.reverse_append] at hcalls
    generalize hheight : m.stack.size = height at hcalls
    cases hcalls with
    | @call _ _ g depth d hcallers hg hc hd =>
        obtain ⟨op, n, hop, hneeds, hfits, hnext⟩ := hc.instruction f.ip d hd
        -- the certificate settles what stands at the pointer, so reading it succeeds
        have hdecode : ∀ g', m.heap.function? f.function = some g' →
            g'.chunk.decode f.ip = .instruction op n := by
          intro g' hg'
          obtain rfl : g = g' := Option.some.inj (hg.symm.trans hg')
          exact hop
        refine ends_bind (ends_fetch hf (fun g' op' n' hg' hop' => ?_)
          (fun hdead => absurd (hg.symm.trans hdead) (Option.some_ne_none g))
          (fun g' hg' hend => absurd (hdecode g' hg') (by rw [hend]; simp))
          (fun g' b hg' hunknown => absurd (hdecode g' hg') (by rw [hunknown]; simp))
          fun g' op' hg' htruncated => absurd (hdecode g' hg') (by rw [htruncated]; simp))
        rw [hdecode g' hg'] at hop'
        obtain ⟨rfl, rfl⟩ := Decoded.instruction.inj hop'
        have he : Executing
            { m with journal, frames := rest.push { f with ip := f.ip + 1 + op.operandWidth } }
            op n rest { f with ip := f.ip + 1 + op.operandWidth } g depth d :=
          ⟨rfl, hcallers, hheight, hg, hc, hneeds, hfits, hnext⟩
        have hs₁ := hsr.setPointer hf (f.ip + 1 + op.operandWidth)
        by_cases hcall : op = .call
        · subst hcall
          exact running_call hs₁ hv he
        · by_cases hret : op = .ret
          · subst hret
            exact running_ret he
          · exact running_perform he hs.sound.wellFormed hcall hret

theorem running_enter {function : Handle} (hs : (m.begun function).Safe o)
    (hv : m.heap.Verified) (hc : m.heap.contains function) :
    Ends (enter function) (m.begun function) (fun _ m' => m'.Running) Halt.Proper := by
  have hlive : (Value.object function).LiveIn m.heap := Value.liveIn_of_contains hc
  refine ends_bind (ends_push (fun _ => ?_) fun _ => trivial)
  have hone : 0 < ((m.begun function).stack.push (.object function)).size := Nat.one_pos
  refine ends_bind ((running_callValue (hs.push hlive) hv hlive hone .bottom).mono
    (fun _ m' h' => ends_get ?_) fun _ _ => id)
  rcases h' with hrunning | hshifted
  · rw [if_neg (by simpa using hrunning.active)]
    exact ends_pure hrunning
  · -- a native function is over, with its result alone on the stack
    have hframes : m'.frames = #[] := hshifted.frames
    have hheight : (m'.stack.size : Int) = 1 := hshifted.height
    rw [if_pos (by simp [hframes])]
    refine ends_bind (ends_pop (fun values v hvalues => ends_throw ⟨?_, hframes⟩) fun hempty => ?_)
    · rw [hvalues, Array.size_push] at hheight
      have hzero : values.size = 0 := by omega
      exact Array.eq_empty_of_size_eq_zero hzero
    · rw [hempty] at hheight
      exact absurd hheight (by simp)

end Exec

namespace Machine

variable {m m' : Machine} {o : Output} {function : Handle}

/-! ## Runs -/

/-- What a machine keeps between runs is enough for the next run to start closed,
whatever is left on the stacks. -/
theorem Linked.begun_safe (hl : m.Linked) (hr : m.Regular) (function : Handle) :
    (m.begun function).Safe m.output where
  sound := hr.sound
  closed := ⟨⟨hl.globals, hl.functions⟩, by simp [begun, record, resetStacks],
    by simp [begun, record, resetStacks], hr.names⟩
  output := rfl

/-- A machine in which a run of certified functions can begin. -/
structure Ready (m : Machine) (function : Handle) : Prop where
  safe : (m.begun function).Safe m.output
  verified : m.heap.Verified
  live : m.heap.contains function
  truthful : m.TruthfulRun function

theorem Ready.stable (h : m.Ready function) : m.heap.WellFormed ∧ m.heap.Verified :=
  ⟨h.safe.sound.wellFormed, h.verified⟩

/-- A machine at an instruction boundary meets what a step asks for. -/
theorem InRun.running (hr : InRun m function m') (h : m.Ready function) : m'.Running := by
  induction hr with
  | enter he => exact (Exec.running_enter h.safe h.verified h.live).of_ok he
  | step hr' hstep ih =>
      obtain ⟨_, hs⟩ := hr'.safe h.safe h.live h.truthful
      have hv := (stable_verified.inRun hr' h.stable).2
      exact (Exec.running_step hs hv ih).of_ok hstep

theorem launch_proper (h : m.Ready function) (fuel : Nat) {halt : Halt}
    (hhalt : (m.launch fuel function).1 = some halt) :
    halt.Proper (m.launch fuel function).2 := by
  refine launch_halts ?_ (fun m' hr => ?_) fuel hhalt
  · exact (Exec.running_enter h.safe h.verified h.live).mono (fun _ _ _ => trivial) fun _ _ => id
  · obtain ⟨_, hs⟩ := hr.safe h.safe h.live h.truthful
    have hv := (stable_verified.inRun hr h.stable).2
    exact (Exec.running_step hs hv (hr.running h)).mono (fun _ _ _ => trivial) fun _ _ => id

/-- Whether a run came to an end that is not about the bytecode, with nothing left
on the stacks. -/
structure Concluded (ended : Outcome × Machine) : Prop where
  not_crashed : ended.1 ≠ .crashed
  not_corrupt : ∀ offset cause, ended.1 ≠ .failed (.corruptBytecode offset cause)
  stack : ended.2.stack = #[]
  frames : ended.2.frames = #[]

theorem conclude_proper {halt : Halt} (h : halt.Proper m) : Concluded (m.conclude halt) := by
  cases halt with
  | returned v => exact ⟨by simp [conclude], by simp [conclude], h.1, h.2⟩
  | crashed => exact h.elim
  | failed e =>
      cases e with
      | compile text => exact h.elim
      | corruptBytecode offset cause => exact h.elim
      | runtime e => exact ⟨by simp [conclude], by simp [conclude], rfl, rfl⟩
      | outOfMemory e => exact ⟨by simp [conclude], by simp [conclude], rfl, rfl⟩
      | output text => exact ⟨by simp [conclude], by simp [conclude], rfl, rfl⟩

theorem runFunction_proper (h : m.Ready function) (fuel : Nat) :
    (m.runFunction fuel function).1 = .unfinished ∨ Concluded (m.runFunction fuel function) := by
  rw [runFunction_eq]
  cases hl : m.launch fuel function with
  | mk halt? m' =>
      cases halt? with
      | none => exact Or.inl rfl
      | some halt =>
          have hhalt : (m.launch fuel function).1 = some halt := by rw [hl]
          have hproper := launch_proper h fuel hhalt
          rw [hl] at hproper
          exact Or.inr (conclude_proper hproper)

/-- **Certified functions never go wrong.** A run in a machine whose functions all
have certificates never reports corrupt bytecode and never crashes, however many
instructions it executes, and its result is live. All along the stack has the
height that the certificates give. The machine that the run leaves is fit for the
next one. -/
theorem certified_never_wrong {m : Machine} (hi : m.Idle) (hl : m.Linked) (hv : m.heap.Verified)
    {function : Handle} (hf : m.heap.contains function) (ht : m.TruthfulRun function)
    (fuel : Nat) :
    (m.runFunction fuel function).1 ≠ .crashed ∧
    (∀ offset cause, (m.runFunction fuel function).1 ≠ .failed (.corruptBytecode offset cause)) ∧
    (∀ v, (m.runFunction fuel function).1 = .finished v →
      v.LiveIn (m.runFunction fuel function).2.heap) ∧
    ((m.runFunction fuel function).1 ≠ .unfinished →
      (m.runFunction fuel function).2.stack = #[] ∧
        (m.runFunction fuel function).2.frames = #[]) ∧
    (∀ m', InRun m function m' → m'.Running) ∧
    (m.runFunction fuel function).2.Linked ∧ (m.runFunction fuel function).2.heap.Verified := by
  have hready : m.Ready function := ⟨hl.begun_safe hi.regular function, hv, hf, ht⟩
  obtain ⟨_, hs, hsane⟩ := runFunction_safe hready.safe hf ht fuel
  have hfit := (stable_verified.runFunction fuel function hready.stable).2
  have hresult : ∀ v, (m.runFunction fuel function).1 = .finished v →
      v.LiveIn (m.runFunction fuel function).2.heap := by
    intro v hv'
    rw [hv'] at hsane
    exact hsane
  have hrunning : ∀ m', InRun m function m' → m'.Running := fun m' hr => hr.running hready
  rcases runFunction_proper hready fuel with hgoing | hended
  · refine ⟨?_, ?_, hresult, fun h => absurd hgoing h, hrunning, hs.closed.toLinked, hfit⟩
    · rw [hgoing]; simp
    · intro offset cause; rw [hgoing]; simp
  · exact ⟨hended.not_crashed, hended.not_corrupt, hresult, fun _ => ⟨hended.stack, hended.frames⟩,
      hrunning, hs.closed.toLinked, hfit⟩

theorem doubling_checks (heap : Heap) :
    doubling.checks heap [(0, 1), (2, 2), (4, 3), (5, 2)] = true := by cbv

/-- Both ways out of the branch have a depth, and so has the way back to the start. -/
theorem waiting_checks (heap : Heap) :
    waiting.checks heap [(0, 0), (2, 1), (4, 1), (7, 0), (10, 0), (12, 1), (14, 2), (16, 1),
      (17, 0), (19, 1), (21, 2), (22, 1)] = true := by cbv

theorem waitingMachine_verified : waitingMachine.heap.Verified := by
  intro x f hx
  rcases waitingMachine_function? hx with rfl | rfl
  · exact ⟨_, BytecodeFunction.certified_of_checks (doubling_checks _)⟩
  · exact ⟨_, BytecodeFunction.certified_of_checks (waiting_checks _)⟩

/-- A run with a branch, a loop, a call and a native function comes to its result. -/
theorem certified_never_wrong_waiting :
    let ended := waitingMachine.runFunction 19 ⟨4, 0⟩
    waitingMachine.Idle ∧ waitingMachine.Linked ∧ waitingMachine.heap.Verified ∧
      waitingMachine.heap.contains ⟨4, 0⟩ ∧ waitingMachine.TruthfulRun ⟨4, 0⟩ ∧
      ended.1 = .finished (.object ⟨5, 1⟩) ∧ ended.2.heap.string? ⟨5, 1⟩ = some "tickpoll" ∧
      (Value.object ⟨5, 1⟩).LiveIn ended.2.heap ∧ ended.2.stack = #[] ∧ ended.2.frames = #[] ∧
      (∀ m', InRun waitingMachine ⟨4, 0⟩ m' → m'.Running) ∧
      ended.2.Linked ∧ ended.2.heap.Verified := by
  intro ended
  have hf : waitingMachine.heap.contains ⟨4, 0⟩ := waitingMachine_contains (by decide)
  obtain ⟨_, _, hlive, hempty, hrunning, hlinked, hverified⟩ :=
    certified_never_wrong waitingMachine_idle waitingMachine_closed.toLinked
      waitingMachine_verified hf waitingMachine_truthful 19
  obtain ⟨t, stats, hm⟩ := waitingMachine_eq
  obtain ⟨t', stats', hrun⟩ := waiting_stressed { stress := true } t stats rfl rfl
  rw [← hm] at hrun
  have hfinished : ended.1 = .finished (.object ⟨5, 1⟩) := congrArg Prod.fst hrun
  have hresult : ended.2.heap.string? ⟨5, 1⟩ = some "tickpoll" := by
    rw [show ended = _ from hrun]
    rfl
  obtain ⟨hstack, hframes⟩ := hempty (by rw [hfinished]; simp)
  exact ⟨waitingMachine_idle, waitingMachine_closed.toLinked, waitingMachine_verified, hf,
    waitingMachine_truthful, hfinished, hresult, hlive _ hfinished, hstack, hframes, hrunning,
    hlinked, hverified⟩

end Machine

end StackMachine
