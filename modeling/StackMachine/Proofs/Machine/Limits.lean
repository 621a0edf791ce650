import StackMachine.Proofs.Machine.Globals
import StackMachine.Proofs.Machine.Tuning

/-!
# Limits

Two limits keep a run in bounds: how many calls may be active, and how many values
may lie on the stack. A call looks at the first and a push at the second, and all
they decide is whether the machine fails with a stack overflow.

So a run may be followed with larger limits beside it. The two do the same, action
by action, until the smaller limit is hit. A run that never hits it is the same run
with any larger limits.
-/

namespace StackMachine

namespace Machine

/-- The machine with other limits. -/
def withLimits (m : Machine) (frames stack : Nat) : Machine :=
  { m with config := { m.config with maxFrames := frames, maxStack := stack } }

/-- A machine whose limits are at most these. -/
def Within (frames stack : Nat) (m : Machine) : Prop :=
  m.config.maxFrames ≤ frames ∧ m.config.maxStack ≤ stack

end Machine

namespace Exec

variable {α β : Type} {F S : Nat}

/-- Whether an action does the same in a machine when its limits are raised to `F`
and `S`, unless it overflows. -/
def LiftsAt (F S : Nat) (m : Machine) (x : Exec α) : Prop :=
  Ends x m
    (fun a m' => m'.Within F S ∧ x (m.withLimits F S) = .ok a (m'.withLimits F S))
    (fun halt m' => halt.fault? = some .stackOverflow ∨
      x (m.withLimits F S) = .error halt (m'.withLimits F S))

def Lifts (F S : Nat) (x : Exec α) : Prop :=
  ∀ m : Machine, m.Within F S → LiftsAt F S m x

/-- It is enough to know what an action comes to with either limits. -/
theorem LiftsAt.congr {m m' : Machine} {x y : Exec α} (h : LiftsAt F S m' y) (hsmall : x m = y m')
    (hlarge : x (m.withLimits F S) = y (m'.withLimits F S)) : LiftsAt F S m x := by
  unfold LiftsAt Ends at h ⊢
  rw [hsmall, hlarge]
  exact h

/-! ## Actions that look at no limit -/

theorem lifts_pure (a : α) : Lifts F S (pure a : Exec α) :=
  fun _ hm => ⟨hm, rfl⟩

theorem lifts_bind {x : Exec β} {f : β → Exec α} (hx : Lifts F S x) (hf : ∀ b, Lifts F S (f b)) :
    Lifts F S (x >>= f) := by
  intro m hm
  cases hr : x m with
  | ok b m' =>
      obtain ⟨hm', hsame⟩ := (hx m hm).of_ok hr
      exact (hf b m' hm').congr (bind_of_ok hr) (bind_of_ok hsame)
  | error halt m' =>
      unfold LiftsAt Ends
      rw [bind_of_error hr]
      rcases (hx m hm).of_error hr with hover | hsame
      · exact .inl hover
      · exact .inr (bind_of_error hsame)

/-- An action may read the machine, except for its limits. -/
theorem lifts_get {f : Machine → Exec α} (hread : ∀ m, f (m.withLimits F S) = f m)
    (hf : ∀ m, Lifts F S (f m)) : Lifts F S (get >>= f) := by
  intro m hm
  refine (hf m m hm).mono ?_ ?_
  · intro a m' h
    refine ⟨h.1, ?_⟩
    show f (m.withLimits F S) (m.withLimits F S) = _
    rw [hread]
    exact h.2
  · intro halt m' h
    refine h.imp id fun hsame => ?_
    show f (m.withLimits F S) (m.withLimits F S) = _
    rw [hread]
    exact hsame

theorem lifts_crash : Lifts F S (crash : Exec α) := fun _ _ => .inr rfl

theorem lifts_fail (fault : RuntimeFault) : Lifts F S (fail fault : Exec α) := fun _ _ => .inr rfl

theorem lifts_corruptAt (offset : Nat) (cause : Corruption) :
    Lifts F S (corruptAt offset cause : Exec α) := fun _ _ => .inr rfl

theorem lifts_corrupt (cause : Corruption) : Lifts F S (corrupt cause : Exec α) :=
  fun _ _ => .inr rfl

theorem lifts_throw (halt : Halt) : Lifts F S (throw halt : Exec α) := fun _ _ => .inr rfl

theorem lifts_undefined (name : Handle) : Lifts F S (undefined name : Exec α) :=
  fun _ _ => .inr rfl

theorem lifts_orMismatch (r : Except OperandError α) : Lifts F S (orMismatch r) := by
  cases r with
  | ok a => exact lifts_pure a
  | error e => exact lifts_fail _

theorem lifts_pop : Lifts F S pop := by
  intro m hm
  simp only [LiftsAt, Ends, pop, Machine.withLimits]
  cases m.stack.back? with
  | none => exact .inr rfl
  | some v => exact ⟨hm, rfl⟩

theorem lifts_getSlot (slot : Nat) : Lifts F S (getSlot slot) := by
  intro m hm
  simp only [LiftsAt, Ends, getSlot, Machine.withLimits]
  cases m.stack[slot]? with
  | none => exact .inr rfl
  | some v => exact ⟨hm, rfl⟩

theorem lifts_peek (distance : Nat) : Lifts F S (peek distance) := by
  intro m hm
  by_cases hdeep : m.stack.size < distance + 1
  · exact (lifts_corrupt _ m hm).congr (if_pos hdeep) (if_pos hdeep)
  · exact (lifts_getSlot (m.stack.size - (distance + 1)) m hm).congr (if_neg hdeep) (if_neg hdeep)

theorem lifts_truncate (size : Nat) : Lifts F S (truncate size) :=
  fun _ hm => ⟨hm, rfl⟩

theorem lifts_setSlot (slot : Nat) (v : Value) : Lifts F S (setSlot slot v) := by
  intro m hm
  by_cases hslot : slot < m.stack.size
  · exact ends_of_ok (if_pos hslot) ⟨hm, if_pos hslot⟩
  · exact (lifts_crash m hm).congr (if_neg hslot) (if_neg hslot)

theorem lifts_frame : Lifts F S frame := by
  intro m hm
  simp only [LiftsAt, Ends, frame, Machine.withLimits]
  cases m.frames.back? with
  | none => exact .inr rfl
  | some f => exact ⟨hm, rfl⟩

theorem lifts_setPointer (ip : Nat) : Lifts F S (setPointer ip) :=
  fun _ hm => ⟨hm, rfl⟩

theorem lifts_setGlobal (name : Handle) (v : Value) : Lifts F S (setGlobal name v) :=
  fun _ hm => ⟨hm, rfl⟩

theorem lifts_pushFrame (f : Frame) : Lifts F S (pushFrame f) :=
  fun _ hm => ⟨hm, rfl⟩

theorem lifts_print (v : Value) : Lifts F S (print v) := by
  intro m hm
  have hdisplay : (m.withLimits F S).display v = m.display v := rfl
  simp only [LiftsAt, Ends, print, hdisplay]
  simp only [Machine.withLimits]
  cases m.output.writeLine (m.display v) with
  | ok output => exact ⟨hm, rfl⟩
  | error text => exact .inr rfl

theorem intern_withLimits (m : Machine) (text : String) :
    (m.withLimits F S).intern text = ((m.intern text).1, (m.intern text).2.withLimits F S) := rfl

theorem lifts_intern (text : String) : Lifts F S (intern text) := by
  intro m hm
  simp only [LiftsAt, Ends, intern, intern_withLimits]
  have hw : (m.intern text).2.Within F S := hm
  revert hw
  obtain ⟨answer, m'⟩ := m.intern text
  intro hw
  cases answer with
  | ok h => exact ⟨hw, rfl⟩
  | error e => exact .inr rfl

theorem lifts_runPrimitive (p : Primitive) : Lifts F S (runPrimitive p) := by
  induction p with
  | done result => exact lifts_pure result
  | inspect next ih => exact fun m hm => ih _ m hm
  | intern text next ih => exact fun m hm => ih _ (m.intern text).2 hm
  | look next ih => exact fun m hm => ih _ { m with world := m.world.later } hm

/-! ## Reading the chunk -/

theorem lifts_function : Lifts F S function := by
  refine lifts_bind lifts_frame fun f => lifts_get (fun _ => rfl) fun m => ?_
  split
  · exact lifts_pure _
  · exact lifts_corruptAt _ _

theorem lifts_fetch : Lifts F S fetch := by
  refine lifts_bind lifts_frame fun f => lifts_get (fun _ => rfl) fun m => ?_
  split
  · exact lifts_corruptAt _ _
  · split
    · exact lifts_corruptAt _ _
    · exact lifts_corruptAt _ _
    · exact lifts_corruptAt _ _
    · exact lifts_bind (lifts_setPointer _) fun _ => lifts_pure _

theorem lifts_constant (index : Nat) : Lifts F S (constant index) := by
  refine lifts_bind lifts_function fun g => ?_
  split
  · exact lifts_pure _
  · exact lifts_corrupt _

theorem lifts_name (index : Nat) : Lifts F S (name index) := by
  refine lifts_bind (lifts_constant index) fun v => ?_
  split
  · refine lifts_get (fun _ => rfl) fun m => ?_
    split
    · exact lifts_pure _
    · exact lifts_corrupt _
  · exact lifts_corrupt _

theorem lifts_localSlot (n : Nat) : Lifts F S (localSlot n) := by
  refine lifts_bind lifts_frame fun f => lifts_get (fun _ => rfl) fun m => ?_
  split
  · exact lifts_pure _
  · exact lifts_corrupt _

theorem lifts_jump (op : Opcode) (distance : Nat) : Lifts F S (jump op distance) := by
  refine lifts_bind lifts_frame fun f => lifts_bind lifts_function fun g => ?_
  dsimp only
  split
  · exact lifts_setPointer _
  · exact lifts_corrupt _

/-! ## The two places that look at a limit -/

theorem lifts_push (v : Value) : Lifts F S (push v) := by
  intro m hm
  by_cases hroom : m.stack.size < m.config.maxStack
  · have hsmall : push v m = .ok () { m with stack := m.stack.push v } := if_pos hroom
    refine ends_of_ok hsmall ⟨hm, ?_⟩
    exact if_pos (Nat.lt_of_lt_of_le hroom hm.2)
  · have hfull : push v m = fail .stackOverflow m := if_neg hroom
    unfold LiftsAt Ends
    rw [hfull]
    exact .inl rfl

theorem lifts_checkArity (expected got : Nat) : Lifts F S (checkArity expected got) := by
  unfold checkArity
  split
  · exact lifts_pure _
  · exact lifts_fail _

theorem lifts_argumentStart (argc : Nat) : Lifts F S (argumentStart argc) := by
  refine lifts_get (fun _ => rfl) fun m => ?_
  dsimp only
  split
  · exact lifts_pure _
  · exact lifts_crash

theorem lifts_callFunction (function : Handle) (arity argc : Nat) :
    Lifts F S (callFunction function arity argc) := by
  refine lifts_bind (lifts_checkArity arity argc) fun _ => ?_
  intro m hm
  by_cases hroom : m.frames.size < m.config.maxFrames
  · -- with room for a frame below the smaller limit there is room below the larger
    have hlarge : (m.withLimits F S).frames.size < (m.withLimits F S).config.maxFrames :=
      Nat.lt_of_lt_of_le hroom hm.1
    have hcall : Lifts F S (argumentStart argc >>= fun base => pushFrame { function, base }) :=
      lifts_bind (lifts_argumentStart argc) fun base => lifts_pushFrame _
    exact (hcall m hm).congr (congrFun (if_pos hroom) m) (congrFun (if_pos hlarge) _)
  · refine ends_get ?_
    rw [if_neg hroom]
    exact .inl rfl

theorem lifts_callNative (native : NativeFunction) (argc : Nat) :
    Lifts F S (callNative native argc) := by
  refine lifts_bind (lifts_checkArity _ argc) fun _ => lifts_bind (lifts_argumentStart argc)
    fun start => lifts_get (fun _ => rfl) fun m => lifts_bind (lifts_runPrimitive _) fun result => ?_
  split
  · exact lifts_fail _
  · split
    · exact lifts_crash
    · exact lifts_bind (lifts_truncate _) fun _ => lifts_push _

theorem lifts_callValue (callee : Value) (argc : Nat) : Lifts F S (callValue callee argc) := by
  refine lifts_get (fun _ => rfl) fun m => ?_
  dsimp only
  split
  · split
    · exact lifts_callFunction _ _ _
    · exact lifts_callNative _ _
    · exact lifts_fail _
    · exact lifts_corrupt _
  · exact lifts_fail _

theorem lifts_ret : Lifts F S ret := by
  refine lifts_bind lifts_pop fun result => lifts_bind lifts_frame fun f => ?_
  refine lifts_bind (fun _ hm => ⟨hm, rfl⟩) fun _ => ?_
  split
  · exact lifts_crash
  · refine lifts_bind (lifts_truncate _) fun _ => lifts_get (fun _ => rfl) fun m => ?_
    split
    · exact lifts_throw _
    · exact lifts_push _

/-! ## Instructions -/

theorem lifts_replaceTwo (v : Value) : Lifts F S (do let _ ← pop; let _ ← pop; push v) :=
  lifts_bind lifts_pop fun _ => lifts_bind lifts_pop fun _ => lifts_push v

theorem lifts_binary (op : Value → Value → Except OperandError Value) : Lifts F S (binary op) :=
  lifts_bind (lifts_peek 0) fun _ => lifts_bind (lifts_peek 1) fun _ =>
    lifts_bind (lifts_orMismatch _) fun result => lifts_replaceTwo result

theorem lifts_compare (p : Value → Value → Bool) : Lifts F S (compare p) :=
  lifts_bind lifts_pop fun _ => lifts_bind lifts_pop fun _ => lifts_push _

theorem lifts_add : Lifts F S add := by
  refine lifts_bind (lifts_peek 0) fun b => lifts_bind (lifts_peek 1) fun a =>
    lifts_get (fun _ => rfl) fun m => ?_
  split
  · exact lifts_bind (lifts_intern _) fun result => lifts_replaceTwo _
  · exact lifts_bind (lifts_orMismatch _) fun result => lifts_replaceTwo _

theorem lifts_perform (op : Opcode) (n : Nat) : Lifts F S (perform op n) := by
  cases op with
  | constant => exact lifts_bind (lifts_constant n) fun v => lifts_push v
  | pushNil => exact lifts_push _
  | pushTrue => exact lifts_push _
  | pushFalse => exact lifts_push _
  | pop => exact lifts_bind lifts_pop fun _ => lifts_pure _
  | getLocal =>
      exact lifts_bind (lifts_localSlot n) fun slot => lifts_bind (lifts_getSlot slot) fun v =>
        lifts_push v
  | setLocal =>
      exact lifts_bind (lifts_localSlot n) fun slot => lifts_bind (lifts_peek 0) fun v =>
        lifts_setSlot slot v
  | getGlobal =>
      refine lifts_bind (lifts_name n) fun key => lifts_get (fun _ => rfl) fun m => ?_
      split
      · exact lifts_push _
      · exact lifts_undefined _
  | defineGlobal =>
      exact lifts_bind (lifts_name n) fun key => lifts_bind (lifts_peek 0) fun v =>
        lifts_bind (lifts_setGlobal key v) fun _ => lifts_bind lifts_pop fun _ => lifts_pure _
  | setGlobal =>
      refine lifts_bind (lifts_name n) fun key => lifts_bind (lifts_peek 0) fun v =>
        lifts_get (fun _ => rfl) fun m => ?_
      split
      · exact lifts_setGlobal _ _
      · exact lifts_undefined _
  | equal => exact lifts_compare _
  | notEqual => exact lifts_compare _
  | greater => exact lifts_binary _
  | greaterEqual => exact lifts_binary _
  | less => exact lifts_binary _
  | lessEqual => exact lifts_binary _
  | add => exact lifts_add
  | subtract => exact lifts_binary _
  | multiply => exact lifts_binary _
  | divide => exact lifts_binary _
  | not => exact lifts_bind lifts_pop fun v => lifts_push _
  | negate =>
      exact lifts_bind (lifts_peek 0) fun v => lifts_bind (lifts_orMismatch _) fun result =>
        lifts_bind lifts_pop fun _ => lifts_push result
  | print => exact lifts_bind lifts_pop fun v => lifts_print v
  | jump => exact lifts_jump .jump n
  | loop => exact lifts_jump .loop n
  | jumpIfFalse =>
      refine lifts_bind lifts_pop fun condition => ?_
      split
      · exact lifts_jump .jumpIfFalse n
      · exact lifts_pure _
  | call => exact lifts_bind (lifts_peek n) fun callee => lifts_callValue callee n
  | ret => exact lifts_ret

theorem lifts_step : Lifts F S step :=
  lifts_bind lifts_fetch fun instruction => lifts_perform instruction.1 instruction.2

theorem lifts_enter (function : Handle) : Lifts F S (Machine.enter function) := by
  refine lifts_bind (lifts_push _) fun _ => lifts_bind (lifts_callValue _ 0) fun _ =>
    lifts_get (fun _ => rfl) fun m => ?_
  split
  · exact lifts_bind lifts_pop fun v => lifts_throw _
  · exact lifts_pure _

end Exec

namespace Machine

variable {F S : Nat} {m : Machine}

/-! ## Runs -/

theorem recordInstruction_withLimits (m : Machine) :
    (m.withLimits F S).recordInstruction = m.recordInstruction.withLimits F S := by
  have hscope : (m.withLimits F S).journal.scope = m.journal.scope := rfl
  have hevent : (m.withLimits F S).instructionEvent? = m.instructionEvent? := rfl
  unfold recordInstruction
  rw [hscope, hevent]
  cases m.journal.scope <;> cases m.instructionEvent? <;> rfl

theorem Within.recordInstruction (hm : m.Within F S) : m.recordInstruction.Within F S := by
  obtain ⟨journal, hj⟩ := m.recordInstruction_eq
  rw [hj]
  exact hm

/-- The instructions of a run, with larger limits. The induction is on the
instructions left; every step but the last one leaves a machine that goes on alike. -/
theorem Within.steps (hm : m.Within F S) (fuel : Nat)
    (hover : ∀ halt, (m.steps fuel).1 = some halt → halt.fault? ≠ some .stackOverflow) :
    (m.withLimits F S).executed fuel = m.executed fuel ∧
      (m.withLimits F S).steps fuel = ((m.steps fuel).1, (m.steps fuel).2.withLimits F S) := by
  induction fuel generalizing m with
  | zero => exact ⟨rfl, rfl⟩
  | succ fuel ih =>
      have hstep := Exec.lifts_step _ hm.recordInstruction
      have hnext : (m.withLimits F S).instruction? = m.instruction? := rfl
      simp only [Machine.steps, executed, hnext, recordInstruction_withLimits] at hover ⊢
      cases hs : Exec.step m.recordInstruction with
      | ok a m' =>
          obtain ⟨hm', hsame⟩ := hstep.of_ok hs
          rw [hs] at hover
          rw [hsame]
          obtain ⟨hexec, hsteps⟩ := ih hm' hover
          exact ⟨congrArg _ hexec, hsteps⟩
      | error halt m' =>
          rw [hs] at hover
          have hsame := (hstep.of_error hs).resolve_left (hover halt rfl)
          rw [hsame]
          exact ⟨rfl, rfl⟩

theorem Within.launch (hm : m.Within F S) (fuel : Nat) (function : Handle)
    (hover : ∀ halt, (m.launch fuel function).1 = some halt → halt.fault? ≠ some .stackOverflow) :
    (m.withLimits F S).executedBy fuel function = m.executedBy fuel function ∧
      (m.withLimits F S).launch fuel function =
        ((m.launch fuel function).1, (m.launch fuel function).2.withLimits F S) := by
  have henter := Exec.lifts_enter function (m.begun function) hm
  have hbegun : (m.withLimits F S).begun function = (m.begun function).withLimits F S := rfl
  simp only [Machine.launch, executedBy, hbegun] at hover ⊢
  cases he : enter function (m.begun function) with
  | ok a m' =>
      obtain ⟨hm', hsame⟩ := henter.of_ok he
      rw [he] at hover
      rw [hsame]
      exact hm'.steps fuel hover
  | error halt m' =>
      rw [he] at hover
      have hsame := (henter.of_error he).resolve_left (hover halt rfl)
      rw [hsame]
      exact ⟨rfl, rfl⟩

theorem finish_withLimits (r : Option Halt × Machine) :
    finish (r.1, r.2.withLimits F S) = ((finish r).1, (finish r).2.withLimits F S) := by
  obtain ⟨halt?, m⟩ := r
  cases halt? with
  | none => rfl
  | some halt =>
      show (m.withLimits F S).conclude halt = ((m.conclude halt).1, (m.conclude halt).2.withLimits F S)
      unfold conclude
      split <;> rfl

/-- A machine that halts with a fault says so. -/
theorem finish_fault {r : Option Halt × Machine} {halt : Halt} {fault : RuntimeFault}
    (hr : r.1 = some halt) (hfault : halt.fault? = some fault) :
    ∃ e, (finish r).1 = .failed (.runtime e) ∧ e.fault = fault := by
  obtain ⟨_, m⟩ := r
  obtain rfl := hr
  unfold Halt.fault? at hfault
  split at hfault
  · rename_i e
    exact ⟨e, rfl, Option.some.inj hfault⟩
  · exact absurd hfault (by simp)

/-- **Raising the limits changes no run that does not overflow.** Whatever the machine
and the function, a run that ends in anything but a stack overflow executes the same
instructions with larger limits, ends in the same way and leaves the same machine but
for the limits: the same heap, globals, output and reports. -/
theorem limits_unobservable {m : Machine} {function : Handle} {fuel F F' S S' : Nat}
    (hF : F ≤ F') (hS : S ≤ S')
    (hover : ∀ e, ((m.withLimits F S).runFunction fuel function).1 = .failed (.runtime e) →
      e.fault ≠ .stackOverflow) :
    (m.withLimits F' S').executedBy fuel function = (m.withLimits F S).executedBy fuel function ∧
      (m.withLimits F' S').runFunction fuel function =
        (((m.withLimits F S).runFunction fuel function).1,
          ((m.withLimits F S).runFunction fuel function).2.withLimits F' S') := by
  have hm : (m.withLimits F S).Within F' S' := ⟨hF, hS⟩
  simp only [runFunction_eq] at hover ⊢
  have hhalt : ∀ halt, ((m.withLimits F S).launch fuel function).1 = some halt →
      halt.fault? ≠ some .stackOverflow := by
    intro halt hlaunch hfault
    obtain ⟨e, he, hsame⟩ := finish_fault hlaunch hfault
    exact hover e he hsame
  obtain ⟨hexec, hlaunch⟩ := hm.launch fuel function hhalt
  refine ⟨hexec, ?_⟩
  rw [← finish_withLimits, ← hlaunch]
  rfl

/-- A machine with a function that answers nil. -/
def nilMachine : Machine :=
  ((fresh { registerBuiltins := false }).allocate
    (.function { chunk := Chunk.copy { code := #[1, 27], lines := #[1, 1] } })).2

/-- The function needs a frame and two values. It overflows with less and is the same
with more. -/
theorem limits_unobservable_tight :
    (∃ e, ((nilMachine.withLimits 1 1).runFunction 2 ⟨0, 0⟩).1 = .failed (.runtime e) ∧
      e.fault = .stackOverflow) ∧
    ((nilMachine.withLimits 1 2).runFunction 2 ⟨0, 0⟩).1 = .finished .nil ∧
    ((nilMachine.withLimits 64 16384).runFunction 2 ⟨0, 0⟩).1 = .finished .nil := by
  have hfits : ((nilMachine.withLimits 1 2).runFunction 2 ⟨0, 0⟩).1 = .finished .nil := by
    decide +kernel
  refine ⟨⟨⟨.stackOverflow, 1, [⟨none, 1⟩]⟩, by decide +kernel, rfl⟩, hfits, ?_⟩
  have hover : ∀ e, ((nilMachine.withLimits 1 2).runFunction 2 ⟨0, 0⟩).1 = .failed (.runtime e) →
      e.fault ≠ .stackOverflow := by
    rw [hfits]
    simp
  have hsame := limits_unobservable (show 1 ≤ 64 by decide) (show 2 ≤ 16384 by decide) hover
  rw [hsame.2]
  exact hfits

end Machine

end StackMachine
