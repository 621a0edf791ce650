import StackMachine.Proofs.Machine.Containment

/-!
# Errors leave nothing behind

An instruction that fails in the middle could leave a machine that no instruction
boundary has seen: operands gone, a string interned, half a call set up. None does.
Before it changes anything, an instruction has made every check that can end in a
fault of the program, and the one check that comes later, for room on the stack,
cannot fail then: what is pushed takes the place of something that was popped.

The last point needs that the stack is never above its limit, which holds at every
instruction boundary. Faults that a native function reports are another matter,
because the function may have interned strings by then.
-/

namespace StackMachine

/-- Whether the machine itself finds a fault, and not a native function. -/
def RuntimeFault.Detected : RuntimeFault → Prop
  | native _ => False
  | _ => True

/-- The instructions that take values off the stack before they push one. -/
def Opcode.popsFirst : Opcode → Bool
  | equal | notEqual | greater | greaterEqual | less | lessEqual => true
  | add | subtract | multiply | divide | not | negate | ret => true
  | _ => false

/-- How many arguments an object expects when it is called. -/
def Object.arity? : Object → Option Nat
  | function f => some f.arity.toNat
  | native n => some n.arity.toNat
  | string _ => none

namespace Machine

/-- A machine with the heap, the globals, the output and the stack of another. Only
the innermost call has moved on, and there may be more reports. -/
structure Untouched (m m' : Machine) : Prop where
  heap : m'.heap = m.heap
  globals : m'.globals = m.globals
  output : m'.output = m.output
  stack : m'.stack = m.stack
  frames : ∃ (rest : Array Frame) (f : Frame) (ip : Nat),
    m.frames = rest.push f ∧ m'.frames = rest.push { f with ip }

/-- How the instruction that is next may fail. -/
structure Atomic (m : Machine) : Prop where
  /-- It does so without having done anything. -/
  untouched : ∀ e m', Exec.step m.recordInstruction = .error (.failed (.runtime e)) m' →
    e.fault.Detected → m.Untouched m'
  /-- A call with the wrong number of arguments always fails. -/
  arity : ∀ n x o arity, m.next? = some (.call, n) → n < m.stack.size →
    m.stack[m.stack.size - (n + 1)]? = some (.object x) → m.heap.get? x = some o →
    o.arity? = some arity → n ≠ arity →
    ∃ e m', Exec.step m.recordInstruction = .error (.failed (.runtime e)) m' ∧
      e.fault = .arityMismatch arity n ∧ m.Untouched m'
  /-- What has popped a value finds room for another. -/
  pops : ∀ op n e m', m.next? = some (op, n) → op.popsFirst = true →
    Exec.step m.recordInstruction = .error (.failed (.runtime e)) m' → e.fault ≠ .stackOverflow
  /-- So does the result of a native function. -/
  native : ∀ n x g e m', m.next? = some (.call, n) →
    m.stack[m.stack.size - (n + 1)]? = some (.object x) → m.heap.native? x = some g →
    Exec.step m.recordInstruction = .error (.failed (.runtime e)) m' → e.fault ≠ .stackOverflow

/-- The machine just before a run fails with an error of the program. -/
inductive FailsAt (m : Machine) (function : Handle) (e : RuntimeError) : Machine → Prop where
  | entry {m' : Machine} : enter function (m.begun function) = .error (.failed (.runtime e)) m' →
      FailsAt m function e m
  | instruction {m' m'' : Machine} : InRun m function m' →
      Exec.step m'.recordInstruction = .error (.failed (.runtime e)) m'' →
      FailsAt m function e m'

end Machine

/-- A halt that is no fault of the program. -/
def Halt.Silent : Halt → Prop
  | failed (.runtime _) => False
  | _ => True

/-- A halt of an action that began in `m`: any fault that the machine finds is in `P`,
and the machine is `m` still. -/
def Halt.Backs (m : Machine) (P : RuntimeFault → Prop) (halt : Halt) (m' : Machine) : Prop :=
  match halt with
  | failed (.runtime e) => e.fault.Detected → m' = m ∧ P e.fault
  | _ => True

theorem Halt.Silent.backs {m m' : Machine} {P : RuntimeFault → Prop} {halt : Halt}
    (h : halt.Silent) : halt.Backs m P m' := by
  unfold Halt.Backs
  split
  · exact h.elim
  · trivial

theorem Halt.Backs.mono {m m' : Machine} {P P' : RuntimeFault → Prop} {halt : Halt}
    (h : halt.Backs m P m') (hP : ∀ fault, P fault → P' fault) : halt.Backs m P' m' := by
  unfold Halt.Backs at h ⊢
  split
  · exact fun hdetected => (h hdetected).imp id (hP _)
  · trivial

namespace Exec

open Machine

variable {m : Machine} {P : RuntimeFault → Prop}

/-! ## Actions that find room -/

theorem silent_push (hroom : m.stack.size < m.config.maxStack) (v : Value) :
    Ends (push v) m (fun _ _ => True) fun halt _ => halt.Silent :=
  ends_push (fun _ => trivial) fun hfull => absurd hroom hfull

/-- What replaces the topmost value finds room. -/
theorem silent_replace (hs : m.stack.size ≤ m.config.maxStack) (r : Value → Value) :
    Ends (do let v ← pop; push (r v)) m (fun _ _ => True) fun halt _ => halt.Silent := by
  refine ends_bind (ends_pop (fun values v hv => silent_push ?_ _) fun _ => trivial)
  rw [hv, Array.size_push] at hs
  exact hs

theorem silent_replaceTwo (hs : m.stack.size ≤ m.config.maxStack) (r : Value → Value → Value) :
    Ends (do let b ← pop; let a ← pop; push (r a b)) m (fun _ _ => True)
      fun halt _ => halt.Silent := by
  refine ends_bind (ends_pop (fun values v hv => ?_) fun _ => trivial)
  rw [hv, Array.size_push] at hs
  exact silent_replace (by simp only; omega) fun a => r a v

theorem silent_ret (hs : m.stack.size ≤ m.config.maxStack) {rest : Array Frame} {f : Frame}
    (hf : m.frames = rest.push f) :
    Ends ret m (fun _ _ => True) fun halt _ => halt.Silent := by
  refine ends_ret hf (fun _ => trivial) (fun _ _ _ _ => trivial) (fun _ _ _ _ _ => trivial)
    fun values v hv _ _ => silent_push ?_ v
  rw [hv, Array.size_push] at hs
  simp only [Array.take_eq_extract, Array.size_extract]
  omega

/-! ## Actions that check first -/

/-- A fault that is found before anything has changed. -/
theorem backs_self {fault : RuntimeFault} (h : P fault) :
    (Halt.failed (.runtime (m.runtimeError fault))).Backs m P m :=
  fun _ => ⟨rfl, h⟩

theorem backs_of_silent {x : Exec Unit} {m' : Machine}
    (h : Ends x m' (fun _ _ => True) fun halt _ => halt.Silent) :
    Ends x m' (fun _ _ => True) (Halt.Backs m P) :=
  h.mono (fun _ _ => id) fun _ _ => Halt.Silent.backs

theorem backs_push (hP : P .stackOverflow) (v : Value) :
    Ends (push v) m (fun _ _ => True) (Halt.Backs m P) :=
  ends_push (fun _ => trivial) fun _ => backs_self hP

theorem backs_binary (hs : m.stack.size ≤ m.config.maxStack)
    (op : Value → Value → Except OperandError Value) :
    Ends (binary op) m (fun _ _ => True) (Halt.Backs m (· ≠ .stackOverflow)) := by
  refine ends_bind (ends_peek (fun b _ _ => ?_) fun _ => trivial)
  refine ends_bind (ends_peek (fun a _ _ => ?_) fun _ => trivial)
  refine ends_bind (ends_orMismatch (fun r _ => ?_) fun _ _ => backs_self (by simp))
  exact backs_of_silent (silent_replaceTwo hs fun _ _ => r)

theorem backs_add (hs : m.stack.size ≤ m.config.maxStack) :
    Ends add m (fun _ _ => True) (Halt.Backs m (· ≠ .stackOverflow)) := by
  refine ends_bind (ends_peek (fun b _ _ => ?_) fun _ => trivial)
  refine ends_bind (ends_peek (fun a _ _ => ends_get ?_) fun _ => trivial)
  split
  · rename_i joined _
    refine ends_bind (ends_intern (fun x m' hx => ?_) fun _ _ _ => trivial)
    -- interning leaves the operands where they are
    have hs' : (m.intern joined).2.stack.size ≤ (m.intern joined).2.config.maxStack := hs
    rw [hx] at hs'
    exact backs_of_silent (silent_replaceTwo hs' fun _ _ => .object x)
  · refine ends_bind (ends_orMismatch (fun r _ => ?_) fun _ _ => backs_self (by simp))
    exact backs_of_silent (silent_replaceTwo hs fun _ _ => r)

/-! ## Calls -/

theorem backs_callFunction (hP : ∀ fault, P fault) (function : Handle) (arity argc : Nat) :
    Ends (callFunction function arity argc) m (fun _ _ => True) (Halt.Backs m P) :=
  ends_callFunction (fun _ _ _ => trivial) (fun _ => backs_self (hP _))
    (fun _ => backs_self (hP _)) fun _ => trivial

/-- The result of a native function takes the place of its callee. -/
theorem backs_callNative (hw : m.heap.WellFormed) (hs : m.stack.size ≤ m.config.maxStack)
    (native : NativeFunction) (argc : Nat) :
    Ends (callNative native argc) m (fun _ _ => True) (Halt.Backs m (· ≠ .stackOverflow)) := by
  refine ends_callNative (fun _ hargs => ?_) (fun _ => backs_self (by simp)) fun _ => trivial
  obtain ⟨r, m₁, hrun, hu⟩ :=
    Undisturbed.runPrimitive hw (native.body (m.stack.extract (m.stack.size - argc)))
  refine ends_of_ok hrun ?_
  cases r with
  | error text => exact fun hdetected => hdetected.elim
  | ok v =>
      dsimp only
      split
      · trivial
      · refine backs_of_silent (silent_push ?_ v)
        simp only [hu.stack, hu.config, Array.take_eq_extract, Array.size_extract]
        omega

theorem backs_callValue (hP : ∀ fault, P fault) (hw : m.heap.WellFormed)
    (hs : m.stack.size ≤ m.config.maxStack) (callee : Value) (argc : Nat) :
    Ends (callValue callee argc) m (fun _ _ => True) (Halt.Backs m P) := by
  refine ends_callValue (fun x f _ _ => backs_callFunction hP x _ argc)
    (fun x n _ _ => ?_) (fun _ => backs_self (hP _)) fun _ _ _ => trivial
  exact (backs_callNative hw hs n argc).mono (fun _ _ => id) fun _ _ h => h.mono fun _ _ => hP _

/-! ## Instructions -/

theorem silent_jump {rest : Array Frame} {f : Frame} (hf : m.frames = rest.push f) (op : Opcode)
    (n : Nat) : Ends (jump op n) m (fun _ _ => True) fun halt _ => halt.Silent :=
  ends_jump hf (fun _ _ _ _ _ => trivial) (fun _ => trivial) fun _ _ _ => trivial

/-- **An instruction fails before it changes anything**, and one that pops a value
first does not overflow. -/
theorem backs_perform (hw : m.heap.WellFormed) (hs : m.stack.size ≤ m.config.maxStack)
    {rest : Array Frame} {f : Frame} (hf : m.frames = rest.push f) (op : Opcode) (n : Nat) :
    Ends (perform op n) m (fun _ _ => True)
      (Halt.Backs m fun fault => op.popsFirst = true → fault ≠ .stackOverflow) := by
  have hpops : ∀ {x : Exec Unit} {p : Prop},
      Ends x m (fun _ _ => True) (Halt.Backs m (· ≠ .stackOverflow)) →
      Ends x m (fun _ _ => True) (Halt.Backs m fun fault => p → fault ≠ .stackOverflow) := fun hx =>
    hx.mono (fun _ _ => id) fun _ _ h => h.mono fun _ hfault _ => hfault
  cases op with
  | constant =>
      exact ends_bind (ends_constant hf (fun _ v _ _ => backs_push nofun v) (fun _ => trivial)
        fun _ _ _ => trivial)
  | pushNil => exact backs_push nofun _
  | pushTrue => exact backs_push nofun _
  | pushFalse => exact backs_push nofun _
  | pop => exact ends_bind (ends_pop (fun _ _ _ => ends_pure trivial) fun _ => trivial)
  | getLocal =>
      refine ends_bind (ends_localSlot hf (fun _ => ?_) fun _ => trivial)
      exact ends_bind (ends_getSlot (fun v _ => backs_push nofun v) fun _ => trivial)
  | setLocal =>
      refine ends_bind (ends_localSlot hf (fun _ => ?_) fun _ => trivial)
      refine ends_bind (ends_peek (fun v _ _ => ?_) fun _ => trivial)
      exact ends_setSlot (fun _ => trivial) fun _ => trivial
  | getGlobal =>
      refine ends_name_bind hf (fun _ _ _ => trivial) fun x => ends_get ?_
      split
      · exact backs_push nofun _
      · exact ends_undefined (backs_self nofun)
  | defineGlobal =>
      refine ends_name_bind hf (fun _ _ _ => trivial) fun x => ?_
      refine ends_bind (ends_peek (fun v _ _ => ?_) fun _ => trivial)
      exact ends_bind (ends_setGlobal (ends_bind (ends_pop (fun _ _ _ => trivial) fun _ => trivial)))
  | setGlobal =>
      refine ends_name_bind hf (fun _ _ _ => trivial) fun x => ?_
      refine ends_bind (ends_peek (fun v _ _ => ends_get ?_) fun _ => trivial)
      split
      · exact ends_setGlobal trivial
      · exact ends_undefined (backs_self nofun)
  | equal => exact backs_of_silent (silent_replaceTwo hs _)
  | notEqual => exact backs_of_silent (silent_replaceTwo hs _)
  | greater => exact hpops (backs_binary hs _)
  | greaterEqual => exact hpops (backs_binary hs _)
  | less => exact hpops (backs_binary hs _)
  | lessEqual => exact hpops (backs_binary hs _)
  | add => exact hpops (backs_add hs)
  | subtract => exact hpops (backs_binary hs _)
  | multiply => exact hpops (backs_binary hs _)
  | divide => exact hpops (backs_binary hs _)
  | not => exact backs_of_silent (silent_replace hs Value.not)
  | negate =>
      refine hpops (ends_bind (ends_peek (fun v _ _ => ?_) fun _ => trivial))
      refine ends_bind (ends_orMismatch (fun r _ => ?_) fun _ _ => backs_self (by simp))
      exact backs_of_silent (silent_replace hs fun _ => r)
  | print =>
      refine ends_bind (ends_pop (fun _ _ _ => ?_) fun _ => trivial)
      exact ends_print (fun _ _ => trivial) fun _ _ => trivial
  | jump => exact backs_of_silent (silent_jump hf _ n)
  | loop => exact backs_of_silent (silent_jump hf _ n)
  | jumpIfFalse =>
      refine ends_bind (ends_pop (fun values v _ => ?_) fun _ => trivial)
      split
      · have hf' : ({ m with stack := values } : Machine).frames = rest.push f := hf
        exact backs_of_silent (silent_jump hf' _ n)
      · exact ends_pure trivial
  | call =>
      exact ends_bind (ends_peek (fun v _ _ => backs_callValue (fun _ => nofun) hw hs v n)
        fun _ => trivial)
  | ret => exact backs_of_silent (silent_ret hs hf)

theorem backs_callValue_native (hw : m.heap.WellFormed) (hs : m.stack.size ≤ m.config.maxStack)
    {x : Handle} {g : NativeFunction} (hx : m.heap.get? x = some (.native g)) (argc : Nat) :
    Ends (callValue (.object x) argc) m (fun _ _ => True)
      (Halt.Backs m (· ≠ .stackOverflow)) := by
  refine ends_callValue (fun y f hy hf => ?_) (fun y k _ _ => backs_callNative hw hs k argc)
    (fun _ => backs_self (by simp)) fun _ _ _ => trivial
  rw [← Value.object.inj hy, hx] at hf
  exact absurd hf (by simp)

/-- A call of a native function does not overflow. -/
theorem backs_call_native (hw : m.heap.WellFormed) (hs : m.stack.size ≤ m.config.maxStack)
    {n : Nat} {x : Handle} {g : NativeFunction}
    (hx : m.stack[m.stack.size - (n + 1)]? = some (.object x)) (hg : m.heap.native? x = some g) :
    Ends (perform .call n) m (fun _ _ => True) (Halt.Backs m (· ≠ .stackOverflow)) := by
  refine ends_bind (ends_peek (fun v _ hv => ?_) fun _ => trivial)
  rw [hx] at hv
  rw [← Option.some.inj hv]
  exact backs_callValue_native hw hs (Heap.native?_eq_some.mp hg) n

/-- A call with the wrong number of arguments fails, and does no more. -/
theorem ends_call_arity {n arity : Nat} {x : Handle} {o : Object} (hlt : n < m.stack.size)
    (hx : m.stack[m.stack.size - (n + 1)]? = some (.object x)) (ho : m.heap.get? x = some o)
    (harity : o.arity? = some arity) (hne : n ≠ arity) {E : Halt → Machine → Prop}
    (h : E (.failed (.runtime (m.runtimeError (.arityMismatch arity n)))) m) :
    Ends (perform .call n) m (fun _ _ => False) E := by
  refine ends_bind (ends_peek_some hlt hx (ends_get ?_))
  dsimp only
  rw [ho]
  cases o with
  | string text => exact absurd harity (by simp [Object.arity?])
  | function f =>
      obtain rfl := Option.some.inj harity
      exact ends_bind (ends_checkArity (fun heq => absurd heq hne) fun _ => h)
  | native g =>
      obtain rfl := Option.some.inj harity
      exact ends_bind (ends_checkArity (fun heq => absurd heq hne) fun _ => h)

end Exec

namespace Machine

variable {m m₁ m' : Machine} {limits : MachineConfig} {function : Handle}

/-! ## Steps -/

/-- Moving the innermost call and reporting touch nothing else. -/
theorem untouched_setPointer {rest : Array Frame} {f : Frame} (hf : m.frames = rest.push f)
    (ip : Nat) (journal : Journal) :
    m.Untouched { m with frames := rest.push { f with ip }, journal } :=
  ⟨rfl, rfl, rfl, rfl, rest, f, ip, hf, rfl⟩

/-- What an action that begins behind the instruction and fails at once comes to. -/
theorem ends_step_backs {op : Opcode} {n : Nat} {P : RuntimeFault → Prop}
    (hn : m.next? = some (op, n))
    (h : ∀ rest f ip journal, m.frames = Array.push rest f →
      Exec.Ends (Exec.perform op n) { m with frames := rest.push { f with ip }, journal }
        (fun _ _ => True)
        (Halt.Backs { m with frames := rest.push { f with ip }, journal } P)) :
    Exec.Ends Exec.step m.recordInstruction (fun _ _ => True) fun halt m' =>
      ∀ e, halt = .failed (.runtime e) → e.fault.Detected → m.Untouched m' ∧ P e.fault := by
  refine ends_step_next hn fun rest f ip journal hf => ?_
  refine (h rest f ip journal hf).mono (fun _ _ => id) ?_
  intro halt m' hbacks e he hdetected
  subst he
  obtain ⟨hm', hfault⟩ := hbacks hdetected
  rw [hm']
  exact ⟨untouched_setPointer hf ip journal, hfault⟩

theorem Contained.step_backs (h : m.Contained limits) (hw : m.heap.WellFormed) {op : Opcode}
    {n : Nat} (hn : m.next? = some (op, n)) :
    Exec.Ends Exec.step m.recordInstruction (fun _ _ => True) fun halt m' =>
      ∀ e, halt = .failed (.runtime e) → e.fault.Detected →
        m.Untouched m' ∧ (op.popsFirst = true → e.fault ≠ .stackOverflow) := by
  have hs : m.stack.size ≤ m.config.maxStack := by rw [h.config]; exact h.stack
  exact ends_step_backs (P := fun fault => op.popsFirst = true → fault ≠ .stackOverflow) hn
    fun rest f ip journal _ => Exec.backs_perform
      (m := { m with frames := rest.push { f with ip }, journal }) hw hs rfl op n

theorem Contained.atomic (h : m.Contained limits) (hw : m.heap.WellFormed) : m.Atomic := by
  have hs : m.stack.size ≤ m.config.maxStack := by rw [h.config]; exact h.stack
  refine ⟨?_, ?_, ?_, ?_⟩
  · intro e m' he hdetected
    cases hn : m.next? with
    | none =>
        have hsilent : Exec.Ends Exec.step m.recordInstruction (fun _ _ => True)
            fun halt _ => halt.Silent := ends_step_next_none hn fun _ _ _ => trivial
        exact (hsilent.of_error he).elim
    | some next => exact (((h.step_backs hw hn).of_error he) e rfl hdetected).1
  · intro n x o arity hn hlt hx ho harity hne
    have hends : Exec.Ends Exec.step m.recordInstruction (fun _ _ => False) fun halt m' =>
        ∃ e, halt = .failed (.runtime e) ∧ e.fault = .arityMismatch arity n ∧ m.Untouched m' :=
      ends_step_next hn fun rest f ip journal hf =>
        Exec.ends_call_arity (m := { m with frames := rest.push { f with ip }, journal })
          hlt hx ho harity hne ⟨_, rfl, rfl, untouched_setPointer hf ip journal⟩
    cases hstep : Exec.step m.recordInstruction with
    | ok a m' => exact (hends.of_ok hstep).elim
    | error halt m' =>
        obtain ⟨e, rfl, hfault, huntouched⟩ := hends.of_error hstep
        exact ⟨e, m', rfl, hfault, huntouched⟩
  · intro op n e m' hn hop he hfault
    have hdetected : e.fault.Detected := by rw [hfault]; trivial
    exact (((h.step_backs hw hn).of_error he) e rfl hdetected).2 hop hfault
  · intro n x g e m' hn hx hg he hfault
    have hdetected : e.fault.Detected := by rw [hfault]; trivial
    have hcall := ends_step_backs hn fun rest f ip journal _ =>
      Exec.backs_call_native (m := { m with frames := rest.push { f with ip }, journal }) hw hs hx hg
    exact ((hcall.of_error he) e rfl hdetected).2 hfault

/-! ## Runs -/

/-- The machine in which a run calls its function, the only value on the stack. -/
def loaded (m : Machine) (function : Handle) : Machine :=
  { m.begun function with stack := #[.object function] }

/-- Entering a function fails before anything has changed, too. The callee is pushed
first, which takes a stack with room for one value. -/
theorem enter_backs {P : RuntimeFault → Prop} (hfull : m.config.maxStack = 0 → P .stackOverflow)
    (hcall : (m.loaded function).stack.size ≤ (m.loaded function).config.maxStack →
      Exec.Ends (Exec.callValue (.object function) 0) (m.loaded function) (fun _ _ => True)
        (Halt.Backs (m.loaded function) P)) :
    Exec.Ends (enter function) (m.begun function) (fun _ _ => True) fun halt m' =>
      ∀ e, halt = .failed (.runtime e) → e.fault.Detected →
        (m'.heap = m.heap ∧ m'.globals = m.globals ∧ m'.output = m.output) ∧ P e.fault := by
  refine Exec.ends_bind (Exec.ends_push (fun hroom => ?_) fun hnone e he _ => ?_)
  · refine Exec.ends_bind ((hcall hroom).mono (fun _ m' _ => Exec.ends_get ?_) ?_)
    · split
      · exact Exec.ends_bind (Exec.ends_pop (fun _ _ _ => nofun) fun _ => nofun)
      · trivial
    · intro halt m' hbacks e he hdetected
      subst he
      obtain ⟨hm', hfault⟩ := hbacks hdetected
      rw [hm']
      exact ⟨⟨rfl, rfl, rfl⟩, hfault⟩
  · obtain rfl := Error.runtime.inj (Halt.failed.inj he)
    exact ⟨⟨rfl, rfl, rfl⟩, hfull (Nat.eq_zero_of_not_pos hnone)⟩

/-- A native function that is run finds room for its result. -/
theorem enter_native (hw : m.heap.WellFormed) {g : NativeFunction}
    (hg : m.heap.native? function = some g) {e : RuntimeError}
    (he : enter function (m.begun function) = .error (.failed (.runtime e)) m')
    (hroom : 0 < m.config.maxStack) : e.fault ≠ .stackOverflow := by
  intro hfault
  have hw' : (m.loaded function).heap.WellFormed := hw
  have hnative : (m.loaded function).heap.get? function = some (.native g) :=
    Heap.native?_eq_some.mp hg
  have hbacks : Exec.Ends (enter function) (m.begun function) _ _ :=
    enter_backs (P := (· ≠ .stackOverflow)) (fun hzero => absurd hroom (by omega)) fun hs =>
      Exec.backs_callValue_native hw' hs hnative 0
  exact ((hbacks.of_error he) e rfl (by rw [hfault]; trivial)).2 hfault

/-- A run that fails has the heap, the globals and the output of the machine just
before it failed. -/
theorem launch_fails (h : m.Regular) {fuel : Nat} {e : RuntimeError}
    (he : (m.launch fuel function).1 = some (.failed (.runtime e))) (hdetected : e.fault.Detected) :
    ∃ before, FailsAt m function e before ∧ (m.launch fuel function).2.heap = before.heap ∧
      (m.launch fuel function).2.globals = before.globals ∧
      (m.launch fuel function).2.output = before.output := by
  rcases halts_of_launch he with hentry | ⟨m', hr, hs⟩
  · have hw : (m.loaded function).heap.WellFormed := h.sound.wellFormed
    have hbacks : Exec.Ends (enter function) (m.begun function) _ _ :=
      enter_backs (P := fun _ => True) (fun _ => trivial) fun hs =>
        Exec.backs_callValue (fun _ => trivial) hw hs _ 0
    exact ⟨m, .entry hentry, (hbacks.of_error hentry e rfl hdetected).1⟩
  · have hatomic := (hr.contained h).atomic (Regular.stable.inRun hr h).sound.wellFormed
    have hu := hatomic.untouched e _ hs hdetected
    exact ⟨m', .instruction hr hs, hu.heap, hu.globals, hu.output⟩

/-- **Errors are atomic.** In every run, an instruction that ends in a fault which the
machine finds has changed nothing but the place of the innermost call. Such a fault
leaves the heap, the globals and the output as they were just before it, and clears
the stacks. -/
theorem errors_atomic {m m₁ : Machine} {function : Handle} {c : HostCall} (hi : m.Idle)
    (hc : c.Runs m m₁ function) :
    (∀ m', InRun m₁ function m' → m'.Atomic) ∧
    (∀ g e m', m₁.heap.native? function = some g → 0 < m₁.config.maxStack →
      enter function (m₁.begun function) = .error (.failed (.runtime e)) m' →
      e.fault ≠ .stackOverflow) ∧
    ∀ fuel e m₂, m₁.runFunction fuel function = (.failed (.runtime e), m₂) → e.fault.Detected →
      m₂.stack = #[] ∧ m₂.frames = #[] ∧ ∃ before, FailsAt m₁ function e before ∧
        m₂.heap = before.heap ∧ m₂.globals = before.globals ∧ m₂.output = before.output := by
  have hregular := hi.regular.runs hc
  refine ⟨fun m' hr => (hr.contained hregular).atomic
    (Regular.stable.inRun hr hregular).sound.wellFormed, fun g e m' hg hroom he =>
    enter_native hregular.sound.wellFormed hg he hroom, fun fuel e m₂ hend hdetected => ?_⟩
  rw [runFunction_eq] at hend
  cases hl : m₁.launch fuel function with
  | mk halt? m' =>
      rw [hl] at hend
      cases halt? with
      | none => exact absurd hend (by simp [finish])
      | some halt =>
          have hhalt := conclude_eq_failed (congrArg Prod.fst hend)
          subst hhalt
          obtain ⟨before, hfails, hsame⟩ := launch_fails hregular (by rw [hl]) hdetected
          rw [hl] at hsame
          rw [← (Prod.mk.inj hend).2]
          exact ⟨rfl, rfl, before, hfails, hsame⟩

/-- A machine with a script that calls itself with an argument, although it takes
none. -/
def selfCalling : Machine :=
  ((fresh { registerBuiltins := false }).allocate
    (.function { chunk := Chunk.copy { code := #[1, 26, 1], lines := #[1, 1, 1] } })).2

/-- The call fails, and nothing is left on the stacks. -/
theorem errors_atomic_arity :
    ∃ m', InRun selfCalling ⟨0, 0⟩ m' ∧ m'.next? = some (.call, 1) ∧ m'.Atomic ∧
      ∃ e m₂, selfCalling.runFunction 9 ⟨0, 0⟩ = (.failed (.runtime e), m₂) ∧
        e.fault = .arityMismatch 0 1 ∧ m₂.stack = #[] ∧ m₂.frames = #[] := by
  have hc : (HostCall.run 9 (Chunk.copy { code := #[1, 26, 1], lines := #[1, 1, 1] })).Runs
    (fresh { registerBuiltins := false }) selfCalling ⟨0, 0⟩ := rfl
  obtain ⟨hatomic, _, hend⟩ := errors_atomic (fresh_idle rfl rfl) hc
  have hr : InRun selfCalling ⟨0, 0⟩ _ := .step (.enter rfl) rfl
  have hrun : (selfCalling.runFunction 9 ⟨0, 0⟩).1 =
      .failed (.runtime ⟨.arityMismatch 0 1, 1, [⟨none, 1⟩]⟩) := by decide +kernel
  have hstacks := hend _ _ _ (Prod.ext hrun rfl) trivial
  exact ⟨_, hr, rfl, hatomic _ hr, _, _, Prod.ext hrun rfl, rfl, hstacks.1, hstacks.2.1⟩

end Machine

end StackMachine
