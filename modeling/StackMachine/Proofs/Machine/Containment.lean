import StackMachine.Proofs.Chunk.Decoding
import StackMachine.Proofs.Machine.Dangling
import StackMachine.Proofs.Machine.Depth

/-!
# No bytecode gets out

Bytes that nobody has checked may pop the callee of their own call, take arguments
from the values of a caller, jump into operands or return with nothing on the stack.
The bases of calls need not even be in order. All the same such a run stays within
its limits and never reaches for a place that is not there.

What carries this is an invariant that asks for little: every call has its arguments
above the bottom of the stack, the outermost one directly above it, and stands in or
at the end of the code of a live function. A call checks that its arguments and its
callee are on the stack, so the arguments start above the bottom. A return only cuts
the stack down to a place that may lie above its top. And the function of a call is
a root, so it outlives every collection.

Nothing is assumed of native functions, of the handles on the stack or of the
function that is run.
-/

namespace StackMachine

/-- A machine between two instructions, within its limits. -/
structure Machine.Contained (limits : MachineConfig) (m : Machine) : Prop where
  config : m.config = limits
  stack : m.stack.size ≤ limits.maxStack
  frames : m.frames.size ≤ limits.maxFrames
  /-- There is an outermost call, and its callee lies at the bottom of the stack. -/
  bottom : ∃ f, m.frames[0]? = some f ∧ f.base = 1
  /-- Every call has a place below its arguments. -/
  bases : ∀ f ∈ m.frames, 1 ≤ f.base
  /-- Every call stands in its function, or at its very end. -/
  code : ∀ f ∈ m.frames, ∃ g, m.heap.function? f.function = some g ∧ f.ip ≤ g.chunk.size

/-- How a contained machine halts: with nothing left on the stacks if there is a
result, and never by a crash. -/
def Halt.Clean (halt : Halt) (m : Machine) : Prop :=
  match halt with
  | returned _ => m.stack = #[] ∧ m.frames = #[]
  | failed _ => True
  | crashed => False

namespace Machine

variable {m m' : Machine} {limits : MachineConfig}

/-! ## Changing a contained machine -/

namespace Contained

theorem setStack (h : m.Contained limits) {stack : Array Value}
    (hsize : stack.size ≤ limits.maxStack) : Contained limits { m with stack } :=
  ⟨h.config, hsize, h.frames, h.bottom, h.bases, h.code⟩

/-- Popping values, however many, keeps to the limit. -/
theorem lower (h : m.Contained limits) {stack : Array Value} (hsize : stack.size ≤ m.stack.size) :
    Contained limits { m with stack } :=
  h.setStack (Nat.le_trans hsize h.stack)

theorem unpush (h : m.Contained limits) {values : Array Value} {v : Value}
    (hv : m.stack = values.push v) : Contained limits { m with stack := values } := by
  refine h.lower ?_
  rw [hv, Array.size_push]
  omega

theorem undisturbed (h : m.Contained limits) (hu : m.Undisturbed m') : m'.Contained limits := by
  refine ⟨hu.config.trans h.config, ?_, ?_, ?_, ?_, ?_⟩
  · rw [hu.stack]; exact h.stack
  · rw [hu.frames]; exact h.frames
  · rw [hu.frames]; exact h.bottom
  · rw [hu.frames]; exact h.bases
  · intro f hf
    rw [hu.frames] at hf
    obtain ⟨g, hg, hip⟩ := h.code f hf
    exact ⟨g, (hu.functions f hf g hg).1, hip⟩

/-- The innermost call may move anywhere in its code. -/
theorem setPointer (h : m.Contained limits) {rest : Array Frame} {f : Frame}
    (hf : m.frames = rest.push f) {g : BytecodeFunction}
    (hg : m.heap.function? f.function = some g) {ip : Nat} (hip : ip ≤ g.chunk.size) :
    Contained limits { m with frames := rest.push { f with ip } } := by
  have hsize := h.frames
  obtain ⟨f₀, hf₀, hbase⟩ := h.bottom
  have hlast : f ∈ m.frames := by rw [hf]; exact Array.mem_push_self
  have hrest : ∀ k ∈ rest, k ∈ m.frames := by
    intro k hk
    rw [hf]
    exact Array.mem_push.mpr (Or.inl hk)
  rw [hf, Array.size_push] at hsize
  rw [hf, Array.getElem?_push] at hf₀
  refine ⟨h.config, h.stack, by rw [Array.size_push]; exact hsize, ?_, ?_, ?_⟩
  · simp only [Array.getElem?_push]
    split at hf₀
    · rename_i hz
      rw [if_pos hz]
      exact ⟨_, rfl, by rw [← Option.some.inj hf₀] at hbase; exact hbase⟩
    · rename_i hz
      rw [if_neg hz]
      exact ⟨f₀, hf₀, hbase⟩
  · intro k hk
    rcases Array.mem_push.mp hk with hk | rfl
    · exact h.bases k (hrest k hk)
    · exact h.bases f hlast
  · intro k hk
    rcases Array.mem_push.mp hk with hk | rfl
    · exact h.code k (hrest k hk)
    · exact ⟨g, hg, hip⟩

/-- A new call starts at the beginning of a live function. -/
theorem pushFrame (h : m.Contained limits) (hroom : m.frames.size < m.config.maxFrames)
    {x : Handle} {g : BytecodeFunction} (hx : m.heap.function? x = some g) {base : Nat}
    (hbase : 1 ≤ base) :
    Contained limits { m with frames := m.frames.push { function := x, base } } := by
  obtain ⟨f₀, hf₀, hone⟩ := h.bottom
  have hpos : 0 < m.frames.size := (Array.getElem?_eq_some_iff.mp hf₀).1
  refine ⟨h.config, h.stack, ?_, ⟨f₀, ?_, hone⟩, ?_, ?_⟩
  · rw [Array.size_push, ← h.config]
    exact hroom
  · simp only [Array.getElem?_push]
    rw [if_neg (by omega)]
    exact hf₀
  · intro k hk
    rcases Array.mem_push.mp hk with hk | rfl
    · exact h.bases k hk
    · exact hbase
  · intro k hk
    rcases Array.mem_push.mp hk with hk | rfl
    · exact h.code k hk
    · exact ⟨g, hx, Nat.zero_le _⟩

/-- What is left when the innermost call of several is over. -/
theorem popFrame (h : m.Contained limits) {rest : Array Frame} {f : Frame}
    (hf : m.frames = rest.push f) (hrest : rest ≠ #[]) :
    Contained limits { m with frames := rest } := by
  have hsize := h.frames
  obtain ⟨f₀, hf₀, hone⟩ := h.bottom
  have hpos : 0 < rest.size := Array.size_pos_iff.mpr hrest
  have hmem : ∀ k ∈ rest, k ∈ m.frames := by
    intro k hk
    rw [hf]
    exact Array.mem_push.mpr (Or.inl hk)
  rw [hf, Array.size_push] at hsize
  rw [hf, Array.getElem?_push, if_neg (by omega)] at hf₀
  refine ⟨h.config, h.stack, ?_, ⟨f₀, hf₀, hone⟩, fun k hk => h.bases k (hmem k hk),
    fun k hk => h.code k (hmem k hk)⟩
  simp only
  omega

/-- The only call of a machine starts directly above the bottom. -/
theorem base_of_single (h : m.Contained limits) {f : Frame} (hf : m.frames = #[].push f) :
    f.base = 1 := by
  obtain ⟨f₀, hf₀, hone⟩ := h.bottom
  rw [hf] at hf₀
  rw [← Option.some.inj hf₀] at hone
  exact hone

theorem frames_push (h : m.Contained limits) :
    ∃ (rest : Array Frame) (f : Frame), m.frames = rest.push f := by
  obtain ⟨f₀, hf₀, _⟩ := h.bottom
  rcases m.frames_cases with hnone | hsome
  · rw [hnone] at hf₀
    exact absurd hf₀ (by simp)
  · exact hsome

end Contained

end Machine

namespace Exec

open Machine

variable {m : Machine} {limits : MachineConfig}

/-! ## Values and operators -/

theorem contained_push (h : m.Contained limits) (v : Value) :
    Ends (push v) m (fun _ m' => m'.Contained limits) Halt.Clean := by
  refine ends_push (fun hroom => h.setStack ?_) fun _ => trivial
  rw [h.config] at hroom
  rw [Array.size_push]
  exact hroom

theorem contained_replaceTwo (h : m.Contained limits) (v : Value) :
    Ends (do let _ ← pop; let _ ← pop; push v) m (fun _ m' => m'.Contained limits) Halt.Clean := by
  refine ends_bind (ends_pop (fun values b hb => ?_) fun _ => trivial)
  have h₁ := h.unpush hb
  refine ends_bind (ends_pop (fun values' a ha => ?_) fun _ => trivial)
  exact contained_push (h₁.unpush ha) v

theorem contained_binary (h : m.Contained limits)
    (op : Value → Value → Except OperandError Value) :
    Ends (binary op) m (fun _ m' => m'.Contained limits) Halt.Clean := by
  refine ends_bind (ends_peek (fun b _ _ => ?_) fun _ => trivial)
  refine ends_bind (ends_peek (fun a _ _ => ?_) fun _ => trivial)
  exact ends_bind (ends_orMismatch (fun r _ => contained_replaceTwo h r) fun _ _ => trivial)

theorem contained_compare (h : m.Contained limits) (p : Value → Value → Bool) :
    Ends (compare p) m (fun _ m' => m'.Contained limits) Halt.Clean := by
  refine ends_bind (ends_pop (fun values b hb => ?_) fun _ => trivial)
  have h₁ := h.unpush hb
  refine ends_bind (ends_pop (fun values' a ha => ?_) fun _ => trivial)
  exact contained_push (h₁.unpush ha) _

theorem contained_add (h : m.Contained limits) (hw : m.heap.WellFormed) :
    Ends add m (fun _ m' => m'.Contained limits) Halt.Clean := by
  refine ends_bind (ends_peek (fun b _ _ => ?_) fun _ => trivial)
  refine ends_bind (ends_peek (fun a _ _ => ends_get ?_) fun _ => trivial)
  split
  · rename_i joined _
    refine ends_bind (ends_intern (fun x m' hx => ?_) fun _ _ _ => trivial)
    have hu := Undisturbed.intern hw joined
    rw [hx] at hu
    exact contained_replaceTwo (h.undisturbed hu) _
  · exact ends_bind (ends_orMismatch (fun r _ => contained_replaceTwo h r) fun _ _ => trivial)

/-! ## Calls -/

theorem contained_callValue (h : m.Contained limits) (hw : m.heap.WellFormed) (v : Value)
    {argc : Nat} (hargc : argc < m.stack.size) :
    Ends (callValue v argc) m (fun _ m' => m'.Contained limits) Halt.Clean := by
  refine ends_callValue (fun x g _ hx => ?_) (fun x n _ _ => ?_) (fun _ => trivial)
    fun _ _ _ => trivial
  · -- the callee is below the arguments, so these do not start at the bottom
    refine ends_callFunction (fun _ hroom _ => ?_) (fun _ => trivial) (fun _ => trivial)
      fun hshort => absurd hshort (by omega)
    exact h.pushFrame hroom (Heap.function?_eq_some.mpr hx) (by omega)
  · refine ends_callNative_undisturbed hw n hargc (fun m₁ w hu => ?_) fun _ _ => trivial
    refine (h.undisturbed hu).lower ?_
    simp only [hu.stack, Array.size_push, Array.take_eq_extract, Array.size_extract]
    omega

theorem contained_ret (h : m.Contained limits) {rest : Array Frame} {f : Frame}
    (hf : m.frames = rest.push f) :
    Ends ret m (fun _ m' => m'.Contained limits) Halt.Clean := by
  have hbase := h.bases f (by rw [hf]; exact Array.mem_push_self)
  refine ends_ret hf (fun _ => trivial) (fun _ _ _ hzero => absurd hzero (by omega))
    (fun values v _ _ hrest => ?_) fun values v hv _ hrest => ?_
  · -- the outermost call cuts the stack down to nothing
    subst hrest
    exact ⟨by simp [h.base_of_single hf], rfl⟩
  · refine contained_push (((h.popFrame hf hrest).lower ?_)) v
    rw [hv]
    simp only [Array.size_push, Array.take_eq_extract, Array.size_extract]
    omega

/-! ## Instructions -/

theorem contained_jump (h : m.Contained limits) {rest : Array Frame} {f : Frame}
    (hf : m.frames = rest.push f) (op : Opcode) (n : Nat) :
    Ends (jump op n) m (fun _ m' => m'.Contained limits) Halt.Clean :=
  ends_jump hf (fun _ _ hg _ hip => h.setPointer hf hg hip) (fun _ => trivial) fun _ _ _ => trivial

/-- **An instruction keeps a machine contained**, or halts it cleanly. -/
theorem contained_perform (h : m.Contained limits) (hw : m.heap.WellFormed) {rest : Array Frame}
    {f : Frame} (hf : m.frames = rest.push f) (op : Opcode) (n : Nat) :
    Ends (perform op n) m (fun _ m' => m'.Contained limits) Halt.Clean := by
  cases op with
  | constant =>
      exact ends_bind (ends_constant hf (fun _ v _ _ => contained_push h v) (fun _ => trivial)
        fun _ _ _ => trivial)
  | pushNil => exact contained_push h _
  | pushTrue => exact contained_push h _
  | pushFalse => exact contained_push h _
  | pop => exact ends_bind (ends_pop (fun _ _ hv => ends_pure (h.unpush hv)) fun _ => trivial)
  | getLocal =>
      refine ends_bind (ends_localSlot hf (fun hslot => ?_) fun _ => trivial)
      exact ends_bind (ends_getSlot (fun v _ => contained_push h v) fun hout =>
        absurd hslot (by omega))
  | setLocal =>
      refine ends_bind (ends_localSlot hf (fun hslot => ?_) fun _ => trivial)
      refine ends_bind (ends_peek (fun v _ _ => ?_) fun _ => trivial)
      refine ends_setSlot (fun _ => h.lower ?_) fun hout => absurd hslot (by omega)
      exact Nat.le_of_eq Array.size_setIfInBounds
  | getGlobal =>
      refine ends_name_bind hf (fun _ _ _ => trivial) fun x => ends_get ?_
      split
      · exact contained_push h _
      · exact ends_undefined trivial
  | defineGlobal =>
      refine ends_name_bind hf (fun _ _ _ => trivial) fun x => ?_
      refine ends_bind (ends_peek (fun v _ _ => ?_) fun _ => trivial)
      refine ends_bind (ends_setGlobal (ends_bind (ends_pop (fun _ _ hw' => ?_) fun _ => trivial)))
      exact ends_pure ⟨h.config, (h.unpush hw').stack, h.frames, h.bottom, h.bases, h.code⟩
  | setGlobal =>
      refine ends_name_bind hf (fun _ _ _ => trivial) fun x => ?_
      refine ends_bind (ends_peek (fun v _ _ => ends_get ?_) fun _ => trivial)
      split
      · exact ends_setGlobal ⟨h.config, h.stack, h.frames, h.bottom, h.bases, h.code⟩
      · exact ends_undefined trivial
  | equal => exact contained_compare h _
  | notEqual => exact contained_compare h _
  | greater => exact contained_binary h _
  | greaterEqual => exact contained_binary h _
  | less => exact contained_binary h _
  | lessEqual => exact contained_binary h _
  | add => exact contained_add h hw
  | subtract => exact contained_binary h _
  | multiply => exact contained_binary h _
  | divide => exact contained_binary h _
  | not =>
      exact ends_bind (ends_pop (fun _ _ hv => contained_push (h.unpush hv) _) fun _ => trivial)
  | negate =>
      refine ends_bind (ends_peek (fun v _ _ => ?_) fun _ => trivial)
      refine ends_bind (ends_orMismatch (fun r _ => ?_) fun _ _ => trivial)
      exact ends_bind (ends_pop (fun _ _ hv => contained_push (h.unpush hv) r) fun _ => trivial)
  | print =>
      refine ends_bind (ends_pop (fun _ _ hv => ?_) fun _ => trivial)
      have h₁ := h.unpush hv
      exact ends_print (fun _ _ => ⟨h₁.config, h₁.stack, h₁.frames, h₁.bottom, h₁.bases, h₁.code⟩)
        fun _ _ => trivial
  | jump => exact contained_jump h hf _ n
  | loop => exact contained_jump h hf _ n
  | jumpIfFalse =>
      refine ends_bind (ends_pop (fun _ v hv => ?_) fun _ => trivial)
      split
      · exact contained_jump (h.unpush hv) hf _ n
      · exact ends_pure (h.unpush hv)
  | call => exact ends_bind (ends_peek (fun v hlt _ => contained_callValue h hw v hlt) fun _ => trivial)
  | ret => exact contained_ret h hf

theorem contained_step (h : m.Contained limits) (hw : m.heap.WellFormed) :
    Ends step m.recordInstruction (fun _ m' => m'.Contained limits) Halt.Clean := by
  obtain ⟨journal, hj⟩ := m.recordInstruction_eq
  obtain ⟨rest, f, hf⟩ := h.frames_push
  have h₁ : Contained limits { m with journal } :=
    ⟨h.config, h.stack, h.frames, h.bottom, h.bases, h.code⟩
  rw [hj]
  refine ends_bind (ends_fetch hf (fun g op n hg hd => ?_) (fun _ => trivial) (fun _ _ _ => trivial)
    (fun _ _ _ _ => trivial) fun _ _ _ _ => trivial)
  exact contained_perform (h₁.setPointer hf hg (Chunk.decode_inside hd)) hw rfl op n

/-- A run starts contained. A native function is over at once. -/
theorem contained_enter (hw : m.heap.WellFormed) (function : Handle) :
    Ends (enter function) (m.begun function) (fun _ m' => m'.Contained m.config) Halt.Clean := by
  refine ends_bind (ends_push (fun hroom => ?_) fun _ => trivial)
  refine ends_bind (ends_callValue (fun x g hv hx => ?_) (fun x n hv _ => ?_) (fun _ => trivial)
    fun _ _ _ => trivial)
  · refine ends_callFunction (fun _ hframes _ => ends_get ?_) (fun _ => trivial) (fun _ => trivial)
      fun hshort => absurd hshort (Nat.not_lt_zero _)
    rw [if_neg (by simp)]
    refine ends_pure ⟨rfl, hroom, hframes, ⟨_, rfl, rfl⟩, ?_, ?_⟩
    · intro f hf
      rcases Array.mem_push.mp hf with hf | rfl
      · exact absurd hf (by simp [begun, record, resetStacks])
      · exact Nat.le_refl 1
    · intro f hf
      rcases Array.mem_push.mp hf with hf | rfl
      · exact absurd hf (by simp [begun, record, resetStacks])
      · exact ⟨g, Heap.function?_eq_some.mpr hx, Nat.zero_le _⟩
  · refine ends_callNative_undisturbed (E := Halt.Clean) ?_ n ?_ (fun m₁ w hu => ?_)
      fun _ _ => trivial
    · exact hw
    · exact Nat.one_pos
    have hframes : m₁.frames = #[] := hu.frames
    refine ends_get ?_
    rw [if_pos (by simp [hframes])]
    refine ends_bind (ends_pop (fun values v hvalues => ends_throw ⟨?_, hframes⟩) fun hempty => ?_)
    · -- the result was the only value
      have hone : #[].push w = values.push v := hvalues
      exact (Array.push_eq_push.mp hone).2.symm
    · exact absurd hempty (by simp)

end Exec

namespace Machine

variable {m m₁ m' : Machine} {function : Handle}

/-! ## Runs -/

/-- Every machine at an instruction boundary is contained. -/
theorem InRun.contained (hr : InRun m function m') (h : m.Regular) : m'.Contained m.config := by
  induction hr with
  | enter he => exact (Exec.contained_enter h.sound.wellFormed function).of_ok he
  | step hr' hs ih =>
      have hw := (Regular.stable.inRun hr' h).sound.wellFormed
      exact (Exec.contained_step ih hw).of_ok hs

theorem InRun.clean_step (hr : InRun m function m') (h : m.Regular) :
    Exec.Ends Exec.step m'.recordInstruction (fun _ _ => True) Halt.Clean :=
  (Exec.contained_step (hr.contained h) (Regular.stable.inRun hr h).sound.wellFormed).mono
    (fun _ _ _ => trivial) fun _ _ => id

/-- A clean halt is no crash, and nothing is left on the stacks. -/
theorem conclude_clean {halt : Halt} (h : halt.Clean m) :
    (m.conclude halt).1 ≠ .crashed ∧
      (m.conclude halt).2.stack = #[] ∧ (m.conclude halt).2.frames = #[] := by
  cases halt with
  | returned v => exact ⟨by simp [conclude], h.1, h.2⟩
  | crashed => exact h.elim
  | failed e =>
      cases e with
      | runtime e => exact ⟨by simp [conclude], rfl, rfl⟩
      | compile text => exact ⟨by simp [conclude], rfl, rfl⟩
      | corruptBytecode offset cause => exact ⟨by simp [conclude], rfl, rfl⟩
      | outOfMemory e => exact ⟨by simp [conclude], rfl, rfl⟩
      | output text => exact ⟨by simp [conclude], rfl, rfl⟩

theorem runFunction_clean (h : m.Regular) (fuel : Nat) (function : Handle) :
    (m.runFunction fuel function).1 ≠ .crashed ∧
      ((m.runFunction fuel function).1 ≠ .unfinished →
        (m.runFunction fuel function).2.stack = #[] ∧
          (m.runFunction fuel function).2.frames = #[]) := by
  have henter := (Exec.contained_enter h.sound.wellFormed function).mono
    (fun _ _ _ => trivial) fun _ _ => id
  have hhalts : ∀ halt, (m.launch fuel function).1 = some halt →
      halt.Clean (m.launch fuel function).2 := fun halt =>
    launch_halts henter (fun _ hr => hr.clean_step h) fuel
  rw [runFunction_eq]
  cases hl : m.launch fuel function with
  | mk halt? m' =>
      rw [hl] at hhalts
      cases halt? with
      | none => exact ⟨by simp [finish], fun hgoing => absurd rfl hgoing⟩
      | some halt =>
          have hended := conclude_clean (hhalts halt rfl)
          exact ⟨hended.1, fun _ => hended.2⟩

/-- Defining a native function leaves the stacks alone. -/
theorem defineNative_stacks (h : m.heap.Sound) (native : NativeFunction) :
    (m.defineNative native).2.stack = m.stack ∧ (m.defineNative native).2.frames = m.frames := by
  rcases defineNative_cases h native with he | ⟨key, he | ⟨x, journal, _, _, he⟩⟩
  · rw [he]; exact ⟨rfl, rfl⟩
  · rw [he]; exact ⟨rfl, rfl⟩
  · rw [he]; exact ⟨rfl, rfl⟩

/-- A call on empty stacks does not crash, and leaves them empty if it returns. -/
theorem apply_clean (h : m.Regular) (hempty : m.stack = #[] ∧ m.frames = #[]) (c : HostCall) :
    c.outcome? m ≠ some .crashed ∧
      (c.Returns m → (c.apply m).stack = #[] ∧ (c.apply m).frames = #[]) := by
  cases c with
  | intern text => exact ⟨by simp [HostCall.outcome?], fun _ => hempty⟩
  | defineNative native =>
      obtain ⟨hstack, hframes⟩ := defineNative_stacks h.sound native
      exact ⟨by simp [HostCall.outcome?],
        fun _ => ⟨hstack.trans hempty.1, hframes.trans hempty.2⟩⟩
  | collect => exact ⟨by simp [HostCall.outcome?], fun _ => hempty⟩
  | pin handle => exact ⟨by simp [HostCall.outcome?], fun _ => hempty⟩
  | unpin handle => exact ⟨by simp [HostCall.outcome?], fun _ => hempty⟩
  | allocateFunction name arity => exact ⟨by simp [HostCall.outcome?], fun _ => hempty⟩
  | editFunction function edit =>
      refine ⟨by simp [HostCall.outcome?], fun _ => ?_⟩
      simp only [HostCall.apply, Machine.editFunction]
      cases m.heap.editFunction function edit with
      | none => exact hempty
      | some effect => exact hempty
  | run fuel chunk =>
      have ha := h.allocate (o := .function { chunk }) (by simp)
      simp only [HostCall.outcome?, HostCall.Returns, HostCall.apply, Machine.run, ne_eq,
        Option.some.injEq]
      cases hx : m.allocate (.function { chunk }) with
      | mk answer m₁ =>
          rw [hx] at ha
          cases answer with
          | ok function => exact runFunction_clean ha fuel function
          | error e =>
              have hm₁ : m₁ = (m.allocate (.function { chunk })).2 := by rw [hx]
              exact ⟨by simp, fun _ => by rw [hm₁]; exact hempty⟩
  | runFunction fuel function =>
      simp only [HostCall.outcome?, HostCall.Returns, HostCall.apply, ne_eq, Option.some.injEq]
      exact runFunction_clean h fuel function

/-- Between two calls the stacks are empty. -/
theorem Idle.clean (h : m.Idle) : m.stack = #[] ∧ m.frames = #[] := by
  induction h with
  | @start config output scope world m hm =>
      rcases start_cases hm with ⟨_, rfl⟩ | ⟨_, hd⟩
      · exact ⟨rfl, rfl⟩
      · have hs := defineNative_stacks (fresh_regular config output scope world).sound .clock
        rw [hd] at hs
        exact hs
  | call c hi hc ih => exact (apply_clean hi.regular ih c).2 hc
  | sink output _ ih => exact ih

theorem config_of_runs {c : HostCall} (hr : c.Runs m m₁ function) : m₁.config = m.config := by
  cases c with
  | run fuel chunk => exact (congrArg (fun r => (Prod.snd r).config) hr).symm
  | runFunction fuel function' => rw [hr.1]
  | _ => exact hr.elim

/-- **No bytecode gets out.** Whatever a host has done with a machine, and whatever
it runs next, the run is contained at every instruction boundary and no instruction
crashes. A call that returns has not crashed and leaves nothing on the stacks,
whether it fails or not. -/
theorem bytecode_contained {m : Machine} (hi : m.Idle) (c : HostCall) :
    (∀ m₁ function m', c.Runs m m₁ function → InRun m₁ function m' →
      m'.Contained m.config ∧ ∀ m'', Exec.step m'.recordInstruction ≠ .error .crashed m'') ∧
    c.outcome? m ≠ some .crashed ∧
    (c.Returns m → (c.apply m).stack = #[] ∧ (c.apply m).frames = #[]) := by
  refine ⟨fun m₁ function m' hc hr => ⟨?_, fun m'' hs => ?_⟩,
    apply_clean hi.regular hi.clean c⟩
  · rw [← config_of_runs hc]
    exact hr.contained (hi.regular.runs hc)
  · exact (hr.clean_step (hi.regular.runs hc)).of_error hs

/-- A script that pops its own callee and returns without a result. -/
theorem bytecode_contained_pop :
    let m := fresh { registerBuiltins := false }
    let c := HostCall.run 9 (Chunk.copy { code := #[4, 27], lines := #[1, 1] })
    m.Idle ∧ c.outcome? m = some (.failed (.corruptBytecode 1 .stackUnderflow)) ∧
      (∃ m₁ function m', c.Runs m m₁ function ∧ InRun m₁ function m' ∧ m'.Contained m.config) ∧
      (c.apply m).stack = #[] ∧ (c.apply m).frames = #[] := by
  intro m c
  have hi : m.Idle := fresh_idle rfl rfl
  have hc : c.outcome? m = some (.failed (.corruptBytecode 1 .stackUnderflow)) := by
    decide +kernel
  obtain ⟨hrun, _, hend⟩ := bytecode_contained hi c
  let m₁ := (m.allocate
    (.function { chunk := Chunk.copy { code := #[4, 27], lines := #[1, 1] } })).2
  have hr : c.Runs m m₁ ⟨0, 0⟩ := rfl
  have hin : InRun m₁ ⟨0, 0⟩ _ := .enter rfl
  exact ⟨hi, hc, ⟨_, _, _, hr, hin, (hrun _ _ _ hr hin).1⟩,
    hend (by rw [HostCall.Returns, hc]; simp)⟩

end Machine

end StackMachine
