import StackMachine.Proofs.Chunk.Building
import StackMachine.Proofs.Machine.Atomicity
import StackMachine.Proofs.Machine.Returns

/-!
# Traces

A fault is reported with one place for each active call. The places are worked out when
the fault is found, from where each call will read next: the byte before that is taken for
the place where the call is. This is right for two reasons. An instruction has been read to
its end before it can fail, so the innermost call stands right behind the instruction that
fails. And every other call stands right behind the instruction that called the next one,
from the time of the call until its return.

The functions of active calls are roots, and what a function refers to is kept with it. So
neither their code nor their names have changed since the run began.
-/

namespace StackMachine

/-- A halt of an action that began in `m`: a fault comes with the trace of the machine in
which it is found, and this has the calls of `m`. -/
def Halt.Raises (m : Machine) (halt : Halt) (m' : Machine) : Prop :=
  match halt with
  | failed (.runtime e) => e = m'.runtimeError e.fault ∧ m.Undisturbed m'
  | _ => True

/-- A halt that is no fault, or one without a place. -/
def Halt.Placeless (halt : Halt) : Prop :=
  ∀ e, halt = .failed (.runtime e) → e.trace = [] ∧ e.line = 0

theorem Halt.Silent.raises {m m' : Machine} {halt : Halt} (h : halt.Silent) :
    halt.Raises m m' := by
  unfold Halt.Raises
  split
  · exact h.elim
  · trivial

/-- Whether the code that a call runs has a line for every byte. -/
def HostCall.Lined : HostCall → Prop
  | run _ chunk => chunk.lines.size = chunk.size
  | _ => True

namespace Machine

/-- A machine in which every live function has a line for every byte of its code, and a
live object for its name if it has one. Code that is built by emissions always has its
lines. -/
structure Traceable (m : Machine) : Prop where
  lines : ∀ x g, m.heap.function? x = some g → g.chunk.lines.size = g.chunk.size
  names : ∀ x g name, m.heap.function? x = some g → g.name = some name → m.heap.contains name

/-- The functions that are live in `m` are those of `start`, and so are their names. -/
structure Inherits (start m : Machine) : Prop where
  functions : ∀ x g, m.heap.function? x = some g → start.heap.function? x = some g
  names : ∀ x g name, m.heap.function? x = some g → g.name = some name →
    m.heap.get? name = start.heap.get? name

/-- The machines that an execution from `m` comes to while there are more than `depth`
calls. -/
inductive Above (depth : Nat) (m : Machine) : Machine → Prop where
  | start : depth < m.frames.size → Above depth m m
  | step {m' m'' : Machine} : Above depth m m' → Exec.step m'.recordInstruction = .ok () m'' →
      depth < m''.frames.size → Above depth m m''

/-- The call at place `i` of the machine `m` waits for the one above it. It was the
innermost, and at the offset that `f` has, when the machine `before` called the function
`x` of the one above, which has been active ever since. -/
structure CallSite (start : Machine) (function : Handle) (m : Machine) (i : Nat) (before : Machine)
    (n : Nat) (x : Handle) (f : Frame) : Prop where
  reached : InRun start function before
  depth : before.frames.size = i + 1
  caller : before.frames[i]? = some f
  calls : before.Calls n x
  active : ∃ after, Exec.step before.recordInstruction = .ok () after ∧ Above (i + 1) after m
  waiting : m.frames[i]? = some (f.past .call)
  callee : ∃ k, m.frames[i + 1]? = some k ∧ k.function = x

/-- A trace entry names the function `g` and the line of the last byte of an instruction
in it. -/
structure Locates (m : Machine) (x : Handle) (offset : Nat) (op : Opcode) (g : BytecodeFunction)
    (entry : TraceEntry) : Prop where
  live : m.heap.function? x = some g
  instruction : ∃ n, g.chunk.decode offset = .instruction op n
  name : entry.function = g.name.bind m.heap.string?
  line : g.chunk.line? (offset + op.operandWidth) = some entry.line
  /-- If all its bytes are of one line, this is the line. -/
  source : ∀ line, (∀ k ≤ op.operandWidth, g.chunk.line? (offset + k) = some line) →
    entry.line = line

/-- The trace of an error that ends an instruction of the machine `m`, in a run that began
in `start`. -/
structure Traced (start : Machine) (function : Handle) (m : Machine) (e : RuntimeError) : Prop where
  length : e.trace.length = m.frames.size
  /-- The first entry is for the instruction that fails. -/
  innermost : ∃ rest f op g entry, m.frames = Array.push rest f ∧ e.trace.head? = some entry ∧
    e.line = entry.line ∧ start.Locates f.function f.ip op g entry
  /-- The others are for the instructions that made the calls. -/
  outer : ∀ i, i + 1 < m.frames.size → ∃ before n x f g entry,
    e.trace[m.frames.size - 1 - i]? = some entry ∧ start.CallSite function m i before n x f ∧
      start.Locates f.function f.ip .call g entry

end Machine

namespace Exec

open Machine

variable {m : Machine}

/-! ## Where faults are found -/

theorem raises_self (hw : m.heap.WellFormed) {fault : RuntimeFault} :
    (Halt.failed (.runtime (m.runtimeError fault))).Raises m m :=
  ⟨rfl, .refl hw⟩

theorem raises_of_silent {x : Exec Unit} {m' : Machine}
    (h : Ends x m' (fun _ _ => True) fun halt _ => halt.Silent) :
    Ends x m' (fun _ _ => True) (Halt.Raises m) :=
  h.mono (fun _ _ => id) fun _ _ => Halt.Silent.raises

theorem raises_push (hw : m.heap.WellFormed) (v : Value) :
    Ends (push v) m (fun _ _ => True) (Halt.Raises m) :=
  ends_push (fun _ => trivial) fun _ => raises_self hw

theorem raises_binary (hw : m.heap.WellFormed) (hs : m.stack.size ≤ m.config.maxStack)
    (op : Value → Value → Except OperandError Value) :
    Ends (binary op) m (fun _ _ => True) (Halt.Raises m) := by
  refine ends_bind (ends_peek (fun b _ _ => ?_) fun _ => trivial)
  refine ends_bind (ends_peek (fun a _ _ => ?_) fun _ => trivial)
  refine ends_bind (ends_orMismatch (fun r _ => ?_) fun _ _ => raises_self hw)
  exact raises_of_silent (silent_replaceTwo hs fun _ _ => r)

theorem raises_add (hw : m.heap.WellFormed) (hs : m.stack.size ≤ m.config.maxStack) :
    Ends add m (fun _ _ => True) (Halt.Raises m) := by
  refine ends_bind (ends_peek (fun b _ _ => ?_) fun _ => trivial)
  refine ends_bind (ends_peek (fun a _ _ => ends_get ?_) fun _ => trivial)
  split
  · rename_i joined _
    refine ends_bind (ends_intern (fun x m' hx => ?_) fun _ _ _ => trivial)
    have hs' : (m.intern joined).2.stack.size ≤ (m.intern joined).2.config.maxStack := hs
    rw [hx] at hs'
    exact raises_of_silent (silent_replaceTwo hs' fun _ _ => .object x)
  · refine ends_bind (ends_orMismatch (fun r _ => ?_) fun _ _ => raises_self hw)
    exact raises_of_silent (silent_replaceTwo hs fun _ _ => r)

/-- A native function that fails has interned strings at most. -/
theorem raises_callNative (hw : m.heap.WellFormed) (hs : m.stack.size ≤ m.config.maxStack)
    (native : NativeFunction) (argc : Nat) :
    Ends (callNative native argc) m (fun _ _ => True) (Halt.Raises m) := by
  refine ends_callNative (fun _ hargs => ?_) (fun _ => raises_self hw) fun _ => trivial
  obtain ⟨r, m₁, hrun, hu⟩ :=
    Undisturbed.runPrimitive hw (native.body (m.stack.extract (m.stack.size - argc)))
  refine ends_of_ok hrun ?_
  cases r with
  | error text => exact ⟨rfl, hu⟩
  | ok v =>
      dsimp only
      split
      · trivial
      · refine raises_of_silent (silent_push ?_ v)
        simp only [hu.stack, hu.config, Array.take_eq_extract, Array.size_extract]
        omega

theorem raises_callValue (hw : m.heap.WellFormed) (hs : m.stack.size ≤ m.config.maxStack)
    (callee : Value) (argc : Nat) :
    Ends (callValue callee argc) m (fun _ _ => True) (Halt.Raises m) := by
  refine ends_callValue (fun x f _ _ => ?_) (fun x n _ _ => raises_callNative hw hs n argc)
    (fun _ => raises_self hw) fun _ _ _ => trivial
  exact ends_callFunction (fun _ _ _ => trivial) (fun _ => raises_self hw)
    (fun _ => raises_self hw) fun _ => trivial

/-- **An instruction fails with the calls that it began with**, and the error has their
trace. -/
theorem raises_perform (hw : m.heap.WellFormed) (hs : m.stack.size ≤ m.config.maxStack)
    {rest : Array Frame} {f : Frame} (hf : m.frames = rest.push f) (op : Opcode) (n : Nat) :
    Ends (perform op n) m (fun _ _ => True) (Halt.Raises m) := by
  cases op with
  | constant =>
      exact ends_bind (ends_constant hf (fun _ v _ _ => raises_push hw v) (fun _ => trivial)
        fun _ _ _ => trivial)
  | pushNil => exact raises_push hw _
  | pushTrue => exact raises_push hw _
  | pushFalse => exact raises_push hw _
  | pop => exact ends_bind (ends_pop (fun _ _ _ => ends_pure trivial) fun _ => trivial)
  | getLocal =>
      refine ends_bind (ends_localSlot hf (fun _ => ?_) fun _ => trivial)
      exact ends_bind (ends_getSlot (fun v _ => raises_push hw v) fun _ => trivial)
  | setLocal =>
      refine ends_bind (ends_localSlot hf (fun _ => ?_) fun _ => trivial)
      refine ends_bind (ends_peek (fun v _ _ => ?_) fun _ => trivial)
      exact ends_setSlot (fun _ => trivial) fun _ => trivial
  | getGlobal =>
      refine ends_name_bind hf (fun _ _ _ => trivial) fun x => ends_get ?_
      split
      · exact raises_push hw _
      · exact ends_undefined (raises_self hw)
  | defineGlobal =>
      refine ends_name_bind hf (fun _ _ _ => trivial) fun x => ?_
      refine ends_bind (ends_peek (fun v _ _ => ?_) fun _ => trivial)
      exact ends_bind (ends_setGlobal
        (ends_bind (ends_pop (fun _ _ _ => trivial) fun _ => trivial)))
  | setGlobal =>
      refine ends_name_bind hf (fun _ _ _ => trivial) fun x => ?_
      refine ends_bind (ends_peek (fun v _ _ => ends_get ?_) fun _ => trivial)
      split
      · exact ends_setGlobal trivial
      · exact ends_undefined (raises_self hw)
  | equal => exact raises_of_silent (silent_replaceTwo hs _)
  | notEqual => exact raises_of_silent (silent_replaceTwo hs _)
  | greater => exact raises_binary hw hs _
  | greaterEqual => exact raises_binary hw hs _
  | less => exact raises_binary hw hs _
  | lessEqual => exact raises_binary hw hs _
  | add => exact raises_add hw hs
  | subtract => exact raises_binary hw hs _
  | multiply => exact raises_binary hw hs _
  | divide => exact raises_binary hw hs _
  | not => exact raises_of_silent (silent_replace hs Value.not)
  | negate =>
      refine ends_bind (ends_peek (fun v _ _ => ?_) fun _ => trivial)
      refine ends_bind (ends_orMismatch (fun r _ => ?_) fun _ _ => raises_self hw)
      exact raises_of_silent (silent_replace hs fun _ => r)
  | print =>
      refine ends_bind (ends_pop (fun _ _ _ => ?_) fun _ => trivial)
      exact ends_print (fun _ _ => trivial) fun _ _ => trivial
  | jump => exact raises_of_silent (silent_jump hf _ n)
  | loop => exact raises_of_silent (silent_jump hf _ n)
  | jumpIfFalse =>
      refine ends_bind (ends_pop (fun values v _ => ?_) fun _ => trivial)
      split
      · have hf' : ({ m with stack := values } : Machine).frames = rest.push f := hf
        exact raises_of_silent (silent_jump hf' _ n)
      · exact ends_pure trivial
  | call =>
      exact ends_bind (ends_peek (fun v _ _ => raises_callValue hw hs v n) fun _ => trivial)
  | ret => exact raises_of_silent (silent_ret hs hf)

end Exec

namespace Machine

variable {m m' m'' start : Machine} {limits : MachineConfig} {function : Handle}

/-- An instruction `op` of the machine `m` ends in a fault, in the machine `m'`. The
innermost call `f` has read the instruction by then. -/
structure Faults (m m' : Machine) (e : RuntimeError) (rest : Array Frame) (f : Frame)
    (g : BytecodeFunction) (op : Opcode) : Prop where
  frames : m.frames = rest.push f
  function : m'.heap.function? f.function = some g
  instruction : ∃ n, g.chunk.decode f.ip = .instruction op n
  error : e = m'.runtimeError e.fault
  active : m'.frames = rest.push (f.past op)
  live : ∀ k ∈ rest, ∃ g, m'.heap.function? k.function = some g

theorem Contained.faults (h : m.Contained limits) (hw : m.heap.WellFormed) {e : RuntimeError}
    (he : Exec.step m.recordInstruction = .error (.failed (.runtime e)) m') :
    ∃ rest f g op, m.Faults m' e rest f g op := by
  cases hn : m.next? with
  | none =>
      have hsilent : Exec.Ends Exec.step m.recordInstruction (fun _ _ => True)
          fun halt _ => halt.Silent := ends_step_next_none hn fun _ _ _ => trivial
      exact (hsilent.of_error he).elim
  | some next =>
      obtain ⟨op, n⟩ := next
      obtain ⟨rest, f, g, hf, hg, hd⟩ := Exec.next?_eq_some.mp hn
      obtain ⟨journal, hj⟩ := m.recordInstruction_eq
      have hs : m.stack.size ≤ m.config.maxStack := by
        rw [h.config]
        exact h.stack
      have hends : Exec.Ends Exec.step m.recordInstruction (fun _ _ => True)
          (Halt.Raises { m with frames := rest.push (f.past op), journal }) := by
        rw [hj]
        exact Exec.ends_step hf hg hd (Exec.raises_perform
          (m := { m with frames := rest.push (f.past op), journal }) hw hs rfl op n)
      obtain ⟨herror, hu⟩ := hends.of_error he
      refine ⟨rest, f, g, op, hf, ?_, ⟨n, hd⟩, herror, hu.frames, fun k hk => ?_⟩
      · exact (hu.functions (f.past op) Array.mem_push_self g hg).1
      · obtain ⟨g', hg', _⟩ := h.code k (by rw [hf]; exact Array.mem_push.mpr (Or.inl hk))
        exact ⟨g', (hu.functions k (Array.mem_push.mpr (Or.inl hk)) g' hg').1⟩

/-! ## Code and names outlive a run -/

theorem Inherits.refl (m : Machine) : m.Inherits m :=
  ⟨fun _ _ => id, fun _ _ _ _ _ => rfl⟩

/-- What is live after a string has been interned was live before. What a function refers
to is kept with it. -/
theorem Inherits.intern (h : start.Inherits m) (hstart : start.Traceable) (hw : m.heap.WellFormed)
    (text : String) : start.Inherits (m.intern text).2 := by
  have hev := Heap.intern_evolves hw m.roots text
  have hold : ∀ x g, (m.intern text).2.heap.function? x = some g →
      m.heap.function? x = some g ∧ ∀ y, g.RefersTo y → ∀ o, m.heap.get? y = some o →
        (m.intern text).2.heap.get? y = some o := by
    intro x g hx
    rcases hev.within x _ (Heap.function?_eq_some.mp hx) with hnew | ⟨hget, hkeep⟩
    · exact absurd hnew (by simp)
    · exact ⟨Heap.function?_eq_some.mpr hget, fun y hy => hkeep y (mem_children.mpr ⟨g, rfl, hy⟩)⟩
  refine ⟨fun x g hx => h.functions x g (hold x g hx).1, fun x g name hx hname => ?_⟩
  obtain ⟨hx', hkeep⟩ := hold x g hx
  have hsame := h.names x g name hx' hname
  obtain ⟨o, ho⟩ := Heap.contains_iff.mp (hstart.names x g name (h.functions x g hx') hname)
  rw [ho] at hsame ⊢
  exact hkeep name (Or.inl hname) o hsame

theorem Traceable.stable (hstart : start.Traceable) :
    Stable fun m => m.heap.WellFormed ∧ start.Inherits m := by
  refine ⟨fun h hheap _ => ?_, fun {m} text h => ?_, fun _ _ h => ⟨h.1, h.2.functions, h.2.names⟩⟩
  · obtain ⟨hw, hinherits⟩ := h
    exact ⟨by rw [hheap]; exact hw, by rw [hheap]; exact hinherits.functions,
      by rw [hheap]; exact hinherits.names⟩
  · exact ⟨Heap.intern_wellFormed h.1 m.roots text, h.2.intern hstart h.1 text⟩

/-- Storing the script keeps a machine traceable. -/
theorem Traceable.runs {c : HostCall} (h : m.Traceable) (hw : m.heap.WellFormed) (hlined : c.Lined)
    (hc : c.Runs m m' function) : m'.Traceable := by
  cases c with
  | runFunction fuel function' =>
      rw [hc.1]
      exact h
  | run fuel chunk =>
      have hev := Heap.allocate_evolves hw m.roots (.function { chunk })
      have hm' : (m.heap.allocate m.roots (.function { chunk })).heap = m'.heap :=
        congrArg (fun r => (Prod.snd r).heap) hc
      rw [hm'] at hev
      refine ⟨fun x g hx => ?_, fun x g name hx hname => ?_⟩
      · rcases hev.within x _ (Heap.function?_eq_some.mp hx) with ⟨_, hnew⟩ | ⟨hget, _⟩
        · rw [Object.function.inj hnew]
          exact hlined
        · exact h.lines x g (Heap.function?_eq_some.mpr hget)
      · rcases hev.within x _ (Heap.function?_eq_some.mp hx) with ⟨_, hnew⟩ | ⟨hget, hkeep⟩
        · rw [Object.function.inj hnew] at hname
          exact absurd hname (by simp)
        · obtain ⟨o, ho⟩ := Heap.contains_iff.mp
            (h.names x g name (Heap.function?_eq_some.mpr hget) hname)
          exact Heap.contains_iff.mpr
            ⟨o, hkeep name (mem_children.mpr ⟨g, rfl, Or.inl hname⟩) o ho⟩
  | _ => exact hc.elim

/-- The entry for a call that has read an instruction. -/
theorem Inherits.locates (h : start.Inherits m) (hstart : start.Traceable) {f : Frame}
    {g : BytecodeFunction} {op : Opcode} {n : Nat} (hg : m.heap.function? f.function = some g)
    (hd : g.chunk.decode f.ip = .instruction op n) :
    start.Locates f.function f.ip op g (m.traceEntry (f.past op)) := by
  have hlive := h.functions _ _ hg
  have hinside := Chunk.decode_inside hd
  have hlines := hstart.lines _ _ hlive
  have hlt : f.ip + op.operandWidth < g.chunk.lines.size := by omega
  have hlast : (f.past op).ip - 1 = f.ip + op.operandWidth := by
    simp only [Frame.past]
    omega
  have hentry : m.traceEntry (f.past op) =
      ⟨g.name.bind m.heap.string?, (g.chunk.line? (f.ip + op.operandWidth)).getD 0⟩ := by
    have hg' : m.heap.function? (f.past op).function = some g := hg
    simp only [traceEntry, hg', hlast]
  have hline : g.chunk.line? (f.ip + op.operandWidth) =
      some (m.traceEntry (f.past op)).line := by
    rw [hentry, Chunk.line?, Array.getElem?_eq_getElem hlt, Option.getD_some]
  refine ⟨hlive, ⟨n, hd⟩, ?_, hline, fun line hbytes => ?_⟩
  · rw [hentry]
    cases hname : g.name with
    | none => rfl
    | some name =>
        have hsame := h.names _ _ name hg hname
        simp only [Option.bind_some, Heap.string?, hsame]
  · exact Option.some.inj (hline.symm.trans (hbytes _ (Nat.le_refl _)))

/-! ## Where calls wait -/

/-- A call that a step does not end is a call of the same function after it. -/
theorem Transition.function_kept {rest : Array Frame} {f k k' : Frame} {op : Opcode} {n i : Nat}
    (h : Transition n rest f m m' op) (hf : m.frames = rest.push f) (hk : m.frames[i]? = some k)
    (hk' : m'.frames[i]? = some k') : k'.function = k.function := by
  rw [hf, Array.getElem?_push] at hk
  by_cases hi : i = rest.size
  · rw [if_pos hi] at hk
    obtain rfl := Option.some.inj hk
    subst hi
    by_cases hret : op = .ret
    · subst hret
      cases h with
      | stays _ hne _ => exact absurd rfl hne
      | returns _ _ _ _ hframes =>
          rw [hframes] at hk'
          have hlt := (Array.getElem?_eq_some_iff.mp hk').1
          omega
    · obtain ⟨ip, hip⟩ := h.innermost hret
      rw [← Option.some.inj (hip.symm.trans hk')]
  · rw [if_neg hi] at hk
    have hlt := (Array.getElem?_eq_some_iff.mp hk).1
    rw [h.callers hlt, hk] at hk'
    rw [← Option.some.inj hk']

theorem InRun.inherits (hr : InRun start function m) (hstart : start.Traceable)
    (hw : start.heap.WellFormed) : start.Inherits m :=
  (hstart.stable.inRun hr ⟨hw, .refl start⟩).2

/-- The call was made by a call instruction in the code of the caller. -/
theorem CallSite.instruction {i n : Nat} {before : Machine} {x : Handle} {f : Frame}
    (h : start.CallSite function m i before n x f) :
    ∃ g, before.heap.function? f.function = some g ∧
      g.chunk.decode f.ip = .instruction .call n := by
  obtain ⟨rest, own, g, hf, hg, hd⟩ := Exec.next?_eq_some.mp h.calls.next
  have hcaller := h.caller
  have hdepth := h.depth
  rw [hf, Array.size_push] at hdepth
  rw [hf, Array.getElem?_push, if_pos (by omega)] at hcaller
  obtain rfl := Option.some.inj hcaller
  exact ⟨g, hg, hd⟩

/-- **One step** leaves a call waiting where it waits, as long as the one above it is
active. -/
theorem CallSite.step {i n : Nat} {before : Machine} {x : Handle} {f : Frame}
    (h : start.CallSite function m i before n x f) (hs : Exec.step m.recordInstruction = .ok () m')
    (hactive : i + 1 < m'.frames.size) : start.CallSite function m' i before n x f := by
  obtain ⟨rest, own, g, op, k, hf, _, _, ht⟩ := transition_recorded hs
  obtain ⟨above, habove, hx⟩ := h.callee
  have hsize : m.frames.size = rest.size + 1 := by rw [hf, Array.size_push]
  have hlt := (Array.getElem?_eq_some_iff.mp habove).1
  have hwaiting := h.waiting
  rw [hf, Array.getElem?_push, if_neg (by omega)] at hwaiting
  obtain ⟨after, hafter, hduring⟩ := h.active
  have habove' := Array.getElem?_eq_getElem hactive
  refine ⟨h.reached, h.depth, h.caller, h.calls, ⟨after, hafter, hduring.step hs hactive⟩, ?_,
    _, habove', ?_⟩
  · rw [ht.callers (by omega)]
    exact hwaiting
  · rw [ht.function_kept hf habove habove', hx]

/-- A step that adds a call makes the innermost one wait. -/
theorem CallSite.begin {i : Nat} (hr : InRun start function m)
    (hs : Exec.step m.recordInstruction = .ok () m') (hold : m.frames.size ≤ i + 1)
    (hactive : i + 1 < m'.frames.size) : ∃ n x f, start.CallSite function m' i m n x f := by
  obtain ⟨rest, f, g, op, n, hf, hg, hd, ht⟩ := transition_recorded hs
  have hnext := Exec.next?_eq_some.mpr ⟨rest, f, g, hf, hg, hd⟩
  have hsize : m.frames.size = rest.size + 1 := by rw [hf, Array.size_push]
  cases ht with
  | @calls x _ hn hcallee _ _ hframes =>
      have hi : i = rest.size := by
        rw [hframes, Array.size_push, Array.size_push] at hactive
        omega
      subst hi
      have hcaller : m.frames[rest.size]? = some f := by
        rw [hf, Array.getElem?_push, if_pos rfl]
      have hwaiting : m'.frames[rest.size]? = some (f.past .call) := by
        rw [hframes, Array.getElem?_push, Array.size_push, if_neg (by omega), Array.getElem?_push,
          if_pos rfl]
      have habove : m'.frames[rest.size + 1]? =
          some { function := x, base := m.stack.size - n } := by
        rw [hframes, Array.getElem?_push, Array.size_push, if_pos rfl]
      exact ⟨n, x, f, hr, hsize, hcaller, ⟨hnext, hn, hcallee⟩, ⟨m', hs, .start hactive⟩, hwaiting,
        _, habove, rfl⟩
  | stays _ _ hstays =>
      by_cases hjump : m.Jumps op
      · obtain ⟨ip, _, hframes⟩ := hstays.jumped hjump
        rw [hframes, Array.size_push] at hactive
        omega
      · rw [hstays.passed hjump, Array.size_push] at hactive
        omega
  | answers _ _ _ _ hframes =>
      rw [hframes, Array.size_push] at hactive
      omega
  | returns _ _ _ _ hframes =>
      rw [hframes] at hactive
      omega

theorem runtimeError_placeless (h : m.frames = #[]) (fault : RuntimeFault) :
    (Halt.failed (.runtime (m.runtimeError fault))).Placeless := by
  intro e he
  obtain rfl := Error.runtime.inj (Halt.failed.inj he)
  simp [runtimeError, h]

/-- A run is entered with one call, or fails before there is any. -/
theorem ends_enter_single (hw : m.heap.WellFormed) (function : Handle) :
    Exec.Ends (enter function) (m.begun function) (fun _ m' => m'.frames.size = 1)
      fun halt _ => halt.Placeless := by
  have hnone : (m.begun function).frames = #[] := rfl
  refine Exec.ends_bind (Exec.ends_push (fun hroom => ?_) fun _ => runtimeError_placeless hnone _)
  have hraises := Exec.raises_callValue (m := m.loaded function) hw hroom (.object function) 0
  have hcalls : Exec.Ends (Exec.callValue (.object function) 0) (m.loaded function)
      (fun _ m' => m'.frames.size = 1 ∨ m'.frames = #[]) fun _ _ => True := by
    refine Exec.ends_callValue (fun x g _ _ => ?_) (fun x native _ _ => ?_) (fun _ => trivial)
      fun _ _ _ => trivial
    · exact Exec.ends_callFunction (fun _ _ _ => Or.inl rfl) (fun _ => trivial) (fun _ => trivial)
        fun _ => trivial
    · exact Exec.ends_callNative_undisturbed (m := m.loaded function) hw native Nat.one_pos
        (fun _ _ hu => Or.inr hu.frames) fun _ _ => trivial
  refine Exec.ends_bind ((hraises.and hcalls).mono (fun _ m' h => Exec.ends_get ?_) ?_)
  · rcases h.2 with hone | hempty
    · rw [if_neg (by simp [← Array.size_eq_zero_iff, hone])]
      exact Exec.ends_pure hone
    · rw [if_pos (by simp [hempty])]
      exact Exec.ends_bind (Exec.ends_pop (fun _ _ _ => Exec.ends_throw nofun) fun _ => nofun)
  · intro halt m' h e he
    subst he
    obtain ⟨herror, hu⟩ := h.1
    rw [herror]
    exact runtimeError_placeless hu.frames _ _ rfl

/-- **In a whole run** every call but the innermost waits for the one above it. -/
theorem InRun.callSites (hr : InRun start function m) (hw : start.heap.WellFormed) :
    ∀ i, i + 1 < m.frames.size → ∃ before n x f, start.CallSite function m i before n x f := by
  induction hr with
  | enter he =>
      intro i hi
      have hone := (ends_enter_single hw function).of_ok he
      omega
  | @step m m' hr hs ih =>
      intro i hi
      by_cases hold : i + 1 < m.frames.size
      · obtain ⟨before, n, x, f, hsite⟩ := ih i hold
        exact ⟨before, n, x, f, hsite.step hs hi⟩
      · obtain ⟨n, x, f, hsite⟩ := CallSite.begin hr hs (Nat.le_of_not_lt hold) hi
        exact ⟨m, n, x, f, hsite⟩

/-! ## Traces of errors -/

/-- The trace has the entry of the call at place `i` at the same distance from its end. -/
theorem getElem?_trace {i : Nat} {k : Frame} (fault : RuntimeFault) (hk : m.frames[i]? = some k) :
    (m.runtimeError fault).trace[m.frames.size - 1 - i]? = some (m.traceEntry k) := by
  have hlt := (Array.getElem?_eq_some_iff.mp hk).1
  have htrace : (m.runtimeError fault).trace = m.frames.toList.reverse.map m.traceEntry := rfl
  have hplace : m.frames.toList.length - 1 - (m.frames.size - 1 - i) = i := by
    rw [Array.length_toList]
    omega
  rw [htrace, List.getElem?_map, List.getElem?_reverse (by rw [Array.length_toList]; omega), hplace,
    Array.getElem?_toList, hk, Option.map_some]

/-- **The trace of a fault** that ends an instruction. -/
theorem Faults.traced {e : RuntimeError} {rest : Array Frame} {f : Frame} {g : BytecodeFunction}
    {op : Opcode} (h : m.Faults m' e rest f g op) (hstart : start.Traceable)
    (hr : InRun start function m) (hw : start.heap.WellFormed) (hinherits : start.Inherits m') :
    start.Traced function m e := by
  have hsize : m.frames.size = rest.size + 1 := by rw [h.frames, Array.size_push]
  have hsize' : m'.frames.size = rest.size + 1 := by rw [h.active, Array.size_push]
  have hlast : m'.frames[rest.size]? = some (f.past op) := by
    rw [h.active, Array.getElem?_push, if_pos rfl]
  obtain ⟨n, hd⟩ := h.instruction
  have hhead : e.trace.head? = some (m'.traceEntry (f.past op)) := by
    have hfirst := getElem?_trace e.fault hlast
    rw [← h.error, hsize', Nat.add_sub_cancel, Nat.sub_self] at hfirst
    rw [List.head?_eq_getElem?]
    exact hfirst
  refine ⟨?_, ⟨rest, f, op, g, _, h.frames, hhead, ?_, hinherits.locates hstart h.function hd⟩, ?_⟩
  · rw [h.error, hsize, ← hsize']
    simp [runtimeError]
  · have hline : e.line = (e.trace.head?.map TraceEntry.line).getD 0 := by
      rw [h.error]
      rfl
    rw [hline, hhead]
    rfl
  · intro i hi
    obtain ⟨before, k, x, caller, hsite⟩ := hr.callSites hw i hi
    have hwaiting := hsite.waiting
    rw [h.frames, Array.getElem?_push, if_neg (by omega)] at hwaiting
    have hwaiting' : m'.frames[i]? = some (caller.past .call) := by
      rw [h.active, Array.getElem?_push, if_neg (by omega)]
      exact hwaiting
    have hentry := getElem?_trace e.fault hwaiting'
    rw [← h.error, hsize', ← hsize] at hentry
    obtain ⟨g₀, hg₀, hd₀⟩ := hsite.instruction
    obtain ⟨g', hg'⟩ := h.live _ (Array.mem_of_getElem? hwaiting)
    -- the code of the caller is the same as when it made the call
    have hold := (hsite.reached.inherits hstart hw).functions _ _ hg₀
    obtain rfl := Option.some.inj (hold.symm.trans (hinherits.functions _ _ hg'))
    exact ⟨before, k, x, caller, g₀, _, hentry, hsite, hinherits.locates hstart hg' hd₀⟩

/-- An error of the program that a run fails with comes from the entry or from an
instruction. -/
theorem failsAt_of_runFunction {fuel : Nat} {e : RuntimeError}
    (h : m.runFunction fuel function = (.failed (.runtime e), m')) :
    ∃ before, FailsAt m function e before := by
  rw [runFunction_eq] at h
  cases hl : m.launch fuel function with
  | mk halt? ended =>
      rw [hl] at h
      cases halt? with
      | none => exact absurd h (by simp [finish])
      | some halt =>
          have hhalt := conclude_eq_failed (congrArg Prod.fst h)
          subst hhalt
          rcases halts_of_launch (congrArg Prod.fst hl) with hentry | ⟨m', hr, hs⟩
          · exact ⟨m, .entry hentry⟩
          · exact ⟨m', .instruction hr hs⟩

/-- **Traces are faithful.** In a run of a traceable machine, an error that ends an
instruction has one entry for each active call, the innermost first, with the name of its
function and the line of the instruction that it is at. An error at the entry, when there is
no call yet, has no place. A run fails with no other errors of the program. -/
theorem traces_faithful {m m₁ : Machine} {function : Handle} {c : HostCall} (hi : m.Idle)
    (ht : m.Traceable) (hlined : c.Lined) (hc : c.Runs m m₁ function) :
    (∀ m' e m'', InRun m₁ function m' →
      Exec.step m'.recordInstruction = .error (.failed (.runtime e)) m'' →
      m''.frames.size = m'.frames.size ∧ m₁.Traced function m' e) ∧
    (∀ e m', enter function (m₁.begun function) = .error (.failed (.runtime e)) m' →
      e.trace = [] ∧ e.line = 0) ∧
    ∀ fuel e m₂, m₁.runFunction fuel function = (.failed (.runtime e), m₂) →
      ∃ before, FailsAt m₁ function e before := by
  have hregular := hi.regular.runs hc
  have hw := hregular.sound.wellFormed
  have hstart := ht.runs hi.regular.sound.wellFormed hlined hc
  refine ⟨fun m' e m'' hr he => ?_, fun e m' he => ?_, fun fuel e m₂ hend => ?_⟩
  · have hinv := hstart.stable.inRun hr ⟨hw, .refl m₁⟩
    obtain ⟨rest, f, g, op, hfaults⟩ := (hr.contained hregular).faults hinv.1 he
    have hkept := Exec.keeps_step hstart.stable _ (hstart.stable.recordInstruction hinv)
    refine ⟨?_, hfaults.traced hstart hr hw (hkept.of_error he).2⟩
    rw [hfaults.active, hfaults.frames, Array.size_push, Array.size_push]
  · exact (ends_enter_single hw function).of_error he e rfl
  · exact failsAt_of_runFunction hend

/-- Code that negates nothing, on line 7. -/
def faultyChunk : Chunk :=
  Chunk.emitted {} [.writeOp .pushNil 7, .writeOp .negate 7, .writeOp .ret 7]

/-- A machine with the clock and a function of the same name that fails. -/
def faultyMachine : Machine :=
  HostCall.apply (HostCall.apply clockMachine (.allocateFunction (some ⟨0, 0⟩) 0))
    (.editFunction ⟨2, 0⟩ fun f => { f with chunk := faultyChunk })

/-- A script that calls that function, on line 12. -/
def callingScript : Chunk := Chunk.copy
  { code := #[0, 0, 26, 0, 27]
    lines := #[12, 12, 12, 12, 12]
    constants := #[.object ⟨2, 0⟩] }

def callingMachine : Machine :=
  (faultyMachine.allocate (.function { chunk := callingScript })).2

theorem faultyMachine_traceable : faultyMachine.Traceable := by
  have hslots : faultyMachine.heap.slots.entries.toList =
      [some { object := .string "clock", size := 109 },
        some { object := .native .clock, size := 109 },
        some { object := .function { name := some ⟨0, 0⟩, chunk := faultyChunk }, size := 144 }] :=
    rfl
  have hlined := ((Chunk.grows_emitted
    [.writeOp .pushNil 7, .writeOp .negate 7, .writeOp .ret 7] {}).consistent .empty).lines
  -- there is one function
  have hfunction : ∀ x g, faultyMachine.heap.function? x = some g →
      g = { name := some ⟨0, 0⟩, chunk := faultyChunk } := by
    intro x g hx
    obtain ⟨i, generation⟩ := x
    obtain ⟨e, he, ho⟩ := Heap.get?_eq_some.mp (Heap.function?_eq_some.mp hx)
    have hslot := (entryAt?_eq_some.mp he).2
    rw [← Array.getElem?_toList, hslots] at hslot
    match i with
    | 0 | 1 =>
        simp only [List.getElem?_cons_zero, List.getElem?_cons_succ, Option.some.injEq] at hslot
        subst hslot
        exact absurd ho (by simp)
    | 2 =>
        simp only [List.getElem?_cons_zero, List.getElem?_cons_succ, Option.some.injEq] at hslot
        subst hslot
        exact (Object.function.inj ho).symm
    | i + 3 => exact absurd hslot (by simp)
  refine ⟨fun x g hx => ?_, fun x g name hx hname => ?_⟩
  · rw [hfunction x g hx]
    exact hlined
  · rw [hfunction x g hx] at hname
    rw [← Option.some.inj hname]
    rfl

/-- The function fails on line 7, called from line 12. -/
theorem traces_faithful_named :
    faultyMachine.Idle ∧ faultyMachine.Traceable ∧ ∃ m' e m'',
      InRun callingMachine ⟨3, 0⟩ m' ∧
      Exec.step m'.recordInstruction = .error (.failed (.runtime e)) m'' ∧
      e.trace = [⟨some "clock", 7⟩, ⟨none, 12⟩] ∧ e.line = 7 ∧
      callingMachine.Traced ⟨3, 0⟩ m' e := by
  have hidle : faultyMachine.Idle := .call _ (.call _ clockMachine_idle nofun) nofun
  have hlined : (HostCall.run 9 callingScript).Lined := rfl
  have hc : (HostCall.run 9 callingScript).Runs faultyMachine callingMachine ⟨3, 0⟩ := rfl
  have henter : InRun callingMachine ⟨3, 0⟩
      { callingMachine with stack := #[.object ⟨3, 0⟩], frames := #[⟨⟨3, 0⟩, 0, 1⟩] } := .enter rfl
  have hcallee : InRun callingMachine ⟨3, 0⟩
      { callingMachine with
        stack := #[.object ⟨3, 0⟩, .object ⟨2, 0⟩], frames := #[⟨⟨3, 0⟩, 2, 1⟩] } :=
    .step henter rfl
  have hcall : InRun callingMachine ⟨3, 0⟩
      { callingMachine with
        stack := #[.object ⟨3, 0⟩, .object ⟨2, 0⟩]
        frames := #[⟨⟨3, 0⟩, 4, 1⟩, ⟨⟨2, 0⟩, 0, 2⟩] } :=
    .step hcallee rfl
  have hnil : InRun callingMachine ⟨3, 0⟩
      { callingMachine with
        stack := #[.object ⟨3, 0⟩, .object ⟨2, 0⟩, .nil]
        frames := #[⟨⟨3, 0⟩, 4, 1⟩, ⟨⟨2, 0⟩, 1, 2⟩] } :=
    .step hcall rfl
  have htraced := (traces_faithful hidle faultyMachine_traceable hlined hc).1 _ _ _ hnil rfl
  exact ⟨hidle, faultyMachine_traceable, _, _, _, hnil, rfl, rfl, rfl, htraced.2⟩

end Machine

end StackMachine
