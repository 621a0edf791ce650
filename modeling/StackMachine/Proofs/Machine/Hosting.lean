import StackMachine.Proofs.Heap.History
import StackMachine.Proofs.Machine.Ends

/-!
# Machines that can arise

A host starts a machine and then calls it, one call after the other. Between two
calls the machine is *idle*. During a run it passes through one machine for each
instruction boundary. Nothing is assumed of the host: it may name handles that
stand for nothing, run any bytes and put anything into a function. Nor is anything
assumed of the world that its native functions look at, or of where lines go.

Instructions change the heap by interning and the globals under names that are
live strings, and nothing else of the two. So a property of heap and globals that
these changes keep is kept by every instruction. With it the representation
invariants of the heap hold of every machine, at every point, and every global
has a live string for its name.
-/

namespace StackMachine

/-- A call of the machine's interface. A run may be given up after a number of
instructions. -/
inductive HostCall where
  | intern (text : String)
  | defineNative (native : NativeFunction)
  | collect
  | pin (handle : Handle)
  | unpin (handle : Handle)
  | allocateFunction (name : Option Handle) (arity : UInt8)
  | editFunction (function : Handle) (edit : BytecodeFunction → BytecodeFunction)
  | run (fuel : Nat) (chunk : Chunk)
  | runFunction (fuel : Nat) (function : Handle)

/-- The machine that a call leaves, however it ends. -/
def HostCall.apply (m : Machine) : HostCall → Machine
  | intern text => (m.intern text).2
  | defineNative native => (m.defineNative native).2
  | collect => m.collect.2
  | pin handle => m.pin handle
  | unpin handle => m.unpin handle
  | allocateFunction name arity => (m.allocateFunction name arity).2
  | editFunction function edit => (m.editFunction function edit).getD m
  | run fuel chunk => (m.run fuel chunk).2
  | runFunction fuel function => (m.runFunction fuel function).2

/-- How a call that runs something ends. -/
def HostCall.outcome? (m : Machine) : HostCall → Option Outcome
  | run fuel chunk => some (m.run fuel chunk).1
  | runFunction fuel function => some (m.runFunction fuel function).1
  | _ => none

/-- Whether a call comes to its end. -/
def HostCall.Returns (m : Machine) (c : HostCall) : Prop :=
  c.outcome? m ≠ some .unfinished

/-- The function that a call runs, and the machine it runs it in. -/
def HostCall.Runs (m m' : Machine) (function : Handle) : HostCall → Prop
  | run _ chunk => m.allocate (.function { chunk }) = (.ok function, m')
  | runFunction _ function' => m' = m ∧ function = function'
  | _ => False

namespace Machine

/-- The machines between two calls of a host. A machine is started in a world of
which nothing is known; where its lines go may change from one call to the next. -/
inductive Idle : Machine → Prop where
  | start {config : MachineConfig} {output : Output} {scope : LogScope} {world : World}
      {m : Machine} : Machine.start config output scope world = .ok m → Idle m
  | call {m : Machine} (c : HostCall) : Idle m → c.Returns m → Idle (c.apply m)
  | sink {m : Machine} (output : Output) : Idle m → Idle { m with output }

/-- The machine in which a run of a function begins. -/
def begun (m : Machine) (function : Handle) : Machine :=
  m.resetStacks.record (.runBegun function m.globals.size)

/-- The entry into a function and up to `fuel` instructions of it. -/
def launch (m : Machine) (fuel : Nat) (function : Handle) : Option Halt × Machine :=
  match enter function (m.begun function) with
  | .error halt m' => (some halt, m')
  | .ok () m' => m'.steps fuel

/-- The end of a run that came so far. -/
def finish : Option Halt × Machine → Outcome × Machine
  | (some halt, m) => m.conclude halt
  | (none, m) => (.unfinished, m)

theorem runFunction_eq (m : Machine) (fuel : Nat) (function : Handle) :
    m.runFunction fuel function = finish (m.launch fuel function) := by
  show (match enter function (m.begun function) with
    | .error halt m => m.conclude halt
    | .ok () m => match m.steps fuel with
      | (some halt, m) => m.conclude halt
      | (none, m) => (.unfinished, m)) = _
  unfold launch
  cases enter function (m.begun function) with
  | error halt m' => rfl
  | ok a m' => rfl

theorem conclude_eq_failed {m : Machine} {halt : Halt} {e : Error}
    (h : (m.conclude halt).1 = .failed e) : halt = .failed e := by
  unfold Machine.conclude at h
  split at h
  · exact absurd h (by simp)
  · rw [Outcome.failed.inj h]
  · rw [Outcome.failed.inj h]
  · exact absurd h (by simp)

/-- The machines at the instruction boundaries of a run. -/
inductive InRun (m : Machine) (function : Handle) : Machine → Prop where
  | enter {m' : Machine} : Machine.enter function (m.begun function) = .ok () m' →
      InRun m function m'
  | step {m' m'' : Machine} : InRun m function m' →
      Exec.step m'.recordInstruction = .ok () m'' → InRun m function m''

/-- The machines a host or an instruction can meet. -/
def Reached (m : Machine) : Prop :=
  m.Idle ∨ ∃ m₀ m₁ function, ∃ c : HostCall,
    Idle m₀ ∧ c.Runs m₀ m₁ function ∧ InRun m₁ function m

end Machine

/-- A property of heap and globals that survives what instructions do to them. -/
structure Machine.Stable (I : Machine → Prop) : Prop where
  congr : ∀ {m m' : Machine}, I m → m'.heap = m.heap → m'.globals = m.globals → I m'
  intern : ∀ {m : Machine} (text : String), I m → I (m.intern text).2
  setGlobal : ∀ {m : Machine} {name : Handle} {text : String} (v : Value),
    m.heap.string? name = some text → I m → I { m with globals := m.globals.insert name v }

/-- A property of heap and globals that survives as long as no global is set. -/
structure Machine.Steady (I : Machine → Prop) : Prop where
  congr : ∀ {m m' : Machine}, I m → m'.heap = m.heap → m'.globals = m.globals → I m'
  intern : ∀ {m : Machine} (text : String), I m → I (m.intern text).2

theorem Machine.Stable.steady {I : Machine → Prop} (hI : Machine.Stable I) : Machine.Steady I :=
  ⟨hI.congr, hI.intern⟩

namespace Exec

/-- Whether an action keeps a property of the machine, however it ends. -/
def Keeps {α : Type} (I : Machine → Prop) (x : Exec α) : Prop :=
  ∀ m, I m → Ends x m (fun _ m' => I m') (fun _ m' => I m')

section

variable {α β : Type} {I : Machine → Prop}

theorem keeps_pure (a : α) : Keeps I (pure a : Exec α) := fun _ h => ends_pure h

theorem keeps_bind {x : Exec β} {f : β → Exec α} (hx : Keeps I x)
    (hf : ∀ b, Keeps I (f b)) : Keeps I (x >>= f) :=
  fun m h => ends_bind ((hx m h).mono (fun b m' h' => hf b m' h') fun _ _ => id)

theorem keeps_get : Keeps I (get : Exec Machine) := fun _ h => h

theorem keeps_crash : Keeps I (crash : Exec α) := fun _ h => h

theorem keeps_fail (fault : RuntimeFault) : Keeps I (fail fault : Exec α) := fun _ h => h

theorem keeps_corruptAt (offset : Nat) (cause : Corruption) :
    Keeps I (corruptAt offset cause : Exec α) :=
  fun _ h => h

theorem keeps_corrupt (cause : Corruption) : Keeps I (corrupt cause : Exec α) := fun _ h => h

theorem keeps_throw (halt : Halt) : Keeps I (throw halt : Exec α) := fun _ h => h

theorem keeps_orMismatch (r : Except OperandError α) : Keeps I (orMismatch r) := by
  cases r with
  | ok a => exact keeps_pure a
  | error e => exact keeps_fail _

theorem keeps_peek (distance : Nat) : Keeps I (peek distance) :=
  fun _ h => ends_peek (fun _ _ _ => h) fun _ => h

theorem keeps_getSlot (slot : Nat) : Keeps I (getSlot slot) :=
  fun _ h => ends_getSlot (fun _ _ => h) fun _ => h

theorem keeps_frame : Keeps I frame := by
  intro m h
  unfold Ends frame
  cases m.frames.back? with
  | some f => exact h
  | none => exact h

theorem keeps_function : Keeps I function := by
  refine keeps_bind keeps_frame fun f => keeps_bind keeps_get fun m => ?_
  split
  · exact keeps_pure _
  · exact keeps_corruptAt _ _

theorem keeps_constant (index : Nat) : Keeps I (constant index) := by
  refine keeps_bind keeps_function fun g => ?_
  split
  · exact keeps_pure _
  · exact keeps_corrupt _

/-- A name that has been read is a live string. -/
theorem ends_name_live {index : Nat} {m : Machine} (h : I m) :
    Ends (name index) m (fun x m' => I m' ∧ ∃ s, m'.heap.string? x = some s)
      (fun _ m' => I m') := by
  refine ends_bind ((keeps_constant index m h).mono (fun v m' h' => ?_) fun _ _ => id)
  split
  · rename_i x
    refine ends_get ?_
    split
    · rename_i hx; exact ends_pure ⟨h', Option.isSome_iff_exists.mp hx⟩
    · exact ends_corrupt h'
  · exact ends_corrupt h'

theorem keeps_localSlot (n : Nat) : Keeps I (localSlot n) := by
  refine keeps_bind keeps_frame fun f => keeps_bind keeps_get fun m => ?_
  split
  · exact keeps_pure _
  · exact keeps_corrupt _

theorem keeps_checkArity (expected got : Nat) : Keeps I (checkArity expected got) := by
  unfold checkArity
  split
  · exact keeps_pure _
  · exact keeps_fail _

theorem keeps_argumentStart (argc : Nat) : Keeps I (argumentStart argc) :=
  fun _ h => ends_argumentStart (fun _ => h) fun _ => h

/-! ## Steady and stable properties -/

section

variable (hI : Machine.Steady I)

include hI

theorem keeps_push (v : Value) : Keeps I (push v) :=
  fun _ h => ends_push (fun _ => hI.congr h rfl rfl) fun _ => h

theorem keeps_pop : Keeps I pop :=
  fun _ h => ends_pop (fun _ _ _ => hI.congr h rfl rfl) fun _ => h

theorem keeps_truncate (size : Nat) : Keeps I (truncate size) :=
  fun _ h => ends_truncate (hI.congr h rfl rfl)

theorem keeps_setSlot (slot : Nat) (v : Value) : Keeps I (setSlot slot v) :=
  fun _ h => ends_setSlot (fun _ => hI.congr h rfl rfl) fun _ => h

theorem keeps_setPointer (ip : Nat) : Keeps I (setPointer ip) :=
  fun _ h => hI.congr h rfl rfl

theorem keeps_print (v : Value) : Keeps I (print v) :=
  fun _ h => ends_print (fun _ _ => hI.congr h rfl rfl) fun _ _ => h

theorem keeps_pushFrame (f : Frame) : Keeps I (pushFrame f) :=
  fun _ h => hI.congr h rfl rfl

theorem keeps_fetch : Keeps I fetch := by
  refine keeps_bind keeps_frame fun f => keeps_bind keeps_get fun m => ?_
  split
  · exact keeps_corruptAt _ _
  · split
    · exact keeps_corruptAt _ _
    · exact keeps_corruptAt _ _
    · exact keeps_corruptAt _ _
    · exact keeps_bind (keeps_setPointer hI _) fun _ => keeps_pure _

theorem keeps_jump (op : Opcode) (distance : Nat) : Keeps I (jump op distance) := by
  refine keeps_bind keeps_frame fun f => keeps_bind keeps_function fun g => ?_
  dsimp only
  split
  · exact keeps_setPointer hI _
  · exact keeps_corrupt _

/-- Replacing some topmost values by another. -/
theorem keeps_replaceTwo (v : Value) : Keeps I (do let _ ← pop; let _ ← pop; push v) :=
  keeps_bind (keeps_pop hI) fun _ => keeps_bind (keeps_pop hI) fun _ => keeps_push hI v

theorem keeps_binary (op : Value → Value → Except OperandError Value) : Keeps I (binary op) :=
  keeps_bind (keeps_peek 0) fun _ => keeps_bind (keeps_peek 1) fun _ =>
    keeps_bind (keeps_orMismatch _) fun v => keeps_replaceTwo hI v

theorem keeps_compare (p : Value → Value → Bool) : Keeps I (compare p) :=
  keeps_bind (keeps_pop hI) fun _ => keeps_bind (keeps_pop hI) fun _ => keeps_push hI _

theorem keeps_ret : Keeps I ret := by
  refine keeps_bind (keeps_pop hI) fun v => keeps_bind keeps_frame fun f =>
    keeps_bind (fun m h => ends_modify (hI.congr h rfl rfl)) fun _ => ?_
  split
  · exact keeps_crash
  · refine keeps_bind (keeps_truncate hI _) fun _ => keeps_bind keeps_get fun m => ?_
    split
    · exact keeps_throw _
    · exact keeps_push hI v

theorem keeps_callFunction (function : Handle) (arity argc : Nat) :
    Keeps I (callFunction function arity argc) := by
  refine keeps_bind (keeps_checkArity _ _) fun _ => keeps_bind keeps_get fun m => ?_
  split
  · exact keeps_bind (keeps_argumentStart argc) fun base => keeps_pushFrame hI _
  · exact keeps_fail _

theorem keeps_intern (text : String) : Keeps I (intern text) := by
  intro m h
  have hm := hI.intern text h
  refine ends_intern (fun x m' he => ?_) fun e m' he => ?_
  · rw [he] at hm; exact hm
  · rw [he] at hm; exact hm

theorem keeps_runPrimitive (p : Primitive) : Keeps I (runPrimitive p) := by
  induction p with
  | done result => exact keeps_pure _
  | inspect next ih => intro m h; exact ih m.heap.view m h
  | intern text next ih => intro m h; exact ih (m.intern text).1 (m.intern text).2 (hI.intern text h)
  | look next ih => intro m h; exact ih m.world.now _ (hI.congr h rfl rfl)

theorem keeps_callNative (native : NativeFunction) (argc : Nat) :
    Keeps I (callNative native argc) := by
  refine keeps_bind (keeps_checkArity _ _) fun _ => keeps_bind (keeps_argumentStart argc) fun start =>
    keeps_bind keeps_get fun m => keeps_bind (keeps_runPrimitive hI _) fun result => ?_
  split
  · exact keeps_fail _
  · split
    · exact keeps_crash
    · exact keeps_bind (keeps_truncate hI _) fun _ => keeps_push hI _

theorem keeps_callValue (callee : Value) (argc : Nat) : Keeps I (callValue callee argc) := by
  refine keeps_bind keeps_get fun m => ?_
  dsimp only
  split
  · split
    · exact keeps_callFunction hI _ _ _
    · exact keeps_callNative hI _ _
    · exact keeps_fail _
    · exact keeps_corrupt _
  · exact keeps_fail _

theorem keeps_add : Keeps I add := by
  refine keeps_bind (keeps_peek 0) fun b => keeps_bind (keeps_peek 1) fun a =>
    keeps_bind keeps_get fun m => ?_
  split
  · exact keeps_bind (keeps_intern hI _) fun x => keeps_replaceTwo hI _
  · exact keeps_bind (keeps_orMismatch _) fun v => keeps_replaceTwo hI v

/-- Instructions that set no global keep what is steady. -/
theorem keeps_perform_of_ne {op : Opcode} (hdefine : op ≠ .defineGlobal) (hset : op ≠ .setGlobal)
    (n : Nat) : Keeps I (perform op n) := by
  cases op with
  | constant => exact keeps_bind (keeps_constant n) fun v => keeps_push hI v
  | pushNil => exact keeps_push hI _
  | pushTrue => exact keeps_push hI _
  | pushFalse => exact keeps_push hI _
  | pop => exact keeps_bind (keeps_pop hI) fun _ => keeps_pure _
  | getLocal =>
      exact keeps_bind (keeps_localSlot n) fun s => keeps_bind (keeps_getSlot s) fun v =>
        keeps_push hI v
  | setLocal =>
      exact keeps_bind (keeps_localSlot n) fun s => keeps_bind (keeps_peek 0) fun v =>
        keeps_setSlot hI s v
  | getGlobal =>
      refine fun m h => ends_bind ((ends_name_live h).mono (fun key m' h' => ?_) fun _ _ => id)
      refine ends_get ?_
      split
      · exact keeps_push hI _ m' h'.1
      · exact h'.1
  | defineGlobal => exact absurd rfl hdefine
  | setGlobal => exact absurd rfl hset
  | equal => exact keeps_compare hI _
  | notEqual => exact keeps_compare hI _
  | greater => exact keeps_binary hI _
  | greaterEqual => exact keeps_binary hI _
  | less => exact keeps_binary hI _
  | lessEqual => exact keeps_binary hI _
  | add => exact keeps_add hI
  | subtract => exact keeps_binary hI _
  | multiply => exact keeps_binary hI _
  | divide => exact keeps_binary hI _
  | not => exact keeps_bind (keeps_pop hI) fun v => keeps_push hI _
  | negate =>
      exact keeps_bind (keeps_peek 0) fun v => keeps_bind (keeps_orMismatch _) fun r =>
        keeps_bind (keeps_pop hI) fun _ => keeps_push hI r
  | print => exact keeps_bind (keeps_pop hI) fun v => keeps_print hI v
  | jump => exact keeps_jump hI _ _
  | loop => exact keeps_jump hI _ _
  | jumpIfFalse =>
      refine keeps_bind (keeps_pop hI) fun v => ?_
      split
      · exact keeps_jump hI _ _
      · exact keeps_pure _
  | call => exact keeps_bind (keeps_peek n) fun v => keeps_callValue hI v n
  | ret => exact keeps_ret hI

theorem keeps_enter (function : Handle) : Keeps I (Machine.enter function) := by
  refine keeps_bind (keeps_push hI _) fun _ => keeps_bind (keeps_callValue hI _ 0) fun _ =>
    keeps_bind keeps_get fun m => ?_
  split
  · exact keeps_bind (keeps_pop hI) fun v => keeps_throw _
  · exact keeps_pure _

end

/-- **Instructions keep what is stable.** -/
theorem keeps_perform (hI : Machine.Stable I) (op : Opcode) (n : Nat) : Keeps I (perform op n) := by
  by_cases hdefine : op = .defineGlobal
  · subst hdefine
    -- the name has just been read, so it is known to be a live string
    refine fun m h => ends_bind ((ends_name_live h).mono (fun key m' h' => ?_) fun _ _ => id)
    obtain ⟨h', s, hs⟩ := h'
    refine ends_bind (ends_peek (fun v _ _ => ?_) fun _ => h')
    exact ends_bind (ends_setGlobal (keeps_bind (keeps_pop hI.steady) (fun _ => keeps_pure _) _
      (hI.setGlobal v hs h')))
  · by_cases hset : op = .setGlobal
    · subst hset
      refine fun m h => ends_bind ((ends_name_live h).mono (fun key m' h' => ?_) fun _ _ => id)
      obtain ⟨h', s, hs⟩ := h'
      refine ends_bind (ends_peek (fun v _ _ => ends_get ?_) fun _ => h')
      split
      · exact ends_setGlobal (hI.setGlobal v hs h')
      · exact h'
    · exact keeps_perform_of_ne hI.steady hdefine hset n

theorem keeps_step (hI : Machine.Stable I) : Keeps I step :=
  keeps_bind (keeps_fetch hI.steady) fun (op, n) => keeps_perform hI op n

end

end Exec

/-- A heap as a machine has it. -/
structure Heap.Sound (h : Heap) : Prop where
  wellFormed : h.WellFormed
  faithful : h.Faithful

namespace Heap.Sound

theorem intern {h : Heap} (hs : h.Sound) (roots : List Handle) (text : String) :
    (h.intern roots text).heap.Sound :=
  ⟨intern_wellFormed hs.wellFormed roots text, intern_faithful hs.wellFormed hs.faithful roots text⟩

theorem allocate {h : Heap} (hs : h.Sound) (roots : List Handle) {o : Object}
    (ho : ∀ s, o ≠ .string s) : (h.allocate roots o).heap.Sound :=
  ⟨allocate_wellFormed hs.wellFormed roots o, allocate_faithful hs.wellFormed hs.faithful roots ho⟩

theorem collect {h : Heap} (hs : h.Sound) (roots : List Handle) : (h.collect roots).heap.Sound :=
  have hc := hs.wellFormed.collection roots []
  ⟨hc.wellFormed hs.wellFormed, hc.faithful hs.faithful⟩

theorem pin {h : Heap} (hs : h.Sound) (x : Handle) : (h.pin x).Sound :=
  ⟨wellFormed_apply hs.wellFormed (.pin x), hs.faithful⟩

theorem unpin {h : Heap} (hs : h.Sound) (x : Handle) : (h.unpin x).Sound := by
  refine ⟨wellFormed_apply hs.wellFormed (.unpin x), ?_⟩
  rw [unpin_eq]
  exact hs.faithful

theorem editFunction {h : Heap} (hs : h.Sound) {x : Handle}
    {edit : BytecodeFunction → BytecodeFunction} {effect : HeapEffect Unit}
    (he : h.editFunction x edit = some effect) : effect.heap.Sound := by
  obtain ⟨_, _, _, _, _, hw⟩ := editFunction_spec he
  exact ⟨hw hs.wellFormed, editFunction_faithful he hs.faithful⟩

end Heap.Sound

namespace Machine

/-! ## Roots -/

theorem mem_roots {m : Machine} {x : Handle} :
    x ∈ m.roots ↔ Value.object x ∈ m.stack ∨ (∃ f ∈ m.frames, f.function = x) ∨
      ∃ k v, m.globals[k]? = some v ∧ (k = x ∨ v = .object x) := by
  unfold roots
  simp only [List.mem_append, mem_handlesOf, Array.mem_toList_iff, List.mem_map, List.mem_flatMap,
    List.mem_cons, Option.mem_toList, or_assoc]
  refine or_congr_right (or_congr_right ⟨?_, ?_⟩)
  · rintro ⟨⟨k, v⟩, hk, hx⟩
    refine ⟨k, v, Std.HashMap.mem_toList_iff_getElem?_eq_some.mp hk, hx.imp Eq.symm fun hv => ?_⟩
    cases v with
    | object y => simp only [Value.handle?, Option.some.injEq] at hv; rw [hv]
    | nil => simp [Value.handle?] at hv
    | bool b => simp [Value.handle?] at hv
    | number n => simp [Value.handle?] at hv
  · rintro ⟨k, v, hk, hx⟩
    refine ⟨(k, v), Std.HashMap.mem_toList_iff_getElem?_eq_some.mpr hk, hx.imp Eq.symm ?_⟩
    rintro rfl
    rfl

/-! ## Every machine has a sound heap -/

/-- Reporting an instruction changes the journal and nothing else. -/
theorem recordInstruction_eq (m : Machine) :
    ∃ journal, m.recordInstruction = { m with journal } := by
  unfold recordInstruction
  split
  · exact ⟨m.journal, rfl⟩
  · split
    · exact ⟨_, rfl⟩
    · exact ⟨m.journal, rfl⟩

/-- A step reports the instruction that is next and executes it. The pointer has
moved on by then. -/
theorem ends_step_next {m : Machine} {op : Opcode} {n : Nat} {Q : Unit → Machine → Prop}
    {E : Halt → Machine → Prop} (hn : m.next? = some (op, n))
    (h : ∀ rest f ip journal, m.frames = Array.push rest f →
      Exec.Ends (Exec.perform op n) { m with frames := rest.push { f with ip }, journal } Q E) :
    Exec.Ends Exec.step m.recordInstruction Q E := by
  obtain ⟨rest, f, g, hf, hg, hd⟩ := Exec.next?_eq_some.mp hn
  obtain ⟨journal, hj⟩ := m.recordInstruction_eq
  rw [hj]
  exact Exec.ends_step hf hg hd (h rest f _ journal hf)

/-- Without a next instruction a step does nothing but report corrupt bytecode. -/
theorem ends_step_next_none {m : Machine} {Q : Unit → Machine → Prop} {E : Halt → Machine → Prop}
    (hn : m.next? = none) (h : ∀ offset cause m', E (.failed (.corruptBytecode offset cause)) m') :
    Exec.Ends Exec.step m.recordInstruction Q E := by
  obtain ⟨journal, hj⟩ := m.recordInstruction_eq
  have hn' : ({ m with journal } : Machine).next? = none := hn
  rw [hj]
  exact Exec.ends_step_none hn' fun offset cause => h offset cause _

section

variable {I : Machine → Prop}

theorem Stable.recordInstruction (hI : Stable I) {m : Machine} (h : I m) :
    I m.recordInstruction := by
  obtain ⟨journal, hj⟩ := m.recordInstruction_eq
  rw [hj]
  exact hI.congr h rfl rfl

/-- The end of a run clears the stacks and reports, no more. -/
theorem Steady.finish (hI : Steady I) {ended : Option Halt × Machine} (h : I ended.2) :
    I (Machine.finish ended).2 := by
  obtain ⟨halt?, m⟩ := ended
  cases halt? with
  | none => exact h
  | some halt =>
      show I (m.conclude halt).2
      unfold Machine.conclude
      split
      · exact hI.congr h rfl rfl
      · exact hI.congr h rfl rfl
      · exact hI.congr h rfl rfl
      · exact h

theorem Stable.steps (hI : Stable I) (fuel : Nat) {m : Machine} (h : I m) :
    I (m.steps fuel).2 := by
  induction fuel generalizing m with
  | zero => exact h
  | succ fuel ih =>
      -- reporting the instruction changes the journal, which the property does not read
      have hk := Exec.keeps_step hI m.recordInstruction (hI.recordInstruction h)
      rw [Machine.steps]
      cases hs : Exec.step m.recordInstruction with
      | ok a m' => exact ih (hk.of_ok hs)
      | error halt m' => exact hk.of_error hs

theorem Stable.runFunction (hI : Stable I) (fuel : Nat) {m : Machine} (function : Handle)
    (h : I m) : I (m.runFunction fuel function).2 := by
  have hk := Exec.keeps_enter hI.steady function (m.begun function) (hI.congr h rfl rfl)
  have hlaunch : I (m.launch fuel function).2 := by
    unfold launch
    cases he : enter function (m.begun function) with
    | error halt m' => exact hk.of_error he
    | ok a m' => exact hI.steps fuel (hk.of_ok he)
  rw [runFunction_eq]
  exact hI.steady.finish hlaunch

/-- A script is stored and then run. -/
theorem Stable.run (hI : Stable I) (fuel : Nat) {m : Machine} (chunk : Chunk)
    (h : I (m.allocate (.function { chunk })).2) : I (m.run fuel chunk).2 := by
  unfold Machine.run
  split
  · rename_i x m' he
    rw [he] at h
    exact hI.runFunction fuel x h
  · rename_i e m' he
    rw [he] at h
    exact h

theorem Stable.inRun (hI : Stable I) {m m' : Machine} {function : Handle}
    (hr : InRun m function m') (h : I m) : I m' := by
  induction hr with
  | enter he =>
      exact (Exec.keeps_enter hI.steady function (m.begun function) (hI.congr h rfl rfl)).of_ok he
  | step _ hs ih => exact (Exec.keeps_step hI _ (hI.recordInstruction ih)).of_ok hs

end

/-- A run halts at its entry or in one of its instructions. -/
theorem halts_of_launch {m : Machine} {function : Handle} {fuel : Nat} {halt : Halt}
    (hhalt : (m.launch fuel function).1 = some halt) :
    enter function (m.begun function) = .error halt (m.launch fuel function).2 ∨
      ∃ m', InRun m function m' ∧
        Exec.step m'.recordInstruction = .error halt (m.launch fuel function).2 := by
  have hsteps : ∀ fuel m', InRun m function m' → (m'.steps fuel).1 = some halt →
      ∃ last, InRun m function last ∧
        Exec.step last.recordInstruction = .error halt (m'.steps fuel).2 := by
    intro fuel
    induction fuel with
    | zero => intro m' _ hs; exact absurd hs (by simp [steps])
    | succ fuel ih =>
        intro m' hr hs
        rw [steps] at hs ⊢
        cases he : Exec.step m'.recordInstruction with
        | ok a m'' => rw [he] at hs; exact ih m'' (hr.step he) hs
        | error halt' m'' =>
            rw [he] at hs
            rw [← Option.some.inj hs]
            exact ⟨m', hr, he⟩
  unfold launch at hhalt ⊢
  cases he : enter function (m.begun function) with
  | error halt' m' =>
      rw [he] at hhalt
      rw [← Option.some.inj hhalt]
      exact Or.inl rfl
  | ok a m' => rw [he] at hhalt; exact Or.inr (hsteps fuel m' (.enter he) hhalt)

/-- What holds of every halt at the entry into a function or at an instruction
boundary holds of the halt of the run. -/
theorem launch_halts {E : Halt → Machine → Prop} {m : Machine} {function : Handle}
    (henter : Exec.Ends (enter function) (m.begun function) (fun _ _ => True) E)
    (hstep : ∀ m', InRun m function m' →
      Exec.Ends Exec.step m'.recordInstruction (fun _ _ => True) E)
    (fuel : Nat) {halt : Halt} (hhalt : (m.launch fuel function).1 = some halt) :
    E halt (m.launch fuel function).2 := by
  rcases halts_of_launch hhalt with hentry | ⟨m', hr, hs⟩
  · exact henter.of_error hentry
  · exact (hstep m' hr).of_error hs

/-! ## Every machine is regular -/

/-- A machine with a sound heap, in which every global has a live string for its
name. -/
structure Regular (m : Machine) : Prop where
  sound : m.heap.Sound
  names : ∀ k v, m.globals[k]? = some v → ∃ s, m.heap.string? k = some s

namespace Regular

variable {m : Machine}

theorem evolve (h : m.Regular) {start : List Handle} {new : Handle → Object → Prop} {h' : Heap}
    (hsound : h'.Sound) (he : Heap.Evolves m.heap start new h')
    (hroots : ∀ x ∈ m.roots, x ∈ start) (journal : Journal) :
    Regular { m with heap := h', journal } := by
  refine ⟨hsound, fun k v hk => ?_⟩
  obtain ⟨s, hs⟩ := h.names k v hk
  have hroot : k ∈ m.roots := mem_roots.mpr (Or.inr (Or.inr ⟨k, v, hk, Or.inl rfl⟩))
  rw [Heap.string?_eq_some] at hs
  refine ⟨s, Heap.string?_eq_some.mpr ?_⟩
  rw [he.kept k (.root (hroots k hroot) hs)]
  exact hs

theorem intern (h : m.Regular) (text : String) : (m.intern text).2.Regular :=
  h.evolve (h.sound.intern m.roots text) (Heap.intern_evolves h.sound.wellFormed m.roots text)
    (fun _ hx => List.mem_append_left _ hx) _

theorem allocate (h : m.Regular) {o : Object} (ho : ∀ s, o ≠ .string s) :
    (m.allocate o).2.Regular :=
  h.evolve (h.sound.allocate m.roots ho) (Heap.allocate_evolves h.sound.wellFormed m.roots o)
    (fun _ hx => List.mem_append_left _ (List.mem_append_left _ hx)) _

theorem collect (h : m.Regular) : m.collect.2.Regular :=
  have hc := h.sound.wellFormed.collection m.roots []
  h.evolve (h.sound.collect m.roots) (hc.evolves fun _ _ => False)
    (fun _ hx => List.mem_append_left _ (List.mem_append_left _ hx)) _

theorem pin (h : m.Regular) (x : Handle) : (m.pin x).Regular :=
  ⟨h.sound.pin x, h.names⟩

theorem unpin (h : m.Regular) (x : Handle) : (m.unpin x).Regular :=
  ⟨h.sound.unpin x, by simpa [Machine.unpin] using h.names⟩

theorem setGlobal (h : m.Regular) {name : Handle} {text : String} (v : Value)
    (hname : m.heap.string? name = some text) :
    Regular { m with globals := m.globals.insert name v } := by
  refine ⟨h.sound, fun k w hk => ?_⟩
  simp only [Std.HashMap.getElem?_insert, beq_iff_eq] at hk
  split at hk
  · rename_i hkk; rw [← hkk]; exact ⟨text, hname⟩
  · exact h.names k w hk

theorem stable : Stable Regular where
  congr := fun h hheap hglobals =>
    ⟨by rw [hheap]; exact h.sound, by rw [hheap, hglobals]; exact h.names⟩
  intern := fun text h => h.intern text
  setGlobal := fun v hname h => h.setGlobal v hname

theorem editFunction (h : m.Regular) {x : Handle} {edit : BytecodeFunction → BytecodeFunction}
    {m' : Machine} (he : m.editFunction x edit = some m') : m'.Regular := by
  unfold Machine.editFunction at he
  obtain ⟨effect, heff, rfl⟩ := Option.map_eq_some_iff.mp he
  obtain ⟨f, hf, hget, _⟩ := Heap.editFunction_spec heff
  refine ⟨h.sound.editFunction heff, fun k v hk => ?_⟩
  obtain ⟨s, hs⟩ := h.names k v hk
  rw [Heap.string?_eq_some] at hs
  -- a name is a string, so it is not the function that changes
  have hne : k ≠ x := by
    rintro rfl
    exact absurd (hs.symm.trans hf) (by simp)
  exact ⟨s, Heap.string?_eq_some.mpr (by rw [absorb, hget, if_neg hne, hs])⟩

end Regular

/-- A name that has just been interned and pinned survives the allocation of another
object. The pin alone keeps it: no global has it yet. -/
theorem string?_pinned {m m₁ : Machine} (h : m.heap.Sound) {text : String} {key : Handle}
    (he : m.intern text = (.ok key, m₁)) (o : Object) :
    ((m₁.pin key).allocate o).2.heap.string? key = some text := by
  have hkey := Heap.intern_get? h.wellFormed h.faithful (congrArg Prod.fst he)
  have hm₁ : (m.heap.intern m.roots text).heap = m₁.heap :=
    congrArg (fun r => (Prod.snd r).heap) he
  have hs : (m.heap.intern m.roots text).heap.Sound := h.intern m.roots text
  rw [hm₁] at hkey hs
  have hev := Heap.allocate_evolves (hs.pin key).wellFormed (m₁.pin key).roots o
  have hpinned : key ∈ (m₁.pin key).heap.pinned.toList := by simp [pin, Heap.pin]
  refine Heap.string?_eq_some.mpr (Eq.trans (hev.kept key ?_) hkey)
  exact .root (List.mem_append_left _ (List.mem_append_right _ hpinned)) hkey

/-- What defining a native function leaves. The name is pinned while the function
is stored, so it is still there when the global is set. -/
theorem defineNative_cases {m : Machine} (h : m.heap.Sound) (native : NativeFunction) :
    (m.defineNative native).2 = (m.intern native.name).2 ∨ ∃ key,
      let m₁ := (m.intern native.name).2
      let stored := (m₁.pin key).allocate (.native native)
      (m.defineNative native).2 = stored.2.unpin key ∨
      ∃ x journal, stored.1 = .ok x ∧ stored.2.heap.string? key = some native.name ∧
        (m.defineNative native).2 =
          { stored.2.unpin key with globals := stored.2.globals.insert key (.object x), journal } := by
  unfold defineNative
  split
  · rename_i e m₁ he
    rw [he]
    exact Or.inl rfl
  · rename_i key m₁ he
    have hkey := string?_pinned h he (.native native)
    rw [he]
    refine Or.inr ⟨key, ?_⟩
    simp only
    split
    · exact Or.inl rfl
    · rename_i x hx
      exact Or.inr ⟨x, _, hx, hkey, rfl⟩

theorem Regular.defineNative {m : Machine} (h : m.Regular) (native : NativeFunction) :
    (m.defineNative native).2.Regular := by
  rcases defineNative_cases h.sound native with he | ⟨key, he | ⟨x, journal, _, hkey, he⟩⟩
  · rw [he]; exact h.intern _
  · rw [he]; exact (((h.intern _).pin key).allocate (by simp)).unpin key
  · rw [he]
    have ha := (((h.intern native.name).pin key).allocate (o := .native native) (by simp)).unpin key
    refine Regular.stable.congr (ha.setGlobal (.object x) (Eq.trans ?_ hkey)) rfl rfl
    exact Heap.string?_unpin ..

theorem Regular.run {m : Machine} (h : m.Regular) (fuel : Nat) (chunk : Chunk) :
    (m.run fuel chunk).2.Regular :=
  Regular.stable.run fuel chunk (h.allocate (by simp))

theorem Regular.apply {m : Machine} (h : m.Regular) (c : HostCall) : (c.apply m).Regular := by
  cases c with
  | intern text => exact h.intern text
  | defineNative native => exact h.defineNative native
  | collect => exact h.collect
  | pin handle => exact h.pin handle
  | unpin handle => exact h.unpin handle
  | allocateFunction name arity => exact h.allocate (by simp)
  | editFunction function edit =>
      simp only [HostCall.apply]
      cases he : m.editFunction function edit with
      | none => exact h
      | some m' => exact h.editFunction he
  | run fuel chunk => exact h.run fuel chunk
  | runFunction fuel function => exact Regular.stable.runFunction fuel function h

/-- A machine before anything has been defined. -/
def fresh (config : MachineConfig) (output : Output := {}) (scope : LogScope := .nothing)
    (world : World := {}) : Machine :=
  { config, heap := Heap.empty config.heap, output, journal := { scope := scope }, world }

section

variable {config : MachineConfig} {output : Output} {scope : LogScope} {world : World}

/-- A machine starts with nothing, or with the clock. -/
theorem start_cases {m : Machine} (h : Machine.start config output scope world = .ok m) :
    config.registerBuiltins = false ∧ m = fresh config output scope world ∨
      config.registerBuiltins = true ∧
        (fresh config output scope world).defineNative .clock = (.ok (), m) := by
  unfold Machine.start at h
  simp only at h
  split at h
  · exact absurd h (by simp)
  · split at h
    · rename_i hb
      split at h
      · rename_i m' he
        rw [Except.ok.inj h] at he
        exact Or.inr ⟨hb, he⟩
      · exact absurd h (by simp)
    · rename_i hb
      exact Or.inl ⟨by simpa using hb, (Except.ok.inj h).symm⟩

/-- A machine without the clock is idle from the start. -/
theorem fresh_idle (htable : config.hasFrameTable = true)
    (hbare : config.registerBuiltins = false) : (fresh config output scope world).Idle := by
  have hstart : Machine.start config output scope world =
      .ok (fresh config output scope world) := by
    simp [Machine.start, fresh, htable, hbare]
  exact .start hstart

end

theorem fresh_regular (config : MachineConfig) (output : Output) (scope : LogScope)
    (world : World) : (fresh config output scope world).Regular :=
  ⟨⟨Heap.wellFormed_empty _, Heap.faithful_empty _⟩, by simp [fresh]⟩

theorem Idle.regular {m : Machine} (h : m.Idle) : m.Regular := by
  induction h with
  | @start config output scope world m hm =>
      have hempty := fresh_regular config output scope world
      rcases start_cases hm with ⟨_, rfl⟩ | ⟨_, hd⟩
      · exact hempty
      · have hs := hempty.defineNative .clock
        rw [hd] at hs
        exact hs
  | call c _ _ ih => exact ih.apply c
  | sink output _ ih => exact Regular.stable.congr ih rfl rfl

theorem Regular.runs {m m' : Machine} {function : Handle} {c : HostCall} (h : m.Regular)
    (hr : c.Runs m m' function) : m'.Regular := by
  cases c with
  | run fuel chunk =>
      have ha := h.allocate (o := .function { chunk }) (by simp)
      simp only [HostCall.Runs] at hr
      rw [hr] at ha
      exact ha
  | runFunction fuel function' => rw [hr.1]; exact h
  | _ => exact hr.elim

/-- **Every machine that a host or an instruction can meet is regular.** -/
theorem Reached.regular {m : Machine} (h : m.Reached) : m.Regular := by
  rcases h with h | ⟨m₀, m₁, function, c, h, hc, hr⟩
  · exact h.regular
  · exact Regular.stable.inRun hr (h.regular.runs hc)

end Machine

end StackMachine
