import Mathlib.Data.Finmap
import StackMachine.Proofs.Machine.Stocks

/-!
# Globals are a map from names to values

The machine keys its globals by handles, and a handle is as good as a name only as
long as it stands for that name. Beside a machine this file therefore follows the
map that a reader of the program has in mind. It starts empty. Defining a native
function binds its name, an executed instruction that defines a global binds or
overwrites, one that sets a global overwrites, and nothing else changes it: no
collection, no failure, no interning of a name that was dropped and comes back.

The map is kept without looking at the table of globals. That the two agree at every
point is then a simulation: each operation keeps `Represents`. Operations that
may collect keep it because the names of globals are roots, and instructions that
set no global because they change the heap by interning alone.
-/

namespace StackMachine

/-- The fault that a machine reports when it halts. -/
def Halt.fault? : Halt → Option RuntimeFault
  | failed (.runtime e) => some e.fault
  | _ => none

/-- Names bound to values. -/
abbrev Bindings := Finmap fun _ : String => Value

namespace Machine

/-- The name that an operand stands for in the innermost function. -/
def nameAt? (m : Machine) (index : Nat) : Option String :=
  m.frames.back?.bind fun f => (m.heap.function? f.function).bind fun g =>
    (g.chunk.constant? index).bind fun v => v.handle?.bind m.heap.string?

/-- What the next instruction makes of the bindings if it is executed. -/
def rebind (m : Machine) (M : Bindings) : Bindings :=
  match m.next?, m.stack.back? with
  | some (.defineGlobal, n), some v => (m.nameAt? n).elim M fun name => M.insert name v
  | some (.setGlobal, n), some v =>
    (m.nameAt? n).elim M fun name => if name ∈ M then M.insert name v else M
  | _, _ => M

/-- What up to `fuel` instructions make of the bindings. An instruction that halts
the machine binds nothing. -/
def stepsBindings : (fuel : Nat) → Machine → Bindings → Bindings
  | 0, _, M => M
  | fuel + 1, m, M =>
    match Exec.step m.recordInstruction with
    | .ok () m' => m'.stepsBindings fuel (m.rebind M)
    | .error _ _ => M

/-- What a run makes of the bindings. -/
def runBindings (m : Machine) (fuel : Nat) (function : Handle) (M : Bindings) : Bindings :=
  match enter function (m.begun function) with
  | .ok () m' => m'.stepsBindings fuel M
  | .error _ _ => M

/-- The object that defining a native function stores, if there is room for it. -/
def nativeStored? (m : Machine) (native : NativeFunction) : Option Handle :=
  match m.intern native.name with
  | (.ok key, m) => ((m.pin key).allocate (.native native)).1.toOption
  | (.error _, _) => none

end Machine

/-- What a call of the machine's interface makes of the bindings. -/
def HostCall.bindings (m : Machine) (M : Bindings) : HostCall → Bindings
  | defineNative native =>
    (m.nativeStored? native).elim M fun x => M.insert native.name (.object x)
  | run fuel chunk =>
    match m.allocate (.function { chunk }) with
    | (.ok function, m) => m.runBindings fuel function M
    | (.error _, _) => M
  | runFunction fuel function => m.runBindings fuel function M
  | _ => M

namespace Machine

/-! ## Histories with their bindings -/

/-- What a machine starts with: nothing, or the clock if it is wanted. -/
def startBindings (config : MachineConfig) (output : Output) (scope : LogScope)
    (world : World) : Bindings :=
  if config.registerBuiltins then
    (HostCall.defineNative .clock).bindings (fresh config output scope world) ∅
  else ∅

/-- The machines between two calls, each with what its history has bound. -/
inductive IdleWith : Machine → Bindings → Prop where
  | start {config : MachineConfig} {output : Output} {scope : LogScope} {world : World}
      {m : Machine} : Machine.start config output scope world = .ok m →
      IdleWith m (startBindings config output scope world)
  | call {m : Machine} {M : Bindings} (c : HostCall) : IdleWith m M → c.Returns m →
      IdleWith (c.apply m) (c.bindings m M)
  | sink {m : Machine} {M : Bindings} (output : Output) : IdleWith m M →
      IdleWith { m with output } M

/-- The machines at the instruction boundaries of a run that starts with `M`. -/
inductive InRunWith (m : Machine) (function : Handle) (M : Bindings) : Machine → Bindings → Prop where
  | enter {m' : Machine} : Machine.enter function (m.begun function) = .ok () m' →
      InRunWith m function M m' M
  | step {m' m'' : Machine} {M' : Bindings} : InRunWith m function M m' M' →
      Exec.step m'.recordInstruction = .ok () m'' → InRunWith m function M m'' (m'.rebind M')

/-- The machines a host or an instruction can meet, with their bindings. -/
def ReachedWith (m : Machine) (M : Bindings) : Prop :=
  m.IdleWith M ∨ ∃ m₀ M₀ m₁ function, ∃ c : HostCall,
    IdleWith m₀ M₀ ∧ c.Runs m₀ m₁ function ∧ InRunWith m₁ function M₀ m M

variable {m m' : Machine} {M : Bindings}

theorem IdleWith.idle (h : m.IdleWith M) : m.Idle := by
  induction h with
  | start hm => exact .start hm
  | call c _ hc ih => exact .call c ih hc
  | sink output _ ih => exact .sink output ih

theorem InRunWith.inRun {function : Handle} {M' : Bindings} (h : InRunWith m function M m' M') :
    InRun m function m' := by
  induction h with
  | enter he => exact .enter he
  | step _ hs ih => exact .step ih hs

theorem ReachedWith.reached (h : m.ReachedWith M) : m.Reached := by
  rcases h with h | ⟨m₀, M₀, m₁, function, c, h, hc, hr⟩
  · exact Or.inl h.idle
  · exact Or.inr ⟨m₀, m₁, function, c, h.idle, hc, hr.inRun⟩

theorem Idle.bindings (h : m.Idle) : ∃ M, m.IdleWith M := by
  induction h with
  | start hm => exact ⟨_, .start hm⟩
  | call c _ hc ih =>
      obtain ⟨M, hM⟩ := ih
      exact ⟨_, .call c hM hc⟩
  | sink output _ ih =>
      obtain ⟨M, hM⟩ := ih
      exact ⟨M, .sink output hM⟩

theorem InRun.bindings {function : Handle} (h : InRun m function m') (M : Bindings) :
    ∃ M', InRunWith m function M m' M' := by
  induction h with
  | enter he => exact ⟨M, .enter he⟩
  | step _ hs ih =>
      obtain ⟨M', hM'⟩ := ih
      exact ⟨_, .step hM' hs⟩

/-- Every machine that can arise has bindings. -/
theorem Reached.bindings (h : m.Reached) : ∃ M, m.ReachedWith M := by
  rcases h with hi | ⟨m₀, m₁, function, c, hi, hc, hr⟩
  · obtain ⟨M, hM⟩ := hi.bindings
    exact ⟨M, Or.inl hM⟩
  · obtain ⟨M₀, hM₀⟩ := hi.bindings
    obtain ⟨M, hM⟩ := hr.bindings M₀
    exact ⟨M, Or.inr ⟨m₀, M₀, m₁, function, c, hM₀, hc, hM⟩⟩

/-! ## The table of globals represents the bindings -/

/-- The globals of a machine, looked up by name, are the bindings. -/
structure Represents (m : Machine) (M : Bindings) : Prop extends m.Regular where
  lookup : ∀ name, m.global? name = M.lookup name
  size : m.globals.size = M.keys.card

/-- A global is found by its name through the one live string of that content. -/
theorem Regular.global?_eq_some (h : m.Regular) {name : String} {v : Value} :
    m.global? name = some v ↔ ∃ k, m.heap.string? k = some name ∧ m.globals[k]? = some v := by
  unfold global?
  rw [Option.bind_eq_some_iff]
  refine exists_congr fun k => and_congr_left fun _ => ?_
  rw [h.sound.faithful, Heap.string?_eq_some]

theorem Regular.global?_of_string? (h : m.Regular) {k : Handle} {name : String}
    (hk : m.heap.string? k = some name) : m.global? name = m.globals[k]? := by
  have hi : m.heap.interned? name = some k :=
    (h.sound.faithful name k).mpr (Heap.string?_eq_some.mp hk)
  unfold global?
  rw [hi]
  rfl

namespace Represents

theorem congr (h : m.Represents M) (hheap : m'.heap = m.heap) (hglobals : m'.globals = m.globals) :
    m'.Represents M := by
  refine ⟨Regular.stable.congr h.toRegular hheap hglobals, fun name => ?_, ?_⟩
  · unfold global?
    rw [hheap, hglobals]
    exact h.lookup name
  · rw [hglobals]
    exact h.size

/-- Whatever happens to the heap, the globals are the same as long as their names
are. -/
theorem of_names (h : m.Represents M) (hr : m'.Regular) (hglobals : m'.globals = m.globals)
    (hnames : ∀ k v name, m.globals[k]? = some v → m.heap.string? k = some name →
      m'.heap.string? k = some name) : m'.Represents M := by
  refine ⟨hr, fun name => ?_, by rw [hglobals]; exact h.size⟩
  rw [← h.lookup]
  refine Option.ext fun v => ?_
  rw [hr.global?_eq_some, h.global?_eq_some, hglobals]
  constructor
  · intro hv
    obtain ⟨k, hk, hv⟩ := hv
    -- the key had a name before, and this is still its name
    obtain ⟨s, hs⟩ := h.names k v hv
    have hs' := hnames k v s hv hs
    rw [hk] at hs'
    rw [← Option.some.inj hs'] at hs
    exact ⟨k, hs, hv⟩
  · intro hv
    obtain ⟨k, hk, hv⟩ := hv
    exact ⟨k, hnames k v name hv hk, hv⟩

/-- Collecting and storing keep the bindings: the names of globals are roots. -/
theorem evolve (h : m.Represents M) {start : List Handle} {new : Handle → Object → Prop}
    {heap : Heap} (hs : heap.Sound) (he : Heap.Evolves m.heap start new heap)
    (hroots : ∀ x ∈ m.roots, x ∈ start) (journal : Journal) :
    Represents { m with heap, journal } M := by
  refine h.of_names (h.toRegular.evolve hs he hroots journal) rfl fun k v name hv hk => ?_
  have hroot : k ∈ m.roots := mem_roots.mpr (Or.inr (Or.inr ⟨k, v, hv, Or.inl rfl⟩))
  rw [Heap.string?_eq_some] at hk
  refine Heap.string?_eq_some.mpr ?_
  rw [he.kept k (.root (hroots k hroot) hk)]
  exact hk

theorem intern (h : m.Represents M) (text : String) : (m.intern text).2.Represents M :=
  h.evolve (h.sound.intern m.roots text) (Heap.intern_evolves h.sound.wellFormed m.roots text)
    (fun _ hx => List.mem_append_left _ hx) _

theorem allocate (h : m.Represents M) {o : Object} (ho : ∀ s, o ≠ .string s) :
    (m.allocate o).2.Represents M :=
  h.evolve (h.sound.allocate m.roots ho) (Heap.allocate_evolves h.sound.wellFormed m.roots o)
    (fun _ hx => List.mem_append_left _ (List.mem_append_left _ hx)) _

/-- No collection loses a binding, whoever asked for it. -/
theorem collectFor (h : m.Represents M) (pending : List Handle) (journal : Journal) :
    Represents { m with heap := (m.heap.collectFor m.roots pending).heap, journal } M := by
  have hc := h.sound.wellFormed.collection m.roots pending
  refine h.evolve ⟨hc.wellFormed h.sound.wellFormed, hc.faithful h.sound.faithful⟩
    (hc.evolves fun _ _ => False) (fun x hx => ?_) journal
  exact List.mem_append_left _ (List.mem_append_left _ hx)

theorem pin (h : m.Represents M) (x : Handle) : (m.pin x).Represents M :=
  ⟨h.toRegular.pin x, h.lookup, h.size⟩

theorem unpin (h : m.Represents M) (x : Handle) : (m.unpin x).Represents M :=
  ⟨h.toRegular.unpin x, by simpa [global?, Machine.unpin] using h.lookup, h.size⟩

theorem editFunction (h : m.Represents M) {x : Handle}
    {edit : BytecodeFunction → BytecodeFunction} (he : m.editFunction x edit = some m') :
    m'.Represents M := by
  have hr := h.toRegular.editFunction he
  unfold Machine.editFunction at he
  obtain ⟨effect, heff, rfl⟩ := Option.map_eq_some_iff.mp he
  obtain ⟨f, hf, hget, _⟩ := Heap.editFunction_spec heff
  refine h.of_names hr rfl fun k v name _ hk => ?_
  rw [Heap.string?_eq_some] at hk ⊢
  have hne : k ≠ x := by
    intro hkx
    rw [hkx, hf] at hk
    exact absurd hk (by simp)
  rw [absorb, hget, if_neg hne, hk]

/-- A name is bound just if its string is a key of the table. -/
theorem mem_iff (h : m.Represents M) {k : Handle} {name : String}
    (hk : m.heap.string? k = some name) : k ∈ m.globals ↔ name ∈ M := by
  rw [Std.HashMap.mem_iff_isSome_getElem?, ← h.toRegular.global?_of_string? hk, h.lookup,
    Finmap.lookup_isSome]

theorem setGlobal (h : m.Represents M) {k : Handle} {name : String} (v : Value)
    (hk : m.heap.string? k = some name) :
    Represents { m with globals := m.globals.insert k v } (M.insert name v) := by
  have hr := h.toRegular.setGlobal v hk
  refine ⟨hr, fun t => ?_, ?_⟩
  · by_cases ht : t = name
    · subst ht
      have hglobal := hr.global?_of_string? hk
      rw [hglobal, Finmap.lookup_insert]
      simp
    · rw [Finmap.lookup_insert_of_ne _ ht, ← h.lookup]
      refine Option.ext fun w => ?_
      rw [hr.global?_eq_some, h.global?_eq_some]
      refine exists_congr fun k' => and_congr_right fun hk' => ?_
      -- another name has another string
      have hne : k ≠ k' := by
        intro hkk
        rw [← hkk, hk] at hk'
        exact ht (Option.some.inj hk').symm
      simp [Std.HashMap.getElem?_insert, hne]
  · have hkeys : (M.insert name v).keys = insert name M.keys := by
      ext t
      rw [Finmap.mem_keys, Finmap.mem_insert, Finset.mem_insert, Finmap.mem_keys]
    simp only [hkeys, Std.HashMap.size_insert, h.mem_iff hk, h.size]
    split
    · rename_i hmem
      rw [Finset.card_insert_of_mem (Finmap.mem_keys.mpr hmem)]
    · rename_i hmem
      rw [Finset.card_insert_of_notMem (fun hk' => hmem (Finmap.mem_keys.mp hk'))]

theorem steady (M : Bindings) : Steady fun m => m.Represents M where
  congr h hheap hglobals := h.congr hheap hglobals
  intern text h := h.intern text

end Represents

/-! ## Instructions -/

theorem nameAt?_setPointer {rest : Array Frame} {f : Frame} (hf : m.frames = rest.push f) (ip : Nat)
    (journal : Journal) (n : Nat) :
    nameAt? { m with frames := rest.push { f with ip }, journal } n = m.nameAt? n := by
  simp [nameAt?, hf]

theorem rebind_define {n : Nat} {name : String} {v : Value} (hn : m.next? = some (.defineGlobal, n))
    (hname : m.nameAt? n = some name) (hv : m.stack.back? = some v) :
    m.rebind M = M.insert name v := by
  simp [rebind, hn, hname, hv]

theorem rebind_set {n : Nat} {name : String} {v : Value} (hn : m.next? = some (.setGlobal, n))
    (hname : m.nameAt? n = some name) (hv : m.stack.back? = some v) (hmem : name ∈ M) :
    m.rebind M = M.insert name v := by
  simp [rebind, hn, hname, hv, hmem]

/-- No other instruction binds anything. -/
theorem rebind_of_ne {op : Opcode} {n : Nat} (hn : m.next? = some (op, n))
    (hdefine : op ≠ .defineGlobal) (hset : op ≠ .setGlobal) : m.rebind M = M := by
  unfold rebind
  rw [hn]
  split
  · rename_i h _
    exact absurd (congrArg Prod.fst (Option.some.inj h)) hdefine
  · rename_i h _
    exact absurd (congrArg Prod.fst (Option.some.inj h)) hset
  · rfl

end Machine

namespace Exec

open Machine

variable {m : Machine} {M : Bindings}

/-- Reading a name gives the one live string of the content that the operand
stands for. -/
theorem ends_nameAt {n : Nat} {rest : Array Frame} {f : Frame} {Q : Handle → Machine → Prop}
    {E : Halt → Machine → Prop} (hf : m.frames = rest.push f)
    (hok : ∀ x name, m.nameAt? n = some name → m.heap.string? x = some name → Q x m)
    (herr : ∀ halt, m.nameAt? n = none → E halt m) : Ends (name n) m Q E := by
  have hback : m.frames.back? = some f := by rw [hf, Array.back?_push]
  refine ends_name hf (fun g x s hg hv hs => hok x s ?_ hs) (fun hdead => herr _ ?_)
    (fun g hg hv => herr _ ?_) fun g v hg hv hnot => herr _ ?_
  · simp [nameAt?, hback, hg, hv, Value.handle?, hs]
  · simp [nameAt?, hback, hdead]
  · simp [nameAt?, hback, hg, hv]
  · simp only [nameAt?, hback, hg, hv, Option.bind_some]
    cases v with
    | object x => exact Option.eq_none_iff_forall_ne_some.mpr fun s hs => hnot x s rfl hs
    | nil => rfl
    | bool b => rfl
    | number k => rfl

theorem ends_name_known {n : Nat} {rest : Array Frame} {f : Frame} {Q : Handle → Machine → Prop}
    {E : Halt → Machine → Prop} {text : String} (hf : m.frames = rest.push f)
    (hname : m.nameAt? n = some text) (h : ∀ x, m.heap.string? x = some text → Q x m) :
    Ends (name n) m Q E := by
  refine ends_nameAt hf (fun x text' hname' hx => h x ?_) fun halt hnone => ?_
  · rw [hname] at hname'
    rw [Option.some.inj hname']
    exact hx
  · rw [hname] at hnone
    exact absurd hnone (by simp)

/-- **An executed instruction rebinds, and one that halts the machine does not.** -/
theorem represents_step (h : m.Represents M) :
    Ends step m.recordInstruction (fun _ m' => m'.Represents (m.rebind M))
      fun _ m' => m'.Represents M := by
  cases hn : m.next? with
  | none =>
      obtain ⟨journal, hj⟩ := m.recordInstruction_eq
      rw [hj]
      exact ends_step_none hn fun _ _ => h.congr rfl rfl
  | some instruction =>
      obtain ⟨op, n⟩ := instruction
      refine ends_step_next hn fun rest f ip journal hf => ?_
      have h₁ : Represents { m with frames := rest.push { f with ip }, journal } M :=
        h.congr rfl rfl
      by_cases hdefine : op = .defineGlobal
      · subst hdefine
        refine ends_bind (ends_nameAt rfl (fun x name hname hx => ?_) fun _ _ => h₁)
        rw [nameAt?_setPointer hf] at hname
        refine ends_bind (ends_peek (fun v _ hv => ?_) fun _ => h₁)
        obtain ⟨values, hvalues⟩ := Array.back?_eq_some_iff.mp hv
        refine ends_bind (ends_setGlobal (ends_bind (ends_pop_top hvalues (ends_pure ?_))))
        rw [rebind_define hn hname hv]
        exact (h₁.setGlobal v hx).congr rfl rfl
      · by_cases hset : op = .setGlobal
        · subst hset
          refine ends_bind (ends_nameAt rfl (fun x name hname hx => ?_) fun _ _ => h₁)
          rw [nameAt?_setPointer hf] at hname
          refine ends_bind (ends_peek (fun v _ hv => ends_get ?_) fun _ => h₁)
          split
          · rename_i hmem
            have hbound := (h₁.mem_iff hx).mp (Std.HashMap.contains_iff_mem.mp hmem)
            rw [rebind_set hn hname hv hbound]
            exact ends_setGlobal (h₁.setGlobal v hx)
          · exact ends_undefined h₁
        · rw [rebind_of_ne hn hdefine hset]
          exact keeps_perform_of_ne (Represents.steady M) hdefine hset n _ h₁

end Exec

namespace Machine

variable {m m' : Machine} {M : Bindings}

/-! ## Runs and calls -/

namespace Represents

theorem steps (h : m.Represents M) (fuel : Nat) :
    (m.steps fuel).2.Represents (m.stepsBindings fuel M) := by
  induction fuel generalizing m M with
  | zero => exact h
  | succ fuel ih =>
      have hstep := Exec.represents_step h
      rw [Machine.steps, stepsBindings]
      cases he : Exec.step m.recordInstruction with
      | ok a m' => exact ih (hstep.of_ok he)
      | error halt m' => exact hstep.of_error he

theorem enter (h : m.Represents M) (function : Handle) :
    Exec.Ends (Machine.enter function) (m.begun function) (fun _ m' => m'.Represents M)
      fun _ m' => m'.Represents M :=
  Exec.keeps_enter (steady M) function _ (h.congr rfl rfl)

theorem runFunction (h : m.Represents M) (fuel : Nat) (function : Handle) :
    (m.runFunction fuel function).2.Represents (m.runBindings fuel function M) := by
  have henter := h.enter function
  rw [runFunction_eq]
  refine (steady _).finish ?_
  unfold launch runBindings
  cases he : Machine.enter function (m.begun function) with
  | error halt m' => exact henter.of_error he
  | ok a m' => exact (henter.of_ok he).steps fuel

theorem run (h : m.Represents M) (fuel : Nat) (chunk : Chunk) :
    (m.run fuel chunk).2.Represents ((HostCall.run fuel chunk).bindings m M) := by
  have ha := h.allocate (o := .function { chunk }) (by simp)
  simp only [Machine.run, HostCall.bindings]
  cases hx : m.allocate (.function { chunk }) with
  | mk answer m₁ =>
      rw [hx] at ha
      cases answer with
      | ok function => exact ha.runFunction fuel function
      | error e => exact ha

theorem defineNative (h : m.Represents M) (native : NativeFunction) :
    (m.defineNative native).2.Represents ((HostCall.defineNative native).bindings m M) := by
  have hi := h.intern native.name
  simp only [Machine.defineNative, HostCall.bindings, nativeStored?]
  cases he : m.intern native.name with
  | mk answer m₁ =>
      rw [he] at hi
      cases answer with
      | error e => exact hi
      | ok key =>
          have hkey := string?_pinned h.sound he (.native native)
          have ha := (hi.pin key).allocate (o := .native native) (by simp)
          cases hx : (m₁.pin key).allocate (.native native) with
          | mk stored m₂ =>
              rw [hx] at ha hkey
              simp only [hx]
              cases stored with
              | error e => exact ha.unpin key
              | ok x =>
                  have hkey' := (Heap.string?_unpin _ key key).trans hkey
                  exact ((ha.unpin key).setGlobal (.object x) hkey').congr rfl rfl

/-- **A call does to the globals what it does to the bindings**, whether it succeeds
or fails. -/
theorem apply (h : m.Represents M) (c : HostCall) : (c.apply m).Represents (c.bindings m M) := by
  cases c with
  | intern text => exact h.intern text
  | defineNative native => exact h.defineNative native
  | collect => exact h.collectFor [] _
  | pin handle => exact h.pin handle
  | unpin handle => exact h.unpin handle
  | allocateFunction name arity => exact h.allocate (by simp)
  | editFunction function edit =>
      simp only [HostCall.apply]
      cases he : m.editFunction function edit with
      | none => exact h
      | some m' => exact h.editFunction he
  | run fuel chunk => exact h.run fuel chunk
  | runFunction fuel function => exact h.runFunction fuel function

end Represents

theorem fresh_represents (config : MachineConfig) (output : Output) (scope : LogScope)
    (world : World) : (fresh config output scope world).Represents ∅ := by
  refine ⟨fresh_regular config output scope world, fun name => ?_, rfl⟩
  rw [Finmap.lookup_empty]
  simp [global?, fresh, Heap.interned?, Heap.empty]

theorem IdleWith.represents (h : m.IdleWith M) : m.Represents M := by
  induction h with
  | @start config output scope world m hm =>
      have hempty := fresh_represents config output scope world
      unfold startBindings
      rcases start_cases hm with ⟨hb, rfl⟩ | ⟨hb, hd⟩
      · rw [hb]
        exact hempty
      · have hs := hempty.defineNative .clock
        rw [hd] at hs
        rw [hb]
        exact hs
  | call c _ _ ih => exact ih.apply c
  | sink output _ ih => exact ih.congr rfl rfl

theorem InRunWith.represents {function : Handle} {M' : Bindings}
    (hr : InRunWith m function M m' M') (h : m.Represents M) : m'.Represents M' := by
  induction hr with
  | enter he => exact (h.enter function).of_ok he
  | step _ hs ih => exact (Exec.represents_step ih).of_ok hs

theorem Represents.runs {function : Handle} {c : HostCall} (h : m.Represents M)
    (hr : c.Runs m m' function) : m'.Represents M := by
  cases c with
  | run fuel chunk =>
      have ha := h.allocate (o := .function { chunk }) (by simp)
      simp only [HostCall.Runs] at hr
      rw [hr] at ha
      exact ha
  | runFunction fuel function' => rw [hr.1]; exact h
  | _ => exact hr.elim

theorem ReachedWith.represents (h : m.ReachedWith M) : m.Represents M := by
  rcases h with h | ⟨m₀, M₀, m₁, function, c, h, hc, hr⟩
  · exact h.represents
  · exact hr.represents (h.represents.runs hc)

/-! ## What programs and hosts see -/

theorem ends_getGlobal (h : m.Represents M) {n : Nat} {name : String}
    (hn : m.next? = some (.getGlobal, n)) (hname : m.nameAt? n = some name) :
    Exec.Ends Exec.step m.recordInstruction
      (fun _ m' => ∃ v, M.lookup name = some v ∧ m'.stack = m.stack.push v)
      fun halt _ => halt.fault? =
        some (if name ∈ M then .stackOverflow else .undefinedVariable name) := by
  refine ends_step_next hn fun rest f ip journal hf => ?_
  rw [← nameAt?_setPointer hf ip journal] at hname
  refine Exec.ends_bind (Exec.ends_name_known rfl hname fun x hx => Exec.ends_get ?_)
  have hlookup : m.globals[x]? = M.lookup name := by
    rw [← h.lookup, h.toRegular.global?_of_string? hx]
  cases hv : M.lookup name with
  | some v =>
      rw [hv] at hlookup
      simp only [hlookup]
      refine Exec.ends_push (fun _ => ⟨v, rfl, rfl⟩) fun _ => ?_
      rw [if_pos (Finmap.mem_iff.mpr ⟨v, hv⟩)]
      rfl
  | none =>
      rw [hv] at hlookup
      simp only [hlookup]
      refine Exec.ends_undefined ?_
      rw [if_neg (Finmap.lookup_eq_none.mp hv), hx]
      rfl

theorem ends_setGlobal (h : m.Represents M) {n : Nat} {name : String} {v : Value}
    (hn : m.next? = some (.setGlobal, n)) (hname : m.nameAt? n = some name)
    (hv : m.stack.back? = some v) :
    Exec.Ends Exec.step m.recordInstruction
      (fun _ m' => name ∈ M ∧ m'.stack = m.stack ∧ m'.global? name = some v)
      fun halt _ => name ∉ M ∧ halt.fault? = some (.undefinedVariable name) := by
  obtain ⟨values, hvalues⟩ := Array.back?_eq_some_iff.mp hv
  have hsize : 0 < m.stack.size := by simp [hvalues]
  refine ends_step_next hn fun rest f ip journal hf => ?_
  have h₁ : Represents { m with frames := rest.push { f with ip }, journal } M := h.congr rfl rfl
  rw [← nameAt?_setPointer hf ip journal] at hname
  refine Exec.ends_bind (Exec.ends_name_known rfl hname fun x hx => ?_)
  refine Exec.ends_bind (Exec.ends_peek_some hsize hv (Exec.ends_get ?_))
  have hmem := h.mem_iff hx
  split
  · rename_i hbound
    refine Exec.ends_setGlobal ⟨hmem.mp (Std.HashMap.contains_iff_mem.mp hbound), rfl, ?_⟩
    rw [(h₁.setGlobal v hx).lookup, Finmap.lookup_insert]
  · rename_i hbound
    refine Exec.ends_undefined ⟨fun hin => ?_, ?_⟩
    · exact hbound (Std.HashMap.contains_iff_mem.mpr (hmem.mpr hin))
    · rw [hx]
      rfl

/-- A native function is defined just if there is room for it, and what is stored
is that function. -/
theorem defineNative_stored (h : m.Represents M) (native : NativeFunction) :
    ((m.defineNative native).1 = .ok () ↔ ∃ x, m.nativeStored? native = some x) ∧
      ∀ x, m.nativeStored? native = some x →
        (m.defineNative native).2.heap.native? x = some native := by
  have hi := h.intern native.name
  simp only [Machine.defineNative, nativeStored?]
  cases he : m.intern native.name with
  | mk answer m₁ =>
      rw [he] at hi
      cases answer with
      | error e => simp
      | ok key =>
          cases hx : (m₁.pin key).allocate (.native native) with
          | mk stored m₂ =>
              cases stored with
              | error e => simp [hx, Except.toOption]
              | ok x =>
                  have hm₂ := congrArg (fun r => (Prod.snd r).heap) hx
                  have hlive : m₂.heap.get? x = some (.native native) := by
                    rw [← hm₂]
                    exact Heap.allocate_get? (hi.pin key).sound.wellFormed (congrArg Prod.fst hx)
                  refine ⟨by simp [hx, Except.toOption], fun y hy => ?_⟩
                  simp only [hx, Except.toOption, Option.some.injEq] at hy ⊢
                  rw [← hy]
                  exact Heap.native?_eq_some.mpr ((Heap.get?_unpin ..).trans hlive)

/-- A machine does with its globals what a map from names to values would do. -/
structure Implements (m : Machine) (M : Bindings) : Prop where
  represents : m.Represents M
  /-- Reading a global gives what its name is bound to, or reports the name. -/
  get : ∀ n name, m.next? = some (.getGlobal, n) → m.nameAt? n = some name →
    Exec.Ends Exec.step m.recordInstruction
      (fun _ m' => ∃ v, M.lookup name = some v ∧ m'.stack = m.stack.push v)
      fun halt _ => halt.fault? =
        some (if name ∈ M then .stackOverflow else .undefinedVariable name)
  /-- Setting a global overwrites what its name is bound to, or reports the name. -/
  set : ∀ n name v, m.next? = some (.setGlobal, n) → m.nameAt? n = some name →
    m.stack.back? = some v → Exec.Ends Exec.step m.recordInstruction
      (fun _ m' => name ∈ M ∧ m'.stack = m.stack ∧ m'.global? name = some v)
      fun halt _ => name ∉ M ∧ halt.fault? = some (.undefinedVariable name)
  /-- A name is bound to the native function that has just been defined. -/
  native : ∀ native, ((m.defineNative native).1 = .ok () ↔ ∃ x, m.nativeStored? native = some x) ∧
    ∀ x, m.nativeStored? native = some x → (m.defineNative native).2.heap.native? x = some native
  /-- No collection loses, splits or merges bindings, whoever asked for it. -/
  collected : ∀ pending,
    Represents { m with heap := (m.heap.collectFor m.roots pending).heap } M

/-- **Globals are a map keyed by name.** At every point of every history, through
collections and failures, the globals of a machine are what the history has bound,
and programs and hosts see no more and no less of them. -/
theorem globals_keyed_by_name {m : Machine} (h : m.Reached) :
    (∃ M, m.ReachedWith M) ∧ ∀ M, m.ReachedWith M → m.Implements M := by
  refine ⟨h.bindings, fun M hM => ?_⟩
  have hr := hM.represents
  exact
    { represents := hr
      get := fun _ _ => ends_getGlobal hr
      set := fun _ _ _ => ends_setGlobal hr
      native := defineNative_stored hr
      collected := fun pending => hr.collectFor pending m.journal }

/-! ## A script that defines a global and sets it -/

/-- The script: a name is bound to `true`, then to `false`. -/
def bindingScript : Chunk :=
  Chunk.copy
    { code := #[2, 8, 0, 3, 9, 0, 27]
      lines := Array.replicate 7 1
      constants := #[.object ⟨2, 0⟩] }

/-- A host defines the clock and interns the name, with a collection before every
allocation. -/
def bindingMachine : Machine :=
  (HostCall.intern "tick").apply ((HostCall.defineNative .clock).apply underStress)

/-- The heap while the script runs. -/
def bindingHeap (names : Std.HashMap String Handle) (t : Nat) (stats : HeapStats) : Heap :=
  (Heap.stocked { stress := true } [.string "clock", .native .clock, .string "tick",
    .function { chunk := bindingScript }] names #[]).noted t stats

/-- The globals before it runs. -/
def bindingGlobals : Std.HashMap Handle Value :=
  (∅ : Std.HashMap Handle Value).insert ⟨0, 0⟩ (.object ⟨1, 0⟩)

/-- What is bound then. -/
def clockBinding : Bindings :=
  (∅ : Bindings).insert "clock" (.object ⟨1, 0⟩)

/-- The machine in the middle of a run of the script. -/
def bindingAt (heap : Heap) (globals : Std.HashMap Handle Value) (ip : Nat)
    (operands : List Value) : Machine :=
  { underStress with
    heap
    globals
    stack := (.object ⟨3, 0⟩ :: operands).toArray
    frames := #[{ function := ⟨3, 0⟩, ip, base := 1 }] }

/-- The name survives the collection that storing the script costs, because the script refers
to it. -/
theorem bindingMachine_allocate : ∃ names t stats,
    bindingMachine.allocate (.function { chunk := bindingScript }) =
      (.ok ⟨3, 0⟩,
        { underStress with heap := bindingHeap names t stats, globals := bindingGlobals }) := by
  have hclock := (underStress_stocks {}).defineNative rfl (underStress_roots {}) rfl rfl .clock
  have hroots := roots_of_single (m := { underStress with globals := bindingGlobals }) rfl
  obtain ⟨m₁, hi, htick⟩ := hclock.intern rfl hroots rfl rfl (by decide) "tick" (by cbv) (by cbv)
  obtain ⟨m₂, ha, hsame, t, stats, hheap⟩ := htick.allocate
    (o := .function { chunk := bindingScript }) rfl hroots rfl rfl (by decide) (by cbv)
  rw [hheap] at hsame
  rw [show bindingMachine = m₁ from congrArg Prod.snd hi, ha]
  exact ⟨_, t, stats, Prod.ext rfl hsame⟩

theorem bindingMachine_idleWith : bindingMachine.IdleWith clockBinding := by
  have hstored : underStress.nativeStored? .clock = some ⟨1, 0⟩ := by
    have hroots := underStress_roots {}
    obtain ⟨m₁, hi, hnamed⟩ := (underStress_stocks {}).intern rfl hroots rfl rfl (by decide) "clock"
      (by simp) (by cbv)
    obtain ⟨m₂, ha, _⟩ := (hnamed.pin ⟨0, 0⟩).allocate (o := .native .clock) rfl hroots rfl rfl
      (by decide) (by cbv)
    rw [nativeStored?, show NativeFunction.clock.name = "clock" from rfl, hi]
    exact congrArg (fun r => r.1.toOption) ha
  have hfresh : Machine.start { registerBuiltins := false, heap := { stress := true } } {}
      .nothing {} = .ok underStress := rfl
  have hstart : underStress.IdleWith ∅ := .start hfresh
  have hcalls := IdleWith.call (.intern "tick") (.call (.defineNative .clock) hstart (by
    simp [HostCall.Returns, HostCall.outcome?])) (by simp [HostCall.Returns, HostCall.outcome?])
  simp only [HostCall.bindings, hstored, Option.elim_some] at hcalls
  exact hcalls

section

variable (names : Std.HashMap String Handle) (t : Nat) (stats : HeapStats)
  (globals : Std.HashMap Handle Value)

theorem binding_true :
    Exec.step (bindingAt (bindingHeap names t stats) globals 0 []).recordInstruction =
      .ok () (bindingAt (bindingHeap names t stats) globals 1 [.bool true]) := rfl

theorem binding_define :
    Exec.step (bindingAt (bindingHeap names t stats) globals 1 [.bool true]).recordInstruction =
      .ok () (bindingAt (bindingHeap names t stats) (globals.insert ⟨2, 0⟩ (.bool true)) 3 []) :=
  rfl

theorem binding_false :
    Exec.step (bindingAt (bindingHeap names t stats) globals 3 []).recordInstruction =
      .ok () (bindingAt (bindingHeap names t stats) globals 4 [.bool false]) := rfl

theorem binding_set (hbound : globals.contains ⟨2, 0⟩ = true) :
    Exec.step (bindingAt (bindingHeap names t stats) globals 4 [.bool false]).recordInstruction =
      .ok () (bindingAt (bindingHeap names t stats) (globals.insert ⟨2, 0⟩ (.bool false)) 6
        [.bool false]) := by
  have hstep : Exec.step
        (bindingAt (bindingHeap names t stats) globals 4 [.bool false]).recordInstruction =
      (if globals.contains ⟨2, 0⟩ then Exec.setGlobal ⟨2, 0⟩ (.bool false)
        else Exec.undefined ⟨2, 0⟩)
        (bindingAt (bindingHeap names t stats) globals 6 [.bool false]) := rfl
  rw [hstep, hbound]
  rfl

theorem binding_ret :
    Exec.step (bindingAt (bindingHeap names t stats) globals 6 [.bool false]).recordInstruction =
      .error (.returned (.bool false)) { bindingAt (bindingHeap names t stats) globals 7 [] with
        stack := #[]
        frames := #[] } := rfl

/-- What the script's instructions make of the bindings. -/
theorem binding_rebind (M : Bindings) :
    (bindingAt (bindingHeap names t stats) globals 0 []).rebind M = M ∧
      (bindingAt (bindingHeap names t stats) globals 1 [.bool true]).rebind M =
        M.insert "tick" (.bool true) ∧
      (bindingAt (bindingHeap names t stats) globals 3 []).rebind M = M ∧
      (bindingAt (bindingHeap names t stats) globals 4 [.bool false]).rebind M =
        if "tick" ∈ M then M.insert "tick" (.bool false) else M :=
  ⟨rfl, rfl, rfl, rfl⟩

end

/-- A name is defined and then set by a script. What it is bound to survives a collection, and
so does the clock. -/
theorem globals_keyed_by_name_script :
    let m := HostCall.collect.apply ((HostCall.run 5 bindingScript).apply bindingMachine)
    (∃ m' : Machine, m'.Reached ∧ m'.next? = some (.setGlobal, 0) ∧
      m'.global? "tick" = some (.bool true)) ∧
    m.Reached ∧ m.global? "tick" = some (.bool false) ∧
      m.global? "clock" = some (.object ⟨1, 0⟩) ∧ m.globals.size = 2 := by
  intro m
  obtain ⟨names, t, stats, hscript⟩ := bindingMachine_allocate
  have hbound : (bindingGlobals.insert ⟨2, 0⟩ (.bool true)).contains ⟨2, 0⟩ = true := by simp
  have henter : enter ⟨3, 0⟩ (begun { underStress with
      heap := bindingHeap names t stats, globals := bindingGlobals } ⟨3, 0⟩) =
    .ok () (bindingAt (bindingHeap names t stats) bindingGlobals 0 []) := rfl
  -- the boundary between the two instructions
  have hdefined : ReachedWith
      (bindingAt (bindingHeap names t stats) (bindingGlobals.insert ⟨2, 0⟩ (.bool true)) 4
        [.bool false])
      (clockBinding.insert "tick" (.bool true)) :=
    Or.inr ⟨_, _, _, _, .run 5 bindingScript, bindingMachine_idleWith, hscript,
      (((InRunWith.enter henter).step (binding_true ..)).step (binding_define ..)).step
        (binding_false ..)⟩
  have hrun : (bindingMachine.run 5 bindingScript).1 = .finished (.bool false) := by
    rw [Machine.run, hscript]
    simp only [runFunction_eq, launch, henter, steps, binding_true, binding_define, binding_false,
      binding_set names t stats _ hbound, binding_ret]
    rfl
  have hbindings : (HostCall.run 5 bindingScript).bindings bindingMachine clockBinding =
      (clockBinding.insert "tick" (.bool true)).insert "tick" (.bool false) := by
    have hmem : "tick" ∈ clockBinding.insert "tick" (.bool true) :=
      Finmap.mem_insert.mpr (Or.inl rfl)
    simp only [HostCall.bindings, hscript, runBindings, henter, stepsBindings, binding_true,
      binding_define, binding_false, binding_set names t stats _ hbound, binding_ret,
      binding_rebind, hmem, if_true]
  have hM : m.IdleWith ((clockBinding.insert "tick" (.bool true)).insert "tick" (.bool false)) := by
    rw [← hbindings]
    exact .call .collect (.call (.run 5 bindingScript) bindingMachine_idleWith (by
      simp [HostCall.Returns, HostCall.outcome?, hrun])) (by
      simp [HostCall.Returns, HostCall.outcome?])
  have hbefore := ((globals_keyed_by_name hdefined.reached).2 _ hdefined).represents
  have hafter := ((globals_keyed_by_name (Or.inl hM.idle)).2 _ (Or.inl hM)).represents
  refine ⟨⟨_, hdefined.reached, rfl, ?_⟩, Or.inl hM.idle, ?_, ?_, ?_⟩
  · rw [hbefore.lookup, Finmap.lookup_insert]
  · rw [hafter.lookup, Finmap.lookup_insert]
  · rw [hafter.lookup, Finmap.lookup_insert_of_ne _ (by decide),
      Finmap.lookup_insert_of_ne _ (by decide), clockBinding, Finmap.lookup_insert]
  · rw [hafter.size]
    rfl

end Machine

end StackMachine
