import StackMachine.Proofs.Machine.Closed

/-!
# The depth of the stack

A function can be checked before it runs. The check assigns to offsets of its
code the number of values that its own call has on the stack there, arguments
included. An assignment is a *certificate* if every instruction at an assigned
offset finds what it needs and leaves the depth that its successors are assigned.

The calls of a machine *fit together* if each of them stands at an assigned offset
of a certified function, and the depths add up to the height of the stack.
-/

namespace StackMachine

namespace Opcode

/-- How many values an instruction with operand `n` takes off the stack or looks
at there. -/
def needs (n : Nat) : Opcode → Nat
  | pop | not | negate | print | jumpIfFalse | defineGlobal | setGlobal | ret => 1
  | equal | notEqual | greater | greaterEqual | less | lessEqual => 2
  | add | subtract | multiply | divide => 2
  | call => n + 1
  | _ => 0

/-- By how much an instruction with operand `n` changes the height of the stack. A
call counts with the return from it. -/
def effect (n : Nat) : Opcode → Int
  | constant | pushNil | pushTrue | pushFalse | getLocal | getGlobal => 1
  | pop | defineGlobal | print | jumpIfFalse => -1
  | equal | notEqual | greater | greaterEqual | less | lessEqual => -1
  | add | subtract | multiply | divide => -1
  | call => -n
  | _ => 0

/-- Where execution can go on after an instruction with operand `n`, given the
offset behind it. -/
def successors (next n : Nat) : Opcode → List Int
  | jump => [Chunk.jumpTarget jump next n]
  | loop => [Chunk.jumpTarget loop next n]
  | jumpIfFalse => [(next : Int), Chunk.jumpTarget jumpIfFalse next n]
  | ret => []
  | _ => [(next : Int)]

/-- Whether an operand names something that is there: a constant, a constant that
is a live string, or a value of the own call. -/
def Fits (heap : Heap) (f : BytecodeFunction) (n depth : Nat) : Opcode → Prop
  | constant => n < f.chunk.constants.size
  | getGlobal | defineGlobal | setGlobal =>
    ∃ x s, f.chunk.constant? n = some (.object x) ∧ heap.string? x = some s
  | getLocal | setLocal => n < depth
  | _ => True

end Opcode

namespace BytecodeFunction

/-- The assignment `depth` of stack depths to offsets is a certificate of `f`. -/
structure Certified (heap : Heap) (f : BytecodeFunction) (depth : Nat → Option Nat) : Prop where
  entry : depth 0 = some f.arity.toNat
  instruction : ∀ offset d, depth offset = some d → ∃ op n,
    f.chunk.decode offset = .instruction op n ∧ op.needs n ≤ d ∧ op.Fits heap f n d ∧
    ∀ s ∈ op.successors (offset + 1 + op.operandWidth) n, ∃ offset' d' : Nat,
      s = (offset' : Int) ∧ depth offset' = some d' ∧ (d' : Int) = d + op.effect n

/-- Whether a function has a certificate. -/
def WellFormed (heap : Heap) (f : BytecodeFunction) : Prop :=
  ∃ depth, f.Certified heap depth

end BytecodeFunction

/-- Whether every live function has a certificate. -/
def Heap.Verified (h : Heap) : Prop :=
  ∀ x f, h.function? x = some f → f.WellFormed h

/-- The calls, the innermost first, fit together on a stack of the given height.
Below the values of a call lie those of its caller and the callee, which makes
room for the result. -/
inductive CallsFit (heap : Heap) : List Frame → Nat → Prop where
  | bottom : CallsFit heap [] 1
  | call {f : Frame} {rest : List Frame} {g : BytecodeFunction} {depth : Nat → Option Nat}
      {d : Nat} : CallsFit heap rest f.base → heap.function? f.function = some g →
      g.Certified heap depth → depth f.ip = some d → CallsFit heap (f :: rest) (f.base + d)

/-- A machine between two instructions of certified functions. -/
structure Machine.Running (m : Machine) : Prop where
  active : m.frames ≠ #[]
  calls : CallsFit m.heap m.frames.toList.reverse m.stack.size

/-! ## Checking a certificate -/

/-- `Opcode.Fits` by computation. -/
def Opcode.fits (heap : Heap) (f : BytecodeFunction) (n depth : Nat) : Opcode → Bool
  | constant => n < f.chunk.constants.size
  | getGlobal | defineGlobal | setGlobal =>
    (f.chunk.constant? n).any fun v => v.handle?.any fun x => (heap.string? x).isSome
  | getLocal | setLocal => n < depth
  | _ => true

theorem Opcode.fits_iff {heap : Heap} {f : BytecodeFunction} {n d : Nat} {op : Opcode} :
    op.fits heap f n d = true ↔ op.Fits heap f n d := by
  have hname : ((f.chunk.constant? n).any fun v => v.handle?.any fun x =>
      (heap.string? x).isSome) = true ↔
      ∃ x s, f.chunk.constant? n = some (.object x) ∧ heap.string? x = some s := by
    cases f.chunk.constant? n with
    | none => simp
    | some v => cases v <;> simp [Value.handle?, Option.isSome_iff_exists]
  cases op with
  | getGlobal => exact hname
  | defineGlobal => exact hname
  | setGlobal => exact hname
  | _ => simp [fits, Fits]

namespace BytecodeFunction

/-- Whether the instruction at an offset finds what it needs and leaves the depths that its
successors are assigned. -/
def agrees (heap : Heap) (f : BytecodeFunction) (depth : Nat → Option Nat) (offset d : Nat) :
    Bool :=
  match f.chunk.decode offset with
  | .instruction op n =>
    op.needs n ≤ d && op.fits heap f n d &&
      (op.successors (offset + 1 + op.operandWidth) n).all fun s =>
        0 ≤ s && (depth s.toNat).any fun d' : Nat => (d' : Int) == d + op.effect n
  | _ => false

/-- Whether a list of offsets with their depths is a certificate. -/
def checks (heap : Heap) (f : BytecodeFunction) (depths : List (Nat × Nat)) : Bool :=
  depths.lookup 0 == some f.arity.toNat &&
    depths.all fun (offset, d) => f.agrees heap (depths.lookup ·) offset d

/-- The check is sound. -/
theorem certified_of_checks {heap : Heap} {f : BytecodeFunction} {depths : List (Nat × Nat)}
    (h : f.checks heap depths = true) : f.Certified heap (depths.lookup ·) := by
  simp only [checks, Bool.and_eq_true, beq_iff_eq, List.all_eq_true] at h
  refine ⟨h.1, fun offset d hd => ?_⟩
  obtain ⟨before, after, hdepths, _⟩ := List.lookup_eq_some_iff.mp hd
  have hagrees := h.2 (offset, d) (by rw [hdepths]; simp)
  unfold agrees at hagrees
  split at hagrees
  · rename_i op n hop
    simp only [Bool.and_eq_true, decide_eq_true_eq, List.all_eq_true] at hagrees
    obtain ⟨⟨hneeds, hfits⟩, hnext⟩ := hagrees
    refine ⟨op, n, hop, hneeds, Opcode.fits_iff.mp hfits, fun s hs => ?_⟩
    obtain ⟨hpos, hdepth⟩ := hnext s hs
    obtain ⟨d', hd', heffect⟩ := (Option.any_eq_true _ _).mp hdepth
    exact ⟨s.toNat, d', (Int.toNat_of_nonneg hpos).symm, hd', beq_iff_eq.mp heffect⟩
  · exact absurd hagrees (by simp)

end BytecodeFunction

/-! ## Certificates survive -/

theorem Opcode.Fits.transfer {h h' : Heap} {f : BytecodeFunction} {n d : Nat} {op : Opcode}
    (hf : op.Fits h f n d)
    (hnames : ∀ x, f.RefersTo x → ∀ s, h.string? x = some s → h'.string? x = some s) :
    op.Fits h' f n d := by
  have hname : (∃ x s, f.chunk.constant? n = some (.object x) ∧ h.string? x = some s) →
      ∃ x s, f.chunk.constant? n = some (.object x) ∧ h'.string? x = some s := by
    rintro ⟨x, s, hx, hs⟩
    exact ⟨x, s, hx, hnames x (Or.inr (Array.mem_of_getElem? hx)) s hs⟩
  cases op with
  | getGlobal => exact hname hf
  | defineGlobal => exact hname hf
  | setGlobal => exact hname hf
  | _ => exact hf

/-- A certificate depends on the heap by the names that the function uses. -/
theorem BytecodeFunction.Certified.transfer {h h' : Heap} {f : BytecodeFunction}
    {depth : Nat → Option Nat} (hc : f.Certified h depth)
    (hnames : ∀ x, f.RefersTo x → ∀ s, h.string? x = some s → h'.string? x = some s) :
    f.Certified h' depth := by
  refine ⟨hc.entry, fun offset d hd => ?_⟩
  obtain ⟨op, n, hop, hneeds, hfits, hnext⟩ := hc.instruction offset d hd
  exact ⟨op, n, hop, hneeds, hfits.transfer hnames, hnext⟩

namespace Machine

variable {m m' m'' : Machine}

/-- A function that outlives interning keeps its certificates. -/
theorem intern_certified (hw : m.heap.WellFormed) (text : String) {x : Handle}
    {f : BytecodeFunction} (hx : (m.intern text).2.heap.function? x = some f) :
    m.heap.function? x = some f ∧
      ∀ depth, f.Certified m.heap depth → f.Certified (m.intern text).2.heap depth := by
  rw [Heap.function?_eq_some] at hx
  rcases (Heap.intern_evolves hw m.roots text).within x _ hx with hnew | ⟨hold, hkeep⟩
  · exact absurd hnew (by simp)
  · refine ⟨Heap.function?_eq_some.mpr hold, fun depth hc => hc.transfer fun y hy s hs => ?_⟩
    rw [Heap.string?_eq_some] at hs ⊢
    exact hkeep y (mem_children.mpr ⟨f, rfl, hy⟩) _ hs

/-- That all live functions have certificates is a stable property. -/
theorem stable_verified : Stable fun m => m.heap.WellFormed ∧ m.heap.Verified := by
  refine ⟨fun h hheap _ => ?_, fun {m} text h => ?_, fun _ _ h => h⟩
  · simp only [hheap]; exact h
  · refine ⟨Heap.intern_wellFormed h.1 m.roots text, fun x f hx => ?_⟩
    obtain ⟨hold, hkeep⟩ := intern_certified h.1 text hx
    obtain ⟨depth, hc⟩ := h.2 x f hold
    exact ⟨depth, hkeep depth hc⟩

/-- The functions of all calls are as they were, certificates included. -/
def KeepsFunctions (m m' : Machine) : Prop :=
  ∀ f ∈ m.frames, ∀ g, m.heap.function? f.function = some g →
    m'.heap.function? f.function = some g ∧
    ∀ depth, g.Certified m.heap depth → g.Certified m'.heap depth

theorem keepsFunctions_of_heap_eq (h : m'.heap = m.heap) : m.KeepsFunctions m' := by
  intro f _ g hg
  rw [h]
  exact ⟨hg, fun _ => id⟩

theorem KeepsFunctions.trans (h : m.KeepsFunctions m') (hframes : m'.frames = m.frames)
    (h' : m'.KeepsFunctions m'') : m.KeepsFunctions m'' := by
  intro f hf g hg
  obtain ⟨hg', hc⟩ := h f hf g hg
  obtain ⟨hg'', hc'⟩ := h' f (by rw [hframes]; exact hf) g hg'
  exact ⟨hg'', fun depth hd => hc' depth (hc depth hd)⟩

/-- The functions of calls are roots, so a collection does not touch them. -/
theorem keepsFunctions_intern (hw : m.heap.WellFormed) (text : String) :
    m.KeepsFunctions (m.intern text).2 := by
  intro f hf g hg
  have hroot : f.function ∈ m.roots := mem_roots.mpr (Or.inr (Or.inl ⟨f, hf, rfl⟩))
  have hget := Heap.function?_eq_some.mp hg
  have hkept := (Heap.intern_evolves hw m.roots text).kept f.function
    (.root (List.mem_append_left _ hroot) hget)
  have hg' : (m.intern text).2.heap.function? f.function = some g :=
    Heap.function?_eq_some.mpr (hkept.trans hget)
  exact ⟨hg', (intern_certified hw text hg').2⟩

/-- The machine `m'` has the values, the calls and the settings of `m`, and the
functions of the calls are as they were. -/
structure Undisturbed (m m' : Machine) : Prop where
  wellFormed : m'.heap.WellFormed
  config : m'.config = m.config
  stack : m'.stack = m.stack
  frames : m'.frames = m.frames
  functions : m.KeepsFunctions m'

namespace Undisturbed

theorem refl (hw : m.heap.WellFormed) : m.Undisturbed m :=
  ⟨hw, rfl, rfl, rfl, keepsFunctions_of_heap_eq rfl⟩

theorem trans (h : m.Undisturbed m') (h' : m'.Undisturbed m'') : m.Undisturbed m'' :=
  ⟨h'.wellFormed, h'.config.trans h.config, h'.stack.trans h.stack, h'.frames.trans h.frames,
    h.functions.trans h.frames h'.functions⟩

theorem intern (hw : m.heap.WellFormed) (text : String) : m.Undisturbed (m.intern text).2 :=
  ⟨Heap.intern_wellFormed hw m.roots text, rfl, rfl, rfl, keepsFunctions_intern hw text⟩

/-- A native function can intern strings and nothing else. -/
theorem runPrimitive (hw : m.heap.WellFormed) (p : Primitive) :
    ∃ r m', Exec.runPrimitive p m = .ok r m' ∧ m.Undisturbed m' := by
  induction p generalizing m with
  | done result => exact ⟨result, m, rfl, refl hw⟩
  | inspect next ih => exact ih m.heap.view hw
  | intern text next ih =>
      have hi := intern hw text
      obtain ⟨r, m', hrun, h⟩ := ih (m.intern text).1 hi.wellFormed
      exact ⟨r, m', hrun, hi.trans h⟩
  | look next ih =>
      obtain ⟨r, m', hrun, h⟩ := ih m.world.now (m := { m with world := m.world.later }) hw
      exact ⟨r, m', hrun, ⟨h.wellFormed, h.config, h.stack, h.frames, h.functions⟩⟩

end Undisturbed

end Machine

theorem CallsFit.transfer {m m' : Machine} {frames : List Frame} {height : Nat}
    (h : CallsFit m.heap frames height) (hframes : ∀ f ∈ frames, f ∈ m.frames)
    (hkeep : m.KeepsFunctions m') : CallsFit m'.heap frames height := by
  induction h with
  | bottom => exact .bottom
  | @call f rest g depth d hrest hg hc hd ih =>
      obtain ⟨hg', hc'⟩ := hkeep f (hframes f List.mem_cons_self) g hg
      exact .call (ih fun k hk => hframes k (List.mem_cons_of_mem f hk)) hg' (hc' depth hc) hd

/-- There is always something below the values of a call. -/
theorem CallsFit.pos {heap : Heap} {frames : List Frame} {height : Nat}
    (h : CallsFit heap frames height) : 0 < height := by
  induction h with
  | bottom => exact Nat.one_pos
  | call _ _ _ _ ih => omega

/-- A call fits on its callers wherever its certificate has a depth for it. -/
theorem CallsFit.push {heap : Heap} {rest : Array Frame} {f : Frame} {g : BytecodeFunction}
    {depth : Nat → Option Nat} {d : Nat} (hcallers : CallsFit heap rest.toList.reverse f.base)
    (hg : heap.function? f.function = some g) (hc : g.Certified heap depth)
    (hd : depth f.ip = some d) :
    CallsFit heap (rest.push f).toList.reverse (f.base + d) := by
  rw [Array.toList_push, List.reverse_append]
  exact .call hcallers hg hc hd

/-! ## Instructions change the height as they should -/

/-- How a run of certified functions may halt: with a result and nothing left on
the stacks, or with an error that is not about the bytecode. -/
def Halt.Proper (halt : Halt) (m : Machine) : Prop :=
  match halt with
  | returned _ => m.stack = #[] ∧ m.frames = #[]
  | failed (.runtime _) | failed (.outOfMemory _) | failed (.output _) => True
  | failed (.compile _) | failed (.corruptBytecode _ _) => False
  | crashed => False

/-- The machine `m'` has the calls of `m`, and its stack is higher by `k`. -/
structure Machine.Shifted (k : Int) (m m' : Machine) : Prop where
  frames : m'.frames = m.frames
  functions : m.KeepsFunctions m'
  height : (m'.stack.size : Int) = m.stack.size + k

namespace Machine.Shifted

variable {m m' m'' : Machine} {k : Int}

theorem refl (m : Machine) : Shifted 0 m m :=
  ⟨rfl, keepsFunctions_of_heap_eq rfl, by simp⟩

/-- Whatever leaves heap and calls alone has only to keep count of the values. -/
theorem change {k' : Int} (h : Shifted k m m') (hheap : m''.heap = m'.heap)
    (hframes : m''.frames = m'.frames)
    (hsize : (m''.stack.size : Int) = m'.stack.size + (k' - k)) : Shifted k' m m'' := by
  have hheight := h.height
  exact ⟨hframes.trans h.frames, h.functions.trans h.frames (keepsFunctions_of_heap_eq hheap),
    by omega⟩

theorem setStack {k' : Int} (h : Shifted k m m') {stack : Array Value}
    (hsize : (stack.size : Int) = m'.stack.size + (k' - k)) : Shifted k' m { m' with stack } :=
  h.change rfl rfl hsize

theorem setGlobals (h : Shifted k m m') (globals : Std.HashMap Handle Value) :
    Shifted k m { m' with globals } :=
  h.change rfl rfl (by simp)

theorem setOutput (h : Shifted k m m') (output : Output) : Shifted k m { m' with output } :=
  h.change rfl rfl (by simp)

theorem intern (hw : m.heap.WellFormed) (text : String) : Shifted 0 m (m.intern text).2 :=
  ⟨rfl, keepsFunctions_intern hw text, by simp [Machine.intern, absorb]⟩

end Machine.Shifted

namespace Exec

open Machine

variable {m m' : Machine} {k : Int}

/-- A native function is given values that are on the stack, with its callee below
them, and one value takes their place. -/
theorem ends_callNative_undisturbed (hw : m.heap.WellFormed) (native : NativeFunction) {argc : Nat}
    (hargc : argc < m.stack.size) {Q : Unit → Machine → Prop} {E : Halt → Machine → Prop}
    (hok : ∀ m₁ v, m.Undisturbed m₁ →
      Q () { m₁ with stack := (m.stack.take (m.stack.size - argc - 1)).push v })
    (herr : ∀ e m', E (.failed (.runtime e)) m') : Ends (callNative native argc) m Q E := by
  refine ends_callNative (fun _ _ => ?_) (fun _ => herr _ _) fun hshort => absurd hshort (by omega)
  obtain ⟨r, m₁, hrun, hu⟩ :=
    Undisturbed.runPrimitive hw (native.body (m.stack.extract (m.stack.size - argc)))
  refine ends_of_ok hrun ?_
  cases r with
  | error text => exact herr _ _
  | ok v =>
      have hcallee : ¬ m.stack.size - argc = 0 := by omega
      dsimp only
      rw [if_neg hcallee]
      refine ends_push (fun _ => ?_) fun _ => herr _ _
      simp only [hu.stack]
      exact hok m₁ v hu

theorem shifted_push (h : Shifted k m m') {v : Value} :
    Ends (push v) m' (fun _ => Shifted (k + 1) m) Halt.Proper :=
  ends_push (fun _ => h.setStack (by rw [Array.size_push]; omega)) fun _ => trivial

theorem shifted_pop (h : Shifted k m m') (hsize : 0 < (m.stack.size : Int) + k) :
    Ends pop m' (fun _ => Shifted (k - 1) m) Halt.Proper := by
  have hheight := h.height
  refine ends_pop (fun values v hv => h.setStack ?_) fun hempty => ?_
  · rw [hv, Array.size_push]; omega
  · rw [hempty, List.size_toArray, List.length_nil] at hheight; omega

theorem shifted_take (hsize : 1 ≤ m.stack.size) :
    Ends pop m (fun _ => Shifted (-1) m) Halt.Proper :=
  shifted_pop (.refl m) (by omega)

/-- Looking at a value that is there does nothing. -/
theorem ends_peek_of_lt {distance : Nat} (h : distance < m.stack.size) :
    Ends (peek distance) m (fun _ m' => m' = m) Halt.Proper :=
  ends_peek (fun _ _ _ => rfl) fun hle => absurd h (by omega)

/-- Two values give way to one that is made of them. -/
theorem shifted_replaceTwo (h : Shifted 0 m m') (hsize : 2 ≤ m.stack.size)
    (result : Value → Value → Value) :
    Ends (do let b ← pop; let a ← pop; push (result a b)) m' (fun _ => Shifted (-1) m)
      Halt.Proper := by
  refine ends_bind ((shifted_pop h (by omega)).mono (fun b m₁ h₁ => ?_) fun _ _ => id)
  refine ends_bind ((shifted_pop h₁ (by omega)).mono (fun a m₂ h₂ => ?_) fun _ _ => id)
  exact shifted_push h₂

theorem shifted_binary (hsize : 2 ≤ m.stack.size)
    (op : Value → Value → Except OperandError Value) :
    Ends (binary op) m (fun _ => Shifted (-1) m) Halt.Proper := by
  refine ends_bind ((ends_peek_of_lt (by omega)).mono ?_ fun _ _ => id)
  rintro b _ rfl
  refine ends_bind ((ends_peek_of_lt (by omega)).mono ?_ fun _ _ => id)
  rintro a _ rfl
  refine ends_bind (ends_orMismatch (fun r _ => ?_) fun _ _ => trivial)
  exact shifted_replaceTwo (.refl _) hsize fun _ _ => r

theorem shifted_add (hw : m.heap.WellFormed) (hsize : 2 ≤ m.stack.size) :
    Ends add m (fun _ => Shifted (-1) m) Halt.Proper := by
  refine ends_bind ((ends_peek_of_lt (by omega)).mono ?_ fun _ _ => id)
  rintro b _ rfl
  refine ends_bind ((ends_peek_of_lt (by omega)).mono ?_ fun _ _ => id)
  rintro a _ rfl
  refine ends_get ?_
  split
  · rename_i joined _
    refine ends_bind (ends_intern (fun x m' hx => ?_) fun _ _ _ => trivial)
    have hi := Shifted.intern hw joined
    rw [hx] at hi
    exact shifted_replaceTwo hi hsize fun _ _ => .object x
  · refine ends_bind (ends_orMismatch (fun r _ => ?_) fun _ _ => trivial)
    exact shifted_replaceTwo (.refl _) hsize fun _ _ => r

end Exec

/-- A machine that has read an instruction of a certified function and is about to
execute it. The pointer of the innermost call stands behind the instruction. -/
structure Machine.Executing (m : Machine) (op : Opcode) (n : Nat) (rest : Array Frame) (f : Frame)
    (g : BytecodeFunction) (depth : Nat → Option Nat) (d : Nat) : Prop where
  frames : m.frames = rest.push f
  callers : CallsFit m.heap rest.toList.reverse f.base
  height : m.stack.size = f.base + d
  function : m.heap.function? f.function = some g
  certified : g.Certified m.heap depth
  needs : op.needs n ≤ d
  fits : op.Fits m.heap g n d
  next : ∀ s ∈ op.successors f.ip n, ∃ offset d' : Nat,
    s = (offset : Int) ∧ depth offset = some d' ∧ (d' : Int) = d + op.effect n

namespace Machine.Executing

variable {m m' : Machine} {op : Opcode} {n : Nat} {rest : Array Frame} {f : Frame}
  {g : BytecodeFunction} {depth : Nat → Option Nat} {d : Nat}

/-- A machine that goes on at a successor, with its stack changed by the effect of
the instruction, is running. -/
theorem arrive (h : m.Executing op n rest f g depth d) {ip : Nat}
    (hip : (ip : Int) ∈ op.successors f.ip n)
    (hs : Shifted (op.effect n) { m with frames := rest.push { f with ip } } m') : m'.Running := by
  obtain ⟨offset, d', hoffset, hd', heffect⟩ := h.next _ hip
  have hip' : ip = offset := Int.ofNat.inj hoffset
  subst hip'
  have hfit := CallsFit.push (f := { f with ip }) h.callers h.function h.certified hd'
  have hheight := hs.height
  have hsize : m'.stack.size = f.base + d' := by
    have := h.height
    simp only at hheight
    omega
  refine ⟨by rw [hs.frames]; simp, ?_⟩
  rw [hs.frames, hsize]
  exact CallsFit.transfer (m := { m with frames := rest.push { f with ip } }) hfit
    (fun k hk => Array.mem_toList_iff.mp (List.mem_reverse.mp hk)) hs.functions

theorem arrive_next (h : m.Executing op n rest f g depth d)
    (hip : (f.ip : Int) ∈ op.successors f.ip n) (hs : Shifted (op.effect n) m m') :
    m'.Running := by
  have hm : { m with frames := rest.push { f with ip := f.ip } } = m := by
    show { m with frames := rest.push f } = m
    rw [← h.frames]
  exact h.arrive hip (by rw [hm]; exact hs)

/-- Every successor lies in the code, because an instruction stands there. -/
theorem inside (h : m.Executing op n rest f g depth d) {s : Int}
    (hs : s ∈ op.successors f.ip n) : 0 ≤ s ∧ s ≤ g.chunk.size := by
  obtain ⟨offset, d', rfl, hd', _⟩ := h.next s hs
  obtain ⟨op', n', hdecode, _⟩ := h.certified.instruction offset d' hd'
  have hlt : offset < g.chunk.size := by
    unfold Chunk.decode at hdecode
    cases hb : g.chunk.byte? offset with
    | none => rw [hb] at hdecode; exact absurd hdecode (by simp)
    | some b => exact (Array.getElem?_eq_some_iff.mp hb).1
  omega

end Machine.Executing

namespace Exec

open Machine

variable {m : Machine} {n : Nat} {rest : Array Frame} {f : Frame} {g : BytecodeFunction}
  {depth : Nat → Option Nat} {d : Nat}

/-- A name that the certificate vouches for is read. -/
theorem ends_name_of_fits (hf : m.frames = rest.push f) (hg : m.heap.function? f.function = some g)
    (hfits : ∃ x s, g.chunk.constant? n = some (.object x) ∧ m.heap.string? x = some s) :
    Ends (name n) m (fun _ m' => m' = m) Halt.Proper := by
  obtain ⟨x, s, hx, hs⟩ := hfits
  refine ends_name hf (fun _ _ _ _ _ _ => rfl)
    (fun hdead => absurd (hg.symm.trans hdead) (Option.some_ne_none g))
    (fun g' hg' hnone => ?_) fun g' v hg' hv hkind => ?_
  · obtain rfl : g = g' := Option.some.inj (hg.symm.trans hg')
    exact absurd (hx.symm.trans hnone) (Option.some_ne_none _)
  · obtain rfl : g = g' := Option.some.inj (hg.symm.trans hg')
    have hvx : v = .object x := Option.some.inj (hv.symm.trans hx)
    exact hkind x s hvx hs

/-- A jump to a successor goes on there, with whatever the instruction has left on
the stack. -/
theorem running_jump {op : Opcode} (h : m.Executing op n rest f g depth d)
    (htarget : Chunk.jumpTarget op f.ip n ∈ op.successors f.ip n) {values : Array Value}
    (hvalues : (values.size : Int) = m.stack.size + op.effect n) :
    Ends (jump op n) { m with stack := values } (fun _ m' => m'.Running) Halt.Proper := by
  refine ends_jump h.frames (fun _ ip _ hip _ => ?_)
    (fun hdead => absurd (h.function.symm.trans hdead) (Option.some_ne_none g))
    fun g' hg' hout => ?_
  · have harrived : (ip : Int) ∈ op.successors f.ip n := by
      rw [hip] at htarget
      exact htarget
    refine h.arrive harrived ((Shifted.refl _).setStack ?_)
    show (values.size : Int) = m.stack.size + (op.effect n - 0)
    rw [hvalues, Int.sub_zero]
  · obtain rfl : g = g' := Option.some.inj (h.function.symm.trans hg')
    exact absurd (h.inside htarget) hout

/-- **Instructions other than calls and returns keep a machine running.** -/
theorem running_perform {op : Opcode} (h : m.Executing op n rest f g depth d)
    (hw : m.heap.WellFormed) (hcall : op ≠ .call) (hret : op ≠ .ret) :
    Ends (perform op n) m (fun _ m' => m'.Running) Halt.Proper := by
  have hsize : op.needs n ≤ m.stack.size := h.height ▸ Nat.le_add_left_of_le h.needs
  have hfits := h.fits
  -- what goes on behind the instruction needs only the right height
  have hplain : ∀ {x : Exec Unit}, (f.ip : Int) ∈ op.successors f.ip n →
      Ends x m (fun _ => Shifted (op.effect n) m) Halt.Proper →
      Ends x m (fun _ m' => m'.Running) Halt.Proper := fun hip hx =>
    hx.mono (fun _ _ => h.arrive_next hip) fun _ _ => id
  cases op with
  | constant =>
      refine hplain List.mem_cons_self (ends_bind (ends_constant h.frames
        (fun _ _ _ _ => shifted_push (.refl m)) (fun hdead => ?_) fun g' hg' hnone => ?_))
      · exact absurd (h.function.symm.trans hdead) (Option.some_ne_none g)
      · obtain rfl : g = g' := Option.some.inj (h.function.symm.trans hg')
        exact absurd hfits (Nat.not_lt.mpr (Array.getElem?_eq_none_iff.mp hnone))
  | pushNil => exact hplain List.mem_cons_self (shifted_push (.refl m))
  | pushTrue => exact hplain List.mem_cons_self (shifted_push (.refl m))
  | pushFalse => exact hplain List.mem_cons_self (shifted_push (.refl m))
  | pop =>
      refine hplain List.mem_cons_self (ends_bind ?_)
      exact (shifted_take hsize).mono (fun _ _ h' => ends_pure h') fun _ _ => id
  | getLocal =>
      have hslot : f.base + n < m.stack.size := by
        rw [h.height]; exact Nat.add_lt_add_left hfits _
      refine hplain List.mem_cons_self (ends_bind (ends_localSlot h.frames (fun _ => ?_) fun hout =>
        absurd hslot (Nat.not_lt.mpr hout)))
      exact ends_bind (ends_getSlot (fun _ _ => shifted_push (.refl m)) fun hout =>
        absurd hslot (Nat.not_lt.mpr hout))
  | setLocal =>
      -- a slot of the own call is below the top, so there is a value to be stored
      have hslot : f.base + n < m.stack.size := by
        rw [h.height]; exact Nat.add_lt_add_left hfits _
      refine hplain List.mem_cons_self (ends_bind (ends_localSlot h.frames (fun _ => ?_) fun hout =>
        absurd hslot (Nat.not_lt.mpr hout)))
      refine ends_bind ((ends_peek_of_lt (by omega)).mono ?_ fun _ _ => id)
      rintro v _ rfl
      exact ends_setSlot (fun _ => Shifted.setStack (.refl _) (by simp [Opcode.effect])) fun hout =>
        absurd hslot (Nat.not_lt.mpr hout)
  | getGlobal =>
      refine hplain List.mem_cons_self (ends_bind
        ((ends_name_of_fits h.frames h.function hfits).mono ?_ fun _ _ => id))
      rintro key _ rfl
      refine ends_get ?_
      split
      · exact shifted_push (.refl _)
      · exact ends_undefined trivial
  | defineGlobal =>
      refine hplain List.mem_cons_self (ends_bind
        ((ends_name_of_fits h.frames h.function hfits).mono ?_ fun _ _ => id))
      rintro key _ rfl
      refine ends_bind ((ends_peek_of_lt hsize).mono ?_ fun _ _ => id)
      rintro v _ rfl
      refine ends_bind (ends_setGlobal (ends_bind ?_))
      refine (shifted_pop ((Shifted.refl _).setGlobals _) ?_).mono
        (fun _ _ h' => ends_pure h') fun _ _ => id
      exact Int.add_pos_of_pos_of_nonneg (Int.ofNat_lt.mpr hsize) (Int.le_refl 0)
  | setGlobal =>
      refine hplain List.mem_cons_self (ends_bind
        ((ends_name_of_fits h.frames h.function hfits).mono ?_ fun _ _ => id))
      rintro key _ rfl
      refine ends_bind ((ends_peek_of_lt hsize).mono ?_ fun _ _ => id)
      rintro v _ rfl
      refine ends_get ?_
      split
      · exact ends_setGlobal ((Shifted.refl _).setGlobals _)
      · exact ends_undefined trivial
  | equal => exact hplain List.mem_cons_self (shifted_replaceTwo (.refl m) hsize _)
  | notEqual => exact hplain List.mem_cons_self (shifted_replaceTwo (.refl m) hsize _)
  | greater => exact hplain List.mem_cons_self (shifted_binary hsize _)
  | greaterEqual => exact hplain List.mem_cons_self (shifted_binary hsize _)
  | less => exact hplain List.mem_cons_self (shifted_binary hsize _)
  | lessEqual => exact hplain List.mem_cons_self (shifted_binary hsize _)
  -- joining strings may collect, but not the functions of calls
  | add => exact hplain List.mem_cons_self (shifted_add hw hsize)
  | subtract => exact hplain List.mem_cons_self (shifted_binary hsize _)
  | multiply => exact hplain List.mem_cons_self (shifted_binary hsize _)
  | divide => exact hplain List.mem_cons_self (shifted_binary hsize _)
  | not =>
      refine hplain List.mem_cons_self (ends_bind ?_)
      exact (shifted_take hsize).mono (fun _ _ h' => shifted_push h') fun _ _ => id
  | negate =>
      refine hplain List.mem_cons_self (ends_bind ((ends_peek_of_lt hsize).mono ?_ fun _ _ => id))
      rintro v _ rfl
      refine ends_bind (ends_orMismatch (fun r _ => ends_bind ?_) fun _ _ => trivial)
      exact (shifted_take hsize).mono (fun _ _ h' => shifted_push h') fun _ _ => id
  | print =>
      refine hplain List.mem_cons_self (ends_bind ?_)
      exact (shifted_take hsize).mono
        (fun _ _ h' => ends_print (fun _ _ => h'.setOutput _) fun _ _ => trivial) fun _ _ => id
  | jump => exact running_jump h List.mem_cons_self (by simp [Opcode.effect])
  | loop => exact running_jump h List.mem_cons_self (by simp [Opcode.effect])
  | jumpIfFalse =>
      refine ends_bind (ends_pop (fun values v hv => ?_) fun hempty => ?_)
      · have hvalues : (values.size : Int) = m.stack.size + Opcode.jumpIfFalse.effect n := by
          rw [hv, Array.size_push, Opcode.effect]; omega
        split
        · exact running_jump h (List.mem_cons_of_mem _ List.mem_cons_self) hvalues
        · refine ends_pure (h.arrive_next List.mem_cons_self ((Shifted.refl m).setStack ?_))
          rw [hvalues]; omega
      · rw [hempty] at hsize
        exact absurd hsize (by simp [Opcode.needs])
  | call => exact absurd rfl hcall
  | ret => exact absurd rfl hret

end Exec

end StackMachine
