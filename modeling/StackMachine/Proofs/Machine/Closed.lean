import StackMachine.Proofs.Machine.Hosting

/-!
# No handle is left dangling

A machine is *closed* when every handle it can still use stands for a live
object: those on the stack, in the frames and in the globals, and those that a
live function refers to. All of them but the last kind are roots of every
collection, and what a function refers to survives with the function. So a
collection cannot break closedness, and it remains to see that each operation
which allocates still has everything it needs among the roots at that moment.

Native functions are the host's, and the host has to see to it that they answer
live objects; nothing else about them matters.
-/

namespace StackMachine

/-- Whether a value is no handle, or the handle of a live object. -/
def Value.LiveIn (heap : Heap) (v : Value) : Prop :=
  ∀ x, v = .object x → heap.contains x

/-- What a machine keeps between runs is live: the globals, and all that a live
function refers to. -/
structure Machine.Linked (m : Machine) : Prop where
  globals : ∀ k v, m.globals[k]? = some v → m.heap.contains k ∧ v.LiveIn m.heap
  functions : ∀ x f, m.heap.function? x = some f → ∀ y, f.RefersTo y → m.heap.contains y

/-- Every handle that the machine can still use stands for a live object: a
frame's for a function, the name of a global for a string. -/
structure Machine.Closed (m : Machine) : Prop extends Machine.Linked m where
  stack : ∀ v ∈ m.stack, v.LiveIn m.heap
  frames : ∀ f ∈ m.frames, ∃ g, m.heap.function? f.function = some g
  names : ∀ k v, m.globals[k]? = some v → ∃ s, m.heap.string? k = some s

/-- A closed machine with a sound heap, and what it has printed so far. -/
structure Machine.Safe (printed : Output) (m : Machine) : Prop where
  sound : m.heap.Sound
  closed : m.Closed
  output : m.output = printed

/-- Every native function that could be called now answers an immediate value or
an object that is live when it returns. Its arguments are the topmost values. -/
def Machine.Truthful (m : Machine) : Prop :=
  ∀ x n v m', m.heap.native? x = some n →
    Exec.runPrimitive (n.body (m.stack.extract (m.stack.size - n.arity.toNat))) m =
      .ok (.ok v) m' → v.LiveIn m'.heap

/-- Whether an error reports a handle that should have been live. -/
def Error.Dangling : Error → Prop
  | corruptBytecode _ (.deadCallee _) => True
  | corruptBytecode _ .noFunction => True
  | _ => False

/-- How a closed machine halts: with a live result, or with an error that is not
about a dead handle. -/
def Halt.Sane (heap : Heap) : Halt → Prop
  | .returned v => v.LiveIn heap
  | .failed e => ¬ e.Dangling
  | .crashed => True

/-- What a machine may have printed after one instruction: nothing more, or one of
its values, which was then live. -/
def Machine.Prints (m : Machine) (printed : Output) : Prop :=
  printed = m.output ∨
    ∃ v ∈ m.stack, v.LiveIn m.heap ∧ m.output.writeLine (m.display v) = .ok printed

/-! ## Live values -/

theorem Value.liveIn_nil (heap : Heap) : Value.nil.LiveIn heap := by
  intro x hx; exact absurd hx (by simp)

theorem Value.liveIn_bool (heap : Heap) (b : Bool) : (Value.bool b).LiveIn heap := by
  intro x hx; exact absurd hx (by simp)

theorem Value.liveIn_number (heap : Heap) (n : Number) : (Value.number n).LiveIn heap := by
  intro x hx; exact absurd hx (by simp)

theorem Value.liveIn_of_contains {heap : Heap} {x : Handle} (h : heap.contains x) :
    (Value.object x).LiveIn heap := by
  intro y hy
  rw [← Value.object.inj hy]
  exact h

theorem Value.liveIn_object {heap : Heap} {x : Handle} {o : Object} (h : heap.get? x = some o) :
    (Value.object x).LiveIn heap :=
  liveIn_of_contains (Heap.contains_iff.mpr ⟨o, h⟩)

/-- An operator on numbers answers no handle. -/
theorem Value.liveIn_onNumbers {op : Number → Number → Value} {a b v : Value} {heap : Heap}
    (hop : ∀ x y, (op x y).LiveIn heap) (h : Value.onNumbers op a b = .ok v) : v.LiveIn heap := by
  unfold Value.onNumbers at h
  split at h
  · rw [← Except.ok.inj h]; exact hop _ _
  · exact absurd h (by simp)

namespace Machine

namespace Safe

variable {m m' : Machine} {o : Output}

theorem regular (hs : m.Safe o) : m.Regular :=
  ⟨hs.sound, hs.closed.names⟩

/-- Whatever leaves heap and globals alone has only to put good values and calls
in place. -/
theorem change (hs : m.Safe o) (hheap : m'.heap = m.heap) (hglobals : m'.globals = m.globals)
    (hout : m'.output = m.output) (hstack : ∀ v ∈ m'.stack, v.LiveIn m.heap)
    (hframes : ∀ f ∈ m'.frames, ∃ g, m.heap.function? f.function = some g) : m'.Safe o := by
  refine ⟨by rw [hheap]; exact hs.sound, ⟨⟨?_, ?_⟩, ?_, ?_, ?_⟩, by rw [hout]; exact hs.output⟩
  · rw [hheap, hglobals]; exact hs.closed.globals
  · rw [hheap]; exact hs.closed.functions
  · rw [hheap]; exact hstack
  · rw [hheap]; exact hframes
  · rw [hheap, hglobals]; exact hs.closed.names

theorem setStack (hs : m.Safe o) {stack : Array Value} (h : ∀ v ∈ stack, v.LiveIn m.heap) :
    Machine.Safe o { m with stack } :=
  hs.change rfl rfl rfl h hs.closed.frames

theorem setFrames (hs : m.Safe o) {frames : Array Frame}
    (h : ∀ f ∈ frames, ∃ g, m.heap.function? f.function = some g) :
    Machine.Safe o { m with frames } :=
  hs.change rfl rfl rfl hs.closed.stack h

theorem setGlobal (hs : m.Safe o) {k : Handle} {v : Value} {s : String}
    (hk : m.heap.string? k = some s) (hv : v.LiveIn m.heap) :
    Machine.Safe o { m with globals := m.globals.insert k v } := by
  have hlive : m.heap.contains k := Heap.contains_iff.mpr ⟨_, Heap.string?_eq_some.mp hk⟩
  refine ⟨hs.sound, ⟨⟨fun k' v' h => ?_, hs.closed.functions⟩, hs.closed.stack, hs.closed.frames,
    (hs.regular.setGlobal v hk).names⟩, hs.output⟩
  simp only [Std.HashMap.getElem?_insert, beq_iff_eq] at h
  split at h
  · rename_i hkk
    rw [← hkk, ← Option.some.inj h]
    exact ⟨hlive, hv⟩
  · exact hs.closed.globals k' v' h

theorem setOutput (hs : m.Safe o) (output : Output) : Machine.Safe output { m with output } :=
  ⟨hs.sound, { hs.closed with }, rfl⟩

theorem record (hs : m.Safe o) (e : Event) : (m.record e).Safe o :=
  hs.change rfl rfl rfl hs.closed.stack hs.closed.frames

theorem recordInstruction (hs : m.Safe o) : m.recordInstruction.Safe o := by
  unfold Machine.recordInstruction
  split
  · exact hs
  · split
    · exact hs.record _
    · exact hs

theorem resetStacks (hs : m.Safe o) : m.resetStacks.Safe o :=
  hs.change rfl rfl rfl (by simp [Machine.resetStacks]) (by simp [Machine.resetStacks])

/-- **A collection keeps a machine closed**, and so does storing an object whose
references are live. -/
theorem evolve (hs : m.Safe o) {start : List Handle} {new : Handle → Object → Prop} {h' : Heap}
    (hsound : h'.Sound) (he : Heap.Evolves m.heap start new h')
    (hroots : ∀ x ∈ m.roots, x ∈ start)
    (hchildren : ∀ x o, new x o → ∀ y ∈ o.children, h'.contains y) (journal : Journal) :
    Machine.Safe o { m with heap := h', journal } := by
  have hkept : ∀ x d, x ∈ m.roots → m.heap.get? x = some d → h'.get? x = some d := by
    intro x d hx hd
    rw [he.kept x (.root (hroots x hx) hd)]
    exact hd
  have hlive : ∀ x, x ∈ m.roots → m.heap.contains x → h'.contains x := by
    intro x hx hc
    obtain ⟨d, hd⟩ := Heap.contains_iff.mp hc
    exact Heap.contains_iff.mpr ⟨d, hkept x d hx hd⟩
  refine ⟨hsound, ⟨⟨fun k v hk => ⟨?_, fun x hx => ?_⟩, ?_⟩, fun v hv x hx => ?_, fun f hf => ?_,
    (hs.regular.evolve hsound he hroots journal).names⟩, hs.output⟩
  -- globals, stack and frames are roots; what a function refers to stays with it
  · exact hlive k (mem_roots.mpr (Or.inr (Or.inr ⟨k, v, hk, Or.inl rfl⟩)))
      (hs.closed.globals k v hk).1
  · exact hlive x (mem_roots.mpr (Or.inr (Or.inr ⟨k, v, hk, Or.inr hx⟩)))
      ((hs.closed.globals k v hk).2 x hx)
  · intro x f hx y hy
    rw [Heap.function?_eq_some] at hx
    have hmem : y ∈ (Object.function f).children := mem_children.mpr ⟨f, rfl, hy⟩
    rcases he.within x _ hx with hn | ⟨hold, hkeep⟩
    · exact hchildren x _ hn y hmem
    · have hyl := hs.closed.functions x f (Heap.function?_eq_some.mpr hold) y hy
      obtain ⟨d, hd⟩ := Heap.contains_iff.mp hyl
      exact Heap.contains_iff.mpr ⟨d, hkeep y hmem d hd⟩
  · subst hx
    exact hlive x (mem_roots.mpr (Or.inl hv)) (hs.closed.stack _ hv x rfl)
  · obtain ⟨g, hg⟩ := hs.closed.frames f hf
    have hroot : f.function ∈ m.roots := mem_roots.mpr (Or.inr (Or.inl ⟨f, hf, rfl⟩))
    rw [Heap.function?_eq_some] at hg
    exact ⟨g, Heap.function?_eq_some.mpr (hkept _ _ hroot hg)⟩

theorem intern (hs : m.Safe o) (text : String) : (m.intern text).2.Safe o := by
  refine hs.evolve (hs.sound.intern m.roots text)
    (Heap.intern_evolves hs.sound.wellFormed m.roots text)
    (fun x hx => List.mem_append_left _ hx) ?_ _
  rintro x _ rfl y hy
  exact absurd hy (by simp [Object.children, Object.describe, Description.children])

theorem intern_get? (hs : m.Safe o) {text : String} {x : Handle}
    (h : (m.intern text).1 = .ok x) : (m.intern text).2.heap.get? x = some (.string text) :=
  Heap.intern_get? hs.sound.wellFormed hs.sound.faithful h

/-- Storing an object keeps a machine closed if all it refers to is live. -/
theorem allocate (hs : m.Safe o) {d : Object} (hd : ∀ s, d ≠ .string s)
    (hchildren : ∀ y ∈ d.children, m.heap.contains y) : (m.allocate d).2.Safe o := by
  have he := Heap.allocate_evolves hs.sound.wellFormed m.roots d
  refine hs.evolve (hs.sound.allocate m.roots hd) he
    (fun x hx => List.mem_append_left _ (List.mem_append_left _ hx)) ?_ _
  rintro x _ ⟨_, rfl⟩ y hy
  obtain ⟨c, hc⟩ := Heap.contains_iff.mp (hchildren y hy)
  refine Heap.contains_iff.mpr ⟨c, ?_⟩
  -- the references of the object being stored are part of the start
  rw [he.kept y (.root (List.mem_append_right _ hy) hc)]
  exact hc

theorem allocate_get? (hs : m.Safe o) {d : Object} {x : Handle} (h : (m.allocate d).1 = .ok x) :
    (m.allocate d).2.heap.get? x = some d :=
  Heap.allocate_get? hs.sound.wellFormed h

theorem collect (hs : m.Safe o) : m.collect.2.Safe o := by
  have hc := hs.sound.wellFormed.collection m.roots []
  exact hs.evolve (hs.sound.collect m.roots) (hc.evolves fun _ _ => False)
    (fun x hx => List.mem_append_left _ (List.mem_append_left _ hx)) (fun _ _ => False.elim) _

theorem pin (hs : m.Safe o) (x : Handle) : (m.pin x).Safe o :=
  ⟨hs.sound.pin x, { hs.closed with }, hs.output⟩

theorem unpin (hs : m.Safe o) (x : Handle) : (m.unpin x).Safe o :=
  have hview : (m.unpin x).heap = { m.heap with pinned := (m.heap.unpin x).pinned } :=
    m.heap.unpin_eq x
  have hc : Machine.Closed { m with heap := { m.heap with pinned := (m.heap.unpin x).pinned } } :=
    { hs.closed with }
  ⟨hs.sound.unpin x, by rw [← hview] at hc; exact hc, hs.output⟩

theorem push (hs : m.Safe o) {v : Value} (hv : v.LiveIn m.heap) :
    Machine.Safe o { m with stack := m.stack.push v } := by
  refine hs.setStack fun w hw => ?_
  rcases Array.mem_push.mp hw with hw | rfl
  · exact hs.closed.stack w hw
  · exact hv

theorem top_live (hs : m.Safe o) {values : Array Value} {v : Value}
    (h : m.stack = values.push v) : v.LiveIn m.heap :=
  hs.closed.stack v (by rw [h]; exact Array.mem_push_self)

theorem unpush (hs : m.Safe o) {values : Array Value} {v : Value} (h : m.stack = values.push v) :
    Machine.Safe o { m with stack := values } :=
  hs.setStack fun w hw => hs.closed.stack w (by rw [h]; exact Array.mem_push.mpr (Or.inl hw))

theorem take (hs : m.Safe o) (size : Nat) :
    Machine.Safe o { m with stack := m.stack.take size } := by
  refine hs.setStack fun w hw => ?_
  obtain ⟨i, _, rfl⟩ := Array.mem_extract_iff_getElem.mp hw
  exact hs.closed.stack _ (Array.getElem_mem _)

theorem slot_live (hs : m.Safe o) {i : Nat} {v : Value} (h : m.stack[i]? = some v) :
    v.LiveIn m.heap :=
  hs.closed.stack v (Array.mem_of_getElem? h)

theorem setPointer (hs : m.Safe o) {rest : Array Frame} {f : Frame}
    (hf : m.frames = rest.push f) (ip : Nat) :
    Machine.Safe o { m with frames := rest.push { f with ip } } := by
  refine hs.setFrames fun k hk => ?_
  rcases Array.mem_push.mp hk with hk | rfl
  · exact hs.closed.frames k (by rw [hf]; exact Array.mem_push.mpr (Or.inl hk))
  · exact hs.closed.frames f (by rw [hf]; exact Array.mem_push_self)

/-- A native function leaves a closed machine, whatever it does. -/
theorem runPrimitive (hs : m.Safe o) (p : Primitive) : ∃ r m',
    Exec.runPrimitive p m = .ok r m' ∧ m'.Safe o ∧ m'.stack = m.stack ∧ m'.frames = m.frames := by
  induction p generalizing m with
  | done result => exact ⟨result, m, rfl, hs, rfl, rfl⟩
  | inspect next ih => exact ih m.heap.view hs
  | intern text next ih => exact ih (m.intern text).1 (hs.intern text)
  | look next ih => exact ih m.world.now (hs.change rfl rfl rfl hs.closed.stack hs.closed.frames)

end Safe

end Machine

namespace Exec

open Machine

variable {m : Machine} {o : Output}

/-- How an action of a closed machine may halt it. -/
def Stops (printed : Output) (halt : Halt) (m : Machine) : Prop :=
  m.Safe printed ∧ halt.Sane m.heap

/-! ## Values and operators -/

theorem safe_push (hs : m.Safe o) {v : Value} (hv : v.LiveIn m.heap) :
    Ends (push v) m (fun _ m' => m'.Safe o) (Stops o) :=
  ends_push (fun _ => hs.push hv) fun _ => ⟨hs, id⟩

theorem safe_replaceTwo (hs : m.Safe o) {v : Value} (hv : v.LiveIn m.heap) :
    Ends (do let _ ← pop; let _ ← pop; push v) m (fun _ m' => m'.Safe o) (Stops o) := by
  refine ends_bind (ends_pop (fun values b hb => ?_) fun _ => ⟨hs, id⟩)
  have hs₁ := hs.unpush hb
  refine ends_bind (ends_pop (fun values' a ha => ?_) fun _ => ⟨hs₁, id⟩)
  exact safe_push (hs₁.unpush ha) hv

theorem safe_binary (hs : m.Safe o) {op : Value → Value → Except OperandError Value}
    (hop : ∀ a b r, op a b = .ok r → r.LiveIn m.heap) :
    Ends (binary op) m (fun _ m' => m'.Safe o) (Stops o) := by
  refine ends_bind (ends_peek (fun b _ _ => ?_) fun _ => ⟨hs, id⟩)
  refine ends_bind (ends_peek (fun a _ _ => ?_) fun _ => ⟨hs, id⟩)
  refine ends_bind (ends_orMismatch (fun r hr => ?_) fun _ _ => ⟨hs, id⟩)
  exact safe_replaceTwo hs (hop a b r hr)

theorem safe_arithmetic (hs : m.Safe o) (op : Number → Number → Number) :
    Ends (binary (Value.onNumbers fun x y => .number (op x y))) m (fun _ m' => m'.Safe o)
      (Stops o) :=
  safe_binary hs fun _ _ _ hr => Value.liveIn_onNumbers (fun _ _ => Value.liveIn_number _ _) hr

theorem safe_order (hs : m.Safe o) (op : Number → Number → Bool) :
    Ends (binary (Value.onNumbers fun x y => .bool (op x y))) m (fun _ m' => m'.Safe o)
      (Stops o) :=
  safe_binary hs fun _ _ _ hr => Value.liveIn_onNumbers (fun _ _ => Value.liveIn_bool _ _) hr

theorem safe_compare (hs : m.Safe o) (p : Value → Value → Bool) :
    Ends (compare p) m (fun _ m' => m'.Safe o) (Stops o) := by
  refine ends_bind (ends_pop (fun values b hb => ?_) fun _ => ⟨hs, id⟩)
  have hs₁ := hs.unpush hb
  refine ends_bind (ends_pop (fun values' a ha => ?_) fun _ => ⟨hs₁, id⟩)
  exact safe_push (hs₁.unpush ha) (Value.liveIn_bool _ _)

theorem safe_add (hs : m.Safe o) : Ends add m (fun _ m' => m'.Safe o) (Stops o) := by
  refine ends_bind (ends_peek (fun b _ _ => ?_) fun _ => ⟨hs, id⟩)
  refine ends_bind (ends_peek (fun a _ _ => ends_get ?_) fun _ => ⟨hs, id⟩)
  split
  · rename_i joined _
    -- the operands are still on the stack when the result is interned
    have hi := hs.intern joined
    refine ends_bind (ends_intern (fun x m' hx => ?_) fun e m' hx => ?_)
    · have hx' := hs.intern_get? (x := x) (congrArg Prod.fst hx)
      rw [hx] at hi hx'
      exact safe_replaceTwo hi (Value.liveIn_object hx')
    · rw [hx] at hi
      exact ⟨hi, id⟩
  · refine ends_bind (ends_orMismatch (fun r hr => ?_) fun _ _ => ⟨hs, id⟩)
    refine safe_replaceTwo hs ?_
    cases hab : a.add b with
    | ok r' =>
        rw [hab] at hr
        rw [← Except.ok.inj hr]
        exact Value.liveIn_onNumbers (fun _ _ => Value.liveIn_number _ _) hab
    | error e => rw [hab] at hr; cases hr

theorem safe_negate (hs : m.Safe o) (n : Nat) :
    Ends (perform .negate n) m (fun _ m' => m'.Safe o) (Stops o) := by
  refine ends_bind (ends_peek (fun v _ _ => ?_) fun _ => ⟨hs, id⟩)
  refine ends_bind (ends_orMismatch (fun r hr => ?_) fun _ _ => ⟨hs, id⟩)
  refine ends_bind (ends_pop (fun values w hw => ?_) fun _ => ⟨hs, id⟩)
  refine safe_push (hs.unpush hw) ?_
  cases v with
  | number n => rw [← Except.ok.inj hr]; exact Value.liveIn_number _ _
  | nil => exact absurd hr (by simp [Value.negate])
  | bool b => exact absurd hr (by simp [Value.negate])
  | object x => exact absurd hr (by simp [Value.negate])

/-! ## The innermost call -/

section

variable {rest : Array Frame} {f : Frame}

/-- The function of a closed machine's innermost call is there. -/
theorem frame_function (hs : m.Safe o) (hf : m.frames = rest.push f) :
    m.heap.function? f.function ≠ none := by
  obtain ⟨g, hg⟩ := hs.closed.frames f (by rw [hf]; exact Array.mem_push_self)
  rw [hg]
  simp

theorem safe_constant (hs : m.Safe o) (hf : m.frames = rest.push f) (n : Nat) :
    Ends (constant n) m (fun v m' => m' = m ∧ v.LiveIn m.heap) (Stops o) := by
  refine ends_constant hf (fun g v hg hv => ⟨rfl, fun x hx => ?_⟩)
    (fun hg => absurd hg (frame_function hs hf)) fun _ _ _ => ⟨hs, id⟩
  subst hx
  exact hs.closed.functions _ g hg x (Or.inr (Array.mem_of_getElem? hv))

theorem safe_name (hs : m.Safe o) (hf : m.frames = rest.push f) (n : Nat) :
    Ends (name n) m (fun x m' => m' = m ∧ ∃ s, m.heap.string? x = some s) (Stops o) :=
  ends_name hf (fun _ _ s _ _ hx => ⟨rfl, s, hx⟩)
    (fun hg => absurd hg (frame_function hs hf)) (fun _ _ _ => ⟨hs, id⟩) fun _ _ _ _ _ => ⟨hs, id⟩

theorem safe_jump (hs : m.Safe o) (hf : m.frames = rest.push f) (op : Opcode) (n : Nat) :
    Ends (jump op n) m (fun _ m' => m'.Safe o) (Stops o) :=
  ends_jump hf (fun _ target _ _ _ => hs.setPointer hf target)
    (fun hg => absurd hg (frame_function hs hf)) fun _ _ _ => ⟨hs, id⟩

/-! ## Calls -/

theorem safe_callFunction (hs : m.Safe o) {x : Handle} {g : BytecodeFunction}
    (hx : m.heap.get? x = some (.function g)) (argc : Nat) :
    Ends (callFunction x g.arity.toNat argc) m (fun _ m' => m'.Safe o) (Stops o) := by
  refine ends_callFunction (fun _ _ _ => hs.setFrames fun k hk => ?_) (fun _ => ⟨hs, id⟩)
    (fun _ => ⟨hs, id⟩) fun _ => ⟨hs, trivial⟩
  rcases Array.mem_push.mp hk with hk | rfl
  · exact hs.closed.frames k hk
  · exact ⟨g, Heap.function?_eq_some.mpr hx⟩

theorem safe_callNative (hs : m.Safe o) (ht : m.Truthful) {x : Handle} {n : NativeFunction}
    (hx : m.heap.get? x = some (.native n)) (argc : Nat) :
    Ends (callNative n argc) m (fun _ m' => m'.Safe o) (Stops o) := by
  refine ends_callNative (fun hargc _ => ?_) (fun _ => ⟨hs, id⟩) fun _ => ⟨hs, trivial⟩
  subst hargc
  obtain ⟨r, m', hrun, hs', _, _⟩ :=
    hs.runPrimitive (n.body (m.stack.extract (m.stack.size - n.arity.toNat)))
  refine ends_of_ok hrun ?_
  cases r with
  | error text => exact ⟨hs', id⟩
  | ok v =>
      -- the one place where closedness rests on the host
      have hv := ht x n v m' (Heap.native?_eq_some.mpr hx) hrun
      simp only
      split
      · exact ⟨hs', trivial⟩
      · exact safe_push (hs'.take _) hv

theorem safe_callValue (hs : m.Safe o) (ht : m.Truthful) {v : Value} (hv : v.LiveIn m.heap)
    (argc : Nat) : Ends (callValue v argc) m (fun _ m' => m'.Safe o) (Stops o) := by
  refine ends_callValue (fun x g _ hx => safe_callFunction hs hx argc)
    (fun x n _ hx => safe_callNative hs ht hx argc) (fun _ => ⟨hs, id⟩) fun x hvx hx => ?_
  obtain ⟨d, hd⟩ := Heap.contains_iff.mp (hv x hvx)
  exact absurd hd (by rw [hx]; simp)

theorem safe_ret (hs : m.Safe o) (hf : m.frames = rest.push f) :
    Ends ret m (fun _ m' => m'.Safe o) (Stops o) := by
  -- dropping the innermost call drops a root, which does no harm
  have hleave : ∀ {stack : Array Value}, Machine.Safe o { m with stack } →
      Machine.Safe o { m with stack, frames := rest } := fun h =>
    h.setFrames fun k hk =>
      hs.closed.frames k (by rw [hf]; exact Array.mem_push.mpr (Or.inl hk))
  refine ends_ret hf (fun _ => ⟨hs, id⟩) (fun values v hv _ => ⟨hleave (hs.unpush hv), trivial⟩)
    (fun values v hv _ _ => ?_) fun values v hv _ _ => ?_
  · exact ⟨hleave ((hs.unpush hv).take _), hs.top_live hv⟩
  · exact safe_push (hleave ((hs.unpush hv).take _)) (hs.top_live hv)

/-! ## Instructions -/

theorem safe_print (hs : m.Safe o) (n : Nat) :
    Ends (perform .print n) m (fun _ m' => ∃ printed, m'.Safe printed ∧ m.Prints printed)
      (Stops o) := by
  refine ends_bind (ends_pop (fun values v hv => ?_) fun _ => ⟨hs, id⟩)
  have hs₁ := hs.unpush hv
  refine ends_print (fun output hout => ?_) fun _ _ => ⟨hs₁, id⟩
  refine ⟨output, hs₁.setOutput output, Or.inr ⟨v, ?_, hs.top_live hv, hout⟩⟩
  rw [hv]
  exact Array.mem_push_self

/-- **An instruction keeps a machine closed**, whether it succeeds or fails. -/
theorem safe_perform (hs : m.Safe o) (ht : m.Truthful) (hf : m.frames = rest.push f) {op : Opcode}
    (hop : op ≠ .print) (n : Nat) : Ends (perform op n) m (fun _ m' => m'.Safe o) (Stops o) := by
  cases op with
  | constant =>
      refine ends_bind ((safe_constant hs hf n).mono ?_ fun _ _ => id)
      rintro v _ ⟨rfl, hv⟩
      exact safe_push hs hv
  | pushNil => exact safe_push hs (Value.liveIn_nil _)
  | pushTrue => exact safe_push hs (Value.liveIn_bool _ _)
  | pushFalse => exact safe_push hs (Value.liveIn_bool _ _)
  | pop => exact ends_bind (ends_pop (fun _ _ hv => ends_pure (hs.unpush hv)) fun _ => ⟨hs, id⟩)
  | getLocal =>
      refine ends_bind (ends_localSlot hf (fun hslot => ?_) fun _ => ⟨hs, id⟩)
      refine ends_bind (ends_getSlot (fun v hv => ?_) fun _ => ⟨hs, trivial⟩)
      exact safe_push hs (hs.slot_live hv)
  | setLocal =>
      refine ends_bind (ends_localSlot hf (fun hslot => ?_) fun _ => ⟨hs, id⟩)
      refine ends_bind (ends_peek (fun v _ hv => ?_) fun _ => ⟨hs, id⟩)
      refine ends_setSlot (fun _ => hs.setStack fun w hw => ?_) fun _ => ⟨hs, trivial⟩
      rcases Array.mem_or_eq_of_mem_setIfInBounds hw with hw | rfl
      · exact hs.closed.stack w hw
      · exact hs.slot_live hv
  | getGlobal =>
      refine ends_bind ((safe_name hs hf n).mono ?_ fun _ _ => id)
      rintro key _ ⟨rfl, _⟩
      refine ends_get ?_
      split
      · rename_i v hv; exact safe_push hs (hs.closed.globals key v hv).2
      · exact ends_undefined ⟨hs, id⟩
  | defineGlobal =>
      refine ends_bind ((safe_name hs hf n).mono ?_ fun _ _ => id)
      rintro key _ ⟨rfl, s, hkey⟩
      refine ends_bind (ends_peek (fun v _ hv => ?_) fun _ => ⟨hs, id⟩)
      have hs₁ := hs.setGlobal hkey (hs.slot_live hv)
      refine ends_bind (ends_setGlobal (ends_bind (ends_pop (fun _ _ hw => ?_) fun _ => ⟨hs₁, id⟩)))
      exact ends_pure (hs₁.unpush hw)
  | setGlobal =>
      refine ends_bind ((safe_name hs hf n).mono ?_ fun _ _ => id)
      rintro key _ ⟨rfl, s, hkey⟩
      refine ends_bind (ends_peek (fun v _ hv => ends_get ?_) fun _ => ⟨hs, id⟩)
      split
      · exact ends_setGlobal (hs.setGlobal hkey (hs.slot_live hv))
      · exact ends_undefined ⟨hs, id⟩
  | equal => exact safe_compare hs _
  | notEqual => exact safe_compare hs _
  | greater => exact safe_order hs _
  | greaterEqual => exact safe_order hs _
  | less => exact safe_order hs _
  | lessEqual => exact safe_order hs _
  | add => exact safe_add hs
  | subtract => exact safe_arithmetic hs _
  | multiply => exact safe_arithmetic hs _
  | divide => exact safe_arithmetic hs _
  | not =>
      refine ends_bind (ends_pop (fun _ _ hv => ?_) fun _ => ⟨hs, id⟩)
      exact safe_push (hs.unpush hv) (Value.liveIn_bool _ _)
  | negate => exact safe_negate hs n
  | print => exact absurd rfl hop
  | jump => exact safe_jump hs hf _ n
  | loop => exact safe_jump hs hf _ n
  | jumpIfFalse =>
      refine ends_bind (ends_pop (fun values v hv => ?_) fun _ => ⟨hs, id⟩)
      split
      · exact safe_jump (hs.unpush hv) hf _ n
      · exact ends_pure (hs.unpush hv)
  | call =>
      refine ends_bind (ends_peek (fun v _ hv => ?_) fun _ => ⟨hs, id⟩)
      exact safe_callValue hs ht (hs.slot_live hv) n
  | ret => exact safe_ret hs hf

end

end Exec

end StackMachine
