import StackMachine.Proofs.Machine.Dangling
import StackMachine.Proofs.Machine.Strings
import StackMachine.Proofs.Machine.Transition

/-!
# Calls and their returns

A call leaves one value where callee and arguments were, and nothing else: the values
below the callee are those of before, and so are the callers, the innermost of which
stands behind its call instruction.

Bytecode that nobody has checked can break this, but only by taking the stack below the
base of the call. If it never is lower than that between two instructions, the rest
follows. What is not seen at once is a further call that takes its arguments from below
the base: nothing has been taken off the stack then, and the function that was called may
change values of the callers. It has to return before the call under consideration can,
though, and its return cuts the stack down to its own callee.
-/

namespace StackMachine

namespace Machine

/-- The machines that an execution from `m` comes to while a call is active. The call
lies on `depth` others and has its arguments at `base`. None of the machines before the
last has come back to `depth` calls, or has a stack that is lower than `base`. -/
inductive During (depth base : Nat) (m : Machine) : Machine → Prop where
  | start : During depth base m m
  | step {m' m'' : Machine} : During depth base m m' → depth < m'.frames.size →
      base ≤ m'.stack.size → Exec.step m'.recordInstruction = .ok () m'' →
      During depth base m m''

/-- No call above the one at `depth` has taken its arguments from below `base`. -/
def TakesAbove (m : Machine) (depth base : Nat) : Prop :=
  ∀ i f, depth < i → m.frames[i]? = some f → base ≤ f.base

/-- What is known of the machines of an execution while a call is active. The calls below
it are those of `m`, it has its arguments at `base`, and the values below its callee are
those of `m` unless a further call has taken its arguments from among them. -/
structure Inside (depth base : Nat) (m m' : Machine) : Prop where
  callers : ∀ i, i < depth → m'.frames[i]? = m.frames[i]?
  own : ∃ f, m'.frames[depth]? = some f ∧ f.base = base
  values : m'.TakesAbove depth base → ∀ i, i + 1 < base → m'.stack[i]? = m.stack[i]?

variable {m m' m'' : Machine} {depth base : Nat}

/-! ## One step -/

theorem getElem?_take (values : Array Value) (k i : Nat) :
    (values.take k)[i]? = if i < k then values[i]? else none := by
  rw [Array.take_eq_extract, Array.getElem?_extract, Nat.zero_add, Nat.sub_zero]
  by_cases hi : i < values.size
  · simp only [Nat.lt_min, hi, and_true]
  · simp only [Nat.lt_min, hi, and_false, Array.getElem?_eq_none (Nat.le_of_not_lt hi), ite_self]

theorem size_take_push (values : Array Value) (k : Nat) (v : Value) :
    ((values.take k).push v).size = min k values.size + 1 := by
  simp

theorem getElem?_take_push {values : Array Value} {k i : Nat} (v : Value) (hk : i < k)
    (hi : i < values.size) : ((values.take k).push v)[i]? = values[i]? := by
  have hcut : i ≠ (values.take k).size := by
    rw [Array.take_eq_extract, Array.size_extract]
    omega
  rw [Array.getElem?_push, if_neg hcut, getElem?_take, if_pos hk]

section

variable {rest : Array Frame} {f : Frame} {op : Opcode} {n : Nat}

/-- A step that leaves the stack at `base` or above, in a call whose base is not lower,
changes nothing below the place before `base`. -/
theorem Transition.keeps_below (h : Transition n rest f m m' op) (hbase : base ≤ f.base)
    (hheight : base ≤ m.stack.size) (hheight' : base ≤ m'.stack.size) {i : Nat}
    (hi : i + 1 < base) : m'.stack[i]? = m.stack[i]? := by
  cases h with
  | stays _ _ hs =>
      have hpast : (f.past op).base = f.base := rfl
      exact hs.values i (by omega) (by omega)
  | calls _ _ _ hstack _ => rw [hstack]
  | answers _ _ _ hstack _ =>
      rw [hstack, size_take_push] at hheight'
      rw [hstack, getElem?_take_push _ (by omega) (by omega)]
  | @returns values v hv _ _ hstack _ =>
      rw [hv, Array.size_push] at hheight
      rw [hstack, hv, getElem?_take_push _ (by omega) (by omega), Array.getElem?_push,
        if_neg (by omega)]

/-- A call that a step does not end has its place and its base after it. A call that it
ends leaves no more of the stack than lies below its arguments. -/
theorem Transition.base_kept (h : Transition n rest f m m' op) (hf : m.frames = rest.push f)
    {i : Nat} {k : Frame} (hk : m.frames[i]? = some k) :
    (∃ k', m'.frames[i]? = some k' ∧ k'.base = k.base) ∨
      m'.frames.size = i ∧ m'.stack.size ≤ k.base := by
  rw [hf, Array.getElem?_push] at hk
  by_cases hi : i = rest.size
  · rw [if_pos hi] at hk
    obtain rfl := Option.some.inj hk
    subst hi
    by_cases hret : op = .ret
    · subst hret
      cases h with
      | stays _ hne _ => exact absurd rfl hne
      | returns _ hbase _ hstack hframes =>
          refine Or.inr ⟨by rw [hframes], ?_⟩
          rw [hstack, size_take_push]
          omega
    · obtain ⟨ip, hip⟩ := h.innermost hret
      exact Or.inl ⟨_, hip, rfl⟩
  · rw [if_neg hi] at hk
    have hlt := (Array.getElem?_eq_some_iff.mp hk).1
    exact Or.inl ⟨k, (h.callers hlt).trans hk, rfl⟩

end

/-- **One step inside a call.** As long as the call lasts and the stack is not lower than
its base, a step keeps what is known. -/
theorem Inside.step (h : Inside depth base m m') (hdepth : depth < m'.frames.size)
    (hheight : base ≤ m'.stack.size) (hs : Exec.step m'.recordInstruction = .ok () m'')
    (hdepth' : depth < m''.frames.size) (hheight' : base ≤ m''.stack.size) :
    Inside depth base m m'' := by
  obtain ⟨rest, f, g, op, n, hf, _, _, ht⟩ := transition_recorded hs
  have hsize : m'.frames.size = rest.size + 1 := by rw [hf, Array.size_push]
  obtain ⟨own, hown, hbase⟩ := h.own
  refine ⟨fun i hi => ?_, ?_, fun habove i hi => ?_⟩
  · rw [ht.callers (by omega), ← h.callers i hi, hf, Array.getElem?_push, if_neg (by omega)]
  · rcases ht.base_kept hf hown with ⟨own', hown', hsame⟩ | ⟨hended, _⟩
    · exact ⟨own', hown', hsame.trans hbase⟩
    · omega
  · -- a call with a lower base would still be there, or its return would have cut the stack
    have habove' : m'.TakesAbove depth base := by
      intro j k hj hk
      rcases ht.base_kept hf hk with ⟨k', hk', hsame⟩ | ⟨_, hcut⟩
      · rw [← hsame]
        exact habove j k' hj hk'
      · omega
    have hlast : m'.frames[rest.size]? = some f := by
      rw [hf, Array.getElem?_push, if_pos rfl]
    have hinner : base ≤ f.base := by
      by_cases heq : depth = rest.size
      · rw [heq, hlast] at hown
        have hsame : own.base = f.base := congrArg Frame.base (Option.some.inj hown).symm
        omega
      · exact habove' rest.size f (by omega) hlast
    rw [ht.keeps_below hinner hheight hheight' hi]
    exact h.values habove' i hi

/-! ## From call to return -/

/-- **A whole execution inside a call** keeps what one step keeps. -/
theorem During.inside (h : During depth base m m') (hstart : Inside depth base m m)
    (hdepth : depth < m'.frames.size) (hheight : base ≤ m'.stack.size) :
    Inside depth base m m' := by
  induction h with
  | start => exact hstart
  | step _ hdepth₁ hheight₁ hs ih =>
      exact (ih hdepth₁ hheight₁).step hdepth₁ hheight₁ hs hdepth hheight

/-- Only a return of the call itself comes back to the calls below it. -/
theorem Transition.returned {rest : Array Frame} {f : Frame} {op : Opcode} {n : Nat}
    (h : Transition n rest f m m' op) (hsize : m'.frames.size ≤ rest.size) :
    op = .ret ∧ m'.frames = rest ∧
      ∃ (values : Array Value) (v : Value), m.stack = values.push v ∧
        m'.stack = (values.take (f.base - 1)).push v := by
  by_cases hret : op = .ret
  · subst hret
    cases h with
    | stays _ hne _ => exact absurd rfl hne
    | returns hv _ _ hstack hframes => exact ⟨rfl, hframes, _, _, hv, hstack⟩
  · obtain ⟨ip, hip⟩ := h.innermost hret
    have hlt := (Array.getElem?_eq_some_iff.mp hip).1
    omega

theorem take_eq_take {s s' : Array Value} {k : Nat} (h : ∀ i, i < k → s[i]? = s'[i]?) :
    s.take k = s'.take k := by
  refine Array.ext_getElem? fun i => ?_
  rw [getElem?_take, getElem?_take]
  by_cases hi : i < k
  · rw [if_pos hi, if_pos hi, h i hi]
  · rw [if_neg hi, if_neg hi]

/-- How a call comes to its end: during the call, a machine in which it is the innermost
returns the value on top. -/
structure Return (depth base : Nat) (m last m' : Machine) (v : Value) : Prop where
  during : During depth base m last
  innermost : last.frames.size = depth + 1
  op : last.next?.map Prod.fst = some .ret
  result : last.stack.back? = some v
  step : Exec.step last.recordInstruction = .ok () m'

/-- **A call that comes to its end** has its result in the place of callee and arguments. -/
theorem During.returned (h : During depth base m m') (hstart : Inside depth base m m)
    (hdepth : depth < m.frames.size) (hend : m'.frames.size = depth) : ∃ last v,
      Return depth base m last m' v ∧ m'.stack = (m.stack.take (base - 1)).push v ∧
        ∀ i, i < depth → m'.frames[i]? = m.frames[i]? := by
  cases h with
  | start => omega
  | @step last _ hduring hdepth₁ hheight hs =>
      have hinside := hduring.inside hstart hdepth₁ hheight
      obtain ⟨rest, f, g, op, n, hf, hg, hd, ht⟩ := transition_recorded hs
      have hsize : last.frames.size = rest.size + 1 := by rw [hf, Array.size_push]
      obtain ⟨rfl, hframes, values, v, hv, hstack⟩ := ht.returned (by omega)
      have hrest : rest.size = depth := by rw [← hframes, hend]
      have hlast : last.frames[depth]? = some f := by
        rw [hf, Array.getElem?_push, if_pos hrest.symm]
      obtain ⟨own, hown, hbase⟩ := hinside.own
      obtain rfl := Option.some.inj (hlast.symm.trans hown)
      -- no further call is left that could have a lower base
      have habove : last.TakesAbove depth base := by
        intro i k hi hk
        have hlt := (Array.getElem?_eq_some_iff.mp hk).1
        omega
      have hback : last.stack.back? = some v := by rw [hv, Array.back?_push]
      refine ⟨last, v, ⟨hduring, by omega, ?_, hback, hs⟩, ?_, fun i hi => ?_⟩
      · rw [Exec.next?_eq_some.mpr ⟨rest, f, g, hf, hg, hd⟩]
        rfl
      · rw [hv, Array.size_push] at hheight
        rw [hstack, hbase, take_eq_take fun i hi => ?_]
        rw [← hinside.values habove i (by omega), hv, Array.getElem?_push, if_neg (by omega)]
      · rw [hframes, ← hinside.callers i hi, hf, Array.getElem?_push, if_neg (by omega)]

/-! ## What a call leaves -/

/-- A machine about to call an object with `n` arguments. -/
structure Calls (m : Machine) (n : Nat) (x : Handle) : Prop where
  next : m.next? = some (.call, n)
  enough : n < m.stack.size
  callee : m.stack[m.stack.size - (n + 1)]? = some (.object x)

/-- What a call with `n` arguments leaves when it answers `v`: the answer is where callee
and arguments were, and the caller stands behind the instruction. -/
structure Answered (m : Machine) (n : Nat) (v : Value) (m' : Machine) : Prop where
  stack : m'.stack = (m.stack.take (m.stack.size - (n + 1))).push v
  frames : ∃ rest f, m.frames = Array.push rest f ∧ m'.frames = rest.push (f.past .call)

/-- A call that begins lies on the others, which have read their instructions. -/
theorem Calls.begins {n : Nat} {x : Handle} {g : BytecodeFunction} (h : m.Calls n x)
    (hg : m.heap.function? x = some g) (hs : Exec.step m.recordInstruction = .ok () m') :
    ∃ rest f, m.frames = Array.push rest f ∧ m'.stack = m.stack ∧
      m'.frames = (rest.push (f.past .call)).push { function := x, base := m.stack.size - n } := by
  obtain ⟨rest, f, g', op, k, hf, hg', hd, ht⟩ := transition_recorded hs
  have hnext := h.next.symm.trans (Exec.next?_eq_some.mpr ⟨rest, f, g', hf, hg', hd⟩)
  obtain ⟨rfl, rfl⟩ := Prod.mk.inj (Option.some.inj hnext)
  refine ⟨rest, f, hf, ?_⟩
  cases ht with
  | stays hne _ _ => exact absurd rfl hne
  | calls _ hcallee _ hstack hframes =>
      obtain rfl := Value.object.inj (Option.some.inj (h.callee.symm.trans hcallee))
      exact ⟨hstack, hframes⟩
  | answers _ hcallee hnative _ _ =>
      obtain rfl := Value.object.inj (Option.some.inj (h.callee.symm.trans hcallee))
      have hobject := (Heap.function?_eq_some.mp hg).symm.trans (Heap.native?_eq_some.mp hnative)
      exact absurd hobject (by simp)

theorem Calls.answered {n : Nat} {x : Handle} {g : BytecodeFunction} {m₁ : Machine}
    (h : m.Calls n x) (hg : m.heap.function? x = some g)
    (hs : Exec.step m.recordInstruction = .ok () m₁)
    (hd : During m.frames.size (m.stack.size - n) m₁ m') (hend : m'.frames.size = m.frames.size) :
    ∃ last v, Return m.frames.size (m.stack.size - n) m₁ last m' v ∧ m.Answered n v m' := by
  obtain ⟨rest, f, hf, hstack, hframes⟩ := h.begins hg hs
  have hsize : m.frames.size = rest.size + 1 := by rw [hf, Array.size_push]
  have hown : m₁.frames[m.frames.size]? = some { function := x, base := m.stack.size - n } := by
    rw [hframes, Array.getElem?_push, Array.size_push, if_pos hsize]
  have hstart : Inside m.frames.size (m.stack.size - n) m₁ m₁ :=
    ⟨fun _ _ => rfl, ⟨_, hown, rfl⟩, fun _ _ _ => rfl⟩
  have hdepth := (Array.getElem?_eq_some_iff.mp hown).1
  obtain ⟨last, v, hreturn, hstack', hcallers⟩ := hd.returned hstart hdepth hend
  refine ⟨last, v, hreturn, by rw [hstack', hstack, Nat.sub_sub], rest, f, hf, ?_⟩
  refine Array.ext_getElem? fun i => ?_
  by_cases hi : i < m.frames.size
  · rw [hcallers i hi, hframes, Array.getElem?_push, Array.size_push, if_neg (by omega)]
  · rw [Array.getElem?_eq_none (by omega), Array.getElem?_eq_none (by rw [Array.size_push]; omega)]

/-- A native function that answers does so in one step. The operands have made room for
the answer. -/
theorem Calls.answers {n : Nat} {x : Handle} {native : NativeFunction} {v : Value} {m₂ : Machine}
    (h : m.Calls n x) (hr : m.Reached) (hnative : m.heap.native? x = some native)
    (harity : n = native.arity.toNat)
    (hrun : Exec.runPrimitive (native.body (m.stack.extract (m.stack.size - n))) m =
      .ok (.ok v) m₂) :
    ∃ m', Exec.step m.recordInstruction = .ok () m' ∧ m.Answered n v m' := by
  have hroom := (hr.contained h.next).stack
  obtain ⟨rest, f, g, hf, hg, hd⟩ := Exec.next?_eq_some.mp h.next
  obtain ⟨journal, hj⟩ := m.recordInstruction_eq
  -- the native function sees the machine as it is when the instruction has been read
  obtain ⟨r, m₃, m₄, hrun₃, hrun₄, _⟩ := runPrimitive_congr
    (native.body (m.stack.extract (m.stack.size - n))) m
    { m with frames := rest.push (f.past .call), journal } rfl (roots_setPointer hf _ journal) rfl
  rw [hrun] at hrun₃
  obtain ⟨rfl, -⟩ := EStateM.Result.ok.inj hrun₃
  have hends : Exec.Ends Exec.step m.recordInstruction (fun _ => m.Answered n v)
      fun _ _ => False := by
    rw [hj]
    refine Exec.ends_step hf hg hd (Exec.ends_bind (Exec.ends_peek_some h.enough h.callee ?_))
    refine Exec.ends_callValue_native (Heap.native?_eq_some.mp hnative) ?_
    refine Exec.ends_callNative_answers
      (m := { m with frames := rest.push (f.past .call), journal }) h.enough
      (fun w m₁ hw hframes => ?_) (fun _ _ hfull => ?_) (fun hne => absurd harity hne)
      fun text _ m₁ hw => ?_
    · rw [hrun₄] at hw
      obtain ⟨hvw, -⟩ := EStateM.Result.ok.inj hw
      obtain rfl := Except.ok.inj hvw
      exact ⟨rfl, rest, f, hf, hframes⟩
    · exact absurd hroom (by simp only at hfull; omega)
    · rw [hrun₄] at hw
      exact absurd hw (by simp)
  obtain ⟨_, m', hs, hanswered⟩ := hends.total
  exact ⟨m', hs, hanswered⟩

/-- **A call is replaced by its answer.** If the stack does not get below the base of a
call before this returns, all that is left of the call is the value that it returns, in
the place of callee and arguments, and the callers stand where they stood when the
instruction had been read. A native function that answers leaves the same in one step. -/
theorem call_replaced_by_answer {n : Nat} {x : Handle} (hr : m.Reached) (h : m.Calls n x) :
    (∀ g m₁, m.heap.function? x = some g → Exec.step m.recordInstruction = .ok () m₁ →
      m₁.frames[m.frames.size]? = some { function := x, base := m.stack.size - n } ∧
      ∀ m', During m.frames.size (m.stack.size - n) m₁ m' → m'.frames.size = m.frames.size →
        ∃ last v, Return m.frames.size (m.stack.size - n) m₁ last m' v ∧ m.Answered n v m') ∧
    ∀ native v m₂, m.heap.native? x = some native → n = native.arity.toNat →
      Exec.runPrimitive (native.body (m.stack.extract (m.stack.size - n))) m = .ok (.ok v) m₂ →
      ∃ m', Exec.step m.recordInstruction = .ok () m' ∧ m.Answered n v m' := by
  refine ⟨fun g m₁ hg hs => ⟨?_, fun m' hd hend => h.answered hg hs hd hend⟩,
    fun native v m₂ hnative harity hrun => h.answers hr hnative harity hrun⟩
  obtain ⟨rest, f, hf, _, hframes⟩ := h.begins hg hs
  rw [hframes, hf, Array.getElem?_push, if_pos (by simp only [Array.size_push])]

/-- A machine with nothing. -/
def bareMachine : Machine :=
  fresh { registerBuiltins := false }

/-- The machine when its host has defined the clock. -/
def clockMachine : Machine where
  config := { registerBuiltins := false }
  heap :=
    { config := {}
      slots :=
        { entries :=
            #[some { object := .string "clock", size := 109 },
              some { object := .native .clock, size := 109 }]
          generations := #[0, 0] }
      interned := (∅ : Std.HashMap String Handle).insert "clock" ⟨0, 0⟩
      bytes := 218
      stats := { allocated := 2, peakBytes := 218 } }
  globals := (∅ : Std.HashMap Handle Value).insert ⟨0, 0⟩ (.object ⟨1, 0⟩)

/-- The heap of the machine when it has no more than the name of the clock. -/
def clockName : Heap where
  config := {}
  slots := ⟨#[some { object := .string "clock", size := 109 }], #[0]⟩
  interned := clockMachine.heap.interned
  bytes := 109
  stats := { allocated := 1, peakBytes := 109 }

theorem clockMachine_eq : (HostCall.defineNative .clock).apply bareMachine = clockMachine := by
  have hintern : bareMachine.intern "clock" =
      (.ok ⟨0, 0⟩, { bareMachine with heap := clockName }) := by
    have hnone : (Heap.empty {}).interned? "clock" = none := by simp [Heap.empty, Heap.interned?]
    have hname : (Heap.empty {}).intern [] "clock" = ⟨.ok ⟨0, 0⟩, clockName, #[]⟩ := by
      rw [Heap.intern, hnone]
      rfl
    exact congrArg bareMachine.absorb hname
  have hstore : (pin { bareMachine with heap := clockName } ⟨0, 0⟩).allocate (.native .clock) =
      (.ok ⟨1, 0⟩, { bareMachine with heap := clockMachine.heap.pin ⟨0, 0⟩ }) := rfl
  have hunpin : (clockMachine.heap.pin ⟨0, 0⟩).unpin ⟨0, 0⟩ = clockMachine.heap := rfl
  simp only [HostCall.apply, defineNative, NativeFunction.clock] at hstore ⊢
  simp only [hintern, hstore, unpin, hunpin]
  rfl

/-- A machine with the clock and a function of one argument that answers the time. -/
def timing : Machine :=
  HostCall.apply (HostCall.apply clockMachine (.allocateFunction none 1))
    (.editFunction ⟨2, 0⟩ fun f =>
      { f with
        chunk := Chunk.copy
          { code := #[1, 0, 0, 26, 0, 27]
            lines := #[1, 1, 1, 1, 1, 1]
            constants := #[.object ⟨1, 0⟩] } })

theorem clockMachine_idle : clockMachine.Idle := by
  rw [← clockMachine_eq]
  exact .call _ (fresh_idle rfl rfl) nofun

theorem timing_idle : timing.Idle :=
  .call _ (.call _ clockMachine_idle nofun) nofun

/-- A script that has a local when it calls that function. -/
def timed : Chunk := Chunk.copy
  { code := #[3, 0, 0, 3, 26, 1, 27]
    lines := #[1, 1, 1, 1, 1, 1, 1]
    constants := #[.object ⟨2, 0⟩] }

def timedMachine : Machine :=
  (timing.allocate (.function { chunk := timed })).2

theorem timed_runs : (HostCall.run 9 timed).Runs timing timedMachine ⟨3, 0⟩ :=
  rfl

/-- The machines of the run: the local, what lies above it, the calls, and how often the
clock has been read. -/
def timedAt (above : Array Value) (frames : Array Frame) (looks : Nat := 0) : Machine :=
  { timedMachine with stack := #[.object ⟨3, 0⟩, .bool false] ++ above, frames, world := { looks } }

/-- The script when it calls the function. -/
def timedCall : Machine :=
  timedAt #[.object ⟨2, 0⟩, .bool false] #[⟨⟨3, 0⟩, 4, 1⟩]

/-- The function when it has been called, and when it calls the clock. -/
def timedCallee : Machine :=
  timedAt #[.object ⟨2, 0⟩, .bool false] #[⟨⟨3, 0⟩, 6, 1⟩, ⟨⟨2, 0⟩, 0, 3⟩]

def timedClock : Machine :=
  timedAt #[.object ⟨2, 0⟩, .bool false, .nil, .object ⟨1, 0⟩] #[⟨⟨3, 0⟩, 6, 1⟩, ⟨⟨2, 0⟩, 3, 3⟩]

/-- The script when the function has returned. -/
def timedEnd : Machine :=
  timedAt #[.number (Number.ofNat 0)] #[⟨⟨3, 0⟩, 6, 1⟩] 1

theorem timedCall_inRun : InRun timedMachine ⟨3, 0⟩ timedCall := by
  have henter : InRun timedMachine ⟨3, 0⟩
      { timedMachine with stack := #[.object ⟨3, 0⟩], frames := #[⟨⟨3, 0⟩, 0, 1⟩] } := .enter rfl
  have hlocal : InRun timedMachine ⟨3, 0⟩ (timedAt #[] #[⟨⟨3, 0⟩, 1, 1⟩]) := .step henter rfl
  have hcallee : InRun timedMachine ⟨3, 0⟩ (timedAt #[.object ⟨2, 0⟩] #[⟨⟨3, 0⟩, 3, 1⟩]) :=
    .step hlocal rfl
  exact .step hcallee rfl

theorem timedCall_step : Exec.step timedCall.recordInstruction = .ok () timedCallee :=
  rfl

theorem timedClock_during : During 1 3 timedCallee timedClock := by
  have hnil : During 1 3 timedCallee
      (timedAt #[.object ⟨2, 0⟩, .bool false, .nil] #[⟨⟨3, 0⟩, 6, 1⟩, ⟨⟨2, 0⟩, 1, 3⟩]) :=
    .step .start (by decide) (by decide) rfl
  exact .step hnil (by decide) (by decide) rfl

theorem timedEnd_during : During 1 3 timedCallee timedEnd := by
  have htime : During 1 3 timedCallee
      (timedAt #[.object ⟨2, 0⟩, .bool false, .nil, .number (Number.ofNat 0)]
        #[⟨⟨3, 0⟩, 6, 1⟩, ⟨⟨2, 0⟩, 5, 3⟩] 1) :=
    .step timedClock_during (by decide) (by decide) rfl
  exact .step htime (by decide) (by decide) rfl

theorem During.inRun {function : Handle} {m₀ : Machine} (h : During depth base m m')
    (hm : InRun m₀ function m) : InRun m₀ function m' := by
  induction h with
  | start => exact hm
  | step _ _ _ hs ih => exact .step ih hs

/-- The script calls the function and the function calls the clock. -/
theorem call_replaced_by_answer_timed :
    (timedCall.Reached ∧ timedCall.Calls 1 ⟨2, 0⟩ ∧
      Exec.step timedCall.recordInstruction = .ok () timedCallee ∧
      During 1 3 timedCallee timedEnd ∧ ∃ v, timedCall.Answered 1 v timedEnd) ∧
    timedClock.Reached ∧ timedClock.Calls 0 ⟨1, 0⟩ ∧ ∃ m',
      Exec.step timedClock.recordInstruction = .ok () m' ∧
        timedClock.Answered 0 (.number (Number.ofNat 0)) m' := by
  have hreached : ∀ m, InRun timedMachine ⟨3, 0⟩ m → m.Reached := fun m h =>
    Or.inr ⟨_, _, _, .run 9 timed, timing_idle, timed_runs, h⟩
  refine ⟨?_, ?_⟩
  · have hr := hreached _ timedCall_inRun
    have hcalls : timedCall.Calls 1 ⟨2, 0⟩ := ⟨rfl, by decide, rfl⟩
    obtain ⟨_, v, _, hanswered⟩ := ((call_replaced_by_answer hr hcalls).1 _ _ rfl timedCall_step).2
      _ timedEnd_during rfl
    exact ⟨hr, hcalls, timedCall_step, timedEnd_during, v, hanswered⟩
  · have hr := hreached _ (timedClock_during.inRun (.step timedCall_inRun timedCall_step))
    have hcalls : timedClock.Calls 0 ⟨1, 0⟩ := ⟨rfl, by decide, rfl⟩
    exact ⟨hr, hcalls, (call_replaced_by_answer hr hcalls).2 .clock _ _ rfl rfl rfl⟩

end Machine

end StackMachine
