import StackMachine.Proofs.Machine.Closed
import StackMachine.Proofs.Machine.Stocks

/-!
# No run meets a dangling handle

Single instructions keep a machine closed. From this follow the whole runs, by
induction on the instructions executed, and every call that a careful host can
make. A closed machine never reports that a handle is dead, and everything it
shows is live when it is shown.
-/

namespace StackMachine

namespace Machine

/-- Whether a value is shown as a freed object, which is the last case of
`Value.text`. -/
def ShowsFreed (m : Machine) (v : Value) : Prop :=
  ∃ x, v = .object x ∧ m.heap.describe? x = none

/-- The values that are shown while a machine runs: those on the stack, which can
be printed, and the constants of the function that is being executed. -/
def Shown (m : Machine) (v : Value) : Prop :=
  v ∈ m.stack ∨ ∃ f g, m.frames.back? = some f ∧ m.heap.function? f.function = some g ∧
    v ∈ g.chunk.constants

/-- All native functions keep to their word during a run of `function`. -/
structure TruthfulRun (m : Machine) (function : Handle) : Prop where
  entry : Truthful { m.begun function with stack := #[.object function] }
  steps : ∀ m', InRun m function m' → m'.Truthful

end Machine

/-- A native function that answers live values in every closed machine. -/
def NativeFunction.Honest (n : NativeFunction) : Prop :=
  ∀ (m m' : Machine) (v : Value), m.heap.Sound → m.Closed →
    Exec.runPrimitive (n.body (m.stack.extract (m.stack.size - n.arity.toNat))) m =
      .ok (.ok v) m' → v.LiveIn m'.heap

/-- What a host has to see to so that a call leaves no handle dangling: it names
live objects only, and its native functions answer live objects. -/
def HostCall.Careful (m : Machine) : HostCall → Prop
  | allocateFunction name _ => ∀ x, name = some x → m.heap.contains x
  | editFunction function edit => ∀ f, m.heap.function? function = some f →
      ∀ y, (edit f).RefersTo y → f.RefersTo y ∨ m.heap.contains y
  | run _ chunk => (∀ y, Value.object y ∈ chunk.constants → m.heap.contains y) ∧
      ∀ function m', m.allocate (.function { chunk }) = (.ok function, m') →
        m'.TruthfulRun function
  | runFunction _ function => m.heap.contains function ∧ m.TruthfulRun function
  | _ => True

/-- How a closed machine's run ends. -/
def Outcome.Sane (heap : Heap) : Outcome → Prop
  | finished v => v.LiveIn heap
  | failed e => ¬ e.Dangling
  | crashed => True
  | unfinished => True

namespace Machine

theorem not_showsFreed {m : Machine} {v : Value} (h : v.LiveIn m.heap) : ¬ m.ShowsFreed v := by
  rintro ⟨x, rfl, hx⟩
  obtain ⟨d, hd⟩ := Heap.contains_iff.mp (h x rfl)
  exact absurd hx (by simp [Heap.describe?, hd])

theorem Closed.shown_live {m : Machine} (hc : m.Closed) {v : Value} (h : m.Shown v) :
    v.LiveIn m.heap := by
  rcases h with h | ⟨f, g, _, hg, hv⟩
  · exact hc.stack v h
  · rintro x rfl
    exact hc.functions _ g hg x (Or.inr hv)

/-! ## Native functions during a step -/

/-- What a native function does is settled by the heap, the roots and the world. -/
theorem runPrimitive_congr (p : Primitive) (m m₁ : Machine) (hheap : m₁.heap = m.heap)
    (hroots : m₁.roots = m.roots) (hworld : m₁.world = m.world) :
    ∃ r m' m₁', Exec.runPrimitive p m = .ok r m' ∧ Exec.runPrimitive p m₁ = .ok r m₁' ∧
      m₁'.heap = m'.heap := by
  induction p generalizing m m₁ with
  | done result => exact ⟨result, m, m₁, rfl, rfl, hheap⟩
  | inspect next ih =>
      simp only [Exec.runPrimitive, hheap]
      exact ih m.heap.view m m₁ hheap hroots hworld
  | intern text next ih =>
      have hi : m₁.heap.intern m₁.roots text = m.heap.intern m.roots text := by
        rw [hheap, hroots]
      have hanswer : (m₁.intern text).1 = (m.intern text).1 := congrArg HeapEffect.answer hi
      simp only [Exec.runPrimitive, hanswer]
      exact ih (m.intern text).1 (m.intern text).2 (m₁.intern text).2
        (congrArg HeapEffect.heap hi) hroots hworld
  | look next ih =>
      simp only [Exec.runPrimitive, hworld]
      exact ih m.world.now { m with world := m.world.later } { m₁ with world := m.world.later }
        hheap hroots rfl

/-- Reading an instruction does not change what native functions would answer. -/
theorem Truthful.fetched {m : Machine} (ht : m.Truthful) {rest : Array Frame} {f : Frame}
    (hf : m.frames = rest.push f) (journal : Journal) (ip : Nat) :
    Truthful { m with journal, frames := rest.push { f with ip } } := by
  intro x n v m₁' hx hrun
  have hroots : roots { m with journal, frames := rest.push { f with ip } } = m.roots := by
    simp [roots, hf]
  -- the pointer of a call is not among what a native function can see
  obtain ⟨r, m', m₂, h, h₂, he⟩ :=
    runPrimitive_congr (n.body (m.stack.extract (m.stack.size - n.arity.toNat))) m
      { m with journal, frames := rest.push { f with ip } } rfl hroots rfl
  rw [h₂] at hrun
  injection hrun with hr hm
  subst hr hm
  rw [he]
  exact ht x n v m' hx h

theorem frames_cases (m : Machine) :
    m.frames = #[] ∨ ∃ (rest : Array Frame) (f : Frame), m.frames = rest.push f := by
  cases hb : m.frames.back? with
  | none => exact Or.inl (Array.back?_eq_none_iff.mp hb)
  | some f =>
      obtain ⟨rest, h⟩ := Array.back?_eq_some_iff.mp hb
      exact Or.inr ⟨rest, f, h⟩

end Machine

/-! ## Steps and runs -/

namespace Exec

open Machine

variable {m : Machine} {o : Output}

theorem safe_step (hs : m.Safe o) (ht : m.Truthful) :
    Ends step m.recordInstruction
      (fun _ m' => ∃ printed, m'.Safe printed ∧ m.Prints printed) (Stops o) := by
  obtain ⟨journal, hj⟩ := m.recordInstruction_eq
  have hsr : m.recordInstruction.Safe o := hs.recordInstruction
  rw [hj] at hsr ⊢
  rcases m.frames_cases with hnone | ⟨rest, f, hf⟩
  · exact ends_bind (ends_fetch_noFrame hnone ⟨hsr, id⟩)
  · refine ends_bind (ends_fetch hf (fun g op n _ _ => ?_) (fun _ => ⟨hsr, id⟩)
      (fun _ _ _ => ⟨hsr, id⟩) (fun _ _ _ _ => ⟨hsr, id⟩) fun _ _ _ _ => ⟨hsr, id⟩)
    have hs₁ := hsr.setPointer hf (f.ip + 1 + op.operandWidth)
    -- printing is the one instruction that changes the output
    by_cases hop : op = .print
    · subst hop
      exact safe_print hs₁ n
    · refine (safe_perform hs₁ (ht.fetched hf journal _) rfl hop n).mono ?_ fun _ _ => id
      intro _ m' h
      exact ⟨o, h, Or.inl hs.output.symm⟩

theorem safe_enter {function : Handle} (hs : (m.begun function).Safe o)
    (hc : m.heap.contains function)
    (ht : Truthful { m.begun function with stack := #[.object function] }) :
    Ends (enter function) (m.begun function) (fun _ m' => m'.Safe o) (Stops o) := by
  have hlive : (Value.object function).LiveIn m.heap := Value.liveIn_of_contains hc
  have hs₁ := hs.push hlive
  refine ends_bind (ends_push (fun _ => ?_) fun _ => ⟨hs, id⟩)
  refine ends_bind ((safe_callValue hs₁ ht hlive 0).mono (fun _ m' hs' => ?_) fun _ _ => id)
  refine ends_get ?_
  split
  · refine ends_bind (ends_pop (fun values v hv => ?_) fun _ => ⟨hs', id⟩)
    exact ends_throw ⟨hs'.unpush hv, hs'.top_live hv⟩
  · exact ends_pure hs'

end Exec

namespace Machine

theorem Safe.begun {m : Machine} {o : Output} (hs : m.Safe o) (function : Handle) :
    (m.begun function).Safe o :=
  hs.resetStacks.record _

/-- Every machine of a run is closed. -/
theorem InRun.safe {m m' : Machine} {function : Handle} {o : Output} (hr : InRun m function m')
    (hs : (m.begun function).Safe o) (hc : m.heap.contains function)
    (ht : m.TruthfulRun function) :
    ∃ printed, m'.Safe printed := by
  induction hr with
  | enter he => exact ⟨o, (Exec.safe_enter hs hc ht.entry).of_ok he⟩
  | step hr' hstep ih =>
      obtain ⟨printed, hs'⟩ := ih
      obtain ⟨printed', hs'', _⟩ := (Exec.safe_step hs' (ht.steps _ hr')).of_ok hstep
      exact ⟨printed', hs''⟩

/-- **A run keeps the machine closed.** The induction is on the instructions that
are left, and every machine on the way belongs to the run. -/
theorem steps_safe {m₀ m : Machine} {function : Handle} (ht : m₀.TruthfulRun function)
    (fuel : Nat) (hr : InRun m₀ function m) {o : Output} (hs : m.Safe o) :
    ∃ printed, (m.steps fuel).2.Safe printed ∧
      ∀ halt, (m.steps fuel).1 = some halt → halt.Sane (m.steps fuel).2.heap := by
  induction fuel generalizing m o with
  | zero => exact ⟨o, hs, fun halt h => absurd h (by simp [steps])⟩
  | succ fuel ih =>
      have hstep := Exec.safe_step hs (ht.steps m hr)
      rw [steps]
      cases he : Exec.step m.recordInstruction with
      | ok a m' =>
          obtain ⟨printed, hs', _⟩ := hstep.of_ok he
          exact ih (hr.step he) hs'
      | error halt m' =>
          obtain ⟨hs', hsane⟩ := hstep.of_error he
          exact ⟨o, hs', fun halt' h => by rw [← Option.some.inj h]; exact hsane⟩

theorem conclude_safe {m : Machine} {o : Output} {halt : Halt} (hs : m.Safe o)
    (hsane : halt.Sane m.heap) :
    (m.conclude halt).2.Safe o ∧ (m.conclude halt).1.Sane (m.conclude halt).2.heap := by
  unfold conclude
  split
  · exact ⟨hs.record _, hsane⟩
  · exact ⟨(hs.record _).resetStacks, hsane⟩
  · exact ⟨(hs.record _).resetStacks, hsane⟩
  · exact ⟨hs, trivial⟩

theorem launch_safe {m : Machine} {o : Output} {function : Handle}
    (hs : (m.begun function).Safe o) (hc : m.heap.contains function)
    (ht : m.TruthfulRun function) (fuel : Nat) :
    ∃ printed, (m.launch fuel function).2.Safe printed ∧
      ∀ halt, (m.launch fuel function).1 = some halt →
        halt.Sane (m.launch fuel function).2.heap := by
  have henter := Exec.safe_enter hs hc ht.entry
  unfold launch
  cases he : enter function (m.begun function) with
  | error halt m' =>
      obtain ⟨hs', hsane⟩ := henter.of_error he
      exact ⟨o, hs', fun halt' h => by rw [← Option.some.inj h]; exact hsane⟩
  | ok a m' => exact steps_safe ht fuel (.enter he) (henter.of_ok he)

theorem runFunction_safe {m : Machine} {o : Output} {function : Handle}
    (hs : (m.begun function).Safe o) (hc : m.heap.contains function)
    (ht : m.TruthfulRun function) (fuel : Nat) :
    ∃ printed, (m.runFunction fuel function).2.Safe printed ∧
      (m.runFunction fuel function).1.Sane (m.runFunction fuel function).2.heap := by
  obtain ⟨printed, hs', hsane⟩ := launch_safe hs hc ht fuel
  rw [runFunction_eq]
  unfold finish
  split
  · rename_i halt m' hm
    rw [hm] at hs' hsane
    exact ⟨printed, conclude_safe hs' (hsane halt rfl)⟩
  · rename_i m' hm
    rw [hm] at hs'
    exact ⟨printed, hs', trivial⟩

/-- Native functions that are honest whenever the machine is closed keep to their
word in every run. -/
theorem truthfulRun_of_honest {m : Machine} {o : Output} (hs : m.Safe o) {function : Handle}
    (hc : m.heap.contains function)
    (hn : ∀ x n, m.heap.native? x = some n → n.Honest) : m.TruthfulRun function := by
  -- no run stores a native function
  let I : Machine → Prop := fun m => m.heap.WellFormed ∧
    ∀ x n, m.heap.native? x = some n → n.Honest
  have hI : Stable I := by
    refine ⟨fun h hheap _ => ?_, fun {m} text h => ?_, fun _ _ h => h⟩
    · simp only [I, hheap]; exact h
    · refine ⟨Heap.intern_wellFormed h.1 m.roots text, fun x n hx => ?_⟩
      rw [Heap.native?_eq_some] at hx
      rcases (Heap.intern_evolves h.1 m.roots text).within x _ hx with hnew | ⟨hold, _⟩
      · exact absurd hnew (by simp)
      · exact h.2 x n (Heap.native?_eq_some.mpr hold)
  have htruthful : ∀ {m' : Machine} {o' : Output}, m'.Safe o' → I m' → m'.Truthful :=
    fun hs' hi x n v m'' hx hrun => hi.2 x n hx _ m'' v hs'.sound hs'.closed hrun
  have hi : I m := ⟨hs.sound.wellFormed, hn⟩
  have hentry : Truthful { m.begun function with stack := #[.object function] } := by
    have hlive : (Value.object function).LiveIn m.heap := Value.liveIn_of_contains hc
    exact htruthful ((hs.begun function).push hlive) (hI.congr hi rfl rfl)
  -- closedness and honesty carry each other from one instruction to the next
  have hin : ∀ m', InRun m function m' → ∃ printed, m'.Safe printed := by
    intro m' hr
    induction hr with
    | enter he => exact ⟨o, (Exec.safe_enter (hs.begun function) hc hentry).of_ok he⟩
    | @step m' m'' hr' hstep ih =>
        obtain ⟨printed, hs'⟩ := ih
        have ht := htruthful hs' (hI.inRun hr' hi)
        obtain ⟨printed', hs'', _⟩ := (Exec.safe_step hs' ht).of_ok hstep
        exact ⟨printed', hs''⟩
  refine ⟨hentry, fun m' hr => ?_⟩
  obtain ⟨printed, hs'⟩ := hin m' hr
  exact htruthful hs' (hI.inRun hr hi)

/-! ## Calls of a careful host -/

namespace Safe

variable {m : Machine} {o : Output}

theorem allocateFunction (hs : m.Safe o) {f : BytecodeFunction}
    (hf : ∀ y, f.RefersTo y → m.heap.contains y) : (m.allocate (.function f)).2.Safe o := by
  refine hs.allocate (by simp) fun y hy => ?_
  obtain ⟨g, hg, hy'⟩ := mem_children.mp hy
  rw [← Object.function.inj hg] at hy'
  exact hf y hy'

/-- Changing a function keeps a machine closed if the function gets live
references only. -/
theorem editFunction (hs : m.Safe o) {x : Handle} {edit : BytecodeFunction → BytecodeFunction}
    {m' : Machine} (he : m.editFunction x edit = some m')
    (hlive : ∀ f, m.heap.function? x = some f →
      ∀ y, (edit f).RefersTo y → f.RefersTo y ∨ m.heap.contains y) : m'.Safe o := by
  have hnames := (hs.regular.editFunction he).names
  unfold Machine.editFunction at he
  obtain ⟨effect, heff, rfl⟩ := Option.map_eq_some_iff.mp he
  obtain ⟨f, hf, hget, _⟩ := Heap.editFunction_spec heff
  have hcontains : ∀ y, m.heap.contains y → effect.heap.contains y := by
    intro y hy
    rw [Heap.contains_iff, hget]
    split
    · exact ⟨_, rfl⟩
    · exact Heap.contains_iff.mp hy
  refine ⟨hs.sound.editFunction heff, ⟨⟨fun k v hk => ⟨?_, fun y hy => ?_⟩, fun y g hg z hz => ?_⟩,
    fun v hv y hy => ?_, fun k hk => ?_, hnames⟩, hs.output⟩
  · exact hcontains k (hs.closed.globals k v hk).1
  · exact hcontains y ((hs.closed.globals k v hk).2 y hy)
  · have hg' := Heap.function?_eq_some.mp hg
    simp only [Machine.absorb] at hg'
    rw [hget] at hg'
    have hfx := Heap.function?_eq_some.mpr hf
    split at hg'
    · simp only [Option.some.injEq, Object.function.injEq] at hg'
      subst hg'
      rcases hlive f hfx z hz with hold | hnew
      · exact hcontains z (hs.closed.functions x f hfx z hold)
      · exact hcontains z hnew
    · exact hcontains z (hs.closed.functions y g (Heap.function?_eq_some.mpr hg') z hz)
  · exact hcontains y (hs.closed.stack v hv y hy)
  · obtain ⟨g, hg⟩ := hs.closed.frames k hk
    rw [Heap.function?_eq_some] at hg
    by_cases hkx : k.function = x
    · exact ⟨edit f, Heap.function?_eq_some.mpr ((hget _).trans (if_pos hkx))⟩
    · exact ⟨g, Heap.function?_eq_some.mpr ((hget _).trans ((if_neg hkx).trans hg))⟩

theorem defineNative (hs : m.Safe o) (native : NativeFunction) :
    (m.defineNative native).2.Safe o := by
  have hchildren : ∀ h : Heap, ∀ y ∈ (Object.native native).children, h.contains y := by
    simp [Object.children, Object.describe, Description.children]
  rcases defineNative_cases hs.sound native with he | ⟨key, he | ⟨x, journal, hx, hkey, he⟩⟩
  · rw [he]; exact hs.intern _
  · rw [he]; exact (((hs.intern _).pin key).allocate (by simp) (hchildren _)).unpin key
  · rw [he]
    have hp := (hs.intern native.name).pin key
    have ha := (hp.allocate (by simp) (hchildren _)).unpin key
    have hs' := ha.setGlobal ((Heap.string?_unpin ..).trans hkey)
      (Value.liveIn_object ((Heap.get?_unpin ..).trans (hp.allocate_get? hx)))
    exact hs'.change rfl rfl rfl hs'.closed.stack hs'.closed.frames

end Safe

/-- A chunk refers to its constants only. -/
theorem chunk_refersTo {m : Machine} {chunk : Chunk}
    (h : ∀ y, Value.object y ∈ chunk.constants → m.heap.contains y) (y : Handle)
    (hy : BytecodeFunction.RefersTo { chunk } y) : m.heap.contains y := by
  rcases hy with hname | hconstant
  · exact absurd hname (by simp)
  · exact h y hconstant

theorem runs_safe {m m' : Machine} {function : Handle} {c : HostCall} {o : Output} (hs : m.Safe o)
    (hc : c.Careful m) (hr : c.Runs m m' function) :
    m'.Safe o ∧ m'.heap.contains function ∧ m'.TruthfulRun function := by
  cases c with
  | run fuel chunk =>
      have ha := hs.allocateFunction (chunk_refersTo hc.1)
      have hx := hs.allocate_get? (congrArg Prod.fst hr)
      simp only [HostCall.Runs] at hr
      rw [hr] at ha hx
      exact ⟨ha, Heap.contains_iff.mpr ⟨_, hx⟩, hc.2 function m' hr⟩
  | runFunction fuel function' =>
      obtain ⟨rfl, rfl⟩ := hr
      exact ⟨hs, hc.1, hc.2⟩
  | _ => exact hr.elim

/-- **A careful call leaves the machine closed**, and no run in it ends with an
error about a dead handle. -/
theorem apply_safe {m : Machine} {o : Output} (hs : m.Safe o) {c : HostCall} (hc : c.Careful m) :
    ∃ printed, (c.apply m).Safe printed ∧
      ∀ outcome, c.outcome? m = some outcome → outcome.Sane (c.apply m).heap := by
  cases c with
  | intern text => exact ⟨o, hs.intern text, by simp [HostCall.outcome?]⟩
  | defineNative native => exact ⟨o, hs.defineNative native, by simp [HostCall.outcome?]⟩
  | collect => exact ⟨o, hs.collect, by simp [HostCall.outcome?]⟩
  | pin x => exact ⟨o, hs.pin x, by simp [HostCall.outcome?]⟩
  | unpin x => exact ⟨o, hs.unpin x, by simp [HostCall.outcome?]⟩
  | allocateFunction name arity =>
      refine ⟨o, hs.allocateFunction fun y hy => ?_, by simp [HostCall.outcome?]⟩
      rcases hy with hname | hconstant
      · exact hc y hname
      · exact absurd hconstant (by simp)
  | editFunction x edit =>
      refine ⟨o, ?_, by simp [HostCall.outcome?]⟩
      cases he : m.editFunction x edit with
      | none => simpa [HostCall.apply, he] using hs
      | some m' => simpa [HostCall.apply, he] using hs.editFunction he hc
  | run fuel chunk =>
      have hs₁ := hs.allocateFunction (chunk_refersTo hc.1)
      simp only [HostCall.apply, HostCall.outcome?, run, Option.some.injEq, forall_eq']
      split
      · rename_i function m' ha
        obtain ⟨hs', hlive, ht⟩ := runs_safe (c := .run fuel chunk) hs hc ha
        exact runFunction_safe (hs'.begun function) hlive ht fuel
      · rename_i e m' ha
        rw [ha] at hs₁
        exact ⟨o, hs₁, id⟩
  | runFunction fuel function =>
      obtain ⟨printed, hs', hsane⟩ := runFunction_safe (hs.begun function) hc.1 hc.2 fuel
      refine ⟨printed, hs', fun outcome h => ?_⟩
      rw [← Option.some.inj h]
      exact hsane

/-- **No handle ever dangles.** An instruction keeps a closed machine closed,
whether it succeeds or fails, and so does every call of a careful host. A run
that such a call makes never reports a dead callee or a call without a function,
and what it shows, prints and answers is live. -/
theorem handles_never_dangle {m : Machine} (hr : m.Reached) (hc : m.Closed) :
    (m.Truthful → Exec.Ends Exec.step m.recordInstruction
      (fun _ m' => m'.Closed) fun _ m' => m'.Closed) ∧
    ∀ c : HostCall, c.Careful m →
      (c.apply m).Closed ∧
      (∀ e, c.outcome? m = some (.failed e) → ¬ e.Dangling) ∧
      (∀ v, c.outcome? m = some (.finished v) → ¬ (c.apply m).ShowsFreed v) ∧
      ∀ m₁ function m', c.Runs m m₁ function → InRun m₁ function m' →
        m'.Closed ∧ (∀ v, m'.Shown v → ¬ m'.ShowsFreed v) ∧
        ∀ m'', Exec.step m'.recordInstruction = .ok () m'' → m'.Prints m''.output := by
  have hs : m.Safe m.output := ⟨hr.regular.sound, hc, rfl⟩
  refine ⟨fun ht => ?_, fun c hcare => ?_⟩
  · refine (Exec.safe_step hs ht).mono ?_ fun _ _ h => h.1.closed
    rintro _ m' ⟨_, hs', _⟩
    exact hs'.closed
  · obtain ⟨_, hs', hsane⟩ := apply_safe hs hcare
    refine ⟨hs'.closed, fun e he => hsane _ he, fun v hv => not_showsFreed (hsane _ hv), ?_⟩
    intro m₁ function m' hruns hin
    obtain ⟨hs₁, hlive, ht⟩ := runs_safe hs hcare hruns
    obtain ⟨printed, hs₂⟩ := hin.safe (hs₁.begun function) hlive ht
    refine ⟨hs₂.closed, fun v hv => not_showsFreed (hs₂.closed.shown_live hv), fun m'' hstep => ?_⟩
    obtain ⟨printed', hs₃, hp⟩ := (Exec.safe_step hs₂ (ht.steps m' hin)).of_ok hstep
    rw [hs₃.output]
    exact hp

end Machine

/-! ## A machine that waits for its world -/

/-- A native function that answers whether the world is still where it was. -/
def poll : NativeFunction where
  name := "poll"
  arity := 0
  body _ := .look fun moment => .done (.ok (.bool (moment.hidden == 0)))

/-- A world that moves on with every look at it. -/
def moving : World where
  moments n := { hidden := n }

/-- A function that answers its argument joined with itself. -/
def doubling : BytecodeFunction where
  name := some ⟨2, 0⟩
  arity := 1
  chunk := Chunk.copy
    { code := #[5, 0, 5, 0, 16, 27]
      lines := #[1, 1, 1, 1, 1, 1] }

/-- A function that polls until the world has moved, prints what `doubling` makes of a word,
and answers that word joined with another. -/
def waiting : BytecodeFunction where
  chunk := Chunk.copy
    { code := #[0, 0, 26, 0, 24, 0, 3, 25, 0, 10, 0, 1, 0, 2, 26, 1, 22, 0, 2, 0, 3, 16, 27]
      lines := Array.replicate 23 1
      constants := #[.object ⟨1, 0⟩, .object ⟨3, 0⟩, .object ⟨2, 0⟩, .object ⟨0, 0⟩] }

def waitingObjects : List Object :=
  [.string "poll", .native poll, .string "tick", .function doubling, .function waiting]

def waitingNames : Std.HashMap String Handle :=
  ((∅ : Std.HashMap String Handle).insert "poll" ⟨0, 0⟩).insert "tick" ⟨2, 0⟩

/-- The heap before a run. -/
def waitingHeap (s : HeapConfig) : Heap :=
  .stocked s waitingObjects waitingNames #[⟨3, 0⟩]

/-- The heap when `doubling` has done its work. -/
def doubledHeap (s : HeapConfig) : Heap :=
  .stocked s (waitingObjects ++ [.string "ticktick"]) (waitingNames.insert "ticktick" ⟨5, 0⟩)
    #[⟨3, 0⟩]

/-- The heap in the end, if no collection has been made. -/
def keptHeap (s : HeapConfig) : Heap :=
  .stocked s (waitingObjects ++ [.string "ticktick", .string "tickpoll"])
    ((waitingNames.insert "ticktick" ⟨5, 0⟩).insert "tickpoll" ⟨6, 0⟩) #[⟨3, 0⟩]

/-- The heap after a collection that has freed what `doubling` made. -/
def sweptHeap (s : HeapConfig) : Heap :=
  { waitingHeap s with
    slots := ⟨(SlotTable.stocked waitingObjects).entries.push none, #[0, 0, 0, 0, 0, 1]⟩
    free := #[5]
    interned := (waitingNames.insert "ticktick" ⟨5, 0⟩).erase "ticktick" }

/-- The heap in the end, if there has been such a collection. -/
def reusedHeap (s : HeapConfig) : Heap :=
  { Heap.stocked s (waitingObjects ++ [.string "tickpoll"])
      ((sweptHeap s).interned.insert "tickpoll" ⟨5, 1⟩) #[⟨3, 0⟩] with
    slots := ⟨(SlotTable.stocked (waitingObjects ++ [.string "tickpoll"])).entries,
      #[0, 0, 0, 0, 0, 1]⟩ }

namespace Machine

/-- A machine with these functions and one of the heaps above. -/
def waitingAt (heap : Heap) (stack : Array Value) (frames : Array Frame) (looks : Nat := 0)
    (lines : Array String := #[]) : Machine where
  config := { registerBuiltins := false, heap := heap.config }
  heap
  globals := (∅ : Std.HashMap Handle Value).insert ⟨0, 0⟩ (.object ⟨1, 0⟩)
  stack
  frames
  output := { lines }
  world := { moving with looks }

theorem waitingAt_roots (heap : Heap) (stack : Array Value) (frames : Array Frame) (looks : Nat)
    (lines : Array String) :
    (waitingAt heap stack frames looks lines).roots =
      handlesOf stack.toList ++ frames.toList.map Frame.function ++ [⟨0, 0⟩, ⟨1, 0⟩] :=
  roots_of_single (m := waitingAt heap stack frames looks lines) rfl

theorem waitingAt_withHeap {heap heap' : Heap} (hc : heap'.config = heap.config)
    (stack : Array Value) (frames : Array Frame) (looks : Nat) (lines : Array String) :
    { waitingAt heap stack frames looks lines with heap := heap' } =
      waitingAt heap' stack frames looks lines := by
  rw [waitingAt, waitingAt, hc]

/-- A host sets the machine up with a collection before every allocation. Only the function
that has a name is pinned. -/
def waitingMachine : Machine :=
  [HostCall.defineNative poll, .intern "tick", .allocateFunction (some ⟨2, 0⟩) 1,
    .editFunction ⟨3, 0⟩ fun _ => doubling, .pin ⟨3, 0⟩, .allocateFunction none 0,
    .editFunction ⟨4, 0⟩ fun _ => waiting].foldl (fun m c => c.apply m) (underStress moving)

theorem waitingMachine_idle : waitingMachine.Idle :=
  (underStress_idle moving).calls (by simp [HostCall.outcome?])

theorem waitingMachine_eq : ∃ t stats,
    waitingMachine = waitingAt ((waitingHeap { stress := true }).noted t stats) #[] #[] := by
  have hroots := waitingAt_roots { config := { stress := true } } #[] #[] 0 #[]
  have hpoll : Stocks (waitingAt { config := { stress := true } } #[] #[]) _ _ _ _ :=
    (underStress_stocks moving).defineNative rfl (underStress_roots moving) rfl rfl poll
  obtain ⟨m, hi, htick⟩ := hpoll.intern rfl hroots rfl rfl (by decide) "tick" (by cbv) (by cbv)
  have hdoubling := htick.storeFunction rfl hroots rfl rfl (by decide) (some ⟨2, 0⟩) 1 doubling
    (by cbv)
  obtain ⟨hsame, t, stats, hheap⟩ := (hdoubling.pin ⟨3, 0⟩).storeFunction rfl hroots rfl rfl
    (by decide) none 0 waiting (by cbv)
  rw [hheap, ← show (HostCall.intern "tick").apply _ = m from congrArg Prod.snd hi] at hsame
  exact ⟨t, stats, hsame⟩

/-- What is live in the machine. -/
theorem waitingMachine_get? (x : Handle) :
    waitingMachine.heap.get? x = if x.generation = 0 then waitingObjects[x.index]? else none := by
  obtain ⟨t, stats, hm⟩ := waitingMachine_eq
  rw [hm]
  exact Heap.get?_stocked _ _ t stats x

theorem mem_waitingObjects {x : Handle} {o : Object} (h : waitingMachine.heap.get? x = some o) :
    o ∈ waitingObjects := by
  rw [waitingMachine_get?] at h
  split at h
  · exact List.mem_of_getElem? h
  · exact absurd h (by simp)

theorem waitingMachine_function? {x : Handle} {f : BytecodeFunction}
    (h : waitingMachine.heap.function? x = some f) : f = doubling ∨ f = waiting := by
  have hmem := mem_waitingObjects (Heap.function?_eq_some.mp h)
  simpa [waitingObjects] using hmem

theorem waitingMachine_native? {x : Handle} {n : NativeFunction}
    (h : waitingMachine.heap.native? x = some n) : n = poll := by
  have hmem := mem_waitingObjects (Heap.native?_eq_some.mp h)
  simpa [waitingObjects] using hmem

theorem waitingMachine_contains {i : Nat} (hi : i < waitingObjects.length) :
    waitingMachine.heap.contains ⟨i, 0⟩ := by
  rw [Heap.contains, waitingMachine_get?, if_pos rfl, List.getElem?_eq_getElem hi,
    Option.isSome_some]

theorem waitingMachine_closed : waitingMachine.Closed := by
  have hbound : ∀ (k : Handle) (v : Value), waitingMachine.globals[k]? = some v →
      k = ⟨0, 0⟩ ∧ v = .object ⟨1, 0⟩ := by
    obtain ⟨t, stats, hm⟩ := waitingMachine_eq
    intro k v hk
    rw [hm] at hk
    simp only [waitingAt, Std.HashMap.getElem?_insert] at hk
    split at hk
    · rename_i hkey
      exact ⟨(eq_of_beq hkey).symm, (Option.some.inj hk).symm⟩
    · exact absurd hk (by simp)
  have hidle : waitingMachine.stack = #[] ∧ waitingMachine.frames = #[] := by
    obtain ⟨t, stats, hm⟩ := waitingMachine_eq
    rw [hm]
    exact ⟨rfl, rfl⟩
  refine ⟨⟨fun k v hk => ?_, fun x f hx y hy => ?_⟩, by simp [hidle.1], by simp [hidle.2],
    fun k v hk => ?_⟩
  · obtain ⟨rfl, rfl⟩ := hbound k v hk
    exact ⟨waitingMachine_contains (by decide),
      Value.liveIn_of_contains (waitingMachine_contains (by decide))⟩
  · rcases waitingMachine_function? hx with rfl | rfl
    · rcases hy with hname | hconstant
      · rw [← Option.some.inj hname]
        exact waitingMachine_contains (by decide)
      · exact absurd hconstant (by simp [doubling, Chunk.copy])
    · rcases hy with hname | hconstant
      · exact absurd hname (by simp [waiting])
      · simp only [waiting, Chunk.copy, List.mem_toArray, List.mem_cons, Value.object.injEq,
          List.not_mem_nil, or_false] at hconstant
        rcases hconstant with rfl | rfl | rfl | rfl <;> exact waitingMachine_contains (by decide)
  · obtain ⟨rfl, rfl⟩ := hbound k v hk
    exact ⟨"poll", Heap.string?_eq_some.mpr (waitingMachine_get? ⟨0, 0⟩)⟩

/-- What `poll` answers is no object. -/
theorem poll_honest : poll.Honest := by
  intro m m' v _ _ hrun x hx
  subst hx
  exact absurd hrun (by simp [poll, Exec.runPrimitive, pure, EStateM.pure])

theorem waitingMachine_truthful : waitingMachine.TruthfulRun ⟨4, 0⟩ := by
  refine truthfulRun_of_honest ⟨waitingMachine_idle.regular.sound, waitingMachine_closed, rfl⟩
    (waitingMachine_contains (by decide)) fun x n hx => ?_
  rw [waitingMachine_native? hx]
  exact poll_honest

/-! ### A run of it -/

/-- The machine while `waiting` is being executed, and no other function. -/
def inWaiting (heap : Heap) (ip : Nat) (operands : List Value) (looks : Nat)
    (lines : Array String) : Machine :=
  waitingAt heap (.object ⟨4, 0⟩ :: operands).toArray #[⟨⟨4, 0⟩, ip, 1⟩] looks lines

/-- The machine while `doubling` is being executed. -/
def inDoubling (heap : Heap) (ip : Nat) (operands : List Value) : Machine :=
  waitingAt heap (.object ⟨4, 0⟩ :: .object ⟨3, 0⟩ :: .object ⟨2, 0⟩ :: operands).toArray
    #[⟨⟨4, 0⟩, 16, 1⟩, ⟨⟨3, 0⟩, ip, 2⟩] 2

/-- Puts a string in the place of two. -/
def replaceTwo (x : Handle) : Exec Unit := do
  let _ ← Exec.pop
  let _ ← Exec.pop
  Exec.push (.object x)

section

variable (s : HeapConfig) (t : Nat) (stats : HeapStats)

theorem waiting_enter :
    enter ⟨4, 0⟩ ((waitingAt ((waitingHeap s).noted t stats) #[] #[]).begun ⟨4, 0⟩) =
      .ok () (inWaiting ((waitingHeap s).noted t stats) 0 [] 0 #[]) := rfl

set_option maxRecDepth 4000 in
/-- The function polls twice, then calls `doubling`, which comes to join its argument with
itself. -/
theorem waiting_steps :
    (inWaiting ((waitingHeap s).noted t stats) 0 [] 0 #[]).steps 12 =
      (none, inDoubling ((waitingHeap s).noted t stats) 4 [.object ⟨2, 0⟩, .object ⟨2, 0⟩]) := by
  unfold waitingHeap
  generalize waitingNames = names
  cbv

set_option maxRecDepth 4000 in
/-- What `doubling` answers is printed, and two words are at hand to be joined. -/
theorem doubled_steps :
    (inDoubling ((doubledHeap s).noted t stats) 5 [.object ⟨5, 0⟩]).steps 4 =
      (none, inWaiting ((doubledHeap s).noted t stats) 21 [.object ⟨2, 0⟩, .object ⟨0, 0⟩] 2
        #["ticktick"]) := by
  unfold doubledHeap
  generalize waitingNames.insert "ticktick" ⟨5, 0⟩ = names
  cbv

/-- The whole run, given what interning the two joined words comes to. -/
theorem waiting_run {t₁ : Nat} {stats₁ : HeapStats} {h : Heap} {x : Handle} (hc : h.config = s)
    (hi₁ : (inDoubling ((waitingHeap s).noted t stats) 5 [.object ⟨2, 0⟩, .object ⟨2, 0⟩]).intern
      "ticktick" = (.ok ⟨5, 0⟩,
        { inDoubling ((waitingHeap s).noted t stats) 5 [.object ⟨2, 0⟩, .object ⟨2, 0⟩] with
          heap := (doubledHeap s).noted t₁ stats₁ }))
    (hi₂ : (inWaiting ((doubledHeap s).noted t₁ stats₁) 22 [.object ⟨2, 0⟩, .object ⟨0, 0⟩] 2
      #["ticktick"]).intern "tickpoll" = (.ok x,
        { inWaiting ((doubledHeap s).noted t₁ stats₁) 22 [.object ⟨2, 0⟩, .object ⟨0, 0⟩] 2
            #["ticktick"] with heap := h }))
    (hret : (inWaiting h 22 [.object x] 2 #["ticktick"]).steps 1 =
      (some (.returned (.object x)), waitingAt h #[] #[] 2 #["ticktick"])) :
    (waitingAt ((waitingHeap s).noted t stats) #[] #[]).runFunction 19 ⟨4, 0⟩ =
      (.finished (.object x), waitingAt h #[] #[] 2 #["ticktick"]) := by
  have hc₁ : ((doubledHeap s).noted t₁ stats₁).config = s := rfl
  have hdoubling :
      (inDoubling ((waitingHeap s).noted t stats) 4 [.object ⟨2, 0⟩, .object ⟨2, 0⟩]).steps 1 =
        (none, inDoubling ((doubledHeap s).noted t₁ stats₁) 5 [.object ⟨5, 0⟩]) :=
    steps_of_intern (f := replaceTwo) rfl
      (hi₁.trans (congrArg _ (waitingAt_withHeap hc₁ _ _ _ _))) rfl
  have hwaiting :
      (inWaiting ((doubledHeap s).noted t₁ stats₁) 21 [.object ⟨2, 0⟩, .object ⟨0, 0⟩] 2
        #["ticktick"]).steps 1 = (none, inWaiting h 22 [.object x] 2 #["ticktick"]) :=
    steps_of_intern (f := replaceTwo) rfl
      (hi₂.trans (congrArg _ (waitingAt_withHeap hc _ _ _ _))) rfl
  have hsteps : (inWaiting ((waitingHeap s).noted t stats) 0 [] 0 #[]).steps 19 =
      (some (.returned (.object x)), waitingAt h #[] #[] 2 #["ticktick"]) := by
    rw [steps_of_steps (waiting_steps s t stats) 7, steps_of_steps hdoubling 6,
      steps_of_steps (doubled_steps s t₁ stats₁) 2, steps_of_steps hwaiting 1, hret]
  rw [runFunction_eq, launch, waiting_enter]
  simp only [hsteps]
  rfl

set_option maxRecDepth 4000 in
/-- A collection before the second joining frees what was printed. -/
theorem doubledHeap_prepared (hs : s.stress = true) : ∃ t' stats',
    ((doubledHeap s).noted t stats).prepared [⟨4, 0⟩, ⟨2, 0⟩, ⟨0, 0⟩, ⟨4, 0⟩, ⟨0, 0⟩, ⟨1, 0⟩]
      (.string "tickpoll") = (sweptHeap s).noted t' stats' := by
  have hsweep : ({ (doubledHeap s).noted t stats with
      slots := mark (doubledHeap s).slots ([⟨4, 0⟩, ⟨2, 0⟩, ⟨0, 0⟩, ⟨4, 0⟩, ⟨0, 0⟩, ⟨1, 0⟩] ++
        [⟨3, 0⟩] ++ []) } : Heap).sweep =
      ((sweptHeap s).noted t { stats with
        freed := stats.freed + 1, bytesFreed := stats.bytesFreed + 112 },
        #[.objectFreed 5 .string 112]) := by
    unfold doubledHeap sweptHeap
    generalize waitingNames.insert "ticktick" ⟨5, 0⟩ = names
    cbv
  obtain ⟨t', stats', hp⟩ := Heap.prepared_of_sweep (h := (doubledHeap s).noted t stats)
    (o := .string "tickpoll") hs hsweep
  exact ⟨t', stats', hp⟩

/-- Under stress the result gets the slot of the string that was printed. -/
theorem waiting_stressed (hs : s.stress = true) (hl : s.maxBytes = none) : ∃ t' stats',
    (waitingAt ((waitingHeap s).noted t stats) #[] #[]).runFunction 19 ⟨4, 0⟩ =
      (.finished (.object ⟨5, 1⟩),
        waitingAt ((reusedHeap s).noted t' stats') #[] #[] 2 #["ticktick"]) := by
  have hstocks : Stocks
      (inDoubling ((waitingHeap s).noted t stats) 5 [.object ⟨2, 0⟩, .object ⟨2, 0⟩])
      waitingObjects waitingNames #[⟨3, 0⟩]
      (inDoubling ((waitingHeap s).noted t stats) 5 [.object ⟨2, 0⟩, .object ⟨2, 0⟩]) :=
    ⟨rfl, t, stats, rfl⟩
  have hroots₁ : (inDoubling ((waitingHeap s).noted t stats) 5
    [.object ⟨2, 0⟩, .object ⟨2, 0⟩]).roots = _ := waitingAt_roots _ _ _ _ _
  obtain ⟨m, hi₁, hsame, t₁, stats₁, hheap⟩ := hstocks.intern rfl hroots₁ hs hl (by decide)
    "ticktick" (by cbv) (by cbv)
  rw [hheap] at hsame
  have hroots₂ : (inWaiting ((doubledHeap s).noted t₁ stats₁) 22 [.object ⟨2, 0⟩, .object ⟨0, 0⟩] 2
    #["ticktick"]).roots = _ := waitingAt_roots _ _ _ _ _
  have hn : (waitingNames.insert "ticktick" ⟨5, 0⟩)["tickpoll"]? = none := by cbv
  obtain ⟨t₂, stats₂, hp⟩ := doubledHeap_prepared s t₁ stats₁ hs
  have hplace : ((sweptHeap s).noted t₂ stats₂).placeWithin (.string "tickpoll") =
      (.ok ⟨5, 1⟩, (((sweptHeap s).noted t₂ stats₂).place (.string "tickpoll")).2) := by
    rw [Heap.placeWithin, show ((sweptHeap s).noted t₂ stats₂).config.maxBytes = none from hl]
    rfl
  have hi₂ := intern_of_placed
    (m := inWaiting ((doubledHeap s).noted t₁ stats₁) 22 [.object ⟨2, 0⟩, .object ⟨0, 0⟩] 2
      #["ticktick"]) rfl hn (by rw [hroots₂]; exact hp) hplace
  exact ⟨t₂, _, waiting_run s t stats rfl (hi₁.trans (congrArg _ hsame)) hi₂ rfl⟩

set_option maxRecDepth 4000 in
/-- Without a collection the result gets a slot of its own. -/
theorem waiting_unhurried (hs : s.stress = false) (hl : s.maxBytes = none) (ht : 1081 ≤ t) :
    ∃ stats', (waitingAt ((waitingHeap s).noted t stats) #[] #[]).runFunction 19 ⟨4, 0⟩ =
      (.finished (.object ⟨6, 0⟩),
        waitingAt ((keptHeap s).noted t stats') #[] #[] 2 #["ticktick"]) := by
  have hticktick : (waitingObjects.map Object.cost).sum +
      (Object.string "ticktick").cost = 969 := by cbv
  have htickpoll : ((waitingObjects ++ [Object.string "ticktick"]).map Object.cost).sum +
      (Object.string "tickpoll").cost = 1081 := by cbv
  have hheap₁ :
      (inDoubling ((waitingHeap s).noted t stats) 5 [.object ⟨2, 0⟩, .object ⟨2, 0⟩]).heap =
        (Heap.stocked s waitingObjects waitingNames #[⟨3, 0⟩]).noted t stats := rfl
  obtain ⟨stats₁, hi₁⟩ := intern_below "ticktick" rfl hheap₁ hs hl (by decide) (by cbv) (by omega)
  have hheap₂ :
      (inWaiting ((doubledHeap s).noted t stats₁) 22 [.object ⟨2, 0⟩, .object ⟨0, 0⟩] 2
        #["ticktick"]).heap =
        (Heap.stocked s (waitingObjects ++ [.string "ticktick"])
          (waitingNames.insert "ticktick" ⟨5, 0⟩) #[⟨3, 0⟩]).noted t stats₁ := rfl
  obtain ⟨stats₂, hi₂⟩ := intern_below "tickpoll" rfl hheap₂ hs hl (by decide) (by cbv) (by omega)
  exact ⟨stats₂, waiting_run s t stats rfl hi₁ hi₂ rfl⟩

end

/-- A run under stress, with a native function, a call and an object that is made, printed and
freed on the way. -/
theorem handles_never_dangle_waiting :
    let m := (HostCall.runFunction 19 ⟨4, 0⟩).apply waitingMachine
    waitingMachine.Reached ∧ waitingMachine.Closed ∧
      (HostCall.runFunction 19 ⟨4, 0⟩).Careful waitingMachine ∧
      (HostCall.runFunction 19 ⟨4, 0⟩).outcome? waitingMachine =
        some (.finished (.object ⟨5, 1⟩)) ∧
      m.output.lines = #["ticktick"] ∧ m.heap.get? ⟨5, 0⟩ = none ∧
      m.heap.string? ⟨5, 1⟩ = some "tickpoll" ∧
      m.Closed ∧ ¬ m.ShowsFreed (.object ⟨5, 1⟩) ∧
      ∀ m', InRun waitingMachine ⟨4, 0⟩ m' → m'.Closed := by
  intro m
  have hcareful : (HostCall.runFunction 19 ⟨4, 0⟩).Careful waitingMachine :=
    ⟨waitingMachine_contains (by decide), waitingMachine_truthful⟩
  obtain ⟨hclosed, _, hshown, hsteps⟩ :=
    (handles_never_dangle (Or.inl waitingMachine_idle) waitingMachine_closed).2 _ hcareful
  obtain ⟨t, stats, hm⟩ := waitingMachine_eq
  obtain ⟨t', stats', hrun⟩ := waiting_stressed { stress := true } t stats rfl rfl
  rw [← hm] at hrun
  have hresult : (HostCall.runFunction 19 ⟨4, 0⟩).outcome? waitingMachine =
      some (.finished (.object ⟨5, 1⟩)) := congrArg some (congrArg Prod.fst hrun)
  have hleft : m = waitingAt ((reusedHeap { stress := true }).noted t' stats') #[] #[] 2
      #["ticktick"] := congrArg Prod.snd hrun
  exact ⟨Or.inl waitingMachine_idle, waitingMachine_closed, hcareful, hresult, by rw [hleft]; rfl,
    by rw [hleft]; rfl, by rw [hleft]; rfl, hclosed, hshown _ hresult,
    fun m' hin => (hsteps _ _ m' ⟨rfl, rfl⟩ hin).1⟩

end Machine

end StackMachine
