import Mathlib
import StackMachine.Proofs.Heap.Settling
import StackMachine.Proofs.Machine.Hosting

/-!
# Machines whose objects are known

What a collection does to the threshold depends on the arithmetic of floats, and its
figures are of no interest to a program. So a heap is known well enough when it is known
up to the two. This file follows a host that fills a heap with one object after the other.
Under stress each of them costs a collection, and as long as that collection reaches all
there is, the objects stay where they are and the next one gets the next slot.

A run of such a machine is followed by blocks of instructions, from one allocation to the
next. Where the collector makes a difference, it does so in what interning answers.
-/

namespace StackMachine

/-- A table with objects in its first slots, none of which has been freed before. -/
def SlotTable.stocked (objects : List Object) : SlotTable where
  entries := (objects.map fun o => some { object := o, size := o.cost }).toArray
  generations := Array.replicate objects.length 0

theorem SlotTable.stocked_unmarked (objects : List Object) : Unmarked (stocked objects) := by
  intro e he
  simp only [stocked, List.mem_toArray, List.mem_map, Option.some.injEq] at he
  obtain ⟨o, _, rfl⟩ := he
  rfl

namespace Heap

/-- The heap with another threshold and other figures. -/
def noted (h : Heap) (threshold : Nat) (stats : HeapStats) : Heap :=
  { h with threshold, stats }

/-- A heap with nothing but some objects. -/
def stocked (config : HeapConfig) (objects : List Object) (interned : Std.HashMap String Handle)
    (pinned : Array Handle) : Heap where
  config
  slots := .stocked objects
  interned
  pinned
  bytes := (objects.map Object.cost).sum

/-! ## Storing an object -/

section

variable {h h' c : Heap} {roots : List Handle} {o : Object} {freed : Array Event}

/-- Under stress an object is stored in what sweeping leaves. -/
theorem prepared_of_sweep (hs : h.config.stress = true)
    (hsweep : ({ h with slots := mark h.slots (roots ++ h.pinned.toList ++ o.children) } :
      Heap).sweep = (c, freed)) :
    ∃ t stats, h.prepared roots o = c.noted t stats := by
  have hneeds : h.needsCollection o.cost = true := by simp [needsCollection, hs]
  refine ⟨h.config.thresholdAfter c.bytes,
    { c.stats with collections := c.stats.collections + 1 }, ?_⟩
  rw [prepared, if_pos hneeds, collectFor]
  simp only [hsweep]
  rfl

/-- Below the threshold it is stored in the heap as it is. -/
theorem prepared_of_below (hs : h.config.stress = false) (hl : h.config.maxBytes = none)
    (ht : h.bytes + o.cost ≤ h.threshold) : h.prepared roots o = h := by
  have hneeds : h.needsCollection o.cost = false := by simp [needsCollection, hs, hl, ht]
  rw [prepared, hneeds]
  rfl

theorem allocate_of_placed {answer : Except OutOfMemory Handle}
    (hplace : (h.prepared roots o).placeWithin o = (answer, h')) :
    h.allocate roots o = ⟨answer, h', (h.allocate roots o).events⟩ := by
  obtain ⟨hanswer, hheap⟩ := h.allocate_prepared roots o
  rw [hplace] at hanswer hheap
  dsimp only at hanswer hheap
  rw [← hanswer, ← hheap]

end

section

variable {config : HeapConfig} {objects : List Object} (interned : Std.HashMap String Handle)
  (pinned : Array Handle) (t : Nat) (stats : HeapStats)

theorem get?_stocked (x : Handle) :
    ((stocked config objects interned pinned).noted t stats).get? x =
      if x.generation = 0 then objects[x.index]? else none := by
  have hgeneration : (Array.replicate objects.length (0 : UInt32))[x.index]? = some x.generation ↔
      x.index < objects.length ∧ x.generation = 0 := by
    simp [Array.getElem?_replicate, eq_comm]
  by_cases hx : x.index < objects.length
  · simp only [get?, entryAt?, noted, stocked, SlotTable.stocked, hgeneration, hx, true_and]
    split <;> simp [hx]
  · simp [get?, entryAt?, noted, stocked, SlotTable.stocked, hx]

/-- Under stress the heap stays as it is when the collection reaches all its objects. -/
theorem prepared_stocked {roots : List Handle} {o : Object} (hs : config.stress = true)
    (hm : (SlotTable.stocked objects).Spared (roots ++ pinned.toList ++ o.children)) :
    ∃ t' stats', ((stocked config objects interned pinned).noted t stats).prepared roots o =
      (stocked config objects interned pinned).noted t' stats' := by
  have hsweep := sweep_of_spared (h := (stocked config objects interned pinned).noted t stats)
    (SlotTable.stocked_unmarked objects) hm
  obtain ⟨t', stats', hp⟩ := prepared_of_sweep (o := o) hs hsweep
  exact ⟨t', stats', hp⟩

/-- A further object gets a slot of its own. -/
theorem placeWithin_stocked (o : Object) (hl : config.maxBytes = none)
    (hroom : objects.length < maxSlots) :
    ∃ stats', ((stocked config objects interned pinned).noted t stats).placeWithin o =
      (.ok ⟨objects.length, 0⟩,
        (stocked config (objects ++ [o]) interned pinned).noted t stats') := by
  refine ⟨{ stats with
    allocated := stats.allocated + 1
    peakBytes := max stats.peakBytes ((objects.map Object.cost).sum + o.cost) }, ?_⟩
  unfold placeWithin place
  simp [stocked, SlotTable.stocked, noted, hl, hroom, SlotTable.size, SlotTable.push, charge,
    Array.replicate_succ]

end

/-- Editing the function that was stored last. -/
theorem editFunction_stocked (config : HeapConfig) (objects : List Object)
    (interned : Std.HashMap String Handle) (pinned : Array Handle) (t : Nat) (stats : HeapStats)
    (f g : BytecodeFunction) :
    ∃ stats' events,
      ((stocked config (objects ++ [.function f]) interned pinned).noted t stats).editFunction
          ⟨objects.length, 0⟩ (fun _ => g) =
        some ⟨(), (stocked config (objects ++ [.function g]) interned pinned).noted t stats',
          events⟩ := by
  have hentry : entryAt? (.stocked (objects ++ [.function f])) ⟨objects.length, 0⟩ =
      some { object := .function f, size := (Object.function f).cost } := by
    simp [entryAt?, SlotTable.stocked]
  have hset : (SlotTable.stocked (objects ++ [.function f])).setEntry objects.length
      (some { object := .function g, size := (Object.function g).cost }) =
      .stocked (objects ++ [.function g]) := by
    simp [SlotTable.setEntry, SlotTable.stocked]
  have hbytes : ((objects ++ [Object.function f]).map Object.cost).sum - (Object.function f).cost +
      (Object.function g).cost = ((objects ++ [Object.function g]).map Object.cost).sum := by simp
  unfold editFunction
  simp only [stocked, noted, hentry, hset, hbytes]
  split
  · rename_i hcost
    exact ⟨stats, #[], by simp [hcost]⟩
  · exact ⟨_, _, rfl⟩

end Heap

/-- A journal that keeps nothing stays as it is. -/
theorem Journal.recordAll_nothing {j : Journal} (hj : j.scope = .nothing) (es : Array Event) :
    j.recordAll es = j := by
  have hrecord : ∀ e, j.record e = j := fun e => by simp [record, keeps, hj]
  rw [recordAll, ← Array.foldl_toList]
  induction es.toList with
  | nil => rfl
  | cons e rest ih => rw [List.foldl_cons, hrecord, ih]

namespace Machine

theorem absorb_quiet {α : Type} {m : Machine} (hj : m.journal.scope = .nothing)
    (effect : HeapEffect α) :
    m.absorb effect = (effect.answer, { m with heap := effect.heap }) := by
  rw [absorb, Journal.recordAll_nothing hj]

theorem intern_of_placed {m : Machine} {c h : Heap} {text : String} {x : Handle}
    (hj : m.journal.scope = .nothing) (hn : m.heap.interned? text = none)
    (hp : m.heap.prepared m.roots (.string text) = c)
    (hplace : c.placeWithin (.string text) = (.ok x, h)) :
    m.intern text =
      (.ok x, { m with heap := { h with interned := h.interned.insert text x } }) := by
  rw [← hp] at hplace
  rw [Machine.intern, absorb_quiet hj, Heap.intern, hn, Heap.allocate_of_placed hplace]

theorem roots_of_single {m : Machine} {k : Handle} {v : Value}
    (h : m.globals = (∅ : Std.HashMap Handle Value).insert k v) :
    m.roots = handlesOf m.stack.toList ++ m.frames.toList.map Frame.function ++
      k :: v.handle?.toList := by
  have hperm :=
    Std.HashMap.toList_insert_perm (m := (∅ : Std.HashMap Handle Value)) (k := k) (v := v)
  have htable : ((∅ : Std.HashMap Handle Value).insert k v).toList = [(k, v)] := by
    simpa using hperm
  simp [roots, h, htable]

/-! ## Filling a machine under stress -/

/-- Calls that run nothing leave a machine between two calls. -/
theorem Idle.calls {calls : List HostCall} (hc : ∀ c ∈ calls, ∀ m, c.outcome? m = none)
    {m : Machine} (h : m.Idle) : (calls.foldl (fun m c => c.apply m) m).Idle := by
  induction calls generalizing m with
  | nil => exact h
  | cons c rest ih =>
      have hreturns : c.Returns m := by
        rw [HostCall.Returns, hc c List.mem_cons_self m]
        simp
      exact ih (fun c hin => hc c (List.mem_cons_of_mem _ hin)) (.call c h hreturns)

/-- Whether a machine is `base` with nothing but these objects in its heap. -/
structure Stocks (base : Machine) (objects : List Object) (names : Std.HashMap String Handle)
    (pinned : Array Handle) (m : Machine) : Prop where
  same : m = { base with heap := m.heap }
  heap : ∃ t stats, m.heap = (Heap.stocked base.config.heap objects names pinned).noted t stats

/-- An empty machine without the clock that collects before every allocation. -/
def underStress (world : World := {}) : Machine :=
  fresh { registerBuiltins := false, heap := { stress := true } } {} .nothing world

theorem underStress_idle (world : World) : (underStress world).Idle :=
  fresh_idle rfl rfl

theorem underStress_roots (world : World) : (underStress world).roots = [] := by
  simp [roots, underStress, fresh, handlesOf]

theorem underStress_stocks (world : World) :
    (underStress world).Stocks [] ∅ #[] (underStress world) :=
  ⟨rfl, _, _, rfl⟩

namespace Stocks

variable {base m : Machine} {objects : List Object} {names : Std.HashMap String Handle}
  {pinned : Array Handle}

theorem pin (h : base.Stocks objects names pinned m) (x : Handle) :
    base.Stocks objects names (pinned.push x) (m.pin x) := by
  obtain ⟨hsame, t, stats, hheap⟩ := h
  exact ⟨by rw [Machine.pin, hsame], t, stats, by rw [Machine.pin, hheap]; rfl⟩

section

variable {start : List Handle} (hj : base.journal.scope = .nothing) (hstart : base.roots = start)
  (hs : base.config.heap.stress = true) (hl : base.config.heap.maxBytes = none)
  (h : base.Stocks objects names pinned m) (hroom : objects.length < Heap.maxSlots)

include hj hstart hs hl h hroom

theorem allocate {o : Object}
    (hm : (SlotTable.stocked objects).Spared (start ++ pinned.toList ++ o.children)) :
    ∃ m', m.allocate o = (.ok ⟨objects.length, 0⟩, m') ∧
      base.Stocks (objects ++ [o]) names pinned m' := by
  obtain ⟨hsame, t, stats, hheap⟩ := h
  have hroots : m.roots = start := (congrArg roots hsame).trans hstart
  have hquiet : m.journal.scope = .nothing := by rw [hsame]; exact hj
  obtain ⟨t', stats', hp⟩ := Heap.prepared_stocked names pinned t stats hs hm
  obtain ⟨stats'', hplace⟩ := Heap.placeWithin_stocked names pinned t' stats' o hl hroom
  rw [← hp, ← hheap, ← hroots] at hplace
  rw [Machine.allocate, absorb_quiet hquiet, Heap.allocate_of_placed hplace]
  exact ⟨_, rfl, by rw [hsame], t', stats'', rfl⟩

theorem intern (text : String) (hn : names[text]? = none)
    (hm : (SlotTable.stocked objects).Spared (start ++ pinned.toList ++ [])) :
    ∃ m', m.intern text = (.ok ⟨objects.length, 0⟩, m') ∧
      base.Stocks (objects ++ [.string text]) (names.insert text ⟨objects.length, 0⟩) pinned
        m' := by
  obtain ⟨hsame, t, stats, hheap⟩ := h
  have hroots : m.roots = start := (congrArg roots hsame).trans hstart
  have hquiet : m.journal.scope = .nothing := by rw [hsame]; exact hj
  have hnone : m.heap.interned? text = none := by rw [hheap]; exact hn
  obtain ⟨t', stats', hp⟩ :=
    Heap.prepared_stocked (o := .string text) names pinned t stats hs hm
  obtain ⟨stats'', hplace⟩ :=
    Heap.placeWithin_stocked names pinned t' stats' (.string text) hl hroom
  rw [intern_of_placed hquiet hnone (by rw [hheap, hroots]; exact hp) hplace]
  exact ⟨_, rfl, by rw [hsame], t', stats'', rfl⟩

/-- A host stores a function and writes its code. -/
theorem storeFunction (name : Option Handle) (arity : UInt8) (g : BytecodeFunction)
    (hm : (SlotTable.stocked objects).Spared (start ++ pinned.toList ++ name.toList)) :
    base.Stocks (objects ++ [.function g]) names pinned
      ((HostCall.editFunction ⟨objects.length, 0⟩ fun _ => g).apply
        ((HostCall.allocateFunction name arity).apply m)) := by
  have hchildren : (Object.function { name, arity }).children = name.toList := List.append_nil _
  obtain ⟨m', ha, hsame, t, stats, hheap⟩ := Stocks.allocate (o := .function { name, arity }) hj
    hstart hs hl h hroom (by rw [hchildren]; exact hm)
  have hquiet : m'.journal.scope = .nothing := by rw [hsame]; exact hj
  obtain ⟨stats', events, he⟩ :=
    Heap.editFunction_stocked base.config.heap objects names pinned t stats { name, arity } g
  simp only [HostCall.apply, Machine.allocateFunction, Machine.editFunction, ha, hheap, he,
    Option.map_some, Option.getD_some]
  rw [absorb_quiet hquiet]
  exact ⟨by rw [hsame], t, stats', rfl⟩

end

/-- A host defines a native function first of all. -/
theorem defineNative (hj : base.journal.scope = .nothing) (hstart : base.roots = [])
    (hs : base.config.heap.stress = true) (hl : base.config.heap.maxBytes = none)
    (h : base.Stocks [] ∅ #[] m) (n : NativeFunction) :
    Stocks { base with globals := base.globals.insert ⟨0, 0⟩ (.object ⟨1, 0⟩) }
      [.string n.name, .native n] ((∅ : Std.HashMap String Handle).insert n.name ⟨0, 0⟩) #[]
      ((HostCall.defineNative n).apply m) := by
  obtain ⟨m₁, hi, hnamed⟩ := h.intern hj hstart hs hl (by decide) n.name (by simp) (by cbv)
  obtain ⟨m₂, ha, hsame, t, stats, hheap⟩ := (hnamed.pin ⟨0, 0⟩).allocate (o := .native n) hj hstart
    hs hl (by simp [Heap.maxSlots]) (by cbv)
  rw [HostCall.apply, Machine.defineNative, hi]
  dsimp only [List.length_nil]
  rw [ha, hsame, hheap]
  refine ⟨?_, t, stats, rfl⟩
  simp [Machine.record, Journal.record, Journal.keeps, Machine.unpin, hj]

end Stocks

/-- Interning when there is no need to collect. -/
theorem intern_below {m : Machine} {config : HeapConfig} {objects : List Object}
    {names : Std.HashMap String Handle} {pinned : Array Handle} {t : Nat} {stats : HeapStats}
    (text : String) (hj : m.journal.scope = .nothing)
    (hheap : m.heap = (Heap.stocked config objects names pinned).noted t stats)
    (hs : config.stress = false) (hl : config.maxBytes = none)
    (hroom : objects.length < Heap.maxSlots) (hn : names[text]? = none)
    (ht : (objects.map Object.cost).sum + (Object.string text).cost ≤ t) :
    ∃ stats', m.intern text = (.ok ⟨objects.length, 0⟩, { m with
      heap := (Heap.stocked config (objects ++ [.string text])
        (names.insert text ⟨objects.length, 0⟩) pinned).noted t stats' }) := by
  have hnone : m.heap.interned? text = none := by rw [hheap]; exact hn
  have hp : m.heap.prepared m.roots (.string text) = m.heap := by
    rw [hheap]
    exact Heap.prepared_of_below hs hl ht
  obtain ⟨stats', hplace⟩ :=
    Heap.placeWithin_stocked names pinned t stats (.string text) hl hroom
  rw [← hheap] at hplace
  exact ⟨stats', intern_of_placed hj hnone hp hplace⟩

/-! ## Blocks of instructions -/

/-- A block of instructions that does not halt can be cut off a run. -/
theorem steps_of_steps {m m' : Machine} {n : Nat} (h : m.steps n = (none, m')) (k : Nat) :
    m.steps (n + k) = m'.steps k := by
  induction n generalizing m with
  | zero => rw [Nat.zero_add, (Prod.mk.inj h).2.symm]
  | succ n ih =>
      rw [Nat.succ_add]
      rw [steps] at h ⊢
      cases hstep : Exec.step m.recordInstruction with
      | ok a m₁ => rw [hstep] at h; exact ih h
      | error halt m₁ => rw [hstep] at h; exact absurd h (by simp)

/-- An instruction that interns goes on with the handle. -/
theorem steps_of_intern {m m₁ m₂ m₃ : Machine} {text : String} {x : Handle} {f : Handle → Exec Unit}
    (hstep : Exec.step m.recordInstruction = (Exec.intern text >>= f) m₁)
    (hi : m₁.intern text = (.ok x, m₂)) (hf : f x m₂ = .ok () m₃) : m.steps 1 = (none, m₃) := by
  have hintern : Exec.intern text m₁ = .ok x m₂ := by rw [Exec.intern, hi]
  have hbind : (Exec.intern text >>= f) m₁ = .ok () m₃ := by
    show EStateM.bind (Exec.intern text) f m₁ = _
    rw [EStateM.bind, hintern]
    exact hf
  rw [steps, hstep, hbind]
  rfl

end Machine

end StackMachine
