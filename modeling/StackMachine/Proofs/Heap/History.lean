import StackMachine.Chunk.Emit
import StackMachine.Proofs.Heap.Storage

/-!
# Heaps that can arise

A heap starts empty and changes by calls of its interface alone. Whatever the
calls are, and whether they succeed or not, the heap stays well formed, so each
collection starts without marks and is exact.
-/

namespace StackMachine

/-- A call of the heap's interface. Calls that may collect come with the handles
that their root source reports. -/
inductive HeapCall where
  | allocate (roots : List Handle) (object : Object)
  | intern (roots : List Handle) (text : String)
  | allocateFunction (roots : List Handle) (name : Option Handle) (arity : UInt8)
  | allocateNative (roots : List Handle) (native : NativeFunction)
  | editFunction (function : Handle) (edit : BytecodeFunction → BytecodeFunction)
  | pin (handle : Handle)
  | unpin (handle : Handle)
  | collect (roots : List Handle)

/-- The heap that a call leaves, however it ends. -/
def HeapCall.apply (h : Heap) : HeapCall → Heap
  | allocate roots object => (h.allocate roots object).heap
  | intern roots text => (h.intern roots text).heap
  | allocateFunction roots name arity => (h.allocateFunction roots name arity).heap
  | allocateNative roots native => (h.allocate roots (.native native)).heap
  | editFunction function edit => ((h.editFunction function edit).map HeapEffect.heap).getD h
  | pin handle => h.pin handle
  | unpin handle => h.unpin handle
  | collect roots => (h.collect roots).heap

namespace Heap

/-- The heaps that can arise by calls of the interface. -/
inductive Reachable : Heap → Prop where
  | empty (config : HeapConfig) : Reachable (Heap.empty config)
  | call {h : Heap} (c : HeapCall) : Reachable h → Reachable (c.apply h)

theorem wellFormed_empty (config : HeapConfig) : (Heap.empty config).WellFormed where
  aligned := rfl
  unmarked := by intro s hs; simp [Heap.empty] at hs
  nodup := by simp [Heap.empty]
  mem_free := by intro i; simp [Heap.empty]

theorem faithful_empty (config : HeapConfig) : (Heap.empty config).Faithful := by
  intro s x
  simp [Heap.empty, interned?, get?, entryAt?]

/-- Every call keeps a heap well formed. -/
theorem wellFormed_apply {h : Heap} (hw : h.WellFormed) (c : HeapCall) :
    (c.apply h).WellFormed := by
  cases c with
  | allocate roots object => exact allocate_wellFormed hw roots object
  | intern roots text => exact intern_wellFormed hw roots text
  | allocateFunction roots name arity => exact allocate_wellFormed hw roots _
  | allocateNative roots native => exact allocate_wellFormed hw roots _
  | editFunction function edit =>
      cases he : h.editFunction function edit with
      | none => simpa [HeapCall.apply, he] using hw
      | some effect =>
          obtain ⟨_, _, _, _, _, hw'⟩ := editFunction_spec he
          simpa [HeapCall.apply, he] using hw' hw
  | pin handle => exact ⟨hw.aligned, hw.unmarked, hw.nodup, hw.mem_free⟩
  | unpin handle =>
      simp only [HeapCall.apply]
      rw [unpin_eq]
      exact ⟨hw.aligned, hw.unmarked, hw.nodup, hw.mem_free⟩
  | collect roots => exact (hw.collection roots []).wellFormed hw

theorem Reachable.wellFormed {h : Heap} (hr : h.Reachable) : h.WellFormed := by
  induction hr with
  | empty config => exact wellFormed_empty config
  | call c _ ih => exact wellFormed_apply ih c

theorem Reachable.calls {h : Heap} (hr : h.Reachable) (cs : List HeapCall) :
    (cs.foldl HeapCall.apply h).Reachable := by
  induction cs generalizing h with
  | nil => exact hr
  | cons c cs ih => exact ih (.call c hr)

/-- The heap that a sequence of calls leaves of an empty one. -/
def after (config : HeapConfig) (calls : List HeapCall) : Heap :=
  calls.foldl HeapCall.apply (Heap.empty config)

theorem after_concat (config : HeapConfig) (calls : List HeapCall) (c : HeapCall) :
    after config (calls ++ [c]) = c.apply (after config calls) := by
  simp [after]

theorem after_reachable (config : HeapConfig) (calls : List HeapCall) :
    (after config calls).Reachable :=
  (Reachable.empty config).calls calls

/-- **Collections are exact.** On every heap that can arise, a collection asked
for frees exactly the live objects that the roots and the pins do not lead to.
The collection that an allocation makes first does the same, with the references
of the object about to be stored added to the start; the object is stored in
what that collection leaves. -/
theorem collection_frees_unreachable {h : Heap} (hr : h.Reachable) (roots : List Handle) :
    Collection h (roots ++ h.pinned.toList) (h.collect roots).answer (h.collect roots).heap ∧
    ∀ o : Object, h.needsCollection o.cost = true →
      Collection h (roots ++ h.pinned.toList ++ o.children)
        (h.collectFor roots o.children).answer (h.collectFor roots o.children).heap ∧
      ((h.allocate roots o).answer, (h.allocate roots o).heap) =
        (h.collectFor roots o.children).heap.placeWithin o := by
  have hw := hr.wellFormed
  refine ⟨?_, fun o hn => ⟨hw.collection roots o.children, ?_⟩⟩
  · have hc := hw.collection roots []
    rw [List.append_nil] at hc
    exact hc
  · unfold allocate
    rw [if_pos hn]

/-- The function of `cyclicHeap`, which has itself as a constant. -/
def cyclicFunction : BytecodeFunction where
  name := some ⟨0, 0⟩
  chunk := ({} : Chunk).pushConstant (.object ⟨1, 0⟩)

/-- A string, a function named by it that has itself as a constant, and a string
that nothing refers to. -/
def cyclicHeap : Heap :=
  [HeapCall.allocate [] (.string "name"), .allocateFunction [] (some ⟨0, 0⟩) 0,
    .allocate [] (.string "loose"), .editFunction ⟨1, 0⟩ fun _ => cyclicFunction].foldl
    HeapCall.apply (Heap.empty {})

theorem cyclicHeap_reachable : cyclicHeap.Reachable :=
  (Reachable.empty {}).calls _

theorem cyclicHeap_not_reach : ¬ Reach cyclicHeap.get? ([⟨1, 0⟩] ++ cyclicHeap.pinned.toList) ⟨2, 0⟩ := by
  -- the two slots below hold all that the function leads to
  have hlow : ∀ x, Reach cyclicHeap.get? ([⟨1, 0⟩] ++ cyclicHeap.pinned.toList) x → x.index < 2 := by
    intro x hx
    induction hx with
    | root hx _ =>
        have hp : ([⟨1, 0⟩] ++ cyclicHeap.pinned.toList : List Handle) = [⟨1, 0⟩] := rfl
        rw [hp, List.mem_singleton] at hx
        subst hx
        decide
    | @child x y f o _ hx hf _ ih =>
        obtain ⟨e, he, ho⟩ := get?_eq_some.mp hx
        rw [entryAt?_eq_some] at he
        obtain ⟨i, g⟩ := x
        have hi : i = 0 ∨ i = 1 := by simp only at ih; omega
        rcases hi with rfl | rfl
        · have hs : cyclicHeap.slots.entries[0]? = some (some ⟨.string "name", 108, false⟩) := rfl
          have hsame := hs.symm.trans he.2
          simp only [Option.some.injEq] at hsame
          rw [← hsame] at ho
          exact absurd ho (by simp)
        · have hs : cyclicHeap.slots.entries[1]? =
              some (some ⟨.function cyclicFunction, 168, false⟩) := rfl
          have hsame := hs.symm.trans he.2
          simp only [Option.some.injEq] at hsame
          rw [← hsame] at ho
          rw [← Object.function.inj ho] at hf
          rcases hf with hf | hf
          · rw [← Option.some.inj hf]; decide
          · simp only [cyclicFunction, Chunk.pushConstant, List.push_toArray, List.nil_append,
              List.mem_toArray, List.mem_singleton, Value.object.injEq] at hf
            subst hf
            decide
  intro h
  exact absurd (hlow _ h) (by decide)

/-- The function that refers to itself survives, with its name, and the string
that nothing refers to does not. -/
theorem collection_frees_unreachable_cyclic :
    cyclicHeap.Reachable ∧
      (cyclicHeap.collect [⟨1, 0⟩]).heap.get? ⟨1, 0⟩ = some (.function cyclicFunction) ∧
      (cyclicHeap.collect [⟨1, 0⟩]).heap.get? ⟨0, 0⟩ = some (.string "name") ∧
      cyclicHeap.get? ⟨2, 0⟩ = some (.string "loose") ∧
      (cyclicHeap.collect [⟨1, 0⟩]).heap.get? ⟨2, 0⟩ = none := by
  have hc := (collection_frees_unreachable cyclicHeap_reachable [⟨1, 0⟩]).1
  have hself : Reach cyclicHeap.get? ([⟨1, 0⟩] ++ cyclicHeap.pinned.toList) ⟨1, 0⟩ :=
    .root (List.mem_cons_self ..) rfl
  have hname : Reach cyclicHeap.get? ([⟨1, 0⟩] ++ cyclicHeap.pinned.toList) ⟨0, 0⟩ :=
    hself.child rfl (Or.inl rfl) rfl
  refine ⟨cyclicHeap_reachable, ?_, ?_, rfl, hc.get?_gone cyclicHeap_not_reach⟩
  · rw [hc.get?_kept hself]; rfl
  · rw [hc.get?_kept hname]; rfl

end Heap

end StackMachine
