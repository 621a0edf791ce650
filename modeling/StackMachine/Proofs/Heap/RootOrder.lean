import StackMachine.Proofs.Heap.History

/-!
# The order of the roots

A collection starts from a list, but what it does is settled by the live handles in the
list. The marks that it sets are those of what the list leads to, and two tables with the
same objects and the same marks are equal. Sweeping reads the table and not the list. So
neither the order of the roots nor their number makes a difference, nor handles among
them that stand for nothing, nor whether an object is a root or a pin.

Pins are the one part of a heap that may then differ: `withPins` exchanges them.
-/

namespace StackMachine

/-- What a list leads to depends on its live handles only. -/
theorem Reach.congr_start {get : Handle → Option Object} {start start' : List Handle}
    (h : ∀ x o, get x = some o → (x ∈ start ↔ x ∈ start')) (x : Handle) :
    Reach get start x ↔ Reach get start' x :=
  ⟨fun hr => hr.trans fun y o hy ho => .root ((h y o ho).mp hy) ho,
    fun hr => hr.trans fun y o hy ho => .root ((h y o ho).mpr hy) ho⟩

/-! ## Marks -/

theorem isMarked_iff {slots : SlotTable} {x : Handle} {e : Entry}
    (he : entryAt? slots x = some e) : IsMarked slots x ↔ e.marked = true := by
  simp [IsMarked, he]

/-- Tables with the same objects and the same marks are equal. -/
theorem slots_ext {slots slots' : SlotTable} (ha : slots.Aligned)
    (hcl : slots.cleared = slots'.cleared)
    (hmarks : ∀ x, IsMarked slots x ↔ IsMarked slots' x) : slots = slots' := by
  have hgen : slots.cleared.generations = slots'.cleared.generations := by rw [hcl]
  refine SlotTable.ext (Array.ext_getElem? fun i => ?_) hgen
  have hi : slots.entries[i]?.map (Option.map Entry.cleared) =
      slots'.entries[i]?.map (Option.map Entry.cleared) := by
    rw [← Array.getElem?_map, ← Array.getElem?_map]
    exact congrArg (fun t => t.entries[i]?) hcl
  cases hs : slots.entries[i]? with
  | none =>
      rw [hs, Option.map_none] at hi
      exact (Option.map_eq_none_iff.mp hi.symm).symm
  | some entry =>
      rw [hs, Option.map_some] at hi
      obtain ⟨entry', ht, hentry⟩ := Option.map_eq_some_iff.mp hi.symm
      rw [ht]
      cases entry with
      | none =>
          obtain rfl := Option.map_eq_none_iff.mp hentry
          rfl
      | some e =>
          obtain ⟨d, rfl, hde⟩ := Option.map_eq_some_iff.mp hentry
          obtain ⟨hobject, hsize, -⟩ := Entry.mk.inj hde
          -- the two have one handle, so their marks can be compared
          obtain ⟨x, rfl, hx⟩ := ha.exists_handle hs
          have hx' : entryAt? slots' x = some d :=
            entryAt?_eq_some.mpr ⟨hgen ▸ (entryAt?_eq_some.mp hx).1, ht⟩
          have hmarked : e.marked = d.marked := by
            have hiff := hmarks x
            rw [isMarked_iff hx, isMarked_iff hx'] at hiff
            exact Bool.eq_iff_iff.mpr hiff
          have hed : e = d := by
            cases e
            cases d
            simp only at hobject hsize hmarked
            rw [hobject, hsize, hmarked]
          rw [hed]

/-- **Marking is settled by what is reached**, in whatever order the worklist is taken. -/
theorem mark_congr {slots : SlotTable} (hu : Unmarked slots) (ha : slots.Aligned)
    {work work' : List Handle}
    (h : ∀ x, Reach (objectAt? slots) work x ↔ Reach (objectAt? slots) work' x) :
    mark slots work = mark slots work' := by
  have hnone := hu.not_isMarked
  refine slots_ext (ha.mark work) ((mark_cleared ..).trans (mark_cleared ..).symm) fun x => ?_
  rw [isMarked_mark_iff hnone, isMarked_mark_iff hnone, h]

/-- The heap with other pins. -/
def Heap.withPins (h : Heap) (pinned : Array Handle) : Heap :=
  { h with pinned }

/-- The effect of an operation, with other pins on the heap that it leaves. -/
def HeapEffect.withPins {α : Type} (effect : HeapEffect α) (pinned : Array Handle) :
    HeapEffect α :=
  { effect with heap := effect.heap.withPins pinned }

namespace Heap

/-- Two lists hold the same live handles. -/
def SameLive (h : Heap) (start start' : List Handle) : Prop :=
  ∀ x, h.contains x → (x ∈ start ↔ x ∈ start')

variable {h : Heap} {pinned : Array Handle} {roots roots' pending : List Handle}

/-! ## Operations that do not look at the pins -/

theorem sweepSlot_withPins (h : Heap) (pinned : Array Handle) (i : Nat) :
    (h.withPins pinned).sweepSlot i = ((h.sweepSlot i).1.withPins pinned, (h.sweepSlot i).2) := by
  have hslots : (h.withPins pinned).slots = h.slots := rfl
  unfold sweepSlot
  rw [hslots]
  split
  · split
    · rfl
    · rfl
  · rfl

theorem sweepSlots_withPins (h : Heap) (pinned : Array Handle) (events : Array Event)
    (l : List Nat) :
    (h.withPins pinned).sweepSlots events l =
      ((h.sweepSlots events l).1.withPins pinned, (h.sweepSlots events l).2) := by
  induction l generalizing h events with
  | nil => rfl
  | cons i rest ih =>
      rw [sweepSlots, sweepSlots, sweepSlot_withPins]
      cases h.sweepSlot i with
      | mk h' freed =>
          cases freed with
          | none => exact ih h' events
          | some e => exact ih h' (events.push e)

theorem sweep_withPins (h : Heap) (pinned : Array Handle) :
    (h.withPins pinned).sweep = (h.sweep.1.withPins pinned, h.sweep.2) :=
  sweepSlots_withPins h pinned #[] _

theorem placeWithin_withPins (h : Heap) (pinned : Array Handle) (o : Object) :
    (h.withPins pinned).placeWithin o =
      ((h.placeWithin o).1, (h.placeWithin o).2.withPins pinned) := by
  have hplace : (h.withPins pinned).place o = ((h.place o).1, (h.place o).2.withPins pinned) := by
    have hfree : (h.withPins pinned).free = h.free := rfl
    have hslots : (h.withPins pinned).slots = h.slots := rfl
    unfold place
    rw [hfree, hslots]
    split
    · rfl
    · split
      · rfl
      · rfl
  have hconfig : (h.withPins pinned).config = h.config := rfl
  have hbytes : (h.withPins pinned).bytes = h.bytes := rfl
  unfold placeWithin
  rw [hconfig, hbytes, hplace]
  split
  · split
    · rfl
    · rfl
  · rfl

/-! ## Collections and allocations -/

section

variable (hu : Unmarked h.slots) (ha : h.slots.Aligned)

include hu ha

/-- **A collection is settled by the live handles that it starts from.** -/
theorem collectFor_withPins (pending : List Handle)
    (hsame : h.SameLive (roots ++ h.pinned.toList) (roots' ++ pinned.toList)) :
    (h.withPins pinned).collectFor roots' pending =
      (h.collectFor roots pending).withPins pinned := by
  have hmark : mark h.slots (roots' ++ pinned.toList ++ pending) =
      mark h.slots (roots ++ h.pinned.toList ++ pending) := by
    refine mark_congr hu ha fun x => (Reach.congr_start (fun y o ho => ?_) x).symm
    have hy := hsame y (contains_iff.mpr ⟨o, ho⟩)
    rw [List.mem_append (t := pending), List.mem_append (t := pending), hy]
  have hmarked : ({ h.withPins pinned with
        slots := mark h.slots (roots' ++ pinned.toList ++ pending) } : Heap) =
      withPins { h with slots := mark h.slots (roots ++ h.pinned.toList ++ pending) } pinned := by
    rw [hmark]
    rfl
  have hsweep : ({ h.withPins pinned with
      slots := mark h.slots (roots' ++ pinned.toList ++ pending) } : Heap).sweep = _ :=
    (congrArg sweep hmarked).trans (sweep_withPins ..)
  unfold collectFor
  simp only [withPins] at hsweep ⊢
  simp only [hsweep]
  rfl

/-- The handle that an object is given does not depend on the order of the roots either,
although the allocation may collect. -/
theorem allocate_withPins (o : Object)
    (hsame : h.SameLive (roots ++ h.pinned.toList) (roots' ++ pinned.toList)) :
    (h.withPins pinned).allocate roots' o = (h.allocate roots o).withPins pinned := by
  have hneeds : (h.withPins pinned).needsCollection o.cost = h.needsCollection o.cost := rfl
  unfold allocate
  rw [hneeds, collectFor_withPins hu ha o.children hsame]
  split
  · simp only [HeapEffect.withPins, placeWithin_withPins]
  · simp only [HeapEffect.withPins, placeWithin_withPins]

/-- What was the same set of live handles is the same set when some have been freed. -/
theorem SameLive.collect (hsame : h.SameLive roots roots') (source : List Handle) :
    (h.collect source).heap.SameLive roots roots' := by
  intro x hx
  obtain ⟨o, ho⟩ := contains_iff.mp hx
  have hlive := ((collectFor_collection hu ha source []).reach_of_live ho).2
  exact hsame x (contains_iff.mpr ⟨o, hlive⟩)

end

/-- **The order of the roots does not matter.** Two collections whose roots and pins hold
the same live handles, in any order and any number, free the same number of objects and
leave the same heap but for the pins. An object allocated next is given the same handle
in both, with the roots of the collections or with any others that hold the same live
handles. -/
theorem collection_ignores_root_order {h : Heap} (hr : h.Reachable)
    {roots roots' : List Handle} {pinned' : Array Handle}
    (hsame : h.SameLive (roots ++ h.pinned.toList) (roots' ++ pinned'.toList)) :
    ((h.withPins pinned').collect roots').answer = (h.collect roots).answer ∧
    ((h.withPins pinned').collect roots').heap = (h.collect roots).heap.withPins pinned' ∧
    (∀ o, (((h.withPins pinned').collect roots').heap.allocate roots' o).answer =
      ((h.collect roots).heap.allocate roots o).answer) ∧
    ∀ o next next', (h.collect roots).heap.SameLive (next ++ h.pinned.toList)
        (next' ++ pinned'.toList) →
      ((h.withPins pinned').collect roots').heap.allocate next' o =
        ((h.collect roots).heap.allocate next o).withPins pinned' := by
  have hu := hr.wellFormed.unmarked
  have ha := hr.wellFormed.aligned
  have hc : Collection h (roots ++ h.pinned.toList ++ []) _ (h.collect roots).heap :=
    collectFor_collection hu ha roots []
  have hcollect : (h.withPins pinned').collect roots' = (h.collect roots).withPins pinned' :=
    collectFor_withPins hu ha [] hsame
  have hnext : ∀ o next next', (h.collect roots).heap.SameLive (next ++ h.pinned.toList)
      (next' ++ pinned'.toList) →
      ((h.withPins pinned').collect roots').heap.allocate next' o =
        ((h.collect roots).heap.allocate next o).withPins pinned' := by
    intro o next next' hsame'
    rw [← hc.pinned] at hsame'
    rw [hcollect]
    exact allocate_withPins hc.unmarked hc.aligned o hsame'
  refine ⟨by rw [hcollect]; rfl, by rw [hcollect]; rfl, fun o => ?_, hnext⟩
  rw [hnext o roots roots' (hsame.collect hu ha roots)]
  rfl

/-- In the place of the function and its name, the name and a handle that stands for
nothing, with the function pinned twice. -/
theorem collection_ignores_root_order_cyclic :
    let first := cyclicHeap.collect [⟨1, 0⟩, ⟨0, 0⟩]
    let second := (cyclicHeap.withPins #[⟨1, 0⟩, ⟨1, 0⟩]).collect [⟨7, 3⟩, ⟨0, 0⟩]
    cyclicHeap.Reachable ∧ cyclicHeap.contains ⟨7, 3⟩ = false ∧ second.answer = first.answer ∧
      second.heap = first.heap.withPins #[⟨1, 0⟩, ⟨1, 0⟩] ∧
      (second.heap.allocate [⟨7, 3⟩, ⟨0, 0⟩] (.string "next")).answer =
        (first.heap.allocate [⟨1, 0⟩, ⟨0, 0⟩] (.string "next")).answer := by
  have hsame : cyclicHeap.SameLive ([⟨1, 0⟩, ⟨0, 0⟩] ++ cyclicHeap.pinned.toList)
      ([⟨7, 3⟩, ⟨0, 0⟩] ++ (#[⟨1, 0⟩, ⟨1, 0⟩] : Array Handle).toList) := by
    intro x hx
    have hnot : x ≠ ⟨7, 3⟩ := by
      intro heq
      rw [heq] at hx
      exact absurd hx (by decide)
    have hpinned : cyclicHeap.pinned.toList = [] := rfl
    simp [hpinned, hnot, or_comm]
  obtain ⟨hanswer, hheap, hnext, _⟩ := collection_ignores_root_order cyclicHeap_reachable hsame
  exact ⟨cyclicHeap_reachable, by decide, hanswer, hheap, hnext _⟩

end Heap

end StackMachine
