import Mathlib.Algebra.BigOperators.Group.List.Basic
import Mathlib.Algebra.GroupWithZero.Nat
import Mathlib.Data.List.Induction
import Mathlib.Order.Bounds.Basic
import StackMachine.Proofs.Heap.History

/-!
# The books of a heap

Bytes are entered in three places: when an object is stored, when it is swept and
when a function is changed. Slots are taken in two, and what they hold and their
generations are kept apart. The books agree with the table all the same, at every
point of every history: what is charged in all is the sum of what is charged for each
live object, and a slot is free or holds an object that has been stored and not freed.

A heap also keeps two high-water marks. The table of slots is never longer than it
had to be, because a new slot is made only when every other is taken. The peak of
the bytes is looked at after each operation that can raise them. Both are therefore
the largest value seen so far, which is a statement about the whole history: one
call moves a mark to the new level if that is higher, and the rest is induction.
-/

namespace StackMachine

/-- The bytes charged for what a slot holds. -/
def chargeFor (entry : Option Entry) : Nat :=
  (entry.map Entry.size).getD 0

@[simp] theorem chargeFor_some (e : Entry) : chargeFor (some e) = e.size := rfl

@[simp] theorem chargeFor_none : chargeFor none = 0 := rfl

/-- The bytes charged for all objects of a table. -/
def chargeOf (slots : SlotTable) : Nat :=
  (slots.entries.toList.map chargeFor).sum

/-- The number of objects in a table. -/
def liveCount (slots : SlotTable) : Nat :=
  slots.entries.countP Option.isSome

/-! ## Changing one slot -/

section

variable {slots slots' : SlotTable} {i : Nat} {s t : Option Entry}

/-- A sum over the slots of a table changes by what one slot adds to it. -/
theorem sum_map_set {f : Option Entry → Nat} (hs : slots.entries[i]? = some s)
    (hset : slots'.entries = slots.entries.setIfInBounds i t) :
    (slots'.entries.toList.map f).sum + f s = (slots.entries.toList.map f).sum + f t := by
  obtain ⟨hi, rfl⟩ := Array.getElem?_eq_some_iff.mp hs
  have hlen : i < (slots.entries.toList.map f).length := by simpa using hi
  have hold := List.sum_set (slots.entries.toList.map f) i (f slots.entries[i])
  have hnew := List.sum_set (slots.entries.toList.map f) i (f t)
  have hsame : (slots.entries.toList.map f).set i (f slots.entries[i]) =
      slots.entries.toList.map f := by
    rw [← List.map_set, ← Array.getElem_toList hi, List.set_getElem_self]
  rw [hsame, if_pos hlen] at hold
  rw [if_pos hlen, ← List.map_set] at hnew
  rw [hset, Array.toList_setIfInBounds, hnew, hold]
  omega

theorem chargeOf_set (hs : slots.entries[i]? = some s)
    (hset : slots'.entries = slots.entries.setIfInBounds i t) :
    chargeOf slots' + chargeFor s = chargeOf slots + chargeFor t :=
  sum_map_set hs hset

theorem liveCount_set (hs : slots.entries[i]? = some s)
    (hset : slots'.entries = slots.entries.setIfInBounds i t) :
    liveCount slots' + s.isSome.toNat = liveCount slots + t.isSome.toNat := by
  obtain ⟨hi, rfl⟩ := Array.getElem?_eq_some_iff.mp hs
  unfold liveCount
  rw [hset, Array.setIfInBounds, dif_pos hi, Array.countP_set]
  have hpos : slots.entries[i].isSome = true → 0 < slots.entries.countP Option.isSome := fun hl =>
    Array.countP_pos_iff.mpr ⟨_, Array.getElem_mem hi, hl⟩
  cases hl : slots.entries[i].isSome with
  | false => cases t.isSome <;> simp
  | true =>
      have := hpos hl
      cases t.isSome <;> simp <;> omega

end

theorem chargeOf_push (slots : SlotTable) (e : Entry) :
    chargeOf (slots.push e) = chargeOf slots + e.size := by
  simp [chargeOf, SlotTable.push]

theorem liveCount_push (slots : SlotTable) (e : Entry) :
    liveCount (slots.push e) = liveCount slots + 1 := by
  simp [liveCount, SlotTable.push]

section

variable {slots slots' : SlotTable} (h : slots'.cleared = slots.cleared)

include h

/-- Tables that differ in marks only look the same to whatever reads no marks. -/
theorem map_eq_of_cleared {α : Type} {f : Option Entry → α}
    (hf : ∀ entry, f (Option.map Entry.cleared entry) = f entry) :
    slots'.entries.toList.map f = slots.entries.toList.map f := by
  have hmap : ∀ t : SlotTable, t.cleared.entries.toList.map f = t.entries.toList.map f := by
    intro t
    simp [SlotTable.cleared, Function.comp_def, hf]
  rw [← hmap slots', h, hmap]

theorem chargeOf_congr : chargeOf slots' = chargeOf slots := by
  have hcharge : ∀ entry, chargeFor (Option.map Entry.cleared entry) = chargeFor entry := by
    intro entry
    cases entry <;> rfl
  unfold chargeOf
  rw [map_eq_of_cleared h hcharge]

theorem liveCount_congr : liveCount slots' = liveCount slots := by
  have hlive : ∀ entry : Option Entry, (Option.map Entry.cleared entry).isSome = entry.isSome := by
    intro entry
    cases entry <;> rfl
  have hcount : ∀ t : SlotTable,
      liveCount t = (t.entries.toList.map Option.isSome).countP id := by
    intro t
    rw [List.countP_map, liveCount, ← Array.countP_toList]
    rfl
  rw [hcount, hcount, map_eq_of_cleared h hlive]

end

namespace Heap

/-- The books agree with the table of slots. This holds in the middle of a sweep
too, when some marks are still set. -/
structure Ledger (h : Heap) : Prop where
  /-- An object is charged what it costs now. -/
  charges : ∀ (i : Nat) e, h.slots.entries[i]? = some (some e) → e.size = e.object.cost
  bytes : h.bytes = chargeOf h.slots
  slots : h.free.size + liveCount h.slots = h.slots.size
  stored : h.stats.freed + liveCount h.slots = h.stats.allocated
  peak : h.bytes ≤ h.stats.peakBytes

/-- What freeing objects does to the books of `h`. -/
structure Frees (h h' : Heap) : Prop where
  ledger : h'.Ledger
  /-- The bytes taken off are the bytes freed: nothing is cut off at zero. -/
  bytes : h'.bytes + h'.stats.bytesFreed = h.bytes + h.stats.bytesFreed
  le : h'.bytes ≤ h.bytes
  peak : h'.stats.peakBytes = h.stats.peakBytes
  size : h'.slots.size = h.slots.size

/-- The high-water marks of `h'`, given those of `h`. -/
structure Raises (h h' : Heap) : Prop where
  slots : h'.slots.size = max h.slots.size h'.objectCount
  peak : h'.stats.peakBytes = max h.stats.peakBytes h'.bytes

variable {h h' h'' : Heap}

theorem Ledger.objectCount (hl : h.Ledger) : h.objectCount = liveCount h.slots := by
  have := hl.slots
  unfold Heap.objectCount
  omega

theorem Frees.refl (hl : h.Ledger) : Frees h h :=
  ⟨hl, rfl, Nat.le_refl _, rfl, rfl⟩

theorem Frees.trans (hf : Frees h h') (hf' : Frees h' h'') : Frees h h'' :=
  ⟨hf'.ledger, hf'.bytes.trans hf.bytes, Nat.le_trans hf'.le hf.le, hf'.peak.trans hf.peak,
    hf'.size.trans hf.size⟩

/-- Freeing leaves the marks where they are. -/
theorem Frees.raises (hl : h.Ledger) (hf : Frees h h') : Raises h h' := by
  have hpeak := hl.peak
  have hle := hf.le
  have hcount : h'.objectCount ≤ h'.slots.size := Nat.sub_le ..
  refine ⟨?_, ?_⟩
  · rw [hf.size] at hcount ⊢
    omega
  · rw [hf.peak]
    omega

theorem Frees.raises_trans (hf : Frees h h') (hr : Raises h' h'') : Raises h h'' := by
  refine ⟨?_, ?_⟩
  · rw [← hf.size]; exact hr.slots
  · rw [← hf.peak]; exact hr.peak

/-! ## Changing one slot and the books with it -/

/-- A charge is part of the sum, so it can be taken off. -/
theorem Ledger.size_le (hl : h.Ledger) {i : Nat} {e : Entry}
    (hs : h.slots.entries[i]? = some (some e)) : e.size ≤ h.bytes := by
  have hset : (h.slots.setEntry i none).entries = h.slots.entries.setIfInBounds i none := rfl
  have hcharge := chargeOf_set hs hset
  have hbytes := hl.bytes
  simp only [chargeFor_some, chargeFor_none] at hcharge
  omega

theorem getElem?_set_cases {entries : Array (Option Entry)} {i j : Nat} {s t : Option Entry}
    (h : (entries.setIfInBounds i t)[j]? = some s) : s = t ∨ entries[j]? = some s := by
  rw [Array.getElem?_setIfInBounds] at h
  split at h
  · split at h
    · exact Or.inl (Option.some.inj h).symm
    · exact absurd h (by simp)
  · exact Or.inr h

/-- The books stay right when a slot changes, if each of them follows the change:
what was entered for `s` is taken off, and what `t` asks for is entered. -/
theorem Ledger.setSlot (hl : h.Ledger) {i : Nat} {s t : Option Entry}
    (hs : h.slots.entries[i]? = some s)
    (hslots : h'.slots.entries = h.slots.entries.setIfInBounds i t)
    (ht : ∀ e, t = some e → e.size = e.object.cost)
    (hbytes : h'.bytes + chargeFor s = h.bytes + chargeFor t)
    (hfree : h'.free.size + t.isSome.toNat = h.free.size + s.isSome.toNat)
    (hstored : h'.stats.freed + t.isSome.toNat + h.stats.allocated =
      h.stats.freed + s.isSome.toNat + h'.stats.allocated)
    (hpeak : h'.bytes ≤ h'.stats.peakBytes) : h'.Ledger := by
  have hcharge := chargeOf_set hs hslots
  have hlive := liveCount_set hs hslots
  have hsize : h'.slots.size = h.slots.size := by
    rw [SlotTable.size, hslots, Array.size_setIfInBounds]
    rfl
  have hbytes₀ := hl.bytes
  have hslots₀ := hl.slots
  have hstored₀ := hl.stored
  refine ⟨fun j e he => ?_, ?_, ?_, ?_, hpeak⟩
  · rw [hslots] at he
    rcases getElem?_set_cases he with he | he
    · exact ht e he.symm
    · exact hl.charges j e he
  · omega
  · omega
  · omega

/-! ## Sweeping -/

theorem Ledger.sweepSlot (hl : h.Ledger) (i : Nat) : Frees h (h.sweepSlot i).1 := by
  have hpeak := hl.peak
  rcases h.sweepSlot_cases i with ⟨he, _⟩ | ⟨e, hs, _, he⟩ | ⟨e, hs, _, he⟩
  · rw [he]
    exact .refl hl
  · -- only the mark goes
    rw [he]
    have hcost := hl.charges i e hs
    refine ⟨hl.setSlot hs rfl ?_ rfl rfl rfl hpeak, rfl, Nat.le_refl _, rfl, ?_⟩
    · intro d hd
      rw [← Option.some.inj hd]
      exact hcost
    · exact Array.size_setIfInBounds
  · rw [he]
    have hsize := hl.size_le hs
    refine ⟨hl.setSlot hs rfl (by simp) ?_ ?_ ?_ ?_, ?_, ?_, rfl, ?_⟩
    · simp only [release, chargeFor_some, chargeFor_none]; omega
    · simp [release]
    · simp [release]
    · simp only [release]; omega
    · simp only [release]; omega
    · simp only [release]; omega
    · exact Array.size_setIfInBounds

theorem Ledger.sweepSlots (hl : h.Ledger) (events : Array Event) (l : List Nat) :
    Frees h (h.sweepSlots events l).1 := by
  induction l generalizing h events with
  | nil => exact .refl hl
  | cons i rest ih =>
      obtain ⟨events', _, he⟩ := h.sweepSlots_cons events i rest
      have hf := hl.sweepSlot i
      rw [he]
      exact hf.trans (ih hf.ledger events')

/-- Marking leaves the books alone. -/
theorem Ledger.mark (hl : h.Ledger) (work : List Handle) :
    Ledger { h with slots := mark h.slots work } := by
  have hcl := mark_cleared h.slots work
  refine ⟨fun i e hs => ?_, ?_, ?_, ?_, hl.peak⟩
  · -- the slot holds the same object for the same charge, with or without a mark
    have hi : (StackMachine.mark h.slots work).cleared.entries[i]? = some (some e.cleared) := by
      rw [SlotTable.cleared, Array.getElem?_map, hs]; rfl
    rw [hcl, SlotTable.cleared, Array.getElem?_map] at hi
    obtain ⟨entry, hs', hcleared⟩ := Option.map_eq_some_iff.mp hi
    obtain ⟨d, rfl, hd⟩ := Option.map_eq_some_iff.mp hcleared
    simp only [Entry.cleared, Entry.mk.injEq] at hd
    have hcost := hl.charges i d hs'
    rw [hd.1, hd.2.1] at hcost
    exact hcost
  · exact hl.bytes.trans (chargeOf_congr hcl).symm
  · simp only [liveCount_congr hcl, size_mark]; exact hl.slots
  · simp only [liveCount_congr hcl]; exact hl.stored

theorem Ledger.collectFor (hl : h.Ledger) (roots pending : List Handle) :
    Frees h (h.collectFor roots pending).heap := by
  have hf := (hl.mark (roots ++ h.pinned.toList ++ pending)).sweepSlots #[]
    (List.range (StackMachine.mark h.slots (roots ++ h.pinned.toList ++ pending)).size)
  have hledger := hf.ledger
  exact ⟨⟨hledger.charges, hledger.bytes, hledger.slots, hledger.stored, hledger.peak⟩, hf.bytes,
    hf.le, hf.peak, hf.size.trans (size_mark ..)⟩

/-! ## Storing and changing objects -/

/-- Storing an object charges for it, and raises the marks as far as needed. -/
theorem Ledger.place (hl : h.Ledger) (hw : h.WellFormed) (o : Object) :
    (h.place o).2.Ledger ∧ Raises h (h.place o).2 := by
  have hbytes := hl.bytes
  have hslots := hl.slots
  have hstored := hl.stored
  unfold Heap.place
  split
  · rename_i i hb
    obtain ⟨rest, hfree⟩ := Array.back?_eq_some_iff.mp hb
    have hs := (hw.mem_free i).mp (by rw [hfree]; simp)
    have hpop : h.free.pop.size + 1 = h.free.size := by rw [hfree]; simp
    have hsize : (h.slots.setEntry i (some { object := o, size := o.cost })).size = h.slots.size :=
      Array.size_setIfInBounds
    refine ⟨hl.setSlot hs rfl ?_ rfl ?_ ?_ (Nat.le_max_right ..), ?_, rfl⟩
    · intro e he
      rw [← Option.some.inj he]
    · simp only [charge, Option.isSome_some, Option.isSome_none, Bool.toNat_true, Bool.toNat_false]
      omega
    · simp only [charge, Option.isSome_some, Option.isSome_none, Bool.toNat_true, Bool.toNat_false]
      omega
    · simp only [charge, Heap.objectCount, hsize]
      omega
  · rename_i hb
    have hempty : h.free = #[] := Array.back?_eq_none_iff.mp hb
    split
    · have hcharge := chargeOf_push h.slots ⟨o, o.cost, false⟩
      have hlive := liveCount_push h.slots ⟨o, o.cost, false⟩
      have hsize : (h.slots.push ⟨o, o.cost, false⟩).size = h.slots.size + 1 := Array.size_push ..
      simp only at hcharge
      refine ⟨⟨fun j d hd => ?_, ?_, ?_, ?_, Nat.le_max_right ..⟩, ?_, rfl⟩
      · simp only [charge, SlotTable.push, Array.getElem?_push] at hd
        split at hd
        · simp only [Option.some.injEq] at hd
          rw [← hd]
        · exact hl.charges j d hd
      · simp only [charge]; omega
      · simp only [charge]; omega
      · simp only [charge]; omega
      · -- all slots are taken, so the table is exactly as long as there are objects
        simp only [charge, Heap.objectCount, hsize, hempty, List.size_toArray, List.length_nil]
        omega
    · exact ⟨hl, (Frees.refl hl).raises hl⟩

theorem Ledger.placeWithin (hl : h.Ledger) (hw : h.WellFormed) (o : Object) :
    (h.placeWithin o).2.Ledger ∧ Raises h (h.placeWithin o).2 := by
  unfold Heap.placeWithin
  split
  · split
    · exact ⟨hl, (Frees.refl hl).raises hl⟩
    · exact hl.place hw o
  · exact hl.place hw o

theorem Ledger.allocate (hl : h.Ledger) (hw : h.WellFormed) (roots : List Handle) (o : Object) :
    (h.allocate roots o).heap.Ledger ∧ Raises h (h.allocate roots o).heap := by
  unfold Heap.allocate
  split
  · have hf := hl.collectFor roots o.children
    have hw' := (hw.collection roots o.children).wellFormed hw
    obtain ⟨hl', hr⟩ := hf.ledger.placeWithin hw' o
    exact ⟨hl', hf.raises_trans hr⟩
  · exact hl.placeWithin hw o

/-- The interning table is not part of the books. -/
theorem Ledger.intern (hl : h.Ledger) (hw : h.WellFormed) (roots : List Handle) (text : String) :
    (h.intern roots text).heap.Ledger ∧ Raises h (h.intern roots text).heap := by
  cases hn : h.interned? text with
  | some x =>
      rw [(intern_of_some roots hn).2]
      exact ⟨hl, (Frees.refl hl).raises hl⟩
  | none =>
      obtain ⟨hl', hr⟩ := hl.allocate hw roots (.string text)
      rw [(intern_of_none roots hn).2]
      split
      · exact ⟨⟨hl'.charges, hl'.bytes, hl'.slots, hl'.stored, hl'.peak⟩, hr.slots, hr.peak⟩
      · exact ⟨hl', hr⟩

/-- A changed function is charged anew, and its old charge is taken off. -/
theorem Ledger.editFunction (hl : h.Ledger) {x : Handle}
    {edit : BytecodeFunction → BytecodeFunction} {effect : HeapEffect Unit}
    (he : h.editFunction x edit = some effect) : effect.heap.Ledger ∧ Raises h effect.heap := by
  have hslots := hl.slots
  have hpeak := hl.peak
  unfold Heap.editFunction at he
  split at he
  · rename_i f size marked hx
    have hs := (entryAt?_eq_some.mp hx).2
    have hsize := hl.size_le hs
    have hcosts : ∀ e, some (⟨.function (edit f), (Object.function (edit f)).cost, marked⟩ : Entry) =
        some e → e.size = e.object.cost := by
      intro e h'
      rw [← Option.some.inj h']
    have hcount : ∀ entry, (h.slots.setEntry x.index entry).size = h.slots.size :=
      fun _ => Array.size_setIfInBounds
    simp only at he hsize
    split at he
    · rename_i hcost
      rw [← Option.some.inj he]
      refine ⟨hl.setSlot hs rfl hcosts ?_ rfl rfl hpeak, ?_, ?_⟩
      · simp only [chargeFor_some]; omega
      · simp only [Heap.objectCount, hcount]; omega
      · simp only; omega
    · rw [← Option.some.inj he]
      refine ⟨hl.setSlot hs rfl hcosts ?_ rfl rfl (Nat.le_max_right ..), ?_, rfl⟩
      · simp only [chargeFor_some]; omega
      · simp only [Heap.objectCount, hcount]; omega
  · exact absurd he (by simp)

/-! ## Whole histories -/

theorem ledger_empty (config : HeapConfig) : (Heap.empty config).Ledger := by
  refine ⟨fun i e hs => ?_, rfl, rfl, rfl, Nat.le_refl _⟩
  simp [Heap.empty] at hs

/-- **A call keeps the books**, whether it succeeds or fails. -/
theorem Ledger.apply (hl : h.Ledger) (hw : h.WellFormed) (c : HeapCall) :
    (c.apply h).Ledger ∧ Raises h (c.apply h) := by
  cases c with
  | allocate roots object => exact hl.allocate hw roots object
  | intern roots text => exact hl.intern hw roots text
  | allocateFunction roots name arity => exact hl.allocate hw roots _
  | allocateNative roots native => exact hl.allocate hw roots _
  | editFunction function edit =>
      cases he : h.editFunction function edit with
      | none =>
          have hsame : (HeapCall.editFunction function edit).apply h = h := by
            simp [HeapCall.apply, he]
          rw [hsame]
          exact ⟨hl, (Frees.refl hl).raises hl⟩
      | some effect =>
          have hsome : (HeapCall.editFunction function edit).apply h = effect.heap := by
            simp [HeapCall.apply, he]
          rw [hsome]
          exact hl.editFunction he
  | pin handle =>
      have hr := (Frees.refl hl).raises hl
      exact ⟨⟨hl.charges, hl.bytes, hl.slots, hl.stored, hl.peak⟩, hr.slots, hr.peak⟩
  | unpin handle =>
      have hr := (Frees.refl hl).raises hl
      simp only [HeapCall.apply]
      rw [unpin_eq]
      exact ⟨⟨hl.charges, hl.bytes, hl.slots, hl.stored, hl.peak⟩, hr.slots, hr.peak⟩
  | collect roots =>
      have hf := hl.collectFor roots []
      exact ⟨hf.ledger, hf.raises hl⟩

theorem Reachable.ledger (hr : h.Reachable) : h.Ledger := by
  induction hr with
  | empty config => exact ledger_empty config
  | call c hr ih => exact (ih.apply hr.wellFormed c).1

/-- A mark that every call moves to the new level, if that is higher, is the
highest level of the whole history. -/
theorem isGreatest_level {config : HeapConfig} (level mark : Heap → Nat)
    (hempty : mark (Heap.empty config) = level (Heap.empty config))
    (hcall : ∀ h : Heap, h.Reachable → ∀ c : HeapCall,
      mark (c.apply h) = max (mark h) (level (c.apply h)))
    (calls : List HeapCall) :
    IsGreatest {n | ∃ before, before <+: calls ∧ level (after config before) = n}
      (mark (after config calls)) := by
  induction calls using List.reverseRecOn with
  | nil =>
      refine ⟨⟨[], List.prefix_refl _, hempty.symm⟩, ?_⟩
      intro n hn
      obtain ⟨before, hbefore, rfl⟩ := hn
      rw [List.prefix_nil.mp hbefore]
      exact Nat.le_of_eq hempty.symm
  | append_singleton calls c ih =>
      obtain ⟨⟨reached, hreached, hlevel⟩, hbound⟩ := ih
      have hmark := hcall _ (after_reachable config calls) c
      rw [← after_concat] at hmark
      rw [hmark]
      refine ⟨?_, ?_⟩
      · -- the higher of the two was reached before or is reached now
        rcases Nat.le_total (mark (after config calls)) (level (after config (calls ++ [c])))
          with hle | hle
        · rw [Nat.max_eq_right hle]
          exact ⟨calls ++ [c], List.prefix_refl _, rfl⟩
        · rw [Nat.max_eq_left hle]
          exact ⟨reached, hreached.trans (List.prefix_append ..), hlevel⟩
      · intro n hn
        obtain ⟨before, hbefore, rfl⟩ := hn
        rcases List.prefix_concat_iff.mp hbefore with rfl | hbefore
        · exact Nat.le_max_right ..
        · exact Nat.le_trans (hbound ⟨before, hbefore, rfl⟩) (Nat.le_max_left ..)

/-- What the books of a heap say after a sequence of calls. -/
structure Balanced (config : HeapConfig) (calls : List HeapCall) (h : Heap) : Prop where
  /-- There is one generation for each slot. -/
  generations : h.slots.generations.size = h.slots.entries.size
  /-- No mark is set, and the free list holds the empty slots, each of them once. -/
  wellFormed : h.WellFormed
  /-- A live object is charged for its slot and for what it holds now. -/
  charges : ∀ x e, entryAt? h.slots x = some e → e.size = 104 + e.object.describe.payload
  bytes : h.bytes = (h.slots.entries.toList.map fun entry => (entry.map Entry.size).getD 0).sum
  /-- Changing a function takes off no more than there is. -/
  charged : ∀ x e, entryAt? h.slots x = some e → e.size ≤ h.bytes
  /-- Nor does a collection: the bytes that it takes off are those it frees. -/
  conserved : ∀ roots pending,
    (h.collectFor roots pending).heap.bytes + (h.collectFor roots pending).heap.stats.bytesFreed =
      h.bytes + h.stats.bytesFreed
  objects : h.objectCount = h.slots.entries.countP Option.isSome
  stored : h.stats.freed + h.objectCount = h.stats.allocated
  /-- The table is as long as there have been objects at one time. -/
  longest : IsGreatest {n | ∃ before, before <+: calls ∧ (after config before).objectCount = n}
    h.slots.size
  highest : IsGreatest {n | ∃ before, before <+: calls ∧ (after config before).bytes = n}
    h.stats.peakBytes

/-- **The books of a heap are balanced**, whatever calls it has seen and however
they ended. -/
theorem books_balance (config : HeapConfig) (calls : List HeapCall) :
    Balanced config calls (after config calls) := by
  have hr := after_reachable config calls
  have hl := hr.ledger
  have hcount := hl.objectCount
  have hstored := hl.stored
  refine
    { generations := hr.wellFormed.aligned
      wellFormed := hr.wellFormed
      charges := fun x e he => hl.charges _ e (entryAt?_eq_some.mp he).2
      bytes := hl.bytes
      charged := fun x e he => hl.size_le (entryAt?_eq_some.mp he).2
      conserved := fun roots pending => (hl.collectFor roots pending).bytes
      objects := hcount
      stored := by omega
      longest := isGreatest_level Heap.objectCount (fun h => h.slots.size) rfl ?_ calls
      highest := isGreatest_level Heap.bytes (fun h => h.stats.peakBytes) rfl ?_ calls }
  · intro h hr c
    exact (hr.ledger.apply hr.wellFormed c).2.slots
  · intro h hr c
    exact (hr.ledger.apply hr.wellFormed c).2.peak

end Heap

end StackMachine
