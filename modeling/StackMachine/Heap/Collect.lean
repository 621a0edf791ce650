import StackMachine.Heap.Mark

/-!
# Collecting

A collection marks what the roots, the pinned objects and the object about to be
stored lead to, then sweeps the slots in order: a marked object loses its mark,
and any other is freed. What is left decides how far the heap may grow before it
collects again.
-/

namespace StackMachine

namespace Heap

/-- Frees the object of slot `i`, which is `entry`. -/
def release (h : Heap) (i : Nat) (entry : Entry) : Heap :=
  { h with
    slots := h.slots.vacate i
    free := h.free.push i
    interned :=
      match entry.object with
      | .string s => h.interned.erase s
      | _ => h.interned
    bytes := h.bytes - entry.size
    stats :=
      { h.stats with freed := h.stats.freed + 1, bytesFreed := h.stats.bytesFreed + entry.size } }

/-- Sweeps slot `i`. -/
def sweepSlot (h : Heap) (i : Nat) : Heap × Option Event :=
  match h.slots.entries[i]? with
  | some (some entry) =>
    if entry.marked then
      ({ h with slots := h.slots.setEntry i (some { entry with marked := false }) }, none)
    else (h.release i entry, some (.objectFreed i entry.object.kind entry.size))
  | _ => (h, none)

/-- Sweeps some slots in order, with an event for each object freed. -/
def sweepSlots (h : Heap) (events : Array Event) : List Nat → Heap × Array Event
  | [] => (h, events)
  | i :: rest =>
    match h.sweepSlot i with
    | (h, some e) => h.sweepSlots (events.push e) rest
    | (h, none) => h.sweepSlots events rest

/-- Frees every object without a mark and clears the marks of all others. -/
def sweep (h : Heap) : Heap × Array Event :=
  h.sweepSlots #[] (List.range h.slots.size)

/-- A collection that also spares what `pending` needs, and answers how many
objects it freed. -/
def collectFor (h : Heap) (roots pending : List Handle) : HeapEffect Nat :=
  let begun := Event.collectionBegun (h.stats.collections + 1) h.objectCount h.bytes
  let marked := { h with slots := mark h.slots (roots ++ h.pinned.toList ++ pending) }
  let (swept, freed) := marked.sweep
  let left :=
    { swept with
      threshold := h.config.thresholdAfter swept.bytes
      stats := { swept.stats with collections := swept.stats.collections + 1 } }
  let ended :=
    Event.collectionEnded freed.size (h.bytes - left.bytes) left.bytes left.threshold
  ⟨freed.size, left, (#[begun] ++ freed).push ended⟩

/-- Frees every object that neither the roots nor a pin leads to. -/
def collect (h : Heap) (roots : List Handle) : HeapEffect Nat :=
  h.collectFor roots []

end Heap

end StackMachine
