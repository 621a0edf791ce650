import StackMachine.Heap.Collect

/-!
# Allocating

Storing an object may collect first: always under stress, and otherwise when the
object would take the heap past its threshold or past its limit. An object that
does not fit under the limit even then is refused, and nothing is stored.
-/

namespace StackMachine

namespace Heap

/-- How many slots a heap can have. -/
def maxSlots : Nat := Nat.pow 2 32

/-- Whether storing `size` bytes calls for a collection. -/
def needsCollection (h : Heap) (size : Nat) : Bool :=
  h.config.stress || h.threshold < h.bytes + size ||
    h.config.maxBytes.any (· < h.bytes + size)

/-- Counts an object that has just been stored. -/
def charge (h : Heap) (size : Nat) : Heap :=
  let bytes := h.bytes + size
  { h with
    bytes
    stats :=
      { h.stats with
        allocated := h.stats.allocated + 1
        peakBytes := max h.stats.peakBytes bytes } }

/-- The generation of a slot. -/
def generationAt (h : Heap) (i : Nat) : UInt32 :=
  h.slots.generations[i]?.getD 0

/-- Stores an object in the slot freed last, or in a new one. -/
def place (h : Heap) (o : Object) : Except OutOfMemory Handle × Heap :=
  let entry : Entry := { object := o, size := o.cost }
  match h.free.back? with
  | some i =>
    let handle : Handle := ⟨i, h.generationAt i⟩
    let h := { h with free := h.free.pop, slots := h.slots.setEntry i (some entry) }
    (.ok handle, h.charge o.cost)
  | none =>
    if h.slots.size < maxSlots then
      let handle : Handle := ⟨h.slots.size, 0⟩
      let h := { h with slots := h.slots.push entry }
      (.ok handle, h.charge o.cost)
    else (.error ⟨o.cost, h.bytes⟩, h)

/-- Stores an object if it fits under the limit. -/
def placeWithin (h : Heap) (o : Object) : Except OutOfMemory Handle × Heap :=
  match h.config.maxBytes with
  | some limit => if limit < h.bytes + o.cost then (.error ⟨o.cost, limit⟩, h) else h.place o
  | none => h.place o

/-- Stores an object, after a collection if one is called for. What the object
refers to survives that collection. -/
def allocate (h : Heap) (roots : List Handle) (o : Object) :
    HeapEffect (Except OutOfMemory Handle) :=
  if h.needsCollection o.cost then
    let collected := h.collectFor roots o.children
    let (answer, heap) := collected.heap.placeWithin o
    ⟨answer, heap, collected.events⟩
  else
    let (answer, heap) := h.placeWithin o
    ⟨answer, heap, #[]⟩

/-- The one string object with a given content, stored on first use. -/
def intern (h : Heap) (roots : List Handle) (text : String) :
    HeapEffect (Except OutOfMemory Handle) :=
  match h.interned? text with
  | some handle => ⟨.ok handle, h, #[]⟩
  | none =>
    let ⟨answer, heap, events⟩ := h.allocate roots (.string text)
    match answer with
    | .ok handle =>
      ⟨.ok handle, { heap with interned := heap.interned.insert text handle }, events⟩
    | .error e => ⟨.error e, heap, events⟩

/-- Stores a function without code. -/
def allocateFunction (h : Heap) (roots : List Handle) (name : Option Handle) (arity : UInt8) :
    HeapEffect (Except OutOfMemory Handle) :=
  h.allocate roots (.function { name, arity })

/-- Changes a live function and charges it anew. The limit is not looked at
before the next allocation. -/
def editFunction (h : Heap) (handle : Handle) (edit : BytecodeFunction → BytecodeFunction) :
    Option (HeapEffect Unit) :=
  match entryAt? h.slots handle with
  | some { object := .function f, size, marked } =>
    let object := Object.function (edit f)
    let slots := h.slots.setEntry handle.index (some { object, size := object.cost, marked })
    if object.cost = size then some ⟨(), { h with slots }, #[]⟩
    else
      let bytes := h.bytes - size + object.cost
      let stats := { h.stats with peakBytes := max h.stats.peakBytes bytes }
      some ⟨(), { h with slots, bytes, stats }, #[.functionResized object.cost bytes]⟩
  | _ => none

end Heap

end StackMachine
