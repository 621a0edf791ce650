import Std.Data.HashMap
import StackMachine.Config
import StackMachine.Event

/-!
# The heap

Objects live in numbered slots. Freeing an object empties its slot and moves the
slot's generation on, so a handle of the freed object resolves to nothing even
after the slot has been filled again. Free slots are kept in a stack, the last
freed on top.

What the slots hold and their generations are two lists side by side. Nothing but
the operations on them keeps the two of one length.

The interning table maps the content of a string to its object. It is weak: it
keeps nothing alive, and sweeping a string removes its content from the table.

Every object is charged a number of bytes, recorded with it when it is stored.
-/

namespace StackMachine

/-- An object in its slot, with the bytes charged for it and the mark that a
collection leaves on what it reaches. -/
structure Entry where
  object : Object
  size : Nat
  marked : Bool := false

/-- The places for objects. -/
@[ext] structure SlotTable where
  /-- What each slot holds. -/
  entries : Array (Option Entry) := #[]
  /-- How often each slot has been freed, in 32 bits. -/
  generations : Array UInt32 := #[]

namespace SlotTable

/-- The number of slots. -/
def size (t : SlotTable) : Nat :=
  t.entries.size

/-- Changes what slot `i` holds. -/
def setEntry (t : SlotTable) (i : Nat) (entry : Option Entry) : SlotTable :=
  { t with entries := t.entries.setIfInBounds i entry }

/-- Empties slot `i` and moves its generation on. -/
def vacate (t : SlotTable) (i : Nat) : SlotTable :=
  { entries := t.entries.setIfInBounds i none
    generations := t.generations.modify i (· + 1) }

/-- Adds a slot that holds an entry and has never been freed. -/
def push (t : SlotTable) (entry : Entry) : SlotTable :=
  { entries := t.entries.push (some entry)
    generations := t.generations.push 0 }

end SlotTable

/-- What a handle stands for in a table of slots. -/
def entryAt? (slots : SlotTable) (h : Handle) : Option Entry :=
  if slots.generations[h.index]? = some h.generation then slots.entries[h.index]?.join else none

structure Heap where
  config : HeapConfig
  slots : SlotTable := {}
  /-- The empty slots, the next to be filled last. -/
  free : Array Nat := #[]
  interned : Std.HashMap String Handle := {}
  /-- Handles that the host keeps alive, once for each pin. -/
  pinned : Array Handle := #[]
  /-- The bytes charged for all live objects. -/
  bytes : Nat := 0
  /-- The size past which an allocation collects first. -/
  threshold : Nat := config.initialThreshold
  stats : HeapStats := {}

/-- What an operation leaves: its answer, the heap, and the events it caused. -/
structure HeapEffect (α : Type) where
  answer : α
  heap : Heap
  events : Array Event := #[]

namespace Heap

/-- A heap without objects. -/
def empty (config : HeapConfig) : Heap :=
  { config }

def get? (h : Heap) (handle : Handle) : Option Object :=
  (entryAt? h.slots handle).map Entry.object

/-- Whether a handle stands for a live object. -/
def contains (h : Heap) (handle : Handle) : Bool :=
  (h.get? handle).isSome

/-- What can be read of the object a handle stands for. -/
def describe? (h : Heap) (handle : Handle) : Option Description :=
  (h.get? handle).map Object.describe

/-- The content of a live string. -/
def string? (h : Heap) (handle : Handle) : Option String :=
  match h.get? handle with
  | some (.string s) => some s
  | _ => none

def function? (h : Heap) (handle : Handle) : Option BytecodeFunction :=
  match h.get? handle with
  | some (.function f) => some f
  | _ => none

def native? (h : Heap) (handle : Handle) : Option NativeFunction :=
  match h.get? handle with
  | some (.native n) => some n
  | _ => none

/-- The number of live objects. -/
def objectCount (h : Heap) : Nat :=
  h.slots.size - h.free.size

/-- The number of strings in the interning table. -/
def internedCount (h : Heap) : Nat :=
  h.interned.size

/-- The object that interning a text would give, if there is one already. -/
def interned? (h : Heap) (text : String) : Option Handle :=
  h.interned[text]?

/-- Keeps an object alive until it is unpinned as often as it was pinned. -/
def pin (h : Heap) (handle : Handle) : Heap :=
  { h with pinned := h.pinned.push handle }

/-- Where a handle was pinned last. -/
def lastPin? (h : Heap) (handle : Handle) : Option Nat :=
  (List.range h.pinned.size).reverse.find? fun i => h.pinned[i]? == some handle

/-- Takes one pin of an object back: the last. The pin at the end of the list takes
its place there. -/
def unpin (h : Heap) (handle : Handle) : Heap :=
  match h.lastPin? handle with
  | some i => { h with pinned := (h.pinned.swapIfInBounds i (h.pinned.size - 1)).pop }
  | none => h

/-- What can be read of a heap. -/
def view (h : Heap) : HeapView where
  config := h.config
  stats := h.stats
  bytes := h.bytes
  threshold := h.threshold
  objectCount := h.objectCount
  internedCount := h.internedCount
  freeCount := h.free.size
  describe := h.describe?
  interned? := h.interned?

/-- The heap in one line, for a host that wants to look at it. -/
def text (h : Heap) : String :=
  s!"Heap \x7b objects: {h.objectCount}, interned: {h.internedCount}, " ++
    s!"bytes_allocated: {h.bytes}, next_gc: {h.threshold}, free_slots: {h.free.size} \x7d"

end Heap

end StackMachine
