import StackMachine.Number

/-!
# Configuration

When the heap collects, how large it may grow, and how deep a run may go.
-/

namespace StackMachine

structure HeapConfig where
  /-- The heap size that triggers the first collection. -/
  initialThreshold : Nat := 1048576
  /-- How far the heap may grow past what a collection leaves. -/
  growthFactor : Number := ⟨0x4000000000000000⟩
  /-- The least heap size that triggers a collection. -/
  minThreshold : Nat := 1048576
  /-- Collect before every allocation. -/
  stress : Bool := false
  /-- The heap size that no allocation may exceed. -/
  maxBytes : Option Nat := none
  deriving Repr, Inhabited

namespace HeapConfig

/-- The number one. -/
def unitFactor : Number := ⟨0x3ff0000000000000⟩

/-- Sets the growth factor, but never to less than one. -/
def withGrowthFactor (c : HeapConfig) (factor : Number) : HeapConfig :=
  { c with growthFactor := unitFactor.atLeast factor }

/-- The heap size that triggers the collection after one that left `bytes`. The
product is cut to a whole number, and to the range of 64 bits. -/
def thresholdAfter (c : HeapConfig) (bytes : Nat) : Nat :=
  let factor := unitFactor.atLeast c.growthFactor
  let grown := ((Number.ofNat bytes).toFloat * factor.toFloat).toUInt64.toNat
  max grown c.minThreshold

/-- Equality of settings, with the growth factors compared as floats. -/
def same (a b : HeapConfig) : Bool :=
  a.initialThreshold == b.initialThreshold && a.growthFactor.feq b.growthFactor &&
    a.minThreshold == b.minThreshold && a.stress == b.stress && a.maxBytes == b.maxBytes

end HeapConfig

structure MachineConfig where
  heap : HeapConfig := {}
  /-- How many calls may be active at once. -/
  maxFrames : Nat := 64
  /-- How many values the stack may hold. -/
  maxStack : Nat := 16384
  /-- Define the standard native functions at the start. -/
  registerBuiltins : Bool := true
  deriving Repr, Inhabited

namespace MachineConfig

/-- Equality of settings. -/
def same (a b : MachineConfig) : Bool :=
  a.heap.same b.heap && a.maxFrames == b.maxFrames && a.maxStack == b.maxStack &&
    a.registerBuiltins == b.registerBuiltins

/-- Whether there can be a table for all frames. A frame takes 24 bytes, and a
table is shorter than half of the 64-bit address space. -/
def hasFrameTable (c : MachineConfig) : Bool :=
  c.maxFrames * 24 < Nat.pow 2 63

end MachineConfig

end StackMachine
