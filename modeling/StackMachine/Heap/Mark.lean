import StackMachine.Heap.Basic

/-!
# Marking

The first half of a collection marks every object that can be reached from a
list of handles. Handles that stand for nothing are passed over.

The work ends because each round either marks an object that had no mark, which
can happen once for a slot, or leaves the slots alone and shortens the list.
-/

namespace StackMachine

/-- Whether a slot that holds `entry` has an object without a mark. -/
def isUnmarked (entry : Option Entry) : Bool :=
  entry.any (!·.marked)

/-- The object a handle stands for, if it has no mark yet. -/
def unmarkedAt? (slots : SlotTable) (h : Handle) : Option Entry :=
  (entryAt? slots h).filter (!·.marked)

/-- Puts the mark on the object a handle stands for. -/
def setMark (slots : SlotTable) (h : Handle) (entry : Entry) : SlotTable :=
  slots.setEntry h.index (some { entry with marked := true })

theorem entryAt?_eq_some {slots : SlotTable} {h : Handle} {entry : Entry} :
    entryAt? slots h = some entry ↔
      slots.generations[h.index]? = some h.generation ∧
        slots.entries[h.index]? = some (some entry) := by
  unfold entryAt?
  split
  · rename_i hg
    simp [hg, Option.join_eq_some_iff]
  · rename_i hg
    simp [hg]

theorem unmarkedAt?_eq_some_iff {slots : SlotTable} {h : Handle} {entry : Entry} :
    unmarkedAt? slots h = some entry ↔ entryAt? slots h = some entry ∧ entry.marked = false := by
  unfold unmarkedAt?
  simp [Option.filter_eq_some_iff]

/-- Marking an object leaves one fewer without a mark. -/
theorem countP_isUnmarked_setMark {slots : SlotTable} {h : Handle} {entry : Entry}
    (hu : unmarkedAt? slots h = some entry) :
    (setMark slots h entry).entries.countP isUnmarked < slots.entries.countP isUnmarked := by
  obtain ⟨he, hm⟩ := unmarkedAt?_eq_some_iff.mp hu
  obtain ⟨hi, hs⟩ := Array.getElem?_eq_some_iff.mp (entryAt?_eq_some.mp he).2
  have hp : isUnmarked slots.entries[h.index] = true := by simp [hs, isUnmarked, hm]
  have hpos : 0 < slots.entries.countP isUnmarked :=
    Array.countP_pos_iff.mpr ⟨_, Array.getElem_mem hi, hp⟩
  have hq : isUnmarked (some { entry with marked := true }) = false := rfl
  rw [setMark, SlotTable.setEntry, Array.setIfInBounds, dif_pos hi, Array.countP_set, if_pos hp, hq]
  simp only [Bool.false_eq_true, ↓reduceIte]
  omega

/-- Marks all that the handles of a list lead to. -/
def mark (slots : SlotTable) (work : List Handle) : SlotTable :=
  match work with
  | [] => slots
  | h :: rest =>
    match _hu : unmarkedAt? slots h with
    | none => mark slots rest
    | some entry => mark (setMark slots h entry) (entry.object.children ++ rest)
termination_by (slots.entries.countP isUnmarked, work.length)
decreasing_by
  · exact Prod.Lex.right _ (by simp)
  · exact Prod.Lex.left _ _ (countP_isUnmarked_setMark _hu)

end StackMachine
