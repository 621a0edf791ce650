import StackMachine.Proofs.Heap.History

/-!
# Collecting again

What a collection leaves is all reached from where it started: freeing the rest takes
nothing away from what is reached, and a handle that stood for nothing does not come to
stand for something. So the same collection made again marks every object, sweeps only
marks, and finds the bytes as they were. The threshold is computed from those bytes and
the settings, and stays.

The argument is about one collection that reaches everything (`collectFor_of_reached`),
and needs no more of the first collection than that it left such a heap. Nor does it need
anything of the arithmetic behind the threshold.
-/

namespace StackMachine

theorem SlotTable.cleared_of_unmarked {slots : SlotTable} (hu : Unmarked slots) :
    slots.cleared = slots := by
  have hsame : ∀ entry ∈ slots.entries, Option.map Entry.cleared entry = id entry := by
    intro entry hentry
    cases entry with
    | none => rfl
    | some e =>
        have hm := hu e hentry
        simp [Entry.cleared, ← hm]
  unfold SlotTable.cleared
  rw [Array.map_congr_left hsame, Array.map_id]

/-- Sweeping a table without an object to free takes marks off at most. -/
theorem SlotTable.swept_of_marked {slots : SlotTable}
    (hm : ∀ i, i ∉ freedAmong slots (List.range slots.size)) : slots.swept = slots.cleared := by
  have hmarked : ∀ i, slots.entries[i]?.any isUnmarked = false :=
    fun i => Bool.eq_false_iff.mpr fun hany => hm i (mem_freedAmong_range.mpr hany)
  refine SlotTable.ext (Array.map_congr_left fun entry hentry => ?_) ?_
  · obtain ⟨i, hi⟩ := Array.mem_iff_getElem?.mp hentry
    have hi' := hmarked i
    rw [hi] at hi'
    cases entry with
    | none => rfl
    | some e =>
        have hmark : e.marked = true := by simpa [isUnmarked] using hi'
        simp [sweptEntry, hmark, Option.filter_some]
  · refine Array.ext_getElem? fun i => ?_
    simp [swept, cleared, hmarked]

/-- Whether a collection from `start` would free nothing. -/
def SlotTable.Spared (slots : SlotTable) (start : List Handle) : Prop :=
  freedAmong (mark slots start) (List.range (mark slots start).size) = []

namespace Heap

/-- The heap with `n` more collections on its count. -/
def recounted (h : Heap) (n : Nat) : Heap :=
  { h with stats := { h.stats with collections := h.stats.collections + n } }

/-- The heap after collections that each have roots of their own. -/
def collectedFrom (h : Heap) (sources : List (List Handle)) : Heap :=
  sources.foldl (fun h roots => (h.collect roots).heap) h

/-- Whether the roots and the pins lead to every live object. -/
def AllReached (h : Heap) (roots : List Handle) : Prop :=
  ∀ x, h.contains x → Reach h.get? (roots ++ h.pinned.toList) x

variable {h h' : Heap} {roots start : List Handle} {count : Nat}

/-! ## A collection with nothing to free -/

/-- Sweeping objects that all have marks changes nothing but the slots. -/
theorem sweepSlots_of_marked {l : List Nat} (hl : l.Nodup) (events : Array Event)
    (hm : ∀ i, i ∉ freedAmong h.slots l) :
    ∃ slots, h.sweepSlots events l = ({ h with slots }, events) := by
  induction l generalizing h with
  | nil => exact ⟨h.slots, rfl⟩
  | cons i rest ih =>
      obtain ⟨hi, hr⟩ := List.nodup_cons.mp hl
      have hlater : ∀ j, j ∉ freedAmong (h.sweepSlot i).1.slots rest := by
        intro j hfreed
        rw [freedAmong_congr (h.sweepSlot_entries_of_not_mem hi), mem_freedAmong] at hfreed
        exact hm j (mem_freedAmong.mpr ⟨List.mem_cons_of_mem _ hfreed.1, hfreed.2⟩)
      rw [sweepSlots]
      rcases h.sweepSlot_cases i with ⟨he, _⟩ | ⟨e, _, _, he⟩ | ⟨e, hs, hfree, _⟩
      · rw [he] at hlater ⊢
        exact ih hr hlater
      · rw [he] at hlater ⊢
        obtain ⟨slots, hrest⟩ := ih hr hlater
        exact ⟨slots, hrest⟩
      · exact absurd (mem_freedAmong.mpr ⟨List.mem_cons_self .., e, hs, hfree⟩) (hm i)

/-- Marks on every object leave nothing for sweeping to do but to take them off. -/
theorem sweep_of_spared (hu : Unmarked h.slots) (hs : h.slots.Spared start) :
    ({ h with slots := mark h.slots start } : Heap).sweep = (h, #[]) := by
  have hnone := List.eq_nil_iff_forall_not_mem.mp hs
  -- the marks are those that marking has set, as there were none before
  have hslots : (mark h.slots start).swept = h.slots := by
    rw [SlotTable.swept_of_marked hnone, mark_cleared, SlotTable.cleared_of_unmarked hu]
  obtain ⟨slots, hswept⟩ := sweepSlots_of_marked (h := { h with slots := mark h.slots start })
    List.nodup_range #[] hnone
  have hleft := sweep_slots { h with slots := mark h.slots start }
  rw [sweep, hswept] at hleft ⊢
  rw [show slots = h.slots from hleft.trans hslots]

/-- **A collection that reaches everything** frees nothing. It counts itself, and sets the
threshold from the bytes that were there before. -/
theorem collectFor_of_reached (hu : Unmarked h.slots) (ha : h.slots.Aligned)
    (roots pending : List Handle)
    (hall : ∀ x, h.contains x → Reach h.get? (roots ++ h.pinned.toList ++ pending) x) :
    (h.collectFor roots pending).answer = 0 ∧
    (h.collectFor roots pending).heap =
      { h.recounted 1 with threshold := h.config.thresholdAfter h.bytes } := by
  have hspared : h.slots.Spared (roots ++ h.pinned.toList ++ pending) := by
    refine List.eq_nil_iff_forall_not_mem.mpr fun i hi => ?_
    obtain ⟨x, _, hx, hnot⟩ := (mem_freedAmong_mark hu ha _ i).mp hi
    exact hnot (hall x hx)
  unfold collectFor
  simp only [sweep_of_spared hu hspared]
  exact ⟨rfl, rfl⟩

/-! ## A collection after another -/

/-- What is reached is reached all the same when the rest has been freed. -/
theorem Collection.reach (hc : Collection h start count h') {x : Handle}
    (hr : Reach h.get? start x) : Reach h'.get? start x := by
  induction hr with
  | root hx ho => exact .root hx ((hc.get?_kept (.root hx ho)).trans ho)
  | child hr hx hf ho ih =>
      exact ih.child ((hc.get?_kept hr).trans hx) hf ((hc.get?_kept (hr.child hx hf ho)).trans ho)

section

variable (hu : Unmarked h.slots) (ha : h.slots.Aligned)

include hu ha

theorem collect_allReached (roots : List Handle) :
    (h.collect roots).heap.AllReached roots := by
  have hc := collectFor_collection hu ha roots []
  rw [List.append_nil] at hc
  intro x hx
  obtain ⟨o, ho⟩ := contains_iff.mp hx
  have hreach := hc.reach (hc.reach_of_live ho).1
  rw [← hc.pinned] at hreach
  exact hreach

/-- A collection leaves the threshold that its settings ask for. -/
theorem collectFor_threshold (roots pending : List Handle) :
    (h.collectFor roots pending).heap.threshold =
      (h.collectFor roots pending).heap.config.thresholdAfter
        (h.collectFor roots pending).heap.bytes := by
  rw [(collectFor_collection hu ha roots pending).config]
  rfl

theorem collect_of_allReached (ht : h.threshold = h.config.thresholdAfter h.bytes)
    (hall : h.AllReached roots) :
    (h.collect roots).answer = 0 ∧ (h.collect roots).heap = h.recounted 1 := by
  obtain ⟨hanswer, hheap⟩ := collectFor_of_reached hu ha roots [] (by
    rw [List.append_nil]
    exact hall)
  refine ⟨hanswer, hheap.trans ?_⟩
  rw [← ht]
  rfl

end

theorem recounted_recounted (h : Heap) (n k : Nat) :
    (h.recounted n).recounted k = h.recounted (k + n) := by
  simp only [recounted, Nat.add_assoc, Nat.add_comm n k]

/-- The run: as long as every collection reaches everything, each of them finds the heap
that the one before found. -/
theorem collectedFrom_of_allReached (hu : Unmarked h.slots) (ha : h.slots.Aligned)
    (ht : h.threshold = h.config.thresholdAfter h.bytes) {sources : List (List Handle)}
    (hall : ∀ roots ∈ sources, h.AllReached roots) :
    h.collectedFrom sources = h.recounted sources.length := by
  induction sources generalizing h with
  | nil => rfl
  | cons roots rest ih =>
      obtain ⟨_, hheap⟩ := collect_of_allReached hu ha ht (hall roots (List.mem_cons_self ..))
      have hrest := ih (h := h.recounted 1) hu ha ht fun roots' hin =>
        hall roots' (List.mem_cons_of_mem _ hin)
      show (h.collect roots).heap.collectedFrom rest = _
      rw [hheap, hrest, recounted_recounted, List.length_cons]

/-- A heap at rest: collecting it from `roots` again does nothing. -/
structure Settled (h : Heap) (roots : List Handle) : Prop where
  freed : (h.collect roots).answer = 0
  /-- Nothing is different afterwards but the number of collections. -/
  same : (h.collect roots).heap = h.recounted 1
  /-- Nor do any number of collections make a difference, whatever their roots are, as
  long as these still lead to every live object. -/
  lasting : ∀ sources, (∀ roots' ∈ sources, h.AllReached roots') →
    h.collectedFrom sources = h.recounted sources.length
  /-- With the same roots they always do. -/
  threshold : ∀ n, (h.collectedFrom (List.replicate n roots)).threshold = h.threshold

/-- **A collection settles the heap.** Another one with the same roots frees nothing and
changes nothing but its own count, and so on for any number of them. No collection leaves
a threshold below the least one. -/
theorem collection_settles {h : Heap} (hr : h.Reachable) (roots : List Handle) :
    (h.collect roots).heap.Settled roots ∧
    ∀ pending, h.config.minThreshold ≤ (h.collectFor roots pending).heap.threshold := by
  have hw := hr.wellFormed
  have hc := hw.collection roots []
  have ht := collectFor_threshold hw.unmarked hw.aligned roots []
  have hall := collect_allReached hw.unmarked hw.aligned roots
  have hlasting : ∀ sources, (∀ roots' ∈ sources, (h.collect roots).heap.AllReached roots') →
      (h.collect roots).heap.collectedFrom sources =
        (h.collect roots).heap.recounted sources.length :=
    fun _ => collectedFrom_of_allReached hc.unmarked hc.aligned ht
  obtain ⟨hfreed, hsame⟩ := collect_of_allReached hc.unmarked hc.aligned ht hall
  refine ⟨⟨hfreed, hsame, hlasting, fun n => ?_⟩, fun pending => ?_⟩
  · have hsources : ∀ roots' ∈ List.replicate n roots,
        (h.collect roots).heap.AllReached roots' := by
      intro roots' hin
      rw [List.eq_of_mem_replicate hin]
      exact hall
    have hthreshold := congrArg Heap.threshold (hlasting _ hsources)
    exact hthreshold
  · exact Nat.le_max_right ..

/-- The first collection frees the string that nothing refers to. The second leaves the
function that refers to itself and its name alone. -/
theorem collection_settles_cyclic :
    let once := (cyclicHeap.collect [⟨1, 0⟩]).heap
    cyclicHeap.Reachable ∧ cyclicHeap.contains ⟨2, 0⟩ = true ∧ once.get? ⟨2, 0⟩ = none ∧
      (once.collect [⟨1, 0⟩]).answer = 0 ∧ (once.collect [⟨1, 0⟩]).heap = once.recounted 1 ∧
      (once.collectedFrom [[⟨1, 0⟩], [⟨1, 0⟩], [⟨1, 0⟩]]).threshold = once.threshold := by
  intro once
  have hc := cyclicHeap_reachable.wellFormed.collection [⟨1, 0⟩] []
  rw [List.append_nil] at hc
  have hsettled := (collection_settles cyclicHeap_reachable [⟨1, 0⟩]).1
  exact ⟨cyclicHeap_reachable, rfl, hc.get?_gone cyclicHeap_not_reach, hsettled.freed,
    hsettled.same, hsettled.threshold 3⟩

end Heap

end StackMachine
