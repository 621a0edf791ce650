import StackMachine.Heap.Collect
import StackMachine.Proofs.Heap.Reach

/-!
# What a collection leaves

Sweeping looks at each slot once and at no other slot while it does so, hence
the table it leaves is the old one with every slot swept on its own. Together
with exact marking this says what a collection does: it frees the live objects
that its start does not lead to, and nothing else.

`Collection` says so of a heap and what a collection left of it. Everything the
later modules need of a collection is read off that structure.
-/

namespace StackMachine

/-- What sweeping leaves in a slot. -/
def sweptEntry (entry : Option Entry) : Option Entry :=
  (entry.filter (·.marked)).map Entry.cleared

/-- The table that sweeping leaves: what has no mark is gone, and its slot is of the
next generation. -/
def SlotTable.swept (slots : SlotTable) : SlotTable where
  entries := slots.entries.map sweptEntry
  generations := slots.generations.mapIdx fun i g =>
    if slots.entries[i]?.any isUnmarked then g + 1 else g

/-- Whether every slot of a table has a generation, and nothing else has one. -/
def SlotTable.Aligned (slots : SlotTable) : Prop :=
  slots.generations.size = slots.entries.size

/-- Whether no object in a table has a mark. -/
def Unmarked (slots : SlotTable) : Prop :=
  ∀ e, some e ∈ slots.entries → e.marked = false

theorem Unmarked.not_isMarked {slots : SlotTable} (h : Unmarked slots) (x : Handle) :
    ¬ IsMarked slots x := by
  rintro ⟨e, he, hm⟩
  rw [h e (Array.mem_of_getElem? (entryAt?_eq_some.mp he).2)] at hm
  exact absurd hm (by simp)

/-- Handles of one slot that stand for something are the same. -/
theorem eq_of_entryAt? {slots : SlotTable} {x y : Handle} {d e : Entry} (hi : x.index = y.index)
    (hx : entryAt? slots x = some d) (hy : entryAt? slots y = some e) : x = y := by
  have hgx := (entryAt?_eq_some.mp hx).1
  have hgy := (entryAt?_eq_some.mp hy).1
  rw [hi, hgy] at hgx
  exact Handle.eq_of hi (Option.some.inj hgx).symm

/-- What a slot of an aligned table holds has a handle. -/
theorem SlotTable.Aligned.exists_handle {slots : SlotTable} (h : slots.Aligned) {i : Nat} {e : Entry}
    (hs : slots.entries[i]? = some (some e)) :
    ∃ x : Handle, x.index = i ∧ entryAt? slots x = some e := by
  obtain ⟨hi, _⟩ := Array.getElem?_eq_some_iff.mp hs
  have hi' : i < slots.generations.size := by rw [h]; exact hi
  exact ⟨⟨i, slots.generations[i]⟩, rfl,
    entryAt?_eq_some.mpr ⟨Array.getElem?_eq_getElem hi', hs⟩⟩

/-- Sweeping keeps what has a mark and takes the mark off. -/
theorem entryAt?_swept (slots : SlotTable) (x : Handle) :
    entryAt? slots.swept x = ((entryAt? slots x).filter (·.marked)).map Entry.cleared := by
  unfold entryAt? SlotTable.swept
  simp only [Array.getElem?_map, Array.getElem?_mapIdx]
  cases slots.generations[x.index]? with
  | none => simp
  | some g =>
      cases slots.entries[x.index]? with
      | none => simp
      | some entry =>
          cases entry with
          | none => simp [sweptEntry]
          | some e =>
              -- an object without a mark leaves nothing, whatever the new generation is
              cases hm : e.marked <;> by_cases hg : g = x.generation <;>
                simp [sweptEntry, isUnmarked, hm, hg, Option.filter_some]

/-- The slots of a list that hold an object without a mark. -/
def freedAmong (slots : SlotTable) (l : List Nat) : List Nat :=
  l.filter fun i => slots.entries[i]?.any isUnmarked

theorem mem_freedAmong {slots : SlotTable} {l : List Nat} {i : Nat} :
    i ∈ freedAmong slots l ↔
      i ∈ l ∧ ∃ e, slots.entries[i]? = some (some e) ∧ e.marked = false := by
  unfold freedAmong
  rw [List.mem_filter]
  refine and_congr_right fun _ => ?_
  cases slots.entries[i]? with
  | none => simp
  | some entry => cases entry <;> simp [isUnmarked]

theorem mem_freedAmong_range {slots : SlotTable} {i : Nat} :
    i ∈ freedAmong slots (List.range slots.size) ↔ slots.entries[i]?.any isUnmarked = true := by
  unfold freedAmong
  rw [List.mem_filter, List.mem_range, and_iff_right_iff_imp]
  intro hany
  cases hs : slots.entries[i]? with
  | none => simp [hs] at hany
  | some entry => exact (Array.getElem?_eq_some_iff.mp hs).1

/-! ## Marking and the two lists -/

theorem generations_mark (slots : SlotTable) (work : List Handle) :
    (mark slots work).generations = slots.generations := by
  have hgen := congrArg SlotTable.generations (mark_cleared slots work)
  exact hgen

theorem size_mark (slots : SlotTable) (work : List Handle) :
    (mark slots work).size = slots.size := by
  have hsize := congrArg SlotTable.size (mark_cleared slots work)
  simpa [SlotTable.size, SlotTable.cleared] using hsize

namespace SlotTable.Aligned

variable {slots : SlotTable}

theorem mark (h : slots.Aligned) (work : List Handle) :
    (StackMachine.mark slots work).Aligned := by
  unfold Aligned at h ⊢
  rw [generations_mark, h]
  exact (size_mark slots work).symm

theorem setEntry (h : slots.Aligned) (i : Nat) (entry : Option Entry) :
    (slots.setEntry i entry).Aligned := by
  simpa [Aligned, SlotTable.setEntry] using h

theorem push (h : slots.Aligned) (entry : Entry) : (slots.push entry).Aligned := by
  simpa [Aligned, SlotTable.push] using h

theorem swept (h : slots.Aligned) : slots.swept.Aligned := by
  simpa [Aligned, SlotTable.swept] using h

end SlotTable.Aligned

theorem SlotTable.size_swept (slots : SlotTable) : slots.swept.size = slots.size :=
  Array.size_map

theorem unmarked_swept (slots : SlotTable) : Unmarked slots.swept := by
  intro e he
  obtain ⟨entry, _, hswept⟩ := Array.mem_map.mp he
  obtain ⟨d, _, rfl⟩ := Option.map_eq_some_iff.mp hswept
  rfl

namespace Heap

/-! ## Sweeping one slot -/

/-- The three things sweeping a slot can do. -/
theorem sweepSlot_cases (h : Heap) (i : Nat) :
    (h.sweepSlot i = (h, none) ∧ ∀ e, h.slots.entries[i]? ≠ some (some e)) ∨
    (∃ e, h.slots.entries[i]? = some (some e) ∧ e.marked = true ∧
      h.sweepSlot i = ({ h with slots := h.slots.setEntry i (some e.cleared) }, none)) ∨
    (∃ e, h.slots.entries[i]? = some (some e) ∧ e.marked = false ∧
      h.sweepSlot i = (h.release i e, some (.objectFreed i e.object.kind e.size))) := by
  unfold sweepSlot
  split
  · rename_i e hs
    cases hm : e.marked with
    | true => exact Or.inr (Or.inl ⟨e, hs, hm, rfl⟩)
    | false => exact Or.inr (Or.inr ⟨e, hs, hm, rfl⟩)
  · rename_i hs
    exact Or.inl ⟨rfl, fun e he => hs e he⟩

/-- Putting a swept entry in its place sweeps that slot of the table. -/
theorem getElem?_setIfInBounds_swept {entries : Array (Option Entry)} {i : Nat} {entry : Option Entry}
    (hs : entries[i]? = some entry) (j : Nat) :
    (entries.setIfInBounds i (sweptEntry entry))[j]? =
      if j = i then entries[j]?.map sweptEntry else entries[j]? := by
  have hi := (Array.getElem?_eq_some_iff.mp hs).1
  rw [Array.getElem?_setIfInBounds]
  by_cases hij : i = j
  · subst hij
    rw [if_pos rfl, if_pos rfl, if_pos hi, hs]
    rfl
  · rw [if_neg hij, if_neg (Ne.symm hij)]

theorem sweepSlot_entries (h : Heap) (i j : Nat) :
    (h.sweepSlot i).1.slots.entries[j]? =
      if j = i then h.slots.entries[j]?.map sweptEntry else h.slots.entries[j]? := by
  rcases h.sweepSlot_cases i with ⟨he, hn⟩ | ⟨e, hs, hm, he⟩ | ⟨e, hs, hm, he⟩
  · rw [he]
    split
    · rename_i hij
      subst hij
      cases hs : h.slots.entries[j]? with
      | none => rfl
      | some entry =>
          cases entry with
          | none => rfl
          | some e => exact absurd hs (hn e)
    · rfl
  · have hswept : sweptEntry (some e) = some e.cleared := by simp [sweptEntry, hm, Option.filter_some]
    rw [he, ← hswept]
    exact getElem?_setIfInBounds_swept hs j
  · have hswept : sweptEntry (some e) = none := by simp [sweptEntry, hm, Option.filter_some]
    rw [he]
    simp only [release, SlotTable.vacate]
    rw [← hswept]
    exact getElem?_setIfInBounds_swept hs j

theorem sweepSlot_free (h : Heap) (i : Nat) :
    (h.sweepSlot i).1.free.toList = h.free.toList ++ freedAmong h.slots [i] ∧
      (h.sweepSlot i).2.toList.length = (freedAmong h.slots [i]).length := by
  rcases h.sweepSlot_cases i with ⟨he, hn⟩ | ⟨e, hs, hm, he⟩ | ⟨e, hs, hm, he⟩
  · have hf : freedAmong h.slots [i] = [] := by
      refine List.eq_nil_iff_forall_not_mem.mpr fun j hj => ?_
      obtain ⟨hji, e, hs, _⟩ := mem_freedAmong.mp hj
      cases List.mem_singleton.mp hji
      exact hn e hs
    rw [he, hf]; simp
  · have hf : freedAmong h.slots [i] = [] := by simp [freedAmong, hs, isUnmarked, hm]
    rw [he, hf]; simp
  · have hf : freedAmong h.slots [i] = [i] := by simp [freedAmong, hs, isUnmarked, hm]
    rw [he, hf]; simp [release]

/-- The generation of the slot moves on if its object is freed. -/
theorem sweepSlot_generations (h : Heap) (i j : Nat) :
    (h.sweepSlot i).1.slots.generations[j]? =
      h.slots.generations[j]?.map fun g => if j ∈ freedAmong h.slots [i] then g + 1 else g := by
  rcases h.sweepSlot_cases i with ⟨he, hn⟩ | ⟨e, hs, hm, he⟩ | ⟨e, hs, hm, he⟩
  · have hf : j ∉ freedAmong h.slots [i] := by
      intro hj
      obtain ⟨hji, e, hs, _⟩ := mem_freedAmong.mp hj
      cases List.mem_singleton.mp hji
      exact hn e hs
    simp [he, hf]
  · have hf : freedAmong h.slots [i] = [] := by simp [freedAmong, hs, isUnmarked, hm]
    simp [he, hf, SlotTable.setEntry]
  · have hf : freedAmong h.slots [i] = [i] := by simp [freedAmong, hs, isUnmarked, hm]
    simp only [he, hf, release, SlotTable.vacate, Array.getElem?_modify, List.mem_singleton]
    by_cases hij : i = j
    · simp [hij]
    · simp [hij, Ne.symm hij]

/-- Sweeping a slot forgets the content of a string it frees, and no other. -/
theorem sweepSlot_interned (h : Heap) (i : Nat) (s : String) (x : Handle) :
    (h.sweepSlot i).1.interned[s]? = some x ↔
      h.interned[s]? = some x ∧
        ¬ ∃ e, h.slots.entries[i]? = some (some e) ∧ e.marked = false ∧ e.object = .string s := by
  rcases h.sweepSlot_cases i with ⟨he, hn⟩ | ⟨e, hs, hm, he⟩ | ⟨e, hs, hm, he⟩
  · rw [he]
    refine ⟨fun hx => ⟨hx, ?_⟩, fun hx => hx.1⟩
    rintro ⟨e, hs, _⟩
    exact hn e hs
  · rw [he]
    refine ⟨fun hx => ⟨hx, ?_⟩, fun hx => hx.1⟩
    rintro ⟨e', hs', hm', _⟩
    rw [hs] at hs'
    simp only [Option.some.injEq] at hs'
    rw [← hs', hm] at hm'
    exact absurd hm' (by simp)
  · rw [he, hs]
    -- the object freed is the one in the slot, so another object's content stays
    have hother : e.object ≠ .string s → ¬ ∃ e', some (some e) = some (some e') ∧
        e'.marked = false ∧ e'.object = .string s := by
      rintro hne ⟨e', hs', _, hos⟩
      simp only [Option.some.injEq] at hs'
      rw [← hs'] at hos
      exact hne hos
    simp only [release]
    cases ho : e.object with
    | string t =>
        rw [ho] at hother
        by_cases hts : t = s
        · subst hts
          simp [hm, ho]
        · simp only [Std.HashMap.getElem?_erase]
          rw [if_neg (by simpa using hts)]
          exact ⟨fun hx => ⟨hx, hother (by simpa using hts)⟩, fun hx => hx.1⟩
    | function f =>
        rw [ho] at hother
        exact ⟨fun hx => ⟨hx, hother (by simp)⟩, fun hx => hx.1⟩
    | native n =>
        rw [ho] at hother
        exact ⟨fun hx => ⟨hx, hother (by simp)⟩, fun hx => hx.1⟩

theorem sweepSlot_pinned (h : Heap) (i : Nat) :
    (h.sweepSlot i).1.pinned = h.pinned ∧ (h.sweepSlot i).1.config = h.config := by
  rcases h.sweepSlot_cases i with ⟨he, _⟩ | ⟨e, _, _, he⟩ | ⟨e, _, _, he⟩
  · rw [he]; exact ⟨rfl, rfl⟩
  · rw [he]; exact ⟨rfl, rfl⟩
  · rw [he]; exact ⟨rfl, rfl⟩

/-! ## Sweeping many slots -/

theorem sweepSlots_cons (h : Heap) (events : Array Event) (i : Nat) (rest : List Nat) :
    ∃ events', events'.size = events.size + (h.sweepSlot i).2.toList.length ∧
      h.sweepSlots events (i :: rest) = (h.sweepSlot i).1.sweepSlots events' rest := by
  rw [sweepSlots]
  cases hs : h.sweepSlot i with
  | mk h' freed =>
      cases freed with
      | none => exact ⟨events, by simp, rfl⟩
      | some e => exact ⟨events.push e, by simp, rfl⟩

/-- Slots that agree on a list are freed alike there. -/
theorem freedAmong_congr {slots slots' : SlotTable} {l : List Nat}
    (h : ∀ i ∈ l, slots'.entries[i]? = slots.entries[i]?) :
    freedAmong slots' l = freedAmong slots l := by
  unfold freedAmong
  exact List.filter_congr fun i hi => by rw [h i hi]

theorem freedAmong_cons (slots : SlotTable) (i : Nat) (rest : List Nat) :
    freedAmong slots (i :: rest) = freedAmong slots [i] ++ freedAmong slots rest := by
  unfold freedAmong
  rw [← List.filter_append]
  rfl

/-- The slots still to be swept are as they were at the start. -/
theorem sweepSlot_entries_of_not_mem (h : Heap) {i : Nat} {rest : List Nat} (hi : i ∉ rest) :
    ∀ j ∈ rest, (h.sweepSlot i).1.slots.entries[j]? = h.slots.entries[j]? := by
  intro j hj
  rw [sweepSlot_entries, if_neg]
  intro hji
  exact hi (hji ▸ hj)

theorem sweepSlots_entries (h : Heap) (events : Array Event) {l : List Nat} (hl : l.Nodup)
    (j : Nat) :
    (h.sweepSlots events l).1.slots.entries[j]? =
      if j ∈ l then h.slots.entries[j]?.map sweptEntry else h.slots.entries[j]? := by
  induction l generalizing h events with
  | nil => simp [sweepSlots]
  | cons i rest ih =>
      -- `i` is swept once: the rest of the list does not come back to it
      obtain ⟨hi, hr⟩ := List.nodup_cons.mp hl
      obtain ⟨events', _, he⟩ := h.sweepSlots_cons events i rest
      rw [he, ih _ _ hr, sweepSlot_entries]
      by_cases hj : j = i
      · subst hj; simp [hi]
      · simp [hj]

theorem sweepSlots_generations (h : Heap) (events : Array Event) {l : List Nat} (hl : l.Nodup)
    (j : Nat) :
    (h.sweepSlots events l).1.slots.generations[j]? =
      h.slots.generations[j]?.map fun g => if j ∈ freedAmong h.slots l then g + 1 else g := by
  induction l generalizing h events with
  | nil => simp [sweepSlots, freedAmong]
  | cons i rest ih =>
      obtain ⟨hi, hr⟩ := List.nodup_cons.mp hl
      obtain ⟨events', _, he⟩ := h.sweepSlots_cons events i rest
      have hsame := freedAmong_congr (h.sweepSlot_entries_of_not_mem hi)
      -- a slot is in one part of the list only, so its generation moves on once
      have honce : j ∈ freedAmong h.slots [i] → j ∉ freedAmong h.slots rest := by
        intro hj hj'
        cases List.mem_singleton.mp (mem_freedAmong.mp hj).1
        exact hi (mem_freedAmong.mp hj').1
      rw [he, ih _ _ hr, sweepSlot_generations, hsame, freedAmong_cons h.slots i rest,
        Option.map_map]
      congr 1
      funext g
      by_cases hj : j ∈ freedAmong h.slots [i]
      · simp [hj, honce hj]
      · simp [hj]

theorem sweepSlots_free (h : Heap) (events : Array Event) {l : List Nat} (hl : l.Nodup) :
    (h.sweepSlots events l).1.free.toList = h.free.toList ++ freedAmong h.slots l ∧
      (h.sweepSlots events l).2.size = events.size + (freedAmong h.slots l).length := by
  induction l generalizing h events with
  | nil => simp [sweepSlots, freedAmong]
  | cons i rest ih =>
      obtain ⟨hi, hr⟩ := List.nodup_cons.mp hl
      obtain ⟨events', hsize, he⟩ := h.sweepSlots_cons events i rest
      obtain ⟨hfree, hcount⟩ := h.sweepSlot_free i
      have hsame := freedAmong_congr (h.sweepSlot_entries_of_not_mem hi)
      obtain ⟨h1, h2⟩ := ih (h.sweepSlot i).1 events' hr
      rw [he, h1, h2, hsame, hsize, hcount, hfree, freedAmong_cons h.slots i rest]
      refine ⟨by rw [List.append_assoc], ?_⟩
      rw [List.length_append]
      omega

theorem sweepSlots_interned (h : Heap) (events : Array Event) {l : List Nat} (hl : l.Nodup)
    (s : String) (x : Handle) :
    (h.sweepSlots events l).1.interned[s]? = some x ↔
      h.interned[s]? = some x ∧ ¬ ∃ i ∈ l, ∃ e, h.slots.entries[i]? = some (some e) ∧
        e.marked = false ∧ e.object = .string s := by
  induction l generalizing h events with
  | nil => simp [sweepSlots]
  | cons i rest ih =>
      obtain ⟨hi, hr⟩ := List.nodup_cons.mp hl
      obtain ⟨events', _, he⟩ := h.sweepSlots_cons events i rest
      rw [he, ih _ _ hr, sweepSlot_interned, and_assoc]
      refine and_congr_right fun _ => ?_
      rw [← not_or]
      refine not_congr ⟨?_, ?_⟩
      · rintro (hf | ⟨j, hj, hf⟩)
        · exact ⟨i, List.mem_cons_self .., hf⟩
        · rw [h.sweepSlot_entries_of_not_mem hi j hj] at hf
          exact ⟨j, List.mem_cons_of_mem _ hj, hf⟩
      · rintro ⟨j, hj, hf⟩
        rcases List.mem_cons.mp hj with rfl | hj
        · exact Or.inl hf
        · refine Or.inr ⟨j, hj, ?_⟩
          rw [h.sweepSlot_entries_of_not_mem hi j hj]
          exact hf

theorem sweepSlots_pinned (h : Heap) (events : Array Event) (l : List Nat) :
    (h.sweepSlots events l).1.pinned = h.pinned ∧ (h.sweepSlots events l).1.config = h.config := by
  induction l generalizing h events with
  | nil => exact ⟨rfl, rfl⟩
  | cons i rest ih =>
      obtain ⟨events', _, he⟩ := h.sweepSlots_cons events i rest
      obtain ⟨hp, hc⟩ := ih (h.sweepSlot i).1 events'
      obtain ⟨hp', hc'⟩ := h.sweepSlot_pinned i
      rw [he]
      exact ⟨hp.trans hp', hc.trans hc'⟩

/-- The whole table is swept, one slot after the other. -/
theorem sweep_slots (h : Heap) : h.sweep.1.slots = h.slots.swept := by
  unfold sweep
  apply SlotTable.ext
  · apply Array.ext_getElem?
    intro j
    rw [sweepSlots_entries _ _ List.nodup_range, SlotTable.swept, Array.getElem?_map]
    split
    · rfl
    · rename_i hj
      have hlt : ¬ j < h.slots.entries.size := fun hj' => hj (List.mem_range.mpr hj')
      rw [Array.getElem?_eq_none (by omega)]
      rfl
  · apply Array.ext_getElem?
    intro j
    rw [sweepSlots_generations _ _ List.nodup_range, SlotTable.swept, Array.getElem?_mapIdx]
    simp only [mem_freedAmong_range]

/-! ## Whole collections -/

/-- What a collection from `start` makes of the heap `h`: it has freed `count`
objects and left the heap `h'`. -/
structure Collection (h : Heap) (start : List Handle) (count : Nat) (h' : Heap) : Prop where
  /-- What the start leads to is the same object with the same charge. -/
  kept : ∀ x, Reach h.get? start x → entryAt? h'.slots x = entryAt? h.slots x
  /-- No other handle stands for anything. -/
  gone : ∀ x, ¬ Reach h.get? start x → entryAt? h'.slots x = none
  unmarked : Unmarked h'.slots
  aligned : h'.slots.Aligned
  slots_size : h'.slots.size = h.slots.size
  /-- The slots freed are those of the live objects that the start does not lead
  to. They join the free list from the lowest to the highest, and their
  generations are the ones that move on. -/
  freed : ∃ freed : List Nat,
    freed.Pairwise (· < ·) ∧
    (∀ i, i ∈ freed ↔ ∃ x : Handle, x.index = i ∧ h.contains x ∧ ¬ Reach h.get? start x) ∧
    count = freed.length ∧
    h'.free.toList = h.free.toList ++ freed ∧
    ∀ i : Nat, h'.slots.generations[i]? =
      h.slots.generations[i]?.map fun g => if i ∈ freed then g + 1 else g
  /-- The table forgets the contents of the strings freed. -/
  interned : ∀ s x, h'.interned? s = some x ↔
    h.interned? s = some x ∧ ¬ ∃ y, h.get? y = some (.string s) ∧ ¬ Reach h.get? start y
  pinned : h'.pinned = h.pinned
  config : h'.config = h.config

theorem get?_eq_some {h : Heap} {x : Handle} {o : Object} :
    h.get? x = some o ↔ ∃ e, entryAt? h.slots x = some e ∧ e.object = o := by
  unfold get?
  exact Option.map_eq_some_iff

theorem contains_iff {h : Heap} {x : Handle} : h.contains x ↔ ∃ o, h.get? x = some o := by
  unfold contains
  exact Option.isSome_iff_exists

/-- What the marking of a collection does to the objects of its heap. -/
theorem unmarked_entry_iff {h : Heap} (hu : Unmarked h.slots) (start : List Handle) (x : Handle)
    (o : Object) :
    (∃ e, entryAt? (mark h.slots start) x = some e ∧ e.marked = false ∧ e.object = o) ↔
      h.get? x = some o ∧ ¬ Reach h.get? start x := by
  have hmark := isMarked_mark_iff hu.not_isMarked start x
  have hget : (entryAt? (mark h.slots start) x).map Entry.object = h.get? x :=
    congrFun (objectAt?_mark h.slots start) x
  constructor
  · rintro ⟨e, he, hm, rfl⟩
    refine ⟨by rw [← hget, he]; rfl, fun hr => ?_⟩
    obtain ⟨d, hd, hmd⟩ := hmark.mpr hr
    rw [he] at hd
    rw [← Option.some.inj hd, hm] at hmd
    exact absurd hmd (by simp)
  · rintro ⟨ho, hr⟩
    rw [← hget] at ho
    obtain ⟨e, he, hoe⟩ := Option.map_eq_some_iff.mp ho
    refine ⟨e, he, ?_, hoe⟩
    cases hm : e.marked with
    | false => rfl
    | true => exact absurd (hmark.mp ⟨e, he, hm⟩) hr

/-- The slots without a mark, as a sweep after marking finds them, are those of
the live objects that the start does not lead to. -/
theorem mem_freedAmong_mark {h : Heap} (hu : Unmarked h.slots) (ha : h.slots.Aligned)
    (start : List Handle) (i : Nat) :
    i ∈ freedAmong (mark h.slots start) (List.range (mark h.slots start).size) ↔
      ∃ x : Handle, x.index = i ∧ h.contains x ∧ ¬ Reach h.get? start x := by
  rw [mem_freedAmong]
  constructor
  · rintro ⟨_, e, hs, hm⟩
    obtain ⟨x, hx, he⟩ := (ha.mark start).exists_handle hs
    obtain ⟨ho, hr⟩ := (unmarked_entry_iff hu start x e.object).mp ⟨e, he, hm, rfl⟩
    exact ⟨x, hx, contains_iff.mpr ⟨_, ho⟩, hr⟩
  · rintro ⟨x, rfl, hx, hr⟩
    obtain ⟨o, ho⟩ := contains_iff.mp hx
    obtain ⟨e, he, hm, _⟩ := (unmarked_entry_iff hu start x o).mpr ⟨ho, hr⟩
    have hs := (entryAt?_eq_some.mp he).2
    exact ⟨List.mem_range.mpr (Array.getElem?_eq_some_iff.mp hs).1, e, hs, hm⟩

/-- Sweeping after marking keeps what is reached, and that only. -/
theorem entryAt?_swept_mark {h : Heap} (hu : Unmarked h.slots) (start : List Handle) (x : Handle) :
    (Reach h.get? start x → entryAt? (mark h.slots start).swept x = entryAt? h.slots x) ∧
    (¬ Reach h.get? start x → entryAt? (mark h.slots start).swept x = none) := by
  have hmark := isMarked_mark_iff hu.not_isMarked start x
  rw [entryAt?_swept]
  constructor
  · intro hr
    obtain ⟨e, he, hm⟩ := hmark.mpr hr
    -- marking changed no more than the mark, and sweeping takes the mark off again
    have hcl : (entryAt? (mark h.slots start) x).map Entry.cleared =
        (entryAt? h.slots x).map Entry.cleared := by
      rw [← entryAt?_cleared, mark_cleared, entryAt?_cleared]
    rw [he] at hcl ⊢
    obtain ⟨d, hd, hde⟩ := Option.map_eq_some_iff.mp hcl.symm
    have hdm : d.marked = false := hu d (Array.mem_of_getElem? (entryAt?_eq_some.mp hd).2)
    have hdd : d.cleared = d := by unfold Entry.cleared; rw [← hdm]
    rw [hd, Option.filter_some, if_pos hm, Option.map_some, ← hde, hdd]
  · intro hr
    cases he : entryAt? (mark h.slots start) x with
    | none => rfl
    | some e =>
        cases hm : e.marked with
        | false => simp [Option.filter_some, hm]
        | true => exact absurd (hmark.mp ⟨e, he, hm⟩) hr

/-- **A collection is exact**, on a heap without marks. -/
theorem collectFor_collection {h : Heap} (hu : Unmarked h.slots) (ha : h.slots.Aligned)
    (roots pending : List Handle) :
    Collection h (roots ++ h.pinned.toList ++ pending) (h.collectFor roots pending).answer
      (h.collectFor roots pending).heap := by
  have hslots : (h.collectFor roots pending).heap.slots =
      (mark h.slots (roots ++ h.pinned.toList ++ pending)).swept := by
    unfold collectFor
    exact sweep_slots _
  obtain ⟨hfree, hcount⟩ :=
    sweepSlots_free { h with slots := mark h.slots (roots ++ h.pinned.toList ++ pending) } #[]
      (List.nodup_range (n := (mark h.slots (roots ++ h.pinned.toList ++ pending)).size))
  obtain ⟨hpinned, hconfig⟩ :=
    sweepSlots_pinned { h with slots := mark h.slots (roots ++ h.pinned.toList ++ pending) } #[]
      (List.range (mark h.slots (roots ++ h.pinned.toList ++ pending)).size)
  have hsame := entryAt?_swept_mark hu (roots ++ h.pinned.toList ++ pending)
  refine
    { kept := fun x hr => ?_
      gone := fun x hr => ?_
      unmarked := ?_
      aligned := ?_
      slots_size := ?_
      freed := ⟨freedAmong (mark h.slots (roots ++ h.pinned.toList ++ pending))
        (List.range (mark h.slots (roots ++ h.pinned.toList ++ pending)).size), ?_, ?_, ?_, ?_, ?_⟩
      interned := fun s x => ?_
      pinned := hpinned
      config := hconfig }
  · rw [hslots]; exact (hsame x).1 hr
  · rw [hslots]; exact (hsame x).2 hr
  · rw [hslots]; exact unmarked_swept _
  · rw [hslots]; exact (ha.mark _).swept
  · rw [hslots, SlotTable.size_swept, size_mark]
  · exact List.Pairwise.filter _ List.pairwise_lt_range
  · exact mem_freedAmong_mark hu ha _
  · exact hcount.trans (by simp)
  · exact hfree
  · intro i
    rw [hslots, SlotTable.swept, Array.getElem?_mapIdx, generations_mark]
    simp only [mem_freedAmong_range]
  · -- the sweep reads contents off the marked table, `interned` speaks of the heap before
    show (sweep _).1.interned[s]? = some x ↔ _
    unfold sweep
    rw [sweepSlots_interned _ _ List.nodup_range]
    refine and_congr_right fun _ => not_congr ⟨?_, ?_⟩
    · rintro ⟨i, _, e, hs, hm, ho⟩
      obtain ⟨y, _, he⟩ := (ha.mark _).exists_handle hs
      exact ⟨y, (unmarked_entry_iff hu _ y _).mp ⟨e, he, hm, ho⟩⟩
    · rintro ⟨y, hy, hr⟩
      obtain ⟨e, he, hm, ho⟩ := (unmarked_entry_iff hu _ y _).mpr ⟨hy, hr⟩
      have hs := (entryAt?_eq_some.mp he).2
      exact ⟨y.index, List.mem_range.mpr (Array.getElem?_eq_some_iff.mp hs).1, e, hs, hm, ho⟩

end Heap

end StackMachine
