import StackMachine.Heap.Allocate
import StackMachine.Proofs.Heap.Collection

/-!
# What storing an object does

Two invariants hold of every heap. A heap is *well formed* when every slot has a
generation, no mark is left on it and its free list holds exactly the empty slots,
each of them once: then a slot taken from the list can be filled without losing an
object. Its table is
*faithful* when it maps a content to a handle just if the handle stands for a
live string of that content: then interning never answers a dead handle and
never makes a second string of one content.

`Evolves` says what the rest of the machine has to know of any operation that
may collect and store: nothing that was reachable is lost, nothing appears but
the object stored, and an object that survives keeps what it refers to.
-/

namespace StackMachine

namespace Heap

/-- A heap between two operations. -/
structure WellFormed (h : Heap) : Prop where
  /-- There is one generation for each slot. -/
  aligned : h.slots.Aligned
  unmarked : Unmarked h.slots
  /-- No empty slot is listed twice. -/
  nodup : h.free.toList.Nodup
  /-- The free list holds the empty slots. -/
  mem_free : ∀ i, i ∈ h.free.toList ↔ h.slots.entries[i]? = some none

/-- The interning table maps a content to a handle just if the handle stands for
a live string of that content. -/
def Faithful (h : Heap) : Prop :=
  ∀ s x, h.interned? s = some x ↔ h.get? x = some (.string s)

/-- The heap `h'` comes from `h` by freeing objects that `start` does not lead
to, and by storing objects that `new` admits. -/
structure Evolves (h : Heap) (start : List Handle) (new : Handle → Object → Prop) (h' : Heap) :
    Prop where
  kept : ∀ x, Reach h.get? start x → h'.get? x = h.get? x
  /-- A live object is new, or it was there and still has all it refers to. -/
  within : ∀ x o, h'.get? x = some o → new x o ∨ h.get? x = some o ∧
    ∀ y ∈ o.children, ∀ o', h.get? y = some o' → h'.get? y = some o'
  pinned : h'.pinned = h.pinned

/-! ## Objects of one kind -/

theorem function?_eq_some {h : Heap} {x : Handle} {f : BytecodeFunction} :
    h.function? x = some f ↔ h.get? x = some (.function f) := by
  unfold function?
  split
  · rename_i g hx; rw [hx]; simp
  · rename_i hx
    refine ⟨fun h' => absurd h' (by simp), fun h' => absurd h' (hx f)⟩

theorem string?_eq_some {h : Heap} {x : Handle} {s : String} :
    h.string? x = some s ↔ h.get? x = some (.string s) := by
  unfold string?
  split
  · rename_i t hx; rw [hx]; simp
  · rename_i hx
    refine ⟨fun h' => absurd h' (by simp), fun h' => absurd h' (hx s)⟩

theorem native?_eq_some {h : Heap} {x : Handle} {n : NativeFunction} :
    h.native? x = some n ↔ h.get? x = some (.native n) := by
  unfold native?
  split
  · rename_i k hx; rw [hx]; simp
  · rename_i hx
    refine ⟨fun h' => absurd h' (by simp), fun h' => absurd h' (hx n)⟩

/-! ## Collections -/

section

variable {h h' : Heap} {start : List Handle} {count : Nat}

theorem Collection.get?_kept (hc : Collection h start count h') {x : Handle}
    (hr : Reach h.get? start x) : h'.get? x = h.get? x := by
  unfold get?; rw [hc.kept x hr]

theorem Collection.get?_gone (hc : Collection h start count h') {x : Handle}
    (hr : ¬ Reach h.get? start x) : h'.get? x = none := by
  unfold get?; rw [hc.gone x hr]; rfl

/-- What survives a collection was there before and is reached. -/
theorem Collection.reach_of_live (hc : Collection h start count h') {x : Handle} {o : Object}
    (hx : h'.get? x = some o) : Reach h.get? start x ∧ h.get? x = some o := by
  by_cases hr : Reach h.get? start x
  · exact ⟨hr, by rw [← hc.get?_kept hr]; exact hx⟩
  · rw [hc.get?_gone hr] at hx
    exact absurd hx (by simp)

theorem Collection.evolves (hc : Collection h start count h') (new : Handle → Object → Prop) :
    Evolves h start new h' where
  kept x hr := hc.get?_kept hr
  within x o hx := by
    obtain ⟨hr, ho⟩ := hc.reach_of_live hx
    refine Or.inr ⟨ho, fun y hy o' ho' => ?_⟩
    rw [hc.get?_kept (hr.of_children ho hy ho')]
    exact ho'
  pinned := hc.pinned

/-- A collection leaves a slot where there was one. -/
theorem Collection.exists_entry (hc : Collection h start count h') {i : Nat} {entry : Option Entry}
    (hs : h.slots.entries[i]? = some entry) : ∃ entry', h'.slots.entries[i]? = some entry' := by
  have hi := (Array.getElem?_eq_some_iff.mp hs).1
  have hi' : i < h'.slots.entries.size := Nat.lt_of_lt_of_eq hi hc.slots_size.symm
  exact ⟨_, Array.getElem?_eq_getElem hi'⟩

/-- An empty slot after a collection was empty or has been freed. -/
theorem Collection.empty_slot_iff (hc : Collection h start count h') (ha : h.slots.Aligned)
    (i : Nat) :
    h'.slots.entries[i]? = some none ↔
      h.slots.entries[i]? = some none ∨
        ∃ x : Handle, x.index = i ∧ h.contains x ∧ ¬ Reach h.get? start x := by
  constructor
  · intro hs'
    have hi := (Array.getElem?_eq_some_iff.mp hs').1
    have hi' : i < h.slots.entries.size := Nat.lt_of_lt_of_eq hi hc.slots_size
    cases hs : h.slots.entries[i]? with
    | none => rw [Array.getElem?_eq_getElem hi'] at hs; exact absurd hs (by simp)
    | some entry =>
        cases entry with
        | none => exact Or.inl rfl
        | some e =>
            obtain ⟨x, rfl, he⟩ := ha.exists_handle hs
            refine Or.inr ⟨x, rfl, ?_, fun hr => ?_⟩
            · exact contains_iff.mpr ⟨_, get?_eq_some.mpr ⟨e, he, rfl⟩⟩
            · have hk := hc.kept x hr
              rw [he, entryAt?_eq_some, hs'] at hk
              exact absurd hk.2 (by simp)
  · -- an object in the slot afterwards would have been reached, and so would be there before
    have hsurvivor : ∀ e, h'.slots.entries[i]? = some (some e) →
        ∃ y : Handle, y.index = i ∧ Reach h.get? start y ∧ ∃ d, entryAt? h.slots y = some d := by
      intro e hs'
      obtain ⟨y, hy, he⟩ := hc.aligned.exists_handle hs'
      obtain ⟨hr, ho⟩ := hc.reach_of_live (get?_eq_some.mpr ⟨e, he, rfl⟩)
      obtain ⟨d, hd, _⟩ := get?_eq_some.mp ho
      exact ⟨y, hy, hr, d, hd⟩
    rintro (hs | ⟨x, rfl, hx, hr⟩)
    · obtain ⟨entry, hs'⟩ := hc.exists_entry hs
      cases entry with
      | none => exact hs'
      | some e =>
          obtain ⟨y, rfl, _, d, hd⟩ := hsurvivor e hs'
          rw [entryAt?_eq_some, hs] at hd
          exact absurd hd.2 (by simp)
    · obtain ⟨o, ho⟩ := contains_iff.mp hx
      obtain ⟨e, he, _⟩ := get?_eq_some.mp ho
      obtain ⟨entry, hs'⟩ := hc.exists_entry (entryAt?_eq_some.mp he).2
      cases entry with
      | none => exact hs'
      | some d =>
          obtain ⟨y, hy, hr', d', hd'⟩ := hsurvivor d hs'
          exact absurd (eq_of_entryAt? hy hd' he ▸ hr') hr

theorem Collection.wellFormed (hc : Collection h start count h') (hw : h.WellFormed) :
    h'.WellFormed := by
  have hempty := hc.empty_slot_iff hw.aligned
  obtain ⟨freed, hsorted, hmem, _, hfree, _⟩ := hc.freed
  refine ⟨hc.aligned, hc.unmarked, ?_, fun i => ?_⟩
  · rw [hfree, List.nodup_append]
    refine ⟨hw.nodup, hsorted.imp Nat.ne_of_lt, ?_⟩
    intro i hi j hj hij
    subst hij
    -- a slot on the free list is empty, one that is freed holds an object
    have hs := (hw.mem_free i).mp hi
    obtain ⟨x, rfl, hx, _⟩ := (hmem i).mp hj
    obtain ⟨o, ho⟩ := contains_iff.mp hx
    obtain ⟨e, he, _⟩ := get?_eq_some.mp ho
    rw [entryAt?_eq_some, hs] at he
    exact absurd he.2 (by simp)
  · rw [hfree, List.mem_append, hempty, hw.mem_free, hmem]

/-- A collection of a well-formed heap is exact. -/
theorem WellFormed.collection (hw : h.WellFormed) (roots pending : List Handle) :
    Collection h (roots ++ h.pinned.toList ++ pending) (h.collectFor roots pending).answer
      (h.collectFor roots pending).heap :=
  collectFor_collection hw.unmarked hw.aligned roots pending

theorem Collection.faithful (hc : Collection h start count h') (hf : h.Faithful) :
    h'.Faithful := by
  intro s x
  rw [hc.interned, hf]
  constructor
  · rintro ⟨hx, hn⟩
    have hr : Reach h.get? start x := Classical.byContradiction fun hr => hn ⟨x, hx, hr⟩
    rw [hc.get?_kept hr]
    exact hx
  · intro hx
    obtain ⟨hr, ho⟩ := hc.reach_of_live hx
    refine ⟨ho, ?_⟩
    rintro ⟨y, hy, hry⟩
    -- one content, one handle: `y` would be `x`
    have hyx : y = x := by
      have h1 := (hf s y).mpr hy
      rw [(hf s x).mpr ho] at h1
      exact (Option.some.inj h1).symm
    exact hry (hyx ▸ hr)

end

/-! ## Filling a slot -/

/-- The heap `h'` is `h` with the object `o` stored under the handle `n`. -/
structure Stored (h : Heap) (o : Object) (n : Handle) (h' : Heap) : Prop where
  fresh : h.get? n = none
  get : ∀ x, h'.get? x = if x = n then some o else h.get? x
  wellFormed : h'.WellFormed
  interned : h'.interned = h.interned
  pinned : h'.pinned = h.pinned

/-- An empty slot has a handle that stands for nothing yet. -/
theorem WellFormed.vacant {h : Heap} (hw : h.WellFormed) {i : Nat}
    (hs : h.slots.entries[i]? = some none) :
    h.slots.generations[i]? = some (h.generationAt i) ∧
      ∀ g, entryAt? h.slots ⟨i, g⟩ = none := by
  have hi : i < h.slots.generations.size := by
    rw [hw.aligned]
    exact (Array.getElem?_eq_some_iff.mp hs).1
  refine ⟨by simp [generationAt, Array.getElem?_eq_getElem hi], fun g => ?_⟩
  cases he : entryAt? h.slots ⟨i, g⟩ with
  | none => rfl
  | some e =>
      rw [entryAt?_eq_some, hs] at he
      exact absurd he.2 (by simp)

/-- Filling the last slot of the free list loses no object. -/
theorem stored_reused {h : Heap} (hw : h.WellFormed) {o : Object} {i : Nat}
    {rest : Array Nat} {e : Entry} (hfree : h.free = rest.push i) (ho : e.object = o)
    (hm : e.marked = false) {h' : Heap} (hslots : h'.slots = h.slots.setEntry i (some e))
    (hrest : h'.free = rest) (hinterned : h'.interned = h.interned)
    (hpinned : h'.pinned = h.pinned) : Stored h o ⟨i, h.generationAt i⟩ h' := by
  have hs : h.slots.entries[i]? = some none := (hw.mem_free i).mp (by rw [hfree]; simp)
  have hi := (Array.getElem?_eq_some_iff.mp hs).1
  obtain ⟨hgen, hnone⟩ := hw.vacant hs
  have hnodup := hw.nodup
  rw [hfree, Array.toList_push, List.nodup_append] at hnodup
  refine ⟨by unfold get?; rw [hnone]; rfl, fun x => ?_,
    ⟨by rw [hslots]; exact hw.aligned.setEntry i _, ?_, ?_, fun j => ?_⟩, hinterned, hpinned⟩
  · -- in the slot filled only its own generation stands for something
    unfold get?
    rw [hslots]
    by_cases hx : i = x.index
    · obtain ⟨j, g⟩ := x
      simp only at hx
      subst hx
      rw [hnone]
      unfold entryAt? SlotTable.setEntry
      simp only [hgen, Array.getElem?_setIfInBounds, if_pos hi, if_true]
      by_cases hg : h.generationAt i = g
      · simp [hg, ho]
      · simp [hg, Ne.symm hg]
    · rw [if_neg (by rintro rfl; exact hx rfl)]
      unfold entryAt? SlotTable.setEntry
      simp only [Array.getElem?_setIfInBounds, if_neg hx]
  · intro d hd
    rw [hslots] at hd
    rcases Array.mem_or_eq_of_mem_setIfInBounds hd with hd | hd
    · exact hw.unmarked d hd
    · rw [Option.some.inj hd]; exact hm
  · rw [hrest]; exact hnodup.1
  · have hij : j ∈ rest.toList → j ≠ i := fun hj hji => hnodup.2.2 j hj i (by simp) hji
    rw [hrest, hslots, SlotTable.setEntry, Array.getElem?_setIfInBounds]
    by_cases hj : i = j
    · subst hj
      rw [if_pos rfl, if_pos hi]
      constructor
      · intro hr; exact absurd rfl (hij hr)
      · intro hd; exact absurd hd (by simp)
    · rw [if_neg hj, ← hw.mem_free j, hfree]
      simp [Ne.symm hj]

/-- Filling a new slot behind all others loses no object. -/
theorem stored_appended {h : Heap} (hw : h.WellFormed) {o : Object} {e : Entry}
    (ho : e.object = o) (hm : e.marked = false) {h' : Heap}
    (hslots : h'.slots = h.slots.push e) (hfree : h'.free = h.free)
    (hinterned : h'.interned = h.interned) (hpinned : h'.pinned = h.pinned) :
    Stored h o ⟨h.slots.size, 0⟩ h' := by
  have hgen : h.slots.generations.size = h.slots.entries.size := hw.aligned
  have hnone : ∀ g, entryAt? h.slots ⟨h.slots.size, g⟩ = none := by
    intro g
    unfold entryAt? SlotTable.size
    rw [Array.getElem?_eq_none (Nat.le_of_eq hgen)]
    simp
  refine ⟨by unfold get?; rw [hnone]; rfl, fun x => ?_,
    ⟨by rw [hslots]; exact hw.aligned.push e, ?_, ?_, fun j => ?_⟩, hinterned, hpinned⟩
  · -- the new slot lies behind both lists, at the same place of each
    unfold get?
    rw [hslots]
    by_cases hx : x.index = h.slots.size
    · obtain ⟨j, g⟩ := x
      simp only at hx
      subst hx
      rw [hnone]
      unfold entryAt? SlotTable.push SlotTable.size
      simp only [Array.getElem?_push, hgen, if_true]
      by_cases hg : (0 : UInt32) = g
      · simp [← hg, ho]
      · simp [hg, Ne.symm hg]
    · rw [if_neg (by rintro rfl; exact hx rfl)]
      unfold SlotTable.size at hx
      unfold entryAt? SlotTable.push
      simp only [Array.getElem?_push, hgen, if_neg hx]
  · intro d hd
    rw [hslots] at hd
    rcases Array.mem_push.mp hd with hd | hd
    · exact hw.unmarked d hd
    · rw [Option.some.inj hd]; exact hm
  · rw [hfree]; exact hw.nodup
  · rw [hfree, hslots, SlotTable.push, Array.getElem?_push, hw.mem_free]
    by_cases hj : j = h.slots.entries.size
    · subst hj
      rw [if_pos rfl, Array.getElem?_eq_none (Nat.le_refl _)]
      simp
    · rw [if_neg hj]

/-- Storing fills a slot, or finds that there are too many and changes nothing. -/
theorem place_spec {h : Heap} (hw : h.WellFormed) (o : Object) :
    (∃ n, (h.place o).1 = .ok n ∧ Stored h o n (h.place o).2) ∨
      (∃ e, (h.place o).1 = .error e) ∧ (h.place o).2 = h := by
  unfold place
  split
  · rename_i i hb
    obtain ⟨rest, hfree⟩ := Array.back?_eq_some_iff.mp hb
    refine Or.inl ⟨⟨i, h.generationAt i⟩, rfl, ?_⟩
    refine stored_reused hw (e := { object := o, size := o.cost }) hfree rfl rfl rfl ?_ rfl rfl
    simp only [charge, hfree, Array.pop_push]
  · split
    · refine Or.inl ⟨⟨h.slots.size, 0⟩, rfl, ?_⟩
      exact stored_appended hw (e := { object := o, size := o.cost }) rfl rfl rfl rfl rfl rfl
    · exact Or.inr ⟨⟨_, rfl⟩, rfl⟩

theorem placeWithin_spec {h : Heap} (hw : h.WellFormed) (o : Object) :
    (∃ n, (h.placeWithin o).1 = .ok n ∧ Stored h o n (h.placeWithin o).2) ∨
      (∃ e, (h.placeWithin o).1 = .error e) ∧ (h.placeWithin o).2 = h := by
  unfold placeWithin
  split
  · split
    · exact Or.inr ⟨⟨_, rfl⟩, rfl⟩
    · exact place_spec hw o
  · exact place_spec hw o

/-- Whether there is room for an object. -/
def Admits (h : Heap) (o : Object) : Prop :=
  (∀ limit, h.config.maxBytes = some limit → h.bytes + o.cost ≤ limit) ∧
    (h.free ≠ #[] ∨ h.slots.size < maxSlots)

theorem place_ok_iff {h : Heap} (o : Object) :
    (∃ x, (h.place o).1 = .ok x) ↔ h.free ≠ #[] ∨ h.slots.size < maxSlots := by
  unfold place
  split
  · rename_i i hb
    obtain ⟨rest, hfree⟩ := Array.back?_eq_some_iff.mp hb
    exact ⟨fun _ => Or.inl (by rw [hfree]; simp), fun _ => ⟨_, rfl⟩⟩
  · rename_i hb
    have hfree := Array.back?_eq_none_iff.mp hb
    split
    · rename_i hroom; exact ⟨fun _ => Or.inr hroom, fun _ => ⟨_, rfl⟩⟩
    · rename_i hroom; simp [hfree, hroom]

theorem placeWithin_ok_iff {h : Heap} (o : Object) :
    (∃ x, (h.placeWithin o).1 = .ok x) ↔ h.Admits o := by
  unfold placeWithin Admits
  split
  · rename_i limit hlimit
    split
    · rename_i hover
      simp only [hlimit, reduceCtorEq, exists_false, Option.some.injEq, forall_eq', false_iff]
      omega
    · rename_i hfits
      rw [place_ok_iff]
      simp only [hlimit, Option.some.injEq, forall_eq']
      exact (and_iff_right (Nat.not_lt.mp hfits)).symm
  · rename_i hnone
    rw [place_ok_iff]
    simp [hnone]

/-! ## Allocating -/

/-- The heap in which an object will be stored: the one at hand, or what a
collection leaves of it. -/
def prepared (h : Heap) (roots : List Handle) (o : Object) : Heap :=
  if h.needsCollection o.cost then (h.collectFor roots o.children).heap else h

theorem allocate_prepared (h : Heap) (roots : List Handle) (o : Object) :
    (h.allocate roots o).answer = ((h.prepared roots o).placeWithin o).1 ∧
      (h.allocate roots o).heap = ((h.prepared roots o).placeWithin o).2 := by
  unfold allocate prepared
  split
  · exact ⟨rfl, rfl⟩
  · exact ⟨rfl, rfl⟩

theorem prepared_wellFormed {h : Heap} (hw : h.WellFormed) (roots : List Handle) (o : Object) :
    (h.prepared roots o).WellFormed := by
  unfold prepared
  split
  · exact (hw.collection roots o.children).wellFormed hw
  · exact hw

/-- An object is stored just if there is room, after the collection that its size
may call for. -/
theorem allocate_ok_iff {h : Heap} (roots : List Handle) (o : Object) :
    (∃ x, (h.allocate roots o).answer = .ok x) ↔ (h.prepared roots o).Admits o := by
  rw [(h.allocate_prepared roots o).1]
  exact placeWithin_ok_iff o

theorem evolves_refl (h : Heap) (start : List Handle) (new : Handle → Object → Prop) :
    Evolves h start new h :=
  ⟨fun _ _ => rfl, fun _ _ ho => Or.inr ⟨ho, fun _ _ _ h' => h'⟩, rfl⟩

theorem Stored.evolves {h c h' : Heap} {o : Object} {n : Handle} {start : List Handle}
    {new : Handle → Object → Prop} (hs : Stored c o n h') (hn : new n o)
    (he : Evolves h start new c) : Evolves h start new h' := by
  have hold : ∀ x o', c.get? x = some o' → h'.get? x = some o' := by
    intro x o' ho
    rw [hs.get, if_neg]
    · exact ho
    · rintro rfl
      rw [hs.fresh] at ho
      exact absurd ho (by simp)
  refine ⟨fun x hr => ?_, fun x o' ho => ?_, hs.pinned.trans he.pinned⟩
  · obtain ⟨o', ho'⟩ := hr.live
    rw [ho']
    exact hold x o' (by rw [he.kept x hr]; exact ho')
  · rw [hs.get] at ho
    split at ho
    · rename_i hx
      rw [hx, ← Option.some.inj ho]
      exact Or.inl hn
    · rcases he.within x o' ho with h1 | ⟨h1, h2⟩
      · exact Or.inl h1
      · exact Or.inr ⟨h1, fun y hy d hd => hold y d (h2 y hy d hd)⟩

/-- A table stays faithful when an object is stored that is no string. -/
theorem Stored.faithful {h h' : Heap} {o : Object} {n : Handle} (hs : Stored h o n h')
    (ho : ∀ s, o ≠ .string s) (hf : h.Faithful) : h'.Faithful := by
  intro s x
  have hi : h'.interned? s = h.interned? s := by unfold interned?; rw [hs.interned]
  rw [hi, hf, hs.get]
  by_cases hx : x = n
  · subst hx
    rw [hs.fresh, if_pos rfl]
    simp [ho s]
  · rw [if_neg hx]

/-- The collection that may come before storing leaves a heap that is as good. -/
theorem allocate_spec {h : Heap} (hw : h.WellFormed) (roots : List Handle) (o : Object) :
    ∃ c : Heap, c.WellFormed ∧ (h.Faithful → c.Faithful) ∧
      Evolves h (roots ++ h.pinned.toList ++ o.children) (fun _ _ => False) c ∧
      (∀ s, h.interned? s = none → c.interned? s = none) ∧
      ((∃ n, (h.allocate roots o).answer = .ok n ∧ Stored c o n (h.allocate roots o).heap) ∨
        (∃ e, (h.allocate roots o).answer = .error e) ∧ (h.allocate roots o).heap = c) := by
  unfold allocate
  split
  · have hc := hw.collection roots o.children
    refine ⟨(h.collectFor roots o.children).heap, hc.wellFormed hw, hc.faithful, hc.evolves _, ?_, ?_⟩
    · intro s hs
      cases hs' : (h.collectFor roots o.children).heap.interned? s with
      | none => rfl
      | some x =>
          rw [((hc.interned s x).mp hs').1] at hs
          exact absurd hs (by simp)
    · exact placeWithin_spec (hc.wellFormed hw) o
  · exact ⟨h, hw, id, evolves_refl h _ _, fun _ => id, placeWithin_spec hw o⟩

theorem Evolves.mono {h h' : Heap} {start : List Handle} {new new' : Handle → Object → Prop}
    (he : Evolves h start new h') (hn : ∀ x o, new x o → new' x o) : Evolves h start new' h' :=
  ⟨he.kept, fun x o ho => (he.within x o ho).imp (hn x o) id, he.pinned⟩

theorem allocate_wellFormed {h : Heap} (hw : h.WellFormed) (roots : List Handle) (o : Object) :
    (h.allocate roots o).heap.WellFormed := by
  obtain ⟨c, hc, _, _, _, ⟨n, _, hs⟩ | ⟨_, he⟩⟩ := allocate_spec hw roots o
  · exact hs.wellFormed
  · rw [he]; exact hc

theorem allocate_faithful {h : Heap} (hw : h.WellFormed) (hf : h.Faithful) (roots : List Handle)
    {o : Object} (ho : ∀ s, o ≠ .string s) : (h.allocate roots o).heap.Faithful := by
  obtain ⟨c, _, hc, _, _, ⟨n, _, hs⟩ | ⟨_, he⟩⟩ := allocate_spec hw roots o
  · exact hs.faithful ho (hc hf)
  · rw [he]; exact hc hf

/-- What allocating an object does, said with the handle it answers. -/
theorem allocate_evolves {h : Heap} (hw : h.WellFormed) (roots : List Handle) (o : Object) :
    Evolves h (roots ++ h.pinned.toList ++ o.children)
      (fun x o' => (h.allocate roots o).answer = .ok x ∧ o' = o) (h.allocate roots o).heap := by
  obtain ⟨c, _, _, hev, _, ⟨n, hn, hs⟩ | ⟨_, he⟩⟩ := allocate_spec hw roots o
  · exact hs.evolves ⟨hn, rfl⟩ (hev.mono fun _ _ => False.elim)
  · rw [he]; exact hev.mono fun _ _ => False.elim

theorem allocate_get? {h : Heap} (hw : h.WellFormed) {roots : List Handle} {o : Object} {n : Handle}
    (ha : (h.allocate roots o).answer = .ok n) : (h.allocate roots o).heap.get? n = some o := by
  obtain ⟨c, _, _, _, _, ⟨n', hn, hs⟩ | ⟨⟨e, he⟩, _⟩⟩ := allocate_spec hw roots o
  · rw [hn] at ha
    injection ha with ha
    subst ha
    rw [hs.get, if_pos rfl]
  · rw [he] at ha
    exact absurd ha (by simp)

/-! ## Interning -/

/-- How interning a content without an object goes: the object is stored and
entered, or there is no room for it. -/
theorem intern_of_none {h : Heap} {text : String} (roots : List Handle)
    (hn : h.interned? text = none) :
    (h.intern roots text).answer = (h.allocate roots (.string text)).answer ∧
    (h.intern roots text).heap =
      match (h.allocate roots (.string text)).answer with
      | .ok x => { (h.allocate roots (.string text)).heap with
          interned := (h.allocate roots (.string text)).heap.interned.insert text x }
      | .error _ => (h.allocate roots (.string text)).heap := by
  unfold intern
  rw [hn]
  obtain ⟨answer, heap, events⟩ := h.allocate roots (.string text)
  cases answer with
  | ok x => exact ⟨rfl, rfl⟩
  | error e => exact ⟨rfl, rfl⟩

theorem intern_of_some {h : Heap} {text : String} (roots : List Handle) {x : Handle}
    (hx : h.interned? text = some x) :
    (h.intern roots text).answer = .ok x ∧ (h.intern roots text).heap = h := by
  unfold intern
  rw [hx]
  exact ⟨rfl, rfl⟩

theorem intern_ok_iff {h : Heap} {text : String} (roots : List Handle) (hn : h.interned? text = none) :
    (∃ x, (h.intern roots text).answer = .ok x) ↔
      (h.prepared roots (.string text)).Admits (.string text) := by
  rw [(intern_of_none roots hn).1]
  exact allocate_ok_iff roots _

theorem intern_wellFormed {h : Heap} (hw : h.WellFormed) (roots : List Handle) (text : String) :
    (h.intern roots text).heap.WellFormed := by
  cases hn : h.interned? text with
  | some x => rw [(intern_of_some roots hn).2]; exact hw
  | none =>
      have ha := allocate_wellFormed hw roots (.string text)
      rw [(intern_of_none roots hn).2]
      split
      · exact ⟨ha.aligned, ha.unmarked, ha.nodup, ha.mem_free⟩
      · exact ha

theorem intern_faithful {h : Heap} (hw : h.WellFormed) (hf : h.Faithful) (roots : List Handle)
    (text : String) : (h.intern roots text).heap.Faithful := by
  cases hn : h.interned? text with
  | some x => rw [(intern_of_some roots hn).2]; exact hf
  | none =>
      obtain ⟨c, _, hc, _, hnone, ⟨n, ha, hs⟩ | ⟨⟨e, ha⟩, he⟩⟩ :=
        allocate_spec hw roots (.string text)
      · rw [(intern_of_none roots hn).2, ha]
        intro s x
        have hi : ∀ t, (h.allocate roots (.string text)).heap.interned[t]? = c.interned? t := by
          intro t; rw [hs.interned]; rfl
        show ((h.allocate roots (.string text)).heap.interned.insert text n)[s]? = some x ↔
          (h.allocate roots (.string text)).heap.get? x = some (.string s)
        rw [Std.HashMap.getElem?_insert, hs.get, hi]
        by_cases hts : text = s
        · subst hts
          rw [if_pos (by simp)]
          by_cases hx : x = n
          · subst hx; simp
          · -- no other object has this content, or the table would know it
            rw [if_neg hx, ← hc hf, hnone _ hn]
            simp [Ne.symm hx]
        · rw [if_neg (by simpa using hts), hc hf]
          by_cases hx : x = n
          · subst hx; rw [hs.fresh]; simp [hts]
          · rw [if_neg hx]
      · rw [(intern_of_none roots hn).2, ha]
        rw [he]
        exact hc hf

theorem intern_evolves {h : Heap} (hw : h.WellFormed) (roots : List Handle) (text : String) :
    Evolves h (roots ++ h.pinned.toList) (fun _ o => o = .string text)
      (h.intern roots text).heap := by
  cases hn : h.interned? text with
  | some x => rw [(intern_of_some roots hn).2]; exact evolves_refl h _ _
  | none =>
      have he := allocate_evolves hw roots (.string text)
      have hnil : (Object.string text).children = [] := rfl
      rw [hnil, List.append_nil] at he
      rw [(intern_of_none roots hn).2]
      split
      · -- entering the content in the table does not touch the objects
        exact ⟨he.kept, fun x o ho => (he.within x o ho).imp And.right id, he.pinned⟩
      · exact he.mono fun _ _ hx => hx.2

/-- Interning answers a live string of the content asked for. -/
theorem intern_get? {h : Heap} (hw : h.WellFormed) (hf : h.Faithful) {roots : List Handle}
    {text : String} {x : Handle} (ha : (h.intern roots text).answer = .ok x) :
    (h.intern roots text).heap.get? x = some (.string text) := by
  cases hn : h.interned? text with
  | some y =>
      obtain ⟨h1, h2⟩ := intern_of_some roots hn
      rw [h1] at ha
      injection ha with ha
      rw [h2, ← ha]
      exact (hf text y).mp hn
  | none =>
      obtain ⟨h1, h2⟩ := intern_of_none roots hn
      rw [h1] at ha
      rw [h2, ha]
      exact allocate_get? hw ha

/-! ## Pins -/

section

variable {h : Heap} {x : Handle}

/-- Taking a pin back changes nothing but the pins. -/
theorem unpin_eq (h : Heap) (x : Handle) : h.unpin x = { h with pinned := (h.unpin x).pinned } := by
  unfold unpin
  split <;> rfl

@[simp] theorem get?_unpin (h : Heap) (x y : Handle) : (h.unpin x).get? y = h.get? y := by
  rw [unpin_eq]
  rfl

@[simp] theorem string?_unpin (h : Heap) (x y : Handle) :
    (h.unpin x).string? y = h.string? y := by
  unfold string?
  rw [get?_unpin]

@[simp] theorem interned?_unpin (h : Heap) (x : Handle) (s : String) :
    (h.unpin x).interned? s = h.interned? s := by
  rw [unpin_eq]
  rfl

theorem lastPin?_eq_some {i : Nat} (hi : h.lastPin? x = some i) : h.pinned[i]? = some x := by
  have hfound := List.find?_some hi
  exact beq_iff_eq.mp hfound

theorem lastPin?_eq_none (hn : h.lastPin? x = none) : x ∉ h.pinned := by
  intro hx
  obtain ⟨i, hi, hget⟩ := Array.mem_iff_getElem.mp hx
  have hnone := List.find?_eq_none.mp hn i (by simpa using hi)
  rw [Array.getElem?_eq_getElem hi, hget] at hnone
  exact absurd hnone (by simp)

/-- **Taking a pin back takes one pin of the object away**, if there is one, and leaves all
others. They need not stay in order: the last of them moves to the place of the one
taken back. -/
theorem unpin_perm (h : Heap) (x : Handle) :
    (h.unpin x).pinned.toList.Perm (h.pinned.toList.erase x) := by
  unfold unpin
  cases hl : h.lastPin? x with
  | none =>
      have hx : x ∉ h.pinned.toList := fun hx => lastPin?_eq_none hl (Array.mem_toList_iff.mp hx)
      rw [List.erase_of_not_mem hx]
  | some i =>
      obtain ⟨hi, hget⟩ := Array.getElem?_eq_some_iff.mp (lastPin?_eq_some hl)
      have hlast : h.pinned.size - 1 < h.pinned.size := by omega
      have hswap : h.pinned.swapIfInBounds i (h.pinned.size - 1) =
          h.pinned.swap i (h.pinned.size - 1) := by
        rw [Array.swapIfInBounds, dif_pos hi, dif_pos hlast]
      -- after the exchange the pin stands at the end, where it is cut off
      have hback : (h.pinned.swap i (h.pinned.size - 1)).back? = some x := by
        rw [Array.back?_eq_getElem?, Array.size_swap, Array.getElem?_eq_getElem (by simpa using hlast),
          Array.getElem_swap_right, hget]
      obtain ⟨rest, hrest⟩ := Array.back?_eq_some_iff.mp hback
      have hperm := (Array.swap_perm hi hlast).toList
      rw [hrest, Array.toList_push] at hperm
      have hx : x ∈ h.pinned.toList := by
        rw [Array.mem_toList_iff, ← hget]
        exact Array.getElem_mem hi
      simp only [hswap, hrest, Array.pop_push]
      exact ((List.perm_append_singleton x _).symm.trans
        (hperm.trans (List.perm_cons_erase hx))).cons_inv

end

/-! ## Changing a function -/

/-- Changing a function writes to its slot alone, and keeps the generation. -/
theorem editFunction_slots {h : Heap} {x : Handle} {edit : BytecodeFunction → BytecodeFunction}
    {effect : HeapEffect Unit} (he : h.editFunction x edit = some effect) :
    ∃ f size marked, entryAt? h.slots x = some ⟨.function f, size, marked⟩ ∧
      effect.heap.slots = h.slots.setEntry x.index
        (some ⟨.function (edit f), (Object.function (edit f)).cost, marked⟩) := by
  unfold editFunction at he
  split at he
  · rename_i f size marked hx
    refine ⟨f, size, marked, hx, ?_⟩
    simp only at he
    split at he
    · rw [← Option.some.inj he]
    · rw [← Option.some.inj he]
  · exact absurd he (by simp)

/-- What changing a function does: it replaces the function and nothing else. -/
theorem editFunction_spec {h : Heap} {x : Handle} {edit : BytecodeFunction → BytecodeFunction}
    {effect : HeapEffect Unit} (he : h.editFunction x edit = some effect) :
    ∃ f, h.get? x = some (.function f) ∧
      (∀ y, effect.heap.get? y = if y = x then some (.function (edit f)) else h.get? y) ∧
      effect.heap.interned = h.interned ∧ effect.heap.pinned = h.pinned ∧
      (h.WellFormed → effect.heap.WellFormed) := by
  obtain ⟨f, size, marked, hx, hslots⟩ := editFunction_slots he
  have hs := (entryAt?_eq_some.mp hx).2
  have hi := (Array.getElem?_eq_some_iff.mp hs).1
  have hrest : effect.heap.interned = h.interned ∧ effect.heap.pinned = h.pinned ∧
      effect.heap.free = h.free := by
    unfold editFunction at he
    split at he
    · simp only at he
      split at he
      · rw [← Option.some.inj he]; exact ⟨rfl, rfl, rfl⟩
      · rw [← Option.some.inj he]; exact ⟨rfl, rfl, rfl⟩
    · exact absurd he (by simp)
  refine ⟨f, get?_eq_some.mpr ⟨_, hx, rfl⟩, fun y => ?_, hrest.1, hrest.2.1, fun hw => ?_⟩
  · unfold get?
    rw [hslots, entryAt?_setEntry hx]
    by_cases hyx : y = x
    · rw [if_pos hyx, if_pos hyx]; rfl
    · rw [if_neg hyx, if_neg hyx]
  · refine ⟨by rw [hslots]; exact hw.aligned.setEntry _ _, ?_,
      by rw [hrest.2.2]; exact hw.nodup, fun i => ?_⟩
    · intro d hd
      rw [hslots] at hd
      rcases Array.mem_or_eq_of_mem_setIfInBounds hd with hd | hd
      · exact hw.unmarked d hd
      · rw [Option.some.inj hd]
        exact hw.unmarked ⟨.function f, size, marked⟩ (Array.mem_of_getElem? hs)
    · rw [hrest.2.2, hw.mem_free, hslots, SlotTable.setEntry, Array.getElem?_setIfInBounds]
      by_cases hxi : x.index = i
      · subst hxi
        rw [if_pos rfl, if_pos hi, hs]
        simp
      · rw [if_neg hxi]

theorem editFunction_faithful {h : Heap} {x : Handle} {edit : BytecodeFunction → BytecodeFunction}
    {effect : HeapEffect Unit} (he : h.editFunction x edit = some effect) (hf : h.Faithful) :
    effect.heap.Faithful := by
  obtain ⟨f, hx, hget, hi, _⟩ := editFunction_spec he
  intro s y
  have : effect.heap.interned? s = h.interned? s := by unfold interned?; rw [hi]
  rw [this, hf, hget]
  by_cases hxy : y = x
  · subst hxy; simp [hx]
  · rw [if_neg hxy]

end Heap

end StackMachine
