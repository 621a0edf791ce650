import StackMachine.Proofs.Heap.Accounting

/-!
# The limit of a heap

A heap with a limit may collect before it stores an object for three reasons: it is told
to collect always, the object would take it past its threshold, or the object would take
it past the limit. Only the last has to do with whether the object is stored. All the
same the answer does not depend on which of them applied, nor on how full the heap was:
an object is refused just if it does not fit beside what the roots, the pins and its own
references lead to.

After a collection the bytes charged are those of what is reached. Without one the object
fits beside everything, and so beside what is reached. A heap can also be past its limit
before the object comes, because functions grow without a look at the limit.
-/

namespace StackMachine

namespace Heap

/-- The bytes charged for the live objects that a list of handles leads to. -/
noncomputable def reachedBytes (h : Heap) (start : List Handle) : Nat :=
  open Classical in
  (h.slots.entries.toList.mapIdx fun i entry =>
    if Reach h.get? start ⟨i, h.generationAt i⟩ then chargeFor entry else 0).sum

/-- The heap `h'` has nothing that `h` does not have. -/
structure AddsNothing (h h' : Heap) : Prop where
  slots : h'.slots.size = h.slots.size
  objects : ∀ x o, h'.get? x = some o → h.get? x = some o
  interned : ∀ s x, h'.interned? s = some x → h.interned? s = some x
  bytes : h'.bytes ≤ h.bytes

/-- How a heap `h` with a limit answers a request to store an object, and the heap `h'`
that is left. -/
structure Capped (h : Heap) (limit : Nat) (roots : List Handle) (o : Object)
    (answer : Except OutOfMemory Handle) (h' : Heap) : Prop where
  /-- The object is refused just if it does not fit beside what is reached. -/
  refused_iff : answer = .error ⟨104 + o.describe.payload, limit⟩ ↔
    limit < h.reachedBytes (roots ++ h.pinned.toList ++ o.children) + (104 + o.describe.payload)
  /-- There is no other reason to refuse it. -/
  reason : ∀ e, answer = .error e → e = ⟨104 + o.describe.payload, limit⟩
  within : ∀ x, answer = .ok x → h'.bytes ≤ limit
  /-- A refusal leaves what one collection leaves. -/
  collected : ∀ e, answer = .error e → h' = (h.collectFor roots o.children).heap
  unchanged : ∀ e, answer = .error e → h.AddsNothing h'

variable {h : Heap} {roots : List Handle} {o : Object} {limit : Nat}

/-! ## What a collection leaves -/

theorem generationAt_of_get? {x : Handle} (hx : h.get? x = some o) :
    h.generationAt x.index = x.generation := by
  obtain ⟨e, he, _⟩ := get?_eq_some.mp hx
  simp [generationAt, (entryAt?_eq_some.mp he).1]

/-- A slot is charged after a collection for the object it holds, if this is reached. -/
theorem Collection.charge {h' : Heap} {start : List Handle} {count : Nat}
    (hc : Collection h start count h') {i : Nat} {s s' : Option Entry}
    (hs : h.slots.entries[i]? = some s) (hs' : h'.slots.entries[i]? = some s')
    [Decidable (Reach h.get? start ⟨i, h.generationAt i⟩)] :
    chargeFor s' = if Reach h.get? start ⟨i, h.generationAt i⟩ then chargeFor s else 0 := by
  split
  · rename_i hr
    obtain ⟨o, ho⟩ := hr.live
    obtain ⟨e, he, _⟩ := get?_eq_some.mp ho
    have hkept := (entryAt?_eq_some.mp ((hc.kept _ hr).trans he)).2
    have hheld := (entryAt?_eq_some.mp he).2
    rw [hs', Option.some.injEq] at hkept
    rw [hs, Option.some.injEq] at hheld
    rw [hkept, hheld]
  · rename_i hr
    cases s' with
    | none => rfl
    | some e' =>
        -- an object in the slot would have been there before, under the same generation
        obtain ⟨x, rfl, hx⟩ := hc.aligned.exists_handle hs'
        obtain ⟨hr', ho⟩ := hc.reach_of_live (get?_eq_some.mpr ⟨e', hx, rfl⟩)
        rw [generationAt_of_get? ho] at hr
        exact absurd hr' hr

/-- **A collection leaves the bytes of what is reached.** -/
theorem collectFor_bytes (hw : h.WellFormed) (hl : h.Ledger) (roots pending : List Handle) :
    (h.collectFor roots pending).heap.bytes =
      h.reachedBytes (roots ++ h.pinned.toList ++ pending) := by
  have hc := hw.collection roots pending
  rw [(hl.collectFor roots pending).ledger.bytes]
  unfold chargeOf reachedBytes
  congr 1
  refine List.ext_getElem? fun i => ?_
  rw [List.getElem?_map, List.getElem?_mapIdx, Array.getElem?_toList, Array.getElem?_toList]
  have hsize : (h.collectFor roots pending).heap.slots.entries.size = h.slots.entries.size :=
    hc.slots_size
  by_cases hi : i < h.slots.entries.size
  · have hi' : i < (h.collectFor roots pending).heap.slots.entries.size := by omega
    have hs := Array.getElem?_eq_getElem hi
    have hs' := Array.getElem?_eq_getElem hi'
    rw [hs, hs', Option.map_some, Option.map_some]
    congr 1
    classical
    exact hc.charge hs hs'
  · rw [Array.getElem?_eq_none (by omega), Array.getElem?_eq_none (by omega)]
    rfl

theorem collectFor_addsNothing (hw : h.WellFormed) (hl : h.Ledger)
    (roots pending : List Handle) : h.AddsNothing (h.collectFor roots pending).heap := by
  have hc := hw.collection roots pending
  have hf := hl.collectFor roots pending
  exact ⟨hf.size, fun x o ho => (hc.reach_of_live ho).2, fun s x hx => ((hc.interned s x).mp hx).1,
    hf.le⟩

/-! ## Storing under a limit -/

theorem place_bytes {x : Handle} (h : Heap) (o : Object) (hx : (h.place o).1 = .ok x) :
    (h.place o).2.bytes = h.bytes + o.cost := by
  unfold place at hx ⊢
  split
  · rfl
  · split
    · rfl
    · rename_i hnone hfull
      simp only [hnone, if_neg hfull] at hx
      exact absurd hx (by simp)

/-- With slots to spare, an object is refused just if it would take the heap past its
limit. -/
theorem placeWithin_cases (hlimit : h.config.maxBytes = some limit)
    (hroom : h.slots.size < maxSlots) (o : Object) :
    (limit < h.bytes + o.cost ∧ h.placeWithin o = (.error ⟨o.cost, limit⟩, h)) ∨
    (h.bytes + o.cost ≤ limit ∧ ∃ x, (h.placeWithin o).1 = .ok x ∧
      (h.placeWithin o).2.bytes = h.bytes + o.cost) := by
  unfold placeWithin
  rw [hlimit]
  dsimp only
  by_cases hover : limit < h.bytes + o.cost
  · rw [if_pos hover]
    exact Or.inl ⟨hover, rfl⟩
  · rw [if_neg hover]
    obtain ⟨x, hx⟩ := (place_ok_iff o).mpr (Or.inr hroom)
    exact Or.inr ⟨by omega, x, hx, place_bytes h o hx⟩

/-- Whether an object fits when the heap is prepared for it depends on what is reached and
on nothing else. -/
theorem prepared_over_iff (hw : h.WellFormed) (hl : h.Ledger)
    (hlimit : h.config.maxBytes = some limit) (roots : List Handle) (o : Object) :
    (limit < (h.prepared roots o).bytes + o.cost ↔
      limit < h.reachedBytes (roots ++ h.pinned.toList ++ o.children) + o.cost) ∧
    (limit < (h.prepared roots o).bytes + o.cost →
      h.prepared roots o = (h.collectFor roots o.children).heap) := by
  have hbytes := collectFor_bytes hw hl roots o.children
  have hle := (hl.collectFor roots o.children).le
  by_cases hneeds : h.needsCollection o.cost = true
  · rw [prepared, if_pos hneeds, hbytes]
    exact ⟨Iff.rfl, fun _ => rfl⟩
  · -- no collection, so the object fits beside everything
    have hfits : ¬ limit < h.bytes + o.cost := by
      intro hover
      exact hneeds (by simp [needsCollection, hlimit, hover])
    have hsame : h.prepared roots o = h := if_neg hneeds
    rw [hsame]
    exact ⟨⟨fun hover => absurd hover hfits, fun hover => by omega⟩,
      fun hover => absurd hover hfits⟩

theorem allocate_capped (hw : h.WellFormed) (hl : h.Ledger)
    (hlimit : h.config.maxBytes = some limit) (hroom : h.slots.size < maxSlots)
    (roots : List Handle) (o : Object) :
    h.Capped limit roots o (h.allocate roots o).answer (h.allocate roots o).heap := by
  obtain ⟨hanswer, hheap⟩ := h.allocate_prepared roots o
  obtain ⟨hover_iff, hcollected⟩ := prepared_over_iff hw hl hlimit roots o
  have hcost : o.cost = 104 + o.describe.payload := rfl
  have hsame : (h.prepared roots o).config.maxBytes = some limit ∧
      (h.prepared roots o).slots.size < maxSlots := by
    have hc := hw.collection roots o.children
    unfold prepared
    split
    · exact ⟨by rw [hc.config, hlimit], by rw [hc.slots_size]; exact hroom⟩
    · exact ⟨hlimit, hroom⟩
  rw [hanswer, hheap]
  rcases placeWithin_cases hsame.1 hsame.2 o with ⟨hover, hrefused⟩ | ⟨hfits, x, hx, hbytes⟩
  · rw [hrefused, hcollected hover]
    refine ⟨iff_of_true rfl (hcost ▸ hover_iff.mp hover), ?_, ?_, fun _ _ => rfl, fun _ _ => ?_⟩
    · intro e he
      exact (Except.error.inj he).symm
    · intro x hx
      exact absurd hx (by simp)
    · exact collectFor_addsNothing hw hl roots o.children
  · have hstored : ∀ e, ((h.prepared roots o).placeWithin o).1 ≠ .error e := by
      intro e he
      exact absurd (hx.symm.trans he) (by simp)
    refine ⟨iff_of_false (hstored _) ?_, fun e he => absurd he (hstored e), fun _ _ => ?_,
      fun e he => absurd he (hstored e), fun e he => absurd he (hstored e)⟩
    · intro hover
      have hover' := hover_iff.mpr (hcost ▸ hover)
      omega
    · rw [hbytes]
      exact hfits

/-- Interning a content that is not in the table stores a string, and the entry comes
after that. -/
theorem intern_capped (hw : h.WellFormed) (hl : h.Ledger)
    (hlimit : h.config.maxBytes = some limit) (hroom : h.slots.size < maxSlots)
    (roots : List Handle) {text : String} (hnone : h.interned? text = none) :
    h.Capped limit roots (.string text) (h.intern roots text).answer
      (h.intern roots text).heap := by
  have hcapped := allocate_capped hw hl hlimit hroom roots (.string text)
  obtain ⟨hanswer, hheap⟩ := intern_of_none roots hnone
  rw [hanswer, hheap]
  cases ha : (h.allocate roots (.string text)).answer with
  | error e =>
      rw [ha] at hcapped
      exact hcapped
  | ok x =>
      rw [ha] at hcapped
      exact ⟨hcapped.refused_iff, hcapped.reason, hcapped.within, nofun, nofun⟩

/-- **The limit of a heap is exact.** An object that is stored, or a string that is
interned for the first time, is refused just if it does not fit under the limit beside
what the roots, the pins and its own references lead to. A refusal leaves what one
collection leaves, and adds nothing. -/
theorem limit_exact (hr : h.Reachable) (hlimit : h.config.maxBytes = some limit)
    (hroom : h.slots.size < Nat.pow 2 32) (roots : List Handle) :
    (∀ o, h.Capped limit roots o (h.allocate roots o).answer (h.allocate roots o).heap) ∧
    ∀ text, h.interned? text = none →
      h.Capped limit roots (.string text) (h.intern roots text).answer
        (h.intern roots text).heap :=
  ⟨fun o => allocate_capped hr.wellFormed hr.ledger hlimit hroom roots o,
    fun _ hnone => intern_capped hr.wellFormed hr.ledger hlimit hroom roots hnone⟩

/-- A chunk that was written byte by byte. -/
def written (bytes : List UInt8) : Chunk :=
  bytes.foldl (fun c b => c.write b 1) {}

/-- A function with nine instructions. -/
def grownFunction : BytecodeFunction where
  chunk := written [1, 1, 1, 1, 1, 1, 1, 1, 27]

/-- A heap that has got past its limit, because the code of a function was written when
the function had been stored. -/
def grownHeap : Heap :=
  after { maxBytes := some 240 }
    [.allocateFunction [] none 0, .editFunction ⟨0, 0⟩ fun _ => grownFunction]

/-- Twenty-four instructions and three constants, with places to spare. -/
def spacious : Chunk :=
  (((written (List.replicate 24 1)).pushConstant .nil).pushConstant .nil).pushConstant .nil

theorem reachedBytes_empty (config : HeapConfig) (start : List Handle) :
    (Heap.empty config).reachedBytes start = 0 := by
  simp [reachedBytes, empty]

/-- Beside the function there is no room for a string. If nothing leads to the function
the string is stored in its place. A function with a chunk that was written byte by byte
is refused where a function with a copy of that chunk is stored. -/
theorem limit_exact_grown :
    grownHeap.Reachable ∧ grownHeap.bytes = 248 ∧ grownHeap.slots.size < Nat.pow 2 32 ∧
    (grownHeap.allocate [⟨0, 0⟩] (.string "next")).answer = .error ⟨108, 240⟩ ∧
    grownHeap.AddsNothing (grownHeap.allocate [⟨0, 0⟩] (.string "next")).heap ∧
    (∃ x, (grownHeap.allocate [] (.string "next")).answer = .ok x ∧
      (grownHeap.allocate [] (.string "next")).heap.bytes ≤ 240) ∧
    ((Heap.empty { maxBytes := some 400 }).allocate [] (.function { chunk := spacious })).answer =
      .error ⟨456, 400⟩ ∧
    ((Heap.empty { maxBytes := some 400 }).allocate []
      (.function { chunk := spacious.copy })).heap.bytes = 368 := by
  have hr : grownHeap.Reachable := after_reachable _ _
  have hslots : grownHeap.slots.entries.toList = [some ⟨.function grownFunction, 248, false⟩] := rfl
  have hlimit : grownHeap.config.maxBytes = some 240 := rfl
  have hrooted := (limit_exact hr hlimit (by decide) [⟨0, 0⟩]).1 (.string "next")
  have hloose := (limit_exact hr hlimit (by decide) []).1 (.string "next")
  have hkept : grownHeap.reachedBytes [⟨0, 0⟩] = 248 := by
    have hreach : Reach grownHeap.get? [⟨0, 0⟩] ⟨0, 0⟩ := .root (List.mem_singleton.mpr rfl) rfl
    have hgen : grownHeap.generationAt 0 = 0 := rfl
    simp [reachedBytes, hslots, hgen, hreach]
  have hgone : grownHeap.reachedBytes [] = 0 := by
    have hnone : ∀ x, ¬ Reach grownHeap.get? [] x := by
      intro x hx
      induction hx with
      | root hx _ => exact absurd hx (by simp)
      | child _ _ _ _ ih => exact ih
    simp [reachedBytes, hslots, hnone]
  have hrefused := hrooted.refused_iff.mpr (by
    show 240 < grownHeap.reachedBytes [⟨0, 0⟩] + 108
    rw [hkept]
    decide)
  have hwritten := (limit_exact (h := Heap.empty { maxBytes := some 400 }) (.empty _) rfl
    (by decide) []).1 (.function { chunk := spacious })
  refine ⟨hr, rfl, by decide, hrefused, hrooted.unchanged _ hrefused, ?_,
    hwritten.refused_iff.mpr ?_, rfl⟩
  case refine_2 =>
    rw [reachedBytes_empty]
    decide
  cases ha : (grownHeap.allocate [] (.string "next")).answer with
  | ok x => exact ⟨x, rfl, hloose.within x ha⟩
  | error e =>
      have hover := hloose.refused_iff.mp (hloose.reason e ha ▸ ha)
      have hfits : ¬ 240 < grownHeap.reachedBytes [] + 108 := by
        rw [hgone]
        decide
      exact absurd hover hfits

end Heap

end StackMachine
