import StackMachine.Heap.Mark

/-!
# What a list of handles leads to

`Reach` is the specification of marking, said without any worklist: the least
set of live handles that holds the live ones of a list and, with a function,
the live handles among its name and its constants.

Marking is then exact. It is sound, because a mark is only ever put on a handle
taken from the worklist, and the worklist holds nothing but the start and
children of what has been marked. It is complete, because an object's children
are on the worklist from the moment the object is marked: so at the end the
marked objects are closed under children, and a closed set that holds the start
holds everything the start leads to.
-/

namespace StackMachine

/-- Whether a function refers to an object, by its name or by a constant. -/
def BytecodeFunction.RefersTo (f : BytecodeFunction) (h : Handle) : Prop :=
  f.name = some h ∨ Value.object h ∈ f.chunk.constants

/-- The handles that `start` leads to, where `get` says what a handle stands for. -/
inductive Reach (get : Handle → Option Object) (start : List Handle) : Handle → Prop where
  | root {x : Handle} {o : Object} : x ∈ start → get x = some o → Reach get start x
  | child {x y : Handle} {f : BytecodeFunction} {o : Object} :
      Reach get start x → get x = some (.function f) → f.RefersTo y → get y = some o →
      Reach get start y

theorem Handle.eq_of {x y : Handle} (hi : x.index = y.index)
    (hg : x.generation = y.generation) : x = y := by
  cases x
  cases y
  simp only at hi hg
  rw [hi, hg]

theorem mem_handlesOf {h : Handle} {vs : List Value} :
    h ∈ handlesOf vs ↔ Value.object h ∈ vs := by
  unfold handlesOf
  rw [List.mem_filterMap]
  constructor
  · rintro ⟨v, hv, he⟩
    cases v with
    | object g => simp only [Value.handle?, Option.some.injEq] at he; subst he; exact hv
    | nil => simp [Value.handle?] at he
    | bool b => simp [Value.handle?] at he
    | number n => simp [Value.handle?] at he
  · intro hv; exact ⟨_, hv, rfl⟩

/-- What an object keeps alive is what a function refers to. -/
theorem mem_children {o : Object} {y : Handle} :
    y ∈ o.children ↔ ∃ f, o = .function f ∧ f.RefersTo y := by
  cases o with
  | string s => simp [Object.children, Object.describe, Description.children]
  | native n => simp [Object.children, Object.describe, Description.children]
  | function f =>
      simp only [Object.children, Object.describe, Description.children, List.mem_append,
        Option.mem_toList, mem_handlesOf, Array.mem_toList_iff, Object.function.injEq]
      constructor
      · intro h; exact ⟨f, rfl, h⟩
      · rintro ⟨g, rfl, h⟩; exact h

namespace Reach

variable {get : Handle → Option Object} {start : List Handle} {x : Handle}

/-- Whatever is reached is live. -/
theorem live (h : Reach get start x) : ∃ o, get x = some o := by
  cases h with
  | root _ ho => exact ⟨_, ho⟩
  | child _ _ _ ho => exact ⟨_, ho⟩

theorem of_children {y : Handle} {o o' : Object} (h : Reach get start x) (hx : get x = some o)
    (hy : y ∈ o.children) (ho : get y = some o') : Reach get start y := by
  obtain ⟨f, rfl, hf⟩ := mem_children.mp hy
  exact h.child hx hf ho

/-- A longer start leads to more. -/
theorem mono {start' : List Handle} (hs : ∀ y ∈ start, y ∈ start') (h : Reach get start x) :
    Reach get start' x := by
  induction h with
  | root hx ho => exact .root (hs _ hx) ho
  | child _ hx hf ho ih => exact ih.child hx hf ho

/-- What a list leads to that only holds reached handles is reached already. -/
theorem trans {start' : List Handle}
    (hs : ∀ y o, y ∈ start' → get y = some o → Reach get start y)
    (h : Reach get start' x) : Reach get start x := by
  induction h with
  | root hx ho => exact hs _ _ hx ho
  | child _ hx hf ho ih => exact ih.child hx hf ho

end Reach

/-! ## Slot tables up to marks -/

/-- What a handle stands for in a table of slots, without its charge and mark. -/
def objectAt? (slots : SlotTable) (h : Handle) : Option Object :=
  (entryAt? slots h).map Entry.object

def Entry.cleared (e : Entry) : Entry :=
  { e with marked := false }

/-- A table without the marks on its objects. -/
def SlotTable.cleared (slots : SlotTable) : SlotTable :=
  { slots with entries := slots.entries.map (Option.map Entry.cleared) }

/-- Whether a handle stands for a marked object. -/
def IsMarked (slots : SlotTable) (x : Handle) : Prop :=
  ∃ e, entryAt? slots x = some e ∧ e.marked = true

/-- Clearing the marks of a table clears the mark of what a handle stands for. -/
theorem entryAt?_cleared (slots : SlotTable) (x : Handle) :
    entryAt? slots.cleared x = (entryAt? slots x).map Entry.cleared := by
  unfold entryAt? SlotTable.cleared
  simp only [Array.getElem?_map]
  split
  · cases slots.entries[x.index]? <;> rfl
  · rfl

theorem objectAt?_cleared (slots : SlotTable) (x : Handle) :
    objectAt? slots.cleared x = objectAt? slots x := by
  unfold objectAt?
  rw [entryAt?_cleared, Option.map_map]
  rfl

/-- Two tables that differ in marks only hold the same objects. -/
theorem objectAt?_congr {slots slots' : SlotTable} (h : slots'.cleared = slots.cleared) :
    objectAt? slots' = objectAt? slots := by
  funext x
  rw [← objectAt?_cleared slots', h, objectAt?_cleared]

/-! ## One round of marking -/

/-- A handle with nothing to mark is dead or has its mark. -/
theorem isMarked_of_unmarkedAt?_eq_none {slots : SlotTable} {x : Handle} {e : Entry}
    (hu : unmarkedAt? slots x = none) (he : entryAt? slots x = some e) : IsMarked slots x := by
  refine ⟨e, he, ?_⟩
  cases hm : e.marked with
  | true => rfl
  | false =>
      rw [unmarkedAt?_eq_some_iff.mpr ⟨he, hm⟩] at hu
      exact absurd hu (by simp)

theorem setMark_cleared {slots : SlotTable} {x : Handle} {e : Entry}
    (hu : unmarkedAt? slots x = some e) : (setMark slots x e).cleared = slots.cleared := by
  obtain ⟨he, _⟩ := unmarkedAt?_eq_some_iff.mp hu
  obtain ⟨hi, hs⟩ := Array.getElem?_eq_some_iff.mp (entryAt?_eq_some.mp he).2
  unfold setMark SlotTable.setEntry SlotTable.cleared
  congr 1
  apply Array.ext_getElem?
  intro i
  rw [Array.getElem?_map, Array.getElem?_map, Array.getElem?_setIfInBounds]
  by_cases h : x.index = i
  · subst h
    rw [if_pos rfl, if_pos hi, Array.getElem?_eq_getElem hi, hs]
    rfl
  · rw [if_neg h]

/-- Filling the slot of a live handle changes what that handle stands for, and no other:
the slot keeps its generation, and a handle of another generation stands for nothing. -/
theorem entryAt?_setEntry {slots : SlotTable} {x : Handle} {e : Entry}
    (he : entryAt? slots x = some e) (d : Entry) (y : Handle) :
    entryAt? (slots.setEntry x.index (some d)) y = if y = x then some d else entryAt? slots y := by
  obtain ⟨hg, hs⟩ := entryAt?_eq_some.mp he
  obtain ⟨hi, _⟩ := Array.getElem?_eq_some_iff.mp hs
  unfold SlotTable.setEntry entryAt?
  simp only [Array.getElem?_setIfInBounds]
  by_cases hxy : y = x
  · subst hxy
    simp [hg, hi]
  · rw [if_neg hxy]
    by_cases h : x.index = y.index
    · have hne : x.generation ≠ y.generation := fun hgen => hxy (Handle.eq_of h.symm hgen.symm)
      rw [← h, hg]
      simp [hne]
    · rw [if_neg h]

theorem entryAt?_setMark {slots : SlotTable} {x : Handle} {e : Entry}
    (hu : unmarkedAt? slots x = some e) (y : Handle) :
    entryAt? (setMark slots x e) y =
      if y = x then some { e with marked := true } else entryAt? slots y :=
  entryAt?_setEntry (unmarkedAt?_eq_some_iff.mp hu).1 _ y

theorem isMarked_setMark {slots : SlotTable} {x : Handle} {e : Entry}
    (hu : unmarkedAt? slots x = some e) (y : Handle) :
    IsMarked (setMark slots x e) y ↔ y = x ∨ IsMarked slots y := by
  unfold IsMarked
  rw [entryAt?_setMark hu]
  by_cases hxy : y = x
  · simp [hxy]
  · simp [hxy]

/-! ## Whole runs of marking -/

/-- Marking changes nothing but marks. -/
theorem mark_cleared (slots : SlotTable) (work : List Handle) :
    (mark slots work).cleared = slots.cleared := by
  induction slots, work using mark.induct with
  | case1 slots => rw [mark]
  | case2 slots x rest hu ih => rw [mark, hu]; exact ih
  | case3 slots x rest e hu ih => rw [mark, hu]; exact ih.trans (setMark_cleared hu)

theorem objectAt?_mark (slots : SlotTable) (work : List Handle) :
    objectAt? (mark slots work) = objectAt? slots :=
  objectAt?_congr (mark_cleared slots work)

theorem objectAt?_setMark {slots : SlotTable} {x : Handle} {e : Entry}
    (hu : unmarkedAt? slots x = some e) : objectAt? (setMark slots x e) = objectAt? slots :=
  objectAt?_congr (setMark_cleared hu)

/-- Marks stay. -/
theorem isMarked_mark_of_isMarked {slots : SlotTable} {work : List Handle} {x : Handle}
    (h : IsMarked slots x) : IsMarked (mark slots work) x := by
  induction slots, work using mark.induct with
  | case1 slots => rw [mark]; exact h
  | case2 slots y rest hu ih => rw [mark, hu]; exact ih h
  | case3 slots y rest e hu ih =>
      rw [mark, hu]
      exact ih ((isMarked_setMark hu x).mpr (Or.inr h))

/-- **Soundness.** What has a mark at the end had one before, or the worklist leads to it. -/
theorem reach_of_isMarked_mark {slots : SlotTable} {work : List Handle} {x : Handle}
    (h : IsMarked (mark slots work) x) :
    IsMarked slots x ∨ Reach (objectAt? slots) work x := by
  induction slots, work using mark.induct with
  | case1 slots => rw [mark] at h; exact Or.inl h
  | case2 slots y rest hu ih =>
      rw [mark, hu] at h
      rcases ih h with hm | hr
      · exact Or.inl hm
      · exact Or.inr (hr.mono fun z hz => List.mem_cons_of_mem _ hz)
  | case3 slots y rest e hu ih =>
      rw [mark, hu] at h
      -- the worklist grows by the children of `y`, which is itself on it
      have he := (unmarkedAt?_eq_some_iff.mp hu).1
      have hy : Reach (objectAt? slots) (y :: rest) y :=
        .root (List.mem_cons_self ..) (by unfold objectAt?; rw [he]; rfl)
      rcases ih h with hm | hr
      · rcases (isMarked_setMark hu x).mp hm with rfl | hm
        · exact Or.inr hy
        · exact Or.inl hm
      · rw [objectAt?_setMark hu] at hr
        refine Or.inr (hr.trans ?_)
        intro z o hz ho
        rcases List.mem_append.mp hz with hz | hz
        · -- a child of the object that this round marked
          exact hy.of_children (o := e.object) (by unfold objectAt?; rw [he]; rfl) hz ho
        · exact .root (List.mem_cons_of_mem _ hz) ho

/-- The live handles of the worklist have marks at the end. -/
theorem isMarked_mark_of_mem {slots : SlotTable} {work : List Handle} {x : Handle} {e : Entry}
    (hx : x ∈ work) (he : entryAt? slots x = some e) : IsMarked (mark slots work) x := by
  induction slots, work using mark.induct generalizing e with
  | case1 slots => simp at hx
  | case2 slots y rest hu ih =>
      rw [mark, hu]
      rcases List.mem_cons.mp hx with rfl | hx
      · exact isMarked_mark_of_isMarked (isMarked_of_unmarkedAt?_eq_none hu he)
      · exact ih hx he
  | case3 slots y rest d hu ih =>
      rw [mark, hu]
      by_cases hxy : x = y
      · exact isMarked_mark_of_isMarked ((isMarked_setMark hu x).mpr (Or.inl hxy))
      · have hr : x ∈ d.object.children ++ rest :=
          List.mem_append_right _ ((List.mem_cons.mp hx).resolve_left hxy)
        exact ih hr (by rw [entryAt?_setMark hu, if_neg hxy]; exact he)

/-- What got its mark during the run has children with marks. -/
theorem isMarked_mark_child {slots : SlotTable} {work : List Handle} {x y : Handle} {o o' : Object}
    (hm : IsMarked (mark slots work) x) (hn : ¬ IsMarked slots x) (hx : objectAt? slots x = some o)
    (hy : y ∈ o.children) (ho : objectAt? slots y = some o') : IsMarked (mark slots work) y := by
  induction slots, work using mark.induct with
  | case1 slots => rw [mark] at hm; exact absurd hm hn
  | case2 slots z rest hu ih =>
      rw [mark, hu] at hm ⊢
      exact ih hm hn hx ho
  | case3 slots z rest e hu ih =>
      rw [mark, hu] at hm ⊢
      by_cases hxz : x = z
      · -- marked in this round: the children are on the worklist now
        subst hxz
        have he := (unmarkedAt?_eq_some_iff.mp hu).1
        have hoe : o = e.object := by
          unfold objectAt? at hx; rw [he] at hx; exact (Option.some.inj hx).symm
        rw [← objectAt?_setMark hu] at ho
        unfold objectAt? at ho
        obtain ⟨d, hd, _⟩ := Option.map_eq_some_iff.mp ho
        exact isMarked_mark_of_mem (List.mem_append_left _ (hoe ▸ hy)) hd
      · refine ih hm ?_ ?_ ?_
        · intro hm'
          rcases (isMarked_setMark hu x).mp hm' with h | h
          · exact hxz h
          · exact hn h
        · rw [objectAt?_setMark hu]; exact hx
        · rw [objectAt?_setMark hu]; exact ho

/-- **Marking is exact** on a table without marks. -/
theorem isMarked_mark_iff {slots : SlotTable} (hn : ∀ x, ¬ IsMarked slots x)
    (work : List Handle) (x : Handle) :
    IsMarked (mark slots work) x ↔ Reach (objectAt? slots) work x := by
  constructor
  · intro h
    rcases reach_of_isMarked_mark h with h | h
    · exact absurd h (hn x)
    · exact h
  · -- the marked handles hold the start and are closed under children
    intro h
    induction h with
    | root hx ho =>
        unfold objectAt? at ho
        obtain ⟨e, he, _⟩ := Option.map_eq_some_iff.mp ho
        exact isMarked_mark_of_mem hx he
    | child _ hx hf ho ih =>
        exact isMarked_mark_child ih (hn _) hx (mem_children.mpr ⟨_, rfl, hf⟩) ho

end StackMachine
