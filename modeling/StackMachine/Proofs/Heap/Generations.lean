import StackMachine.Proofs.Heap.History

/-!
# Stale handles

A slot that has been freed is filled again, so its index comes back. What tells the
old handles of a slot from the new ones is the generation, which counts in 32 bits
how often the slot has been freed.

Everything follows from one invariant of a handle that has been issued: its slot has
the generation of the handle, moved on by as many frees as there have been since,
and without a free the object is still there. A collection moves a generation on
just if it frees the slot, and nothing else touches a generation. So a handle whose
slot has been freed differs from every current one, until the count has come round.
-/

namespace StackMachine

namespace Heap

/-- The generation of a slot, if there is such a slot. -/
def generation? (h : Heap) (i : Nat) : Option UInt32 :=
  h.slots.generations[i]?

/-- Whether there is an object in a slot. -/
def holds (h : Heap) (i : Nat) : Bool :=
  h.slots.entries[i]?.join.isSome

end Heap

namespace HeapCall

/-- The handle that a call answers. -/
def answer? (h : Heap) : HeapCall → Option Handle
  | allocate roots object => (h.allocate roots object).answer.toOption
  | intern roots text => (h.intern roots text).answer.toOption
  | allocateFunction roots name arity => (h.allocateFunction roots name arity).answer.toOption
  | allocateNative roots native => (h.allocate roots (.native native)).answer.toOption
  | _ => none

/-- What a call is to store, with the roots of the collection that it may make
first. A content that has its string already is not stored again. -/
def request? (h : Heap) : HeapCall → Option (List Handle × Object)
  | allocate roots object => some (roots, object)
  | intern roots text => if (h.interned? text).isSome then none else some (roots, .string text)
  | allocateFunction roots name arity => some (roots, .function { name, arity })
  | allocateNative roots native => some (roots, .native native)
  | _ => none

/-- The handle that a call has issued, and the object it has stored under it. -/
def issued? (h : Heap) (c : HeapCall) : Option (Handle × Object) :=
  match c.answer? h, c.request? h with
  | some x, some (_, o) => some (x, o)
  | _, _ => none

/-- The heap when the collection of a call is over, if it makes one, and nothing has
been stored yet. -/
def collected (h : Heap) (c : HeapCall) : Heap :=
  match c, c.request? h with
  | collect roots, _ => (h.collect roots).heap
  | _, some (roots, o) => h.prepared roots o
  | _, none => h

/-- Whether a call frees the object in a slot. -/
def frees (h : Heap) (i : Nat) (c : HeapCall) : Bool :=
  h.holds i && !(c.collected h).holds i

/-- The object under a handle after a call, if it was `o` before. -/
def edited (x : Handle) (o : Object) (c : HeapCall) : Object :=
  match c, o with
  | editFunction y edit, .function f => if y = x then .function (edit f) else o
  | _, _ => o

end HeapCall

namespace Heap

/-- How often a sequence of calls frees the object in a slot. -/
def freedTimes (i : Nat) : Heap → List HeapCall → Nat
  | _, [] => 0
  | h, c :: calls => (c.frees h i).toNat + freedTimes i (c.apply h) calls

/-- The handles that a sequence of calls issues, in order. -/
def issued : Heap → List HeapCall → List Handle
  | _, [] => []
  | h, c :: calls => (c.issued? h).toList.map Prod.fst ++ issued (c.apply h) calls

/-- What is left of a handle that stands for nothing. -/
structure Stale (h : Heap) (x : Handle) : Prop where
  get : h.get? x = none
  contains : h.contains x = false
  string : h.string? x = none
  function : h.function? x = none
  native : h.native? x = none
  edit : ∀ edit, h.editFunction x edit = none
  /-- A collection leaves what the other roots, the other pins and the other
  references of the object about to be stored lead to. -/
  keeps : ∀ roots pending y, (h.collectFor roots pending).heap.contains y ↔
    Reach h.get? ((roots ++ h.pinned.toList ++ pending).filter (· ≠ x)) y

variable {h h' : Heap} {x : Handle} {o : Object}

/-! ## Slots and what they hold -/

theorem holds_iff {i : Nat} : h.holds i = true ↔ ∃ e, h.slots.entries[i]? = some (some e) := by
  simp [holds, Option.isSome_iff_exists, Option.join_eq_some_iff]

theorem holds_of_get? (hx : h.get? x = some o) : h.holds x.index = true := by
  obtain ⟨e, he, _⟩ := get?_eq_some.mp hx
  exact holds_iff.mpr ⟨e, (entryAt?_eq_some.mp he).2⟩

/-- A handle that stands for something has the generation of its slot. -/
theorem generation?_of_get? (hx : h.get? x = some o) :
    h.generation? x.index = some x.generation := by
  obtain ⟨e, he, _⟩ := get?_eq_some.mp hx
  exact (entryAt?_eq_some.mp he).1

theorem get?_none_of_generation? {g : UInt32} (hg : h.generation? x.index = some g)
    (hne : g ≠ x.generation) : h.get? x = none := by
  cases hx : h.get? x with
  | none => rfl
  | some o =>
      rw [generation?_of_get? hx] at hg
      exact absurd (Option.some.inj hg).symm hne

/-! ## Collections -/

section

variable {start : List Handle} {count : Nat} (hc : Collection h start count h')
  (ha : h.slots.Aligned)

include hc ha

/-- A collection empties the slots of the live objects that it does not reach. -/
theorem Collection.emptied_iff (i : Nat) : (h.holds i = true ∧ h'.holds i = false) ↔
    ∃ x : Handle, x.index = i ∧ h.contains x ∧ ¬ Reach h.get? start x := by
  constructor
  · intro hi
    obtain ⟨hold, hnew⟩ := hi
    obtain ⟨e, hs⟩ := holds_iff.mp hold
    obtain ⟨x, rfl, he⟩ := ha.exists_handle hs
    refine ⟨x, rfl, contains_iff.mpr ⟨_, get?_eq_some.mpr ⟨e, he, rfl⟩⟩, fun hr => ?_⟩
    have hkept := hc.kept _ hr
    rw [he, entryAt?_eq_some] at hkept
    rw [holds_iff.mpr ⟨e, hkept.2⟩] at hnew
    exact absurd hnew (by simp)
  · intro hx
    obtain ⟨x, rfl, hlive, hr⟩ := hx
    obtain ⟨o, ho⟩ := contains_iff.mp hlive
    refine ⟨holds_of_get? ho, ?_⟩
    cases hnew : h'.holds x.index with
    | false => rfl
    | true =>
        -- what survives in the slot was there before, and a slot holds one object
        obtain ⟨e, hs⟩ := holds_iff.mp hnew
        obtain ⟨y, hyx, he⟩ := hc.aligned.exists_handle hs
        obtain ⟨hr', ho'⟩ := hc.reach_of_live (get?_eq_some.mpr ⟨e, he, rfl⟩)
        obtain ⟨d, hd, _⟩ := get?_eq_some.mp ho
        obtain ⟨d', hd', _⟩ := get?_eq_some.mp ho'
        rw [eq_of_entryAt? hyx hd' hd] at hr'
        exact absurd hr' hr

/-- **A collection moves on the generations of the slots it frees**, and no others. -/
theorem Collection.generation? (i : Nat) : h'.generation? i =
    (h.generation? i).map (· + UInt32.ofNat (h.holds i && !h'.holds i).toNat) := by
  have hemptied := hc.emptied_iff ha i
  obtain ⟨freed, _, hmem, _, _, hgen⟩ := hc.freed
  unfold Heap.generation?
  rw [hgen i]
  cases hi : (h.holds i && !h'.holds i) with
  | true =>
      have hfreed : i ∈ freed := (hmem i).mpr (hemptied.mp (by simpa using hi))
      simp only [hfreed, if_true]
      rfl
  | false =>
      have hkept : i ∉ freed := fun hfreed => by
        have hboth := hemptied.mpr ((hmem i).mp hfreed)
        rw [hboth.1, hboth.2] at hi
        exact absurd hi (by simp)
      simp only [hkept, if_false]
      congr 1
      funext g
      exact (UInt32.add_zero _).symm

/-- An object stays as long as its slot is not emptied. -/
theorem Collection.get?_of_not_emptied (hx : h.get? x = some o)
    (hi : (h.holds x.index && !h'.holds x.index) = false) : h'.get? x = some o := by
  by_cases hr : Reach h.get? start x
  · rw [hc.get?_kept hr]
    exact hx
  · have hboth := (hc.emptied_iff ha x.index).mpr ⟨x, rfl, contains_iff.mpr ⟨o, hx⟩, hr⟩
    rw [hboth.1, hboth.2] at hi
    exact absurd hi (by simp)

end

/-! ## Storing -/

theorem place_generation? (o : Object) {i : Nat} {g : UInt32} (hg : h.generation? i = some g) :
    (h.place o).2.generation? i = some g := by
  have hi := (Array.getElem?_eq_some_iff.mp hg).1
  unfold place
  split
  · exact hg
  · split
    · simp only [generation?, charge, SlotTable.push, Array.getElem?_push]
      rw [if_neg (by omega)]
      exact hg
    · exact hg

theorem placeWithin_generation? (o : Object) {i : Nat} {g : UInt32}
    (hg : h.generation? i = some g) : (h.placeWithin o).2.generation? i = some g := by
  unfold placeWithin
  split
  · split
    · exact hg
    · exact place_generation? o hg
  · exact place_generation? o hg

theorem allocate_generation? (roots : List Handle) (o : Object) {i : Nat} {g : UInt32}
    (hg : (h.prepared roots o).generation? i = some g) :
    (h.allocate roots o).heap.generation? i = some g := by
  rw [(h.allocate_prepared roots o).2]
  exact placeWithin_generation? o hg

/-- What is there when the collection is over stays when the object is stored. -/
theorem allocate_keeps (hw : h.WellFormed) (roots : List Handle) (o : Object) {d : Object}
    (hx : (h.prepared roots o).get? x = some d) : (h.allocate roots o).heap.get? x = some d := by
  rw [(h.allocate_prepared roots o).2]
  rcases placeWithin_spec (prepared_wellFormed hw roots o) o with ⟨n, _, hs⟩ | ⟨_, hsame⟩
  · rw [hs.get, if_neg]
    · exact hx
    · intro hxn
      rw [hxn, hs.fresh] at hx
      exact absurd hx (by simp)
  · rw [hsame]
    exact hx

/-- The handle of an object that has been stored stood for nothing before. -/
theorem allocate_fresh (hw : h.WellFormed) {roots : List Handle}
    (ha : (h.allocate roots o).answer = .ok x) : (h.prepared roots o).get? x = none := by
  rw [(h.allocate_prepared roots o).1] at ha
  rcases placeWithin_spec (prepared_wellFormed hw roots o) o with ⟨n, hn, hs⟩ | ⟨⟨e, he⟩, _⟩
  · rw [hn] at ha
    rw [← Except.ok.inj ha]
    exact hs.fresh
  · rw [he] at ha
    exact absurd ha (by simp)

theorem editFunction_generation? {edit : BytecodeFunction → BytecodeFunction}
    {effect : HeapEffect Unit} (he : h.editFunction x edit = some effect) (i : Nat) :
    effect.heap.generation? i = h.generation? i := by
  obtain ⟨f, size, marked, _, hslots⟩ := editFunction_slots he
  unfold generation?
  rw [hslots]
  rfl

/-- Only what is no live function cannot be changed. -/
theorem editFunction_eq_none_iff {edit : BytecodeFunction → BytecodeFunction} :
    h.editFunction x edit = none ↔ h.function? x = none := by
  unfold editFunction function? get?
  cases entryAt? h.slots x with
  | none => simp
  | some e =>
      obtain ⟨o, size, marked⟩ := e
      cases o with
      | function f =>
          simp only [Option.map_some]
          split <;> simp
      | string s => simp
      | native n => simp

theorem editFunction_get? (y : Handle) (edit : BytecodeFunction → BytecodeFunction)
    (hx : h.get? x = some o) : ((HeapCall.editFunction y edit).apply h).get? x =
      some ((HeapCall.editFunction y edit).edited x o) := by
  show (((h.editFunction y edit).map HeapEffect.heap).getD h).get? x = _
  cases he : h.editFunction y edit with
  | none =>
      rw [Option.map_none, Option.getD_none, hx]
      cases o with
      | function f =>
          have hxy : y ≠ x := by
            intro hxy
            subst hxy
            rw [editFunction_eq_none_iff, function?_eq_some.mpr hx] at he
            exact absurd he (by simp)
          simp [HeapCall.edited, hxy]
      | string s => rfl
      | native n => rfl
  | some effect =>
      obtain ⟨f, hy, hget, _⟩ := editFunction_spec he
      rw [Option.map_some, Option.getD_some, hget]
      by_cases hxy : x = y
      · subst hxy
        rw [hx] at hy
        rw [Option.some.inj hy]
        simp [HeapCall.edited]
      · rw [if_neg hxy, hx]
        cases o with
        | function f => simp [HeapCall.edited, Ne.symm hxy]
        | string s => rfl
        | native n => rfl

/-! ## One call -/

/-- What a call does to the slots: it stores an object, after a collection if one is
called for, or it changes a function, or it does no more than to collect. -/
theorem apply_cases (h : Heap) (c : HeapCall) :
    (∃ roots o, c.request? h = some (roots, o) ∧ c.collected h = h.prepared roots o ∧
      c.answer? h = (h.allocate roots o).answer.toOption ∧
      (c.apply h).slots = (h.allocate roots o).heap.slots ∧ ∀ x d, c.edited x d = d) ∨
    (c.request? h = none ∧ (c.apply h).slots = (c.collected h).slots ∧ ∀ x d, c.edited x d = d) ∨
    ∃ y edit, c = .editFunction y edit := by
  cases c with
  | allocate roots object => exact .inl ⟨roots, object, rfl, rfl, rfl, rfl, fun _ _ => rfl⟩
  | intern roots text =>
      cases hn : h.interned? text with
      | none =>
          obtain ⟨hanswer, hheap⟩ := intern_of_none roots hn
          have hslots : (h.intern roots text).heap.slots =
              (h.allocate roots (.string text)).heap.slots := by
            rw [hheap]
            split
            · rfl
            · rfl
          exact .inl ⟨roots, .string text, by simp [HeapCall.request?, hn],
            by simp [HeapCall.collected, HeapCall.request?, hn],
            congrArg Except.toOption hanswer, hslots, fun _ _ => rfl⟩
      | some y =>
          have hslots : (h.intern roots text).heap.slots = h.slots := by
            rw [(intern_of_some roots hn).2]
          have hcollected : (HeapCall.intern roots text).collected h = h := by
            simp [HeapCall.collected, HeapCall.request?, hn]
          refine .inr (.inl ⟨by simp [HeapCall.request?, hn], ?_, fun _ _ => rfl⟩)
          rw [hcollected]
          exact hslots
  | allocateFunction roots name arity => exact .inl ⟨roots, _, rfl, rfl, rfl, rfl, fun _ _ => rfl⟩
  | allocateNative roots native => exact .inl ⟨roots, _, rfl, rfl, rfl, rfl, fun _ _ => rfl⟩
  | editFunction y edit => exact .inr (.inr ⟨y, edit, rfl⟩)
  | pin handle => exact .inr (.inl ⟨rfl, rfl, fun _ _ => rfl⟩)
  | unpin handle =>
      refine .inr (.inl ⟨rfl, ?_, fun _ _ => rfl⟩)
      simp only [HeapCall.apply]
      rw [unpin_eq]
      rfl
  | collect roots => exact .inr (.inl ⟨rfl, rfl, fun _ _ => rfl⟩)

/-- Until it stores something, a call changes the heap by a collection at most. -/
theorem collected_cases (hw : h.WellFormed) (c : HeapCall) :
    c.collected h = h ∨ ∃ start count, Collection h start count (c.collected h) := by
  cases hr : c.request? h with
  | some request =>
      have hcollected : c.collected h = h.prepared request.1 request.2 := by
        rcases apply_cases h c with ⟨roots, o, hr', hc, _⟩ | ⟨hr', _⟩ | ⟨y, edit, rfl⟩
        · rw [hr] at hr'
          rw [hc, Option.some.inj hr']
        · rw [hr] at hr'
          exact absurd hr' (by simp)
        · exact absurd hr (by simp [HeapCall.request?])
      rw [hcollected]
      unfold prepared
      split
      · exact .inr ⟨_, _, hw.collection request.1 request.2.children⟩
      · exact .inl rfl
  | none =>
      cases c with
      | collect roots => exact .inr ⟨_, _, hw.collection roots []⟩
      | intern roots text => exact .inl (by simp [HeapCall.collected, hr])
      | editFunction y edit => exact .inl rfl
      | pin handle => exact .inl rfl
      | unpin handle => exact .inl rfl
      | _ => exact absurd hr (by simp [HeapCall.request?])

/-- A call changes no generation after its collection. -/
theorem apply_generation? (c : HeapCall) {i : Nat} {g : UInt32}
    (hg : (c.collected h).generation? i = some g) : (c.apply h).generation? i = some g := by
  rcases apply_cases h c with ⟨roots, o, _, hc, _, hslots, _⟩ | ⟨_, hslots, _⟩ | ⟨y, edit, rfl⟩
  · rw [hc] at hg
    unfold generation?
    rw [hslots]
    exact allocate_generation? roots o hg
  · unfold generation?
    rw [hslots]
    exact hg
  · show (((h.editFunction y edit).map HeapEffect.heap).getD h).generation? i = some g
    cases he : h.editFunction y edit with
    | none => exact hg
    | some effect => exact (editFunction_generation? he i).trans hg

/-- A call changes no object after its collection, unless it is to change that one. -/
theorem apply_get? (hw : h.WellFormed) (c : HeapCall) (hx : (c.collected h).get? x = some o) :
    (c.apply h).get? x = some (c.edited x o) := by
  rcases apply_cases h c with ⟨roots, d, _, hc, _, hslots, hedit⟩ | ⟨_, hslots, hedit⟩ |
    ⟨y, edit, rfl⟩
  · rw [hc] at hx
    rw [hedit]
    unfold get?
    rw [hslots]
    exact allocate_keeps hw roots d hx
  · rw [hedit]
    unfold get?
    rw [hslots]
    exact hx
  · exact editFunction_get? y edit hx

/-- A handle that a call issues stood for nothing when the collection was over, and
stands for the object that the call stores. -/
theorem issued?_spec (hw : h.WellFormed) {c : HeapCall} (hc : c.issued? h = some (x, o)) :
    (c.collected h).get? x = none ∧ (c.apply h).get? x = some o := by
  rcases apply_cases h c with ⟨roots, d, hr, hcollected, ha, hslots, _⟩ | ⟨hr, _⟩ | ⟨y, edit, rfl⟩
  · have hissued : (h.allocate roots d).answer = .ok x ∧ d = o := by
      unfold HeapCall.issued? at hc
      rw [hr, ha] at hc
      cases hanswer : (h.allocate roots d).answer with
      | ok y => simpa [hanswer, Except.toOption] using hc
      | error e => simp [hanswer, Except.toOption] at hc
    obtain ⟨hanswer, rfl⟩ := hissued
    constructor
    · rw [hcollected]
      exact allocate_fresh hw hanswer
    · unfold get?
      rw [hslots]
      exact allocate_get? hw hanswer
  · unfold HeapCall.issued? at hc
    rw [hr] at hc
    split at hc
    · rename_i hsome
      exact absurd hsome (by simp)
    · exact absurd hc (by simp)
  · exact absurd hc (by simp [HeapCall.issued?, HeapCall.answer?])

/-! ## What has been issued -/

/-- What is known of a handle that was issued for `o` when its slot has been freed
`n` times since. -/
structure Tracks (h : Heap) (x : Handle) (o : Object) (n : Nat) : Prop where
  generation : h.generation? x.index = some (x.generation + UInt32.ofNat n)
  live : n = 0 → h.get? x = some o

theorem tracks_of_get? (hx : h.get? x = some o) : Tracks h x o 0 where
  generation := by
    rw [generation?_of_get? hx]
    exact congrArg some (UInt32.add_zero _).symm
  live _ := hx

theorem tracks_issued (hw : h.WellFormed) {c : HeapCall} (hc : c.issued? h = some (x, o)) :
    Tracks (c.apply h) x o 0 :=
  tracks_of_get? (issued?_spec hw hc).2

section

variable {n : Nat} (hw : h.WellFormed) (ht : Tracks h x o n) (c : HeapCall)

include hw ht

theorem Tracks.collected : Tracks (c.collected h) x o (n + (c.frees h x.index).toNat) := by
  rcases collected_cases hw c with hsame | ⟨start, count, hc⟩
  · have hfrees : c.frees h x.index = false := by simp [HeapCall.frees, hsame]
    rw [hsame, hfrees]
    exact ht
  · constructor
    · rw [hc.generation? hw.aligned, ht.generation, Option.map_some, UInt32.add_assoc, ← UInt32.ofNat_add]
      rfl
    · intro hn
      have hfrees : c.frees h x.index = false := by
        cases hb : c.frees h x.index with
        | false => rfl
        | true => simp [hb] at hn
      exact hc.get?_of_not_emptied hw.aligned (ht.live (by omega)) hfrees

/-- One call: the count of frees goes up by what the call frees. -/
theorem Tracks.call : Tracks (c.apply h) x (c.edited x o) (n + (c.frees h x.index).toNat) where
  generation := apply_generation? c (ht.collected hw c).generation
  live hn := apply_get? hw c ((ht.collected hw c).live hn)

end

/-- A whole run of calls. -/
theorem Tracks.calls {n : Nat} (hw : h.WellFormed) (ht : Tracks h x o n) (calls : List HeapCall) :
    Tracks (calls.foldl HeapCall.apply h) x (calls.foldl (HeapCall.edited x) o)
      (n + freedTimes x.index h calls) := by
  induction calls generalizing h o n with
  | nil => exact ht
  | cons c calls ih =>
      rw [freedTimes, ← Nat.add_assoc]
      exact ih (wellFormed_apply hw c) (ht.call hw c)

/-- Short of a full turn, the count tells the generations apart. -/
theorem generation_add_ne {g : UInt32} {n : Nat} (hpos : 0 < n) (hn : n < UInt32.size) :
    g + UInt32.ofNat n ≠ g := by
  intro heq
  have hnat := congrArg UInt32.toNat heq
  have hg := g.toNat_lt_size
  simp only [UInt32.toNat_add, UInt32.toNat_ofNat'] at hnat
  simp only [UInt32.size] at hn hg
  omega

theorem Tracks.get?_eq_none {n : Nat} (ht : Tracks h x o n) (hpos : 0 < n)
    (hn : n < UInt32.size) : h.get? x = none :=
  get?_none_of_generation? ht.generation (generation_add_ne hpos hn)

/-- A handle whose slot has not come full turn is not issued again. -/
theorem Tracks.not_mem_issued {n : Nat} (hw : h.WellFormed) (ht : Tracks h x o n)
    (calls : List HeapCall) (hn : n + freedTimes x.index h calls < UInt32.size) :
    x ∉ issued h calls := by
  induction calls generalizing h o n with
  | nil => simp [issued]
  | cons c calls ih =>
      rw [freedTimes, ← Nat.add_assoc] at hn
      have hcalls := ih (wellFormed_apply hw c) (ht.call hw c) hn
      intro hmem
      simp only [issued, List.mem_append, List.mem_map, Option.mem_toList] at hmem
      rcases hmem with ⟨issue, hissued, rfl⟩ | hmem
      · obtain ⟨hfresh, hlive⟩ := issued?_spec hw hissued
        -- a slot freed since has another generation, and one not freed is in use
        by_cases hfreed : n + (c.frees h issue.1.index).toNat = 0
        · rw [(ht.collected hw c).live hfreed] at hfresh
          exact absurd hfresh (by simp)
        · have hgone := (ht.call hw c).get?_eq_none (by omega) (by omega)
          rw [hgone] at hlive
          exact absurd hlive (by simp)
      · exact hcalls hmem

theorem issued_nodup (hw : h.WellFormed) (calls : List HeapCall)
    (hturn : ∀ i, freedTimes i h calls < UInt32.size) : (issued h calls).Nodup := by
  induction calls generalizing h with
  | nil => exact List.nodup_nil
  | cons c calls ih =>
      have hrest : ∀ i, freedTimes i (c.apply h) calls < UInt32.size := by
        intro i
        have hi := hturn i
        rw [freedTimes] at hi
        omega
      have hcalls := ih (wellFormed_apply hw c) hrest
      rw [issued]
      cases hc : c.issued? h with
      | none => exact hcalls
      | some request =>
          have hx := (tracks_issued hw hc).not_mem_issued (wellFormed_apply hw c) calls
            (by rw [Nat.zero_add]; exact hrest _)
          exact List.nodup_cons.mpr ⟨hx, hcalls⟩

/-! ## Stale handles -/

/-- A start with a handle that stands for nothing leads no further than without. -/
theorem reach_filter_iff (hx : h.get? x = none) {start : List Handle} {y : Handle} :
    Reach h.get? (start.filter (· ≠ x)) y ↔ Reach h.get? start y := by
  constructor
  · intro hy
    exact hy.mono fun z hz => (List.mem_filter.mp hz).1
  · intro hy
    refine hy.trans fun z d hz hd => .root (List.mem_filter.mpr ⟨hz, ?_⟩) hd
    have hne : z ≠ x := by
      intro hzx
      rw [hzx, hx] at hd
      exact absurd hd (by simp)
    simpa using hne

theorem stale_of_get? (hw : h.WellFormed) (hx : h.get? x = none) : h.Stale x := by
  have hfunction : h.function? x = none := by simp [function?, hx]
  exact {
    get := hx
    contains := by simp [contains, hx]
    string := by simp [string?, hx]
    function := hfunction
    native := by simp [native?, hx]
    edit := fun edit => editFunction_eq_none_iff.mpr hfunction
    keeps := by
      intro roots pending y
      have hc := hw.collection roots pending
      rw [reach_filter_iff hx, contains_iff]
      constructor
      · intro hlive
        obtain ⟨o, ho⟩ := hlive
        exact (hc.reach_of_live ho).1
      · intro hr
        rw [hc.get?_kept hr]
        exact hr.live }

/-- **Stale handles never resolve.** A handle that a call has issued stands for the
object stored then, with the changes made to it since, until its slot is freed. From
then on it stands for nothing, whatever is in the slot, up to the free that brings
the generation back. So no handle is issued twice as long as no slot is freed that
often. -/
theorem stale_handles_never_resolve (config : HeapConfig) (calls : List HeapCall) :
    (∀ before c later x o, calls = before ++ c :: later →
      c.issued? (after config before) = some (x, o) →
      (freedTimes x.index (after config (before ++ [c])) later = 0 →
        (after config calls).get? x = some (later.foldl (HeapCall.edited x) o)) ∧
      (0 < freedTimes x.index (after config (before ++ [c])) later →
        freedTimes x.index (after config (before ++ [c])) later < UInt32.size →
        (after config calls).Stale x)) ∧
    ((∀ i, freedTimes i (Heap.empty config) calls < UInt32.size) →
      (issued (Heap.empty config) calls).Nodup) := by
  refine ⟨?_, issued_nodup (wellFormed_empty config) calls⟩
  intro before c later x o hcalls hissued
  have hw := (after_reachable config before).wellFormed
  have ht := (tracks_issued hw hissued).calls (wellFormed_apply hw c) later
  have hafter : later.foldl HeapCall.apply (c.apply (after config before)) = after config calls := by
    rw [hcalls]
    simp [after]
  rw [hafter, Nat.zero_add] at ht
  rw [after_concat]
  exact ⟨ht.live, fun hpos hn =>
    stale_of_get? (after_reachable config calls).wellFormed (ht.get?_eq_none hpos hn)⟩

/-- A call frees a slot once at most. -/
theorem freedTimes_le_length (i : Nat) (h : Heap) (calls : List HeapCall) :
    freedTimes i h calls ≤ calls.length := by
  induction calls generalizing h with
  | nil => exact Nat.le_refl 0
  | cons c calls ih =>
      have hc := Bool.toNat_le (c.frees h i)
      have hcalls := ih (c.apply h)
      simp only [freedTimes, List.length_cons]
      omega

/-- A heap with room for one string before its first collection. -/
def narrow : HeapConfig where
  initialThreshold := 150

/-- The heap with that string. -/
def narrowHeap : Heap :=
  after narrow [.allocate [] (.string "old")]

/-- Storing a second string collects first. Nothing refers to the first one, so its
slot is empty then, a generation on. -/
theorem narrowHeap_prepared : ∃ interned bytes threshold stats,
    narrowHeap.prepared [] (.string "new") =
      { config := narrow, slots := ⟨#[none], #[1]⟩, free := #[0], interned, bytes, threshold, stats } := by
  have hmark : mark narrowHeap.slots [] = narrowHeap.slots := by rw [mark]
  have hprepared : ∃ threshold stats, narrowHeap.prepared [] (.string "new") =
      { (sweep { narrowHeap with slots := mark narrowHeap.slots [] }).1 with
        threshold, stats } := ⟨_, _, rfl⟩
  obtain ⟨threshold, stats, hprepared⟩ := hprepared
  rw [hprepared, hmark]
  exact ⟨_, _, threshold, stats, rfl⟩

/-- The second string frees the first and takes its slot. The handle of the first is
stale and the handle of the second is not. -/
theorem stale_handles_never_resolve_reused :
    (after narrow [.allocate [] (.string "old"), .allocate [] (.string "new")]).Stale ⟨0, 0⟩ ∧
    (after narrow [.allocate [] (.string "old"), .allocate [] (.string "new")]).get? ⟨0, 1⟩ =
      some (.string "new") ∧
    (issued (Heap.empty narrow)
      [.allocate [] (.string "old"), .allocate [] (.string "new")]).Nodup := by
  obtain ⟨interned, bytes, threshold, stats, hprepared⟩ := narrowHeap_prepared
  obtain ⟨hissue, hnodup⟩ := stale_handles_never_resolve narrow
    [.allocate [] (.string "old"), .allocate [] (.string "new")]
  have hfreed : freedTimes 0 narrowHeap [.allocate [] (.string "new")] = 1 := by
    show (narrowHeap.holds 0 && !(narrowHeap.prepared [] (.string "new")).holds 0).toNat = 1
    rw [hprepared]
    rfl
  have hissued : (HeapCall.allocate [] (.string "new")).issued? narrowHeap =
      some (⟨0, 1⟩, .string "new") := by
    have hanswer := (narrowHeap.allocate_prepared [] (.string "new")).1
    rw [hprepared] at hanswer
    simp only [HeapCall.issued?, HeapCall.answer?, hanswer]
    rfl
  refine ⟨?_, ?_, ?_⟩
  · refine (hissue [] _ [.allocate [] (.string "new")] ⟨0, 0⟩ (.string "old") rfl rfl).2 ?_ ?_
    · exact hfreed ▸ Nat.one_pos
    · exact hfreed ▸ (by decide : 1 < UInt32.size)
  · exact (hissue [.allocate [] (.string "old")] _ [] ⟨0, 1⟩ (.string "new") rfl hissued).1 rfl
  · exact hnodup fun i => Nat.lt_of_le_of_lt (freedTimes_le_length i _ _) (by decide)

end Heap

end StackMachine
