import StackMachine.Proofs.Heap.Generations
import StackMachine.Proofs.Heap.Interning

/-!
# How long an interned string is found

Interning answers a handle, and the table leads from the content back to it. One would
want that as long as the handle is live. It is so for heaps that make strings by interning
alone. But a host may also store a string as an object like any other, and this string
may have the content of an interned one. When a collection frees it, the sweep takes the
content out of the table, whichever of the two the entry belongs to. The interned string
is still live then, and is not found any more.

So the entry of a live string lasts until a namesake is freed. No call brings it back, for
a new entry is always for a new handle.
-/

namespace StackMachine

/-- Whether a call frees a string of a given content that is not the one under `x`. -/
def HeapCall.FreesNamesake (h : Heap) (x : Handle) (s : String) (c : HeapCall) : Prop :=
  ∃ y, y ≠ x ∧ h.string? y = some s ∧ (c.collected h).get? y = none

namespace Heap

/-- Whether one of a sequence of calls frees a namesake. -/
def FreesNamesake (x : Handle) (s : String) : Heap → List HeapCall → Prop
  | _, [] => False
  | h, c :: calls => c.FreesNamesake h x s ∨ FreesNamesake x s (c.apply h) calls

/-- Whether a handle is live before and after each of a sequence of calls. -/
def LiveThrough (x : Handle) : Heap → List HeapCall → Prop
  | h, [] => h.contains x
  | h, c :: calls => h.contains x ∧ LiveThrough x (c.apply h) calls

variable {h : Heap} {x : Handle} {s : String}

/-! ## Objects that stay live -/

/-- What is live before and after a call has not been freed in between, because the free
would have moved the generation on. -/
theorem collected_of_live (hw : h.WellFormed) {o : Object} (hx : h.get? x = some o)
    (c : HeapCall) (hlive : (c.apply h).contains x) : (c.collected h).get? x = some o := by
  cases hfrees : c.frees h x.index with
  | false =>
      have htracks := (tracks_of_get? hx).collected hw c
      rw [hfrees] at htracks
      exact htracks.live rfl
  | true =>
      have htracks := (tracks_of_get? hx).call hw c
      rw [hfrees] at htracks
      obtain ⟨d, hd⟩ := contains_iff.mp hlive
      rw [htracks.get?_eq_none (by decide) (by decide)] at hd
      exact absurd hd (by simp)

/-- A live handle is not issued again. -/
theorem not_issued_of_live (hw : h.WellFormed) (hx : h.contains x) (c : HeapCall) (o : Object) :
    c.issued? h ≠ some (x, o) := by
  intro hissued
  obtain ⟨hfresh, hnew⟩ := issued?_spec hw hissued
  obtain ⟨d, hd⟩ := contains_iff.mp hx
  rw [collected_of_live hw hd c (contains_iff.mpr ⟨o, hnew⟩)] at hfresh
  exact absurd hfresh (by simp)

/-- No call changes a string that it does not free. -/
theorem apply_string (hw : h.WellFormed) (c : HeapCall)
    (hx : (c.collected h).get? x = some (.string s)) :
    (c.apply h).get? x = some (.string s) := by
  have hedited : c.edited x (.string s) = .string s := by
    cases c with
    | _ => rfl
  rw [apply_get? hw c hx, hedited]

/-! ## Entries -/

/-- A collection changes nothing that it leaves. -/
theorem collected_get? (hw : h.WellFormed) (c : HeapCall) {o : Object}
    (hx : h.get? x = some o) :
    (c.collected h).get? x = some o ∨ (c.collected h).get? x = none := by
  rcases collected_cases hw c with hsame | ⟨start, count, hc⟩
  · rw [hsame]
    exact .inl hx
  · by_cases hr : Reach h.get? start x
    · rw [hc.get?_kept hr]
      exact .inl hx
    · exact .inr (hc.get?_gone hr)

/-- A collection keeps an entry just if it keeps every string of the content. -/
theorem collected_interned (hw : h.WellFormed) (c : HeapCall) :
    (c.collected h).interned? s = some x ↔ h.interned? s = some x ∧
      ∀ y, h.get? y = some (.string s) → (c.collected h).get? y = some (.string s) := by
  rcases collected_cases hw c with hsame | ⟨start, count, hc⟩
  · rw [hsame]
    exact ⟨fun hx => ⟨hx, fun _ hy => hy⟩, fun hx => hx.1⟩
  · rw [hc.interned, not_exists]
    refine and_congr_right fun _ => forall_congr' fun y => ?_
    rw [not_and, not_not]
    refine forall_congr' fun hy => ?_
    constructor
    · intro hr
      rw [hc.get?_kept hr]
      exact hy
    · intro hlive
      exact (hc.reach_of_live hlive).1

/-- Storing an object enters nothing. -/
theorem allocate_interned (hw : h.WellFormed) (roots : List Handle) (o : Object) :
    (h.allocate roots o).heap.interned = (h.prepared roots o).interned := by
  rw [(h.allocate_prepared roots o).2]
  rcases placeWithin_spec (prepared_wellFormed hw roots o) o with ⟨n, _, hs⟩ | ⟨_, hsame⟩
  · exact hs.interned
  · rw [hsame]

/-- Interning enters the handle that it issues. -/
theorem intern_interned (hw : h.WellFormed) (roots : List Handle) (text : String) :
    (h.intern roots text).heap.interned? s = some x ↔
      text = s ∧ (HeapCall.intern roots text).issued? h = some (x, .string s) ∨
      ((HeapCall.intern roots text).collected h).interned? s = some x := by
  cases hn : h.interned? text with
  | some y =>
      rw [(intern_of_some roots hn).2]
      simp [HeapCall.collected, HeapCall.issued?, HeapCall.request?, hn]
  | none =>
      have hcollected : (HeapCall.intern roots text).collected h =
          h.prepared roots (.string text) := by
        simp [HeapCall.collected, HeapCall.request?, hn]
      have hstored := allocate_interned hw roots (.string text)
      obtain ⟨hanswer, hheap⟩ := intern_of_none roots hn
      rw [hcollected, hheap]
      cases ha : (h.allocate roots (.string text)).answer with
      | error e =>
          have hissued : (HeapCall.intern roots text).issued? h = none := by
            simp [HeapCall.issued?, HeapCall.answer?, hanswer, ha, Except.toOption]
          show (h.allocate roots (.string text)).heap.interned[s]? = some x ↔ _
          rw [hstored, hissued]
          simp [interned?]
      | ok n =>
          have hissued : (HeapCall.intern roots text).issued? h = some (n, .string text) := by
            simp [HeapCall.issued?, HeapCall.answer?, HeapCall.request?, hn, hanswer, ha,
              Except.toOption]
          show ((h.allocate roots (.string text)).heap.interned.insert text n)[s]? = some x ↔ _
          rw [hstored, hissued, Std.HashMap.getElem?_insert]
          by_cases hs : text = s
          · subst hs
            -- the collection before the string was stored has entered nothing
            have hnone : (h.prepared roots (.string text)).interned? text ≠ some x := by
              intro hold
              rw [prepared_interned hw hold] at hn
              exact absurd hn (by simp)
            simp [hnone]
          · simp [hs, interned?]

/-- **An entry is made by interning alone**, for the handle issued. All the other
entries are those that the collection of the call has left. -/
theorem apply_interned (hw : h.WellFormed) (c : HeapCall) :
    (c.apply h).interned? s = some x ↔
      (∃ roots, c = .intern roots s) ∧ c.issued? h = some (x, .string s) ∨
      (c.collected h).interned? s = some x := by
  cases c with
  | allocate roots object =>
      show (h.allocate roots object).heap.interned[s]? = some x ↔ _
      rw [allocate_interned hw]
      simp [HeapCall.collected, HeapCall.request?, interned?]
  | allocateFunction roots name arity =>
      show (h.allocate roots _).heap.interned[s]? = some x ↔ _
      rw [allocate_interned hw]
      simp [HeapCall.collected, HeapCall.request?, interned?]
  | allocateNative roots native =>
      show (h.allocate roots _).heap.interned[s]? = some x ↔ _
      rw [allocate_interned hw]
      simp [HeapCall.collected, HeapCall.request?, interned?]
  | intern roots text =>
      show (h.intern roots text).heap.interned? s = some x ↔ _
      rw [intern_interned hw]
      simp
  | editFunction y edit =>
      show (((h.editFunction y edit).map HeapEffect.heap).getD h).interned? s = some x ↔ _
      cases he : h.editFunction y edit with
      | none => simp [HeapCall.collected, HeapCall.request?]
      | some effect =>
          obtain ⟨_, _, _, hinterned, _⟩ := editFunction_spec he
          show effect.heap.interned[s]? = some x ↔ _
          rw [hinterned]
          simp [HeapCall.collected, HeapCall.request?, interned?]
  | pin y => simp [HeapCall.apply, HeapCall.collected, HeapCall.request?, pin, interned?]
  | unpin y =>
      show (h.unpin y).interned? s = some x ↔ _
      rw [unpin_eq]
      simp [HeapCall.collected, HeapCall.request?, interned?]
  | collect roots => simp [HeapCall.apply, HeapCall.collected]

/-- No entry is left behind: each leads to a live string of its content. -/
theorem entry_live (config : HeapConfig) (calls : List HeapCall)
    (hx : (after config calls).interned? s = some x) :
    (after config calls).get? x = some (.string s) := by
  induction calls using List.reverseRecOn generalizing x with
  | nil => exact absurd hx (by simp [after, Heap.empty, interned?])
  | append_singleton calls c ih =>
      have hw := (after_reachable config calls).wellFormed
      rw [after_concat] at hx ⊢
      rcases (apply_interned hw c).mp hx with ⟨_, hissued⟩ | hold
      · exact (issued?_spec hw hissued).2
      · obtain ⟨hentry, hkept⟩ := (collected_interned hw c).mp hold
        exact apply_string hw c (hkept x (ih hentry))

/-- The handle that interning answers is the one entered. -/
theorem intern_entry {roots : List Handle} (ha : (h.intern roots s).answer = .ok x) :
    (h.intern roots s).heap.interned? s = some x := by
  cases hn : h.interned? s with
  | some y =>
      obtain ⟨hanswer, hheap⟩ := intern_of_some roots hn
      rw [hanswer] at ha
      rw [hheap, hn, Except.ok.inj ha]
  | none =>
      obtain ⟨hanswer, hheap⟩ := intern_of_none roots hn
      rw [hanswer] at ha
      rw [hheap, ha]
      exact Std.HashMap.getElem?_insert_self

/-- Interning answers a live handle just if there is an entry for it. -/
theorem intern_answer_iff (hw : h.WellFormed) (hx : h.contains x) (roots : List Handle) :
    (h.intern roots s).answer = .ok x ↔ h.interned? s = some x := by
  cases hn : h.interned? s with
  | some y =>
      rw [(intern_of_some roots hn).1]
      simp
  | none =>
      refine iff_of_false (fun ha => ?_) (by simp)
      refine not_issued_of_live hw hx (.intern roots s) (.string s) ?_
      simp [HeapCall.issued?, HeapCall.answer?, HeapCall.request?, hn, ha, Except.toOption]

/-! ## Histories -/

/-- **One call takes the entry of a live string out** just if it frees a namesake. -/
theorem entry_call (hw : h.WellFormed) (hx : h.get? x = some (.string s)) (c : HeapCall)
    (hlive : (c.apply h).contains x) :
    (c.apply h).interned? s = some x ↔ h.interned? s = some x ∧ ¬ c.FreesNamesake h x s := by
  have hself := collected_of_live hw hx c hlive
  have hissued := not_issued_of_live hw (contains_iff.mpr ⟨_, hx⟩) c (.string s)
  -- the handle is not issued again, so its entry can only be an old one
  rw [apply_interned hw, or_iff_right fun hnew => hissued hnew.2, collected_interned hw]
  refine and_congr_right fun _ => ?_
  constructor
  · intro hkept hfrees
    obtain ⟨y, _, hy, hgone⟩ := hfrees
    rw [hkept y (string?_eq_some.mp hy)] at hgone
    exact absurd hgone (by simp)
  · intro hfrees y hy
    by_cases hxy : y = x
    · rw [hxy]
      exact hself
    · rcases collected_get? hw c hy with hkept | hgone
      · exact hkept
      · exact absurd ⟨y, hxy, string?_eq_some.mpr hy, hgone⟩ hfrees

theorem LiveThrough.head {calls : List HeapCall} (hlive : LiveThrough x h calls) :
    h.contains x := by
  cases calls with
  | nil => exact hlive
  | cons c calls => exact hlive.1

/-- A string that is live throughout is the same string at the end. Its entry is there
just if it was there at the start and no namesake has been freed. -/
theorem LiveThrough.calls (hw : h.WellFormed) {calls : List HeapCall}
    (hlive : LiveThrough x h calls) (hx : h.get? x = some (.string s)) :
    (calls.foldl HeapCall.apply h).get? x = some (.string s) ∧
    ((calls.foldl HeapCall.apply h).interned? s = some x ↔
      h.interned? s = some x ∧ ¬ FreesNamesake x s h calls) := by
  induction calls generalizing h with
  | nil => exact ⟨hx, by simp [FreesNamesake]⟩
  | cons c calls ih =>
      have hnext := hlive.2.head
      have hstring := apply_string hw c (collected_of_live hw hx c hnext)
      obtain ⟨hget, hentry⟩ := ih (wellFormed_apply hw c) hlive.2 hstring
      refine ⟨hget, ?_⟩
      rw [List.foldl_cons, hentry, entry_call hw hx c hnext, FreesNamesake, not_or, and_assoc]

/-- **An interned string is found until a namesake is freed.** As long as the handle is
live it stands for the string, and the content leads to it, and interning answers it,
just if no other string of the content has been freed since. Where strings are made by
interning alone there is no such string. -/
theorem interned_until_namesake_freed (config : HeapConfig) (before later calls : List HeapCall)
    (roots : List Handle) (s : String) (x : Handle)
    (hcalls : calls = before ++ .intern roots s :: later)
    (hx : ((after config before).intern roots s).answer = .ok x)
    (hlive : LiveThrough x (after config (before ++ [.intern roots s])) later) :
    (after config calls).string? x = some s ∧
    ((after config calls).interned? s = some x ↔
      ¬ FreesNamesake x s (after config (before ++ [.intern roots s])) later) ∧
    (∀ roots', ((after config calls).intern roots' s).answer = .ok x ↔
      (after config calls).interned? s = some x) ∧
    ((∀ c ∈ calls, HeapCall.Interns c) → (after config calls).interned? s = some x) := by
  have hstart := after_concat config before (.intern roots s)
  have hentry : (after config (before ++ [.intern roots s])).interned? s = some x := by
    rw [hstart]
    exact intern_entry hx
  have hw := (after_reachable config (before ++ [.intern roots s])).wellFormed
  have hrun := hlive.calls hw (entry_live config _ hentry)
  have hafter : later.foldl HeapCall.apply (after config (before ++ [.intern roots s])) =
      after config calls := by
    rw [hstart, hcalls]
    simp [after]
  rw [hafter] at hrun
  obtain ⟨hget, hfound⟩ := hrun
  refine ⟨string?_eq_some.mpr hget, ?_, fun roots' => ?_, fun hinterns => ?_⟩
  · rw [hfound]
    exact and_iff_right hentry
  · exact intern_answer_iff (after_reachable config calls).wellFormed
      (contains_iff.mpr ⟨_, hget⟩) roots'
  · exact (after_faithful config calls hinterns s x).mpr hget

/-! ## A string and its namesake -/

/-- The heap with one interned string. -/
def twinHeap₁ : Heap where
  config := {}
  slots := ⟨#[some { object := .string "dup", size := 107 }], #[0]⟩
  interned := (∅ : Std.HashMap String Handle).insert "dup" ⟨0, 0⟩
  bytes := 107
  stats := { allocated := 1, peakBytes := 107 }

/-- The heap with the interned string and one of the same content that is not. -/
def twinHeap₂ : Heap where
  config := {}
  slots := twinHeap₁.slots.push { object := .string "dup", size := 107 }
  interned := twinHeap₁.interned
  bytes := 214
  stats := { allocated := 2, peakBytes := 214 }

theorem intern_twin : (Heap.empty {}).intern [] "dup" = ⟨.ok ⟨0, 0⟩, twinHeap₁, #[]⟩ := by
  have h : (Heap.empty {}).interned? "dup" = none := by simp [Heap.empty, interned?]
  rw [intern, h]
  rfl

theorem twinHeap₁_eq : after {} [.intern [] "dup"] = twinHeap₁ :=
  congrArg HeapEffect.heap intern_twin

theorem twinHeap₂_eq : (HeapCall.allocate [] (.string "dup")).apply twinHeap₁ = twinHeap₂ := rfl

theorem twinHeap₂_get? {y : Handle} {o : Object} (hy : twinHeap₂.get? y = some o) :
    (y = ⟨0, 0⟩ ∨ y = ⟨1, 0⟩) ∧ o = .string "dup" := by
  obtain ⟨i, generation⟩ := y
  obtain ⟨e, he, rfl⟩ := get?_eq_some.mp hy
  have hslot := entryAt?_eq_some.mp he
  match i with
  | 0 | 1 =>
      simp only [twinHeap₂, twinHeap₁, SlotTable.push, List.push_toArray, List.cons_append,
        List.nil_append, List.getElem?_toArray, List.getElem?_cons_zero,
        List.getElem?_cons_succ, Option.some.injEq] at hslot
      obtain ⟨rfl, rfl⟩ := hslot
      simp
  | i + 2 => simp [twinHeap₂, twinHeap₁, SlotTable.push] at hslot

/-- Strings lead to nothing else. -/
theorem twinHeap₂_reach_iff {roots : List Handle} {y : Handle} :
    Reach twinHeap₂.get? roots y ↔ y ∈ roots ∧ (y = ⟨0, 0⟩ ∨ y = ⟨1, 0⟩) := by
  constructor
  · intro hr
    cases hr with
    | root hy hlive => exact ⟨hy, (twinHeap₂_get? hlive).1⟩
    | child _ hx _ _ => exact absurd (twinHeap₂_get? hx).2 (by simp)
  · intro hy
    obtain ⟨hmem, rfl | rfl⟩ := hy
    · exact .root hmem rfl
    · exact .root hmem rfl

theorem twinHeap₂_collect (roots : List Handle) :
    Collection twinHeap₂ roots (twinHeap₂.collect roots).answer
      ((HeapCall.collect roots).apply twinHeap₂) := by
  have hw := wellFormed_apply (after_reachable {} [.intern [] "dup"]).wellFormed
    (.allocate [] (.string "dup"))
  rw [twinHeap₁_eq, twinHeap₂_eq] at hw
  have hc := hw.collection roots []
  have hstart : roots ++ twinHeap₂.pinned.toList ++ [] = roots := by simp [twinHeap₂]
  rw [hstart] at hc
  exact hc

/-- The interned one is live as long as it is a root. -/
theorem twins_live {roots : List Handle} (hroots : ⟨0, 0⟩ ∈ roots) :
    LiveThrough ⟨0, 0⟩ (after {} [.intern [] "dup"])
      [.allocate [] (.string "dup"), .collect roots] := by
  rw [twinHeap₁_eq]
  refine ⟨rfl, rfl, ?_⟩
  rw [twinHeap₂_eq]
  refine contains_iff.mpr ⟨.string "dup", ?_⟩
  rw [(twinHeap₂_collect roots).get?_kept (twinHeap₂_reach_iff.mpr ⟨hroots, .inl rfl⟩)]
  rfl

/-- With both strings among the roots, the content still leads to the interned one. -/
theorem interned_until_namesake_freed_rooted :
    LiveThrough ⟨0, 0⟩ (after {} [.intern [] "dup"])
      [.allocate [] (.string "dup"), .collect [⟨0, 0⟩, ⟨1, 0⟩]] ∧
    (after {} [.intern [] "dup", .allocate [] (.string "dup"),
      .collect [⟨0, 0⟩, ⟨1, 0⟩]]).interned? "dup" = some ⟨0, 0⟩ := by
  have hlive : LiveThrough ⟨0, 0⟩ (after {} [.intern [] "dup"])
      [.allocate [] (.string "dup"), .collect [⟨0, 0⟩, ⟨1, 0⟩]] := twins_live (by simp)
  have hfound := (interned_until_namesake_freed {} [] _ _ [] "dup" ⟨0, 0⟩ rfl
    (congrArg HeapEffect.answer intern_twin) hlive).2.1
  refine ⟨hlive, hfound.mpr ?_⟩
  rw [List.nil_append, twinHeap₁_eq, FreesNamesake, FreesNamesake, twinHeap₂_eq]
  intro hfrees
  rcases hfrees with ⟨y, _, hy, hgone⟩ | ⟨y, _, hy, hgone⟩ | hnone
  · rw [string?_eq_some] at hy
    exact absurd (hy.symm.trans hgone) (by simp)
  · rw [string?_eq_some] at hy
    have hr : Reach twinHeap₂.get? [⟨0, 0⟩, ⟨1, 0⟩] y :=
      twinHeap₂_reach_iff.mpr ⟨by simpa using (twinHeap₂_get? hy).1, (twinHeap₂_get? hy).1⟩
    have hkept := (twinHeap₂_collect [⟨0, 0⟩, ⟨1, 0⟩]).get?_kept hr
    exact absurd ((hkept.trans hy).symm.trans hgone) (by simp)
  · exact hnone

/-- **Liveness alone does not keep an entry.** The string under `⟨0, 0⟩` is interned and
stays live. A namesake that is not interned is freed, and the content is not found any
more, and gets another handle when it is interned again. -/
theorem entry_lost_with_namesake :
    ((Heap.empty {}).intern [] "dup").answer = .ok ⟨0, 0⟩ ∧
    LiveThrough ⟨0, 0⟩ (after {} [.intern [] "dup"])
      [.allocate [] (.string "dup"), .collect [⟨0, 0⟩]] ∧
    (after {} [.intern [] "dup", .allocate [] (.string "dup"),
      .collect [⟨0, 0⟩]]).interned? "dup" = none ∧
    ∀ roots, ((after {} [.intern [] "dup", .allocate [] (.string "dup"),
      .collect [⟨0, 0⟩]]).intern roots "dup").answer ≠ .ok ⟨0, 0⟩ := by
  have hlive : LiveThrough ⟨0, 0⟩ (after {} [.intern [] "dup"])
      [.allocate [] (.string "dup"), .collect [⟨0, 0⟩]] := twins_live (by simp)
  have hafter : after {} [.intern [] "dup", .allocate [] (.string "dup"), .collect [⟨0, 0⟩]] =
      (HeapCall.collect [⟨0, 0⟩]).apply twinHeap₂ := by
    show (HeapCall.collect [⟨0, 0⟩]).apply ((HeapCall.allocate [] (.string "dup")).apply
      (after {} [.intern [] "dup"])) = _
    rw [twinHeap₁_eq, twinHeap₂_eq]
  have hlost : (after {} [.intern [] "dup", .allocate [] (.string "dup"),
      .collect [⟨0, 0⟩]]).interned? "dup" = none := by
    rw [hafter]
    refine Option.eq_none_iff_forall_ne_some.mpr fun z hz => ?_
    refine (((twinHeap₂_collect [⟨0, 0⟩]).interned "dup" z).mp hz).2 ⟨⟨1, 0⟩, rfl, fun hr => ?_⟩
    exact absurd (twinHeap₂_reach_iff.mp hr).1 (by simp)
  refine ⟨congrArg HeapEffect.answer intern_twin, hlive, hlost, fun roots ha => ?_⟩
  have hcontains : (after {} [.intern [] "dup", .allocate [] (.string "dup"),
      .collect [⟨0, 0⟩]]).contains ⟨0, 0⟩ := hlive.2.2
  rw [intern_answer_iff (after_reachable {} _).wellFormed hcontains, hlost] at ha
  exact absurd ha (by simp)

end Heap

end StackMachine
