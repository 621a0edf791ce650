import Mathlib.Data.List.Induction
import StackMachine.Proofs.Heap.History

/-!
# Interning

As long as strings are stored by interning and in no other way, the table of a heap
and the live strings of its slots say the same: a content has an entry just if it
has a live string, and there is one such string for each. A handle then stands for
a content as well as the content itself, and comparing handles compares contents.

The table is weak. It loses an entry only when a collection frees the string, so a
handle that is still live is always found again. Interning a content that has a
string changes nothing at all. Otherwise it may collect, and it fails just if there
is no room after that.
-/

namespace StackMachine

/-- Whether a call makes strings by interning alone. -/
def HeapCall.Interns : HeapCall → Prop
  | allocate _ (.string _) => False
  | _ => True

/-- The content of the string that a slot holds. -/
def textOf? (entry : Option Entry) : Option String :=
  match entry.map Entry.object with
  | some (.string text) => some text
  | _ => none

theorem textOf?_eq_some {entry : Option Entry} {text : String} :
    textOf? entry = some text ↔ ∃ e, entry = some e ∧ e.object = .string text := by
  rw [← Option.map_eq_some_iff]
  unfold textOf?
  split
  · rename_i text' h; rw [h]; simp
  · rename_i h
    exact ⟨fun h' => absurd h' (by simp), fun h' => absurd h' (h text)⟩

namespace Heap

variable {h : Heap}

/-- The contents of the live strings, slot by slot. -/
def strings (h : Heap) : List String :=
  h.slots.entries.toList.filterMap textOf?

/-! ## The table and the live strings -/

theorem mem_strings (hw : h.WellFormed) {text : String} :
    text ∈ h.strings ↔ ∃ x, h.get? x = some (.string text) := by
  unfold strings
  rw [List.mem_filterMap]
  constructor
  · intro hmem
    obtain ⟨entry, hs, ht⟩ := hmem
    obtain ⟨e, rfl, ho⟩ := textOf?_eq_some.mp ht
    obtain ⟨i, hi⟩ := Array.mem_iff_getElem?.mp (Array.mem_toList_iff.mp hs)
    obtain ⟨x, _, he⟩ := hw.aligned.exists_handle hi
    exact ⟨x, get?_eq_some.mpr ⟨e, he, ho⟩⟩
  · intro hlive
    obtain ⟨x, hx⟩ := hlive
    obtain ⟨e, he, ho⟩ := get?_eq_some.mp hx
    have hs := Array.mem_of_getElem? (entryAt?_eq_some.mp he).2
    exact ⟨_, Array.mem_toList_iff.mpr hs, textOf?_eq_some.mpr ⟨e, rfl, ho⟩⟩

section

variable (hf : h.Faithful) (hw : h.WellFormed)

include hf hw

/-- No two slots hold strings of the same content. -/
theorem Faithful.nodup_strings : h.strings.Nodup := by
  unfold strings List.Nodup
  rw [List.pairwise_filterMap, List.pairwise_iff_getElem]
  intro i j hi hj hij s hs t ht hst
  subst hst
  -- the handles of the two slots would both be the entry of the content
  have hhandle : ∀ k (hk : k < h.slots.entries.toList.length),
      textOf? h.slots.entries.toList[k] = some s →
      ∃ x : Handle, x.index = k ∧ h.interned? s = some x := by
    intro k hk htext
    obtain ⟨e, he, ho⟩ := textOf?_eq_some.mp htext
    have hk' : h.slots.entries[k]? = some (some e) := by
      rw [← Array.getElem?_toList, List.getElem?_eq_getElem hk, he]
    obtain ⟨x, hxk, hx⟩ := hw.aligned.exists_handle hk'
    exact ⟨x, hxk, (hf s x).mpr (get?_eq_some.mpr ⟨e, hx, ho⟩)⟩
  obtain ⟨x, hxi, hx⟩ := hhandle i hi hs
  obtain ⟨y, hyj, hy⟩ := hhandle j hj ht
  rw [hx] at hy
  rw [← hxi, ← hyj, Option.some.inj hy] at hij
  exact absurd hij (Nat.lt_irrefl _)

theorem Faithful.keys_perm : h.interned.keys.Perm h.strings := by
  rw [List.perm_ext_iff_of_nodup Std.HashMap.nodup_keys (hf.nodup_strings hw)]
  intro s
  rw [Std.HashMap.mem_keys, mem_strings hw, Std.HashMap.mem_iff_isSome_getElem?,
    Option.isSome_iff_exists]
  exact exists_congr fun x => hf s x

theorem Faithful.internedCount : h.internedCount = h.strings.length := by
  rw [← (hf.keys_perm hw).length_eq, Std.HashMap.length_keys]
  rfl

end

/-- A collection enters nothing in the table. -/
theorem prepared_interned (hw : h.WellFormed) {roots : List Handle} {o : Object} {s : String}
    {x : Handle} (hx : (h.prepared roots o).interned? s = some x) : h.interned? s = some x := by
  unfold prepared at hx
  split at hx
  · exact (((hw.collection roots o.children).interned s x).mp hx).1
  · exact hx

/-- Interning that fails enters nothing: the table is what a collection left of it. -/
theorem intern_error_interned (hw : h.WellFormed) {roots : List Handle} {text : String}
    {e : OutOfMemory} (he : (h.intern roots text).answer = .error e) {s : String} {x : Handle}
    (hx : (h.intern roots text).heap.interned? s = some x) : h.interned? s = some x := by
  cases hn : h.interned? text with
  | some y =>
      rw [(intern_of_some roots hn).1] at he
      exact absurd he (by simp)
  | none =>
      rw [(intern_of_none roots hn).1] at he
      rw [(intern_of_none roots hn).2, he] at hx
      obtain ⟨hanswer, hheap⟩ := h.allocate_prepared roots (.string text)
      rcases placeWithin_spec (prepared_wellFormed hw roots (.string text)) (.string text) with
        ⟨n, hok, _⟩ | ⟨_, hsame⟩
      · rw [hanswer, hok] at he
        exact absurd he (by simp)
      · simp only [hheap, hsame] at hx
        exact prepared_interned hw hx

/-- The interning table and the live strings are two views of one thing. -/
structure Canonical (h : Heap) : Prop where
  table : ∀ s x, h.interned? s = some x ↔ h.string? x = some s
  /-- Handles of live strings are equal just if the contents are. -/
  same : ∀ x y s t, h.string? x = some s → h.string? y = some t → (x = y ↔ s = t)
  count : h.internedCount = h.strings.length
  /-- A content that has a string is answered at once. -/
  hit : ∀ roots s x, h.string? x = some s → h.intern roots s = ⟨.ok x, h, #[]⟩
  /-- A content that has none gets one, if there is room. -/
  miss : ∀ roots s, (∀ x, h.string? x ≠ some s) →
    ((∃ x, (h.intern roots s).answer = .ok x) ↔
      (h.prepared roots (.string s)).Admits (.string s))
  resolves : ∀ roots s x, (h.intern roots s).answer = .ok x →
    (h.intern roots s).heap.string? x = some s
  /-- A content that cannot be stored leaves no entry, neither its own nor another. -/
  failed : ∀ roots s e, (h.intern roots s).answer = .error e →
    ∀ t x, (h.intern roots s).heap.interned? t = some x → h.interned? t = some x

theorem Faithful.canonical (hf : h.Faithful) (hw : h.WellFormed) : h.Canonical where
  table s x := (hf s x).trans string?_eq_some.symm
  same x y s t hx hy := by
    rw [string?_eq_some] at hx hy
    constructor
    · rintro rfl
      rw [hx] at hy
      exact Object.string.inj (Option.some.inj hy)
    · rintro rfl
      exact Option.some.inj (((hf s x).mpr hx).symm.trans ((hf s y).mpr hy))
  count := hf.internedCount hw
  hit roots s x hx := by
    have hn := (hf s x).mpr (string?_eq_some.mp hx)
    unfold intern
    rw [hn]
  miss roots s hs := by
    refine intern_ok_iff roots (Option.eq_none_iff_forall_ne_some.mpr fun x hx => hs x ?_)
    exact string?_eq_some.mpr ((hf s x).mp hx)
  resolves roots s x hx := string?_eq_some.mpr (intern_get? hw hf hx)
  failed roots s e he t x hx := intern_error_interned hw he hx

/-! ## Histories in which strings are interned -/

/-- A call that makes strings by interning alone keeps the table faithful. -/
theorem faithful_apply (hw : h.WellFormed) (hf : h.Faithful) {c : HeapCall} (hc : c.Interns) :
    (c.apply h).Faithful := by
  cases c with
  | allocate roots object =>
      refine allocate_faithful hw hf roots fun s hs => ?_
      rw [hs] at hc
      exact hc
  | intern roots text => exact intern_faithful hw hf roots text
  | allocateFunction roots name arity => exact allocate_faithful hw hf roots (by simp)
  | allocateNative roots native => exact allocate_faithful hw hf roots (by simp)
  | editFunction function edit =>
      cases he : h.editFunction function edit with
      | none => simpa [HeapCall.apply, he] using hf
      | some effect => simpa [HeapCall.apply, he] using editFunction_faithful he hf
  | pin handle => exact hf
  | unpin handle =>
      simp only [HeapCall.apply]
      rw [unpin_eq]
      exact hf
  | collect roots => exact (hw.collection roots []).faithful hf

theorem after_faithful (config : HeapConfig) (calls : List HeapCall)
    (hcalls : ∀ c ∈ calls, c.Interns) : (after config calls).Faithful := by
  induction calls using List.reverseRecOn with
  | nil => exact faithful_empty config
  | append_singleton calls c ih =>
      rw [after_concat]
      refine faithful_apply (after_reachable config calls).wellFormed (ih fun d hd => ?_) ?_
      · exact hcalls d (List.mem_append_left _ hd)
      · exact hcalls c (by simp)

end Heap

end StackMachine
