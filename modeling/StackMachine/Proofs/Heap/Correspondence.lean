import StackMachine.Proofs.Heap.Storage

/-!
# Heaps that hold the same objects in different places

Two runs of one program that collect at different times store their objects in
different slots. What stays the same is the shape of what each can reach. It is
said here with a one-to-one relation `ρ` between handles: related handles stand
for objects that are alike, down to the handles inside them, which are related
again.

Two facts carry the rest. Reachability is the same on both sides of a relation.
And after both heaps have changed, each by an operation that keeps what it can
reach, the part of the relation between reachable handles is a relation again;
a string interned on both sides can be added to it, because each heap has that
string once.
-/

namespace StackMachine

/-! ## Arrays entry by entry -/

/-- Arrays of one length whose entries are related. -/
def Pointwise {α β : Type} (R : α → β → Prop) (xs : Array α) (ys : Array β) : Prop :=
  ∀ i : Nat, Option.Rel R xs[i]? ys[i]?

section

variable {α β : Type} {R S : α → β → Prop} {a : Option α} {b : Option β}

theorem rel_mono (h : Option.Rel R a b)
    (hRS : ∀ x y, a = some x → b = some y → R x y → S x y) : Option.Rel S a b := by
  cases h with
  | none => exact .none
  | some hxy => exact .some (hRS _ _ rfl rfl hxy)

theorem rel_symm (h : Option.Rel R a b) : Option.Rel (fun y x => R x y) b a := by
  cases h with
  | none => exact .none
  | some hxy => exact .some hxy

theorem rel_cases (h : Option.Rel R a b) :
    a = none ∧ b = none ∨ ∃ x y, a = some x ∧ b = some y ∧ R x y := by
  cases h with
  | none => exact Or.inl ⟨rfl, rfl⟩
  | some hxy => exact Or.inr ⟨_, _, rfl, rfl, hxy⟩

theorem rel_map_eq {γ : Type} {f : α → γ} {g : β → γ} (h : Option.Rel R a b)
    (hfg : ∀ x y, R x y → f x = g y) : a.map f = b.map g := by
  cases h with
  | none => rfl
  | some hxy => exact congrArg some (hfg _ _ hxy)

theorem rel_bind_eq {γ : Type} {f : α → Option γ} {g : β → Option γ} (h : Option.Rel R a b)
    (hfg : ∀ x y, R x y → f x = g y) : a.bind f = b.bind g := by
  cases h with
  | none => rfl
  | some hxy => exact hfg _ _ hxy

theorem rel_some {x : α} (h : Option.Rel R a b) (ha : a = some x) : ∃ y, b = some y ∧ R x y := by
  cases h with
  | none => exact absurd ha (by simp)
  | some hxy => rw [← Option.some.inj ha]; exact ⟨_, rfl, hxy⟩

end

namespace Pointwise

variable {α β : Type} {R S : α → β → Prop} {xs : Array α} {ys : Array β}

theorem empty : Pointwise R #[] #[] := by
  intro i
  simp

theorem mono (h : Pointwise R xs ys) (hRS : ∀ a b, a ∈ xs → b ∈ ys → R a b → S a b) :
    Pointwise S xs ys :=
  fun i => rel_mono (h i) fun a b ha hb =>
    hRS a b (Array.mem_of_getElem? ha) (Array.mem_of_getElem? hb)

theorem symm (h : Pointwise R xs ys) : Pointwise (fun b a => R a b) ys xs :=
  fun i => rel_symm (h i)

theorem get? (h : Pointwise R xs ys) {i : Nat} {a : α} (ha : xs[i]? = some a) :
    ∃ b, ys[i]? = some b ∧ R a b :=
  rel_some (h i) ha

theorem mem (h : Pointwise R xs ys) {a : α} (ha : a ∈ xs) : ∃ b ∈ ys, R a b := by
  obtain ⟨i, hi⟩ := Array.getElem?_of_mem ha
  obtain ⟨b, hb, hab⟩ := h.get? hi
  exact ⟨b, Array.mem_of_getElem? hb, hab⟩

theorem size_le (h : Pointwise R xs ys) : xs.size ≤ ys.size := by
  by_cases hlt : ys.size < xs.size
  · obtain ⟨b, hb, _⟩ := h.get? (Array.getElem?_eq_getElem hlt)
    exact absurd (Array.getElem?_eq_some_iff.mp hb).1 (by omega)
  · omega

theorem size_eq (h : Pointwise R xs ys) : xs.size = ys.size :=
  Nat.le_antisymm h.size_le h.symm.size_le

theorem map_eq {γ : Type} {f : α → γ} {g : β → γ} (h : Pointwise R xs ys)
    (hfg : ∀ a b, R a b → f a = g b) : xs.toList.map f = ys.toList.map g := by
  apply List.ext_getElem?
  intro i
  rw [List.getElem?_map, List.getElem?_map, Array.getElem?_toList, Array.getElem?_toList]
  exact rel_map_eq (h i) hfg

theorem push (h : Pointwise R xs ys) {a : α} {b : β} (hab : R a b) :
    Pointwise R (xs.push a) (ys.push b) := by
  intro i
  rw [Array.getElem?_push, Array.getElem?_push, h.size_eq]
  split
  · exact .some hab
  · exact h i

theorem extract (h : Pointwise R xs ys) (start stop : Nat) :
    Pointwise R (xs.extract start stop) (ys.extract start stop) := by
  intro i
  rw [Array.getElem?_extract, Array.getElem?_extract, h.size_eq]
  split
  · exact h (start + i)
  · exact .none

theorem setIfInBounds (h : Pointwise R xs ys) (i : Nat) {a : α} {b : β} (hab : R a b) :
    Pointwise R (xs.setIfInBounds i a) (ys.setIfInBounds i b) := by
  intro j
  rw [Array.getElem?_setIfInBounds, Array.getElem?_setIfInBounds, h.size_eq]
  split
  · split
    · exact .some hab
    · exact .none
  · exact h j

theorem pop (h : Pointwise R xs ys) : Pointwise R xs.pop ys.pop := by
  intro i
  rw [Array.getElem?_pop, Array.getElem?_pop, h.size_eq]
  split
  · exact h i
  · exact .none

theorem back? (h : Pointwise R xs ys) : Option.Rel R xs.back? ys.back? := by
  rw [Array.back?_eq_getElem?, Array.back?_eq_getElem?, h.size_eq]
  exact h _

end Pointwise

/-! ## Values and objects that are alike -/

section

variable (ρ : Handle → Handle → Prop)

inductive Value.Alike : Value → Value → Prop where
  | nil : Alike .nil .nil
  | bool (b : Bool) : Alike (.bool b) (.bool b)
  | number (n : Number) : Alike (.number n) (.number n)
  | object {x y : Handle} : ρ x y → Alike (.object x) (.object y)

/-- The same code, with related handles in it. -/
structure BytecodeFunction.Alike (f g : BytecodeFunction) : Prop where
  name : Option.Rel ρ f.name g.name
  arity : f.arity = g.arity
  code : f.chunk.code = g.chunk.code
  lines : f.chunk.lines = g.chunk.lines
  constants : Pointwise (Value.Alike ρ) f.chunk.constants g.chunk.constants

inductive Object.Alike : Object → Object → Prop where
  | string (s : String) : Alike (.string s) (.string s)
  | function {f g : BytecodeFunction} : f.Alike ρ g → Alike (.function f) (.function g)
  | native (n : NativeFunction) : Alike (.native n) (.native n)

/-- A one-to-one relation between live handles of two heaps that preserves what
they stand for. -/
structure Heap.Matching (h₁ h₂ : Heap) : Prop where
  functional : ∀ {x y y'}, ρ x y → ρ x y' → y = y'
  injective : ∀ {x x' y}, ρ x y → ρ x' y → x = x'
  objects : ∀ {x y}, ρ x y → ∃ d e, h₁.get? x = some d ∧ h₂.get? y = some e ∧ d.Alike ρ e

end

variable {ρ ρ' : Handle → Handle → Prop}

theorem Value.Alike.mono {v w : Value} (h : v.Alike ρ w)
    (hρ : ∀ x y, v = .object x → w = .object y → ρ x y → ρ' x y) : v.Alike ρ' w := by
  cases h with
  | nil => exact .nil
  | bool b => exact .bool b
  | number n => exact .number n
  | object hxy => exact .object (hρ _ _ rfl rfl hxy)

theorem Value.Alike.symm {v w : Value} (h : v.Alike ρ w) : w.Alike (fun y x => ρ x y) v := by
  cases h with
  | nil => exact .nil
  | bool b => exact .bool b
  | number n => exact .number n
  | object hxy => exact .object hxy

namespace BytecodeFunction.Alike

variable {f g : BytecodeFunction}

/-- The relation matters between the handles that the two functions refer to. -/
theorem mono (h : f.Alike ρ g) (hρ : ∀ x y, f.RefersTo x → g.RefersTo y → ρ x y → ρ' x y) :
    f.Alike ρ' g := by
  refine ⟨rel_mono h.name fun x y hx hy => hρ x y (Or.inl hx) (Or.inl hy), h.arity, h.code,
    h.lines, h.constants.mono fun v w hv hw hvw => ?_⟩
  refine hvw.mono fun x y hx hy => hρ x y (Or.inr ?_) (Or.inr ?_)
  · rw [← hx]; exact hv
  · rw [← hy]; exact hw

theorem symm (h : f.Alike ρ g) : g.Alike (fun y x => ρ x y) f :=
  ⟨rel_symm h.name, h.arity.symm, h.code.symm, h.lines.symm,
    h.constants.symm.mono fun _ _ _ _ => Value.Alike.symm⟩

/-- What one of two functions refers to has its counterpart in the other. -/
theorem refersTo (h : f.Alike ρ g) {x : Handle} (hx : f.RefersTo x) :
    ∃ y, ρ x y ∧ g.RefersTo y := by
  rcases hx with hname | hconstant
  · obtain ⟨y, hy, hxy⟩ := rel_some h.name hname
    exact ⟨y, hxy, Or.inl hy⟩
  · obtain ⟨w, hw, hvw⟩ := h.constants.mem hconstant
    cases hvw with
    | object hxy => exact ⟨_, hxy, Or.inr hw⟩

end BytecodeFunction.Alike

theorem Object.Alike.mono {d e : Object} (h : d.Alike ρ e)
    (hρ : ∀ x y, x ∈ d.children → y ∈ e.children → ρ x y → ρ' x y) : d.Alike ρ' e := by
  cases h with
  | string s => exact .string s
  | native n => exact .native n
  | @function f g hfg =>
      exact .function (hfg.mono fun x y hx hy =>
        hρ x y (mem_children.mpr ⟨f, rfl, hx⟩) (mem_children.mpr ⟨g, rfl, hy⟩))

theorem Object.Alike.symm {d e : Object} (h : d.Alike ρ e) : e.Alike (fun y x => ρ x y) d := by
  cases h with
  | string s => exact .string s
  | native n => exact .native n
  | function hfg => exact .function hfg.symm

theorem Heap.describe?_string? (h : Heap) (x : Handle) :
    (h.describe? x).bind Description.string? = h.string? x := by
  unfold describe? string?
  cases h.get? x with
  | none => rfl
  | some d => cases d <;> rfl

namespace Heap.Matching

variable {h₁ h₂ : Heap} {x y : Handle} {v w : Value}

theorem symm (hm : Matching ρ h₁ h₂) : Matching (fun y x => ρ x y) h₂ h₁ := by
  refine ⟨hm.injective, hm.functional, fun hxy => ?_⟩
  obtain ⟨d, e, hd, he, hde⟩ := hm.objects hxy
  exact ⟨e, d, he, hd, hde.symm⟩

/-! ## Reading -/

theorem function? (hm : Matching ρ h₁ h₂) (hxy : ρ x y) :
    Option.Rel (BytecodeFunction.Alike ρ) (h₁.function? x) (h₂.function? y) := by
  obtain ⟨d, e, hd, he, hde⟩ := hm.objects hxy
  unfold Heap.function?
  rw [hd, he]
  cases hde with
  | string s => exact .none
  | function hfg => exact .some hfg
  | native n => exact .none

theorem string? (hm : Matching ρ h₁ h₂) (hxy : ρ x y) : h₁.string? x = h₂.string? y := by
  obtain ⟨d, e, hd, he, hde⟩ := hm.objects hxy
  unfold Heap.string?
  rw [hd, he]
  cases hde with
  | string s => rfl
  | function hfg => rfl
  | native n => rfl

/-- The name of a function is the same text on both sides. -/
theorem name_text (hm : Matching ρ h₁ h₂) {f g : BytecodeFunction} (hfg : f.Alike ρ g) :
    f.name.bind h₁.string? = g.name.bind h₂.string? :=
  rel_bind_eq hfg.name fun _ _ => hm.string?

theorem describe? (hm : Matching ρ h₁ h₂) (hxy : ρ x y) : ∃ d e,
    h₁.describe? x = some (Object.describe d) ∧ h₂.describe? y = some (Object.describe e) ∧
      d.Alike ρ e := by
  obtain ⟨d, e, hd, he, hde⟩ := hm.objects hxy
  refine ⟨d, e, ?_, ?_, hde⟩
  · rw [Heap.describe?, hd]; rfl
  · rw [Heap.describe?, he]; rfl

theorem typeName (hm : Matching ρ h₁ h₂) (hvw : v.Alike ρ w) :
    v.typeName h₁.describe? = w.typeName h₂.describe? := by
  cases hvw with
  | nil => rfl
  | bool b => rfl
  | number n => rfl
  | object hxy =>
      obtain ⟨d, e, hd, he, hde⟩ := hm.describe? hxy
      simp only [Value.typeName, hd, he]
      cases hde with
      | string s => rfl
      | function hfg => rfl
      | native n => rfl

/-- Values that are alike are shown alike. -/
theorem text (hm : Matching ρ h₁ h₂) (hvw : v.Alike ρ w) :
    v.text h₁.describe? = w.text h₂.describe? := by
  cases hvw with
  | nil => rfl
  | bool b => cases b <;> rfl
  | number n => rfl
  | object hxy =>
      obtain ⟨d, e, hd, he, hde⟩ := hm.describe? hxy
      simp only [Value.text, hd, he]
      cases hde with
      | string s => rfl
      | function hfg => simp only [Object.describe, describe?_string?, hm.name_text hfg]
      | native n => rfl

/-- Values that are alike on both sides of a one-to-one relation are equal alike. -/
theorem equal (hm : Matching ρ h₁ h₂) {v' w' : Value} (hvw : v.Alike ρ w) (hvw' : v'.Alike ρ w') :
    v.equal v' = w.equal w' := by
  cases hvw with
  | nil => cases hvw' <;> rfl
  | bool b => cases hvw' <;> rfl
  | number n => cases hvw' <;> rfl
  | @object x y hxy =>
      cases hvw' with
      | nil => rfl
      | bool b => rfl
      | number n => rfl
      | @object x' y' hxy' =>
          simp only [Value.equal]
          rw [Bool.eq_iff_iff, beq_iff_eq, beq_iff_eq]
          constructor
          -- identity of objects needs the relation to be one-to-one both ways
          · rintro rfl; exact hm.functional hxy hxy'
          · rintro rfl; exact hm.injective hxy hxy'

/-! ## What both heaps can reach -/

/-- What one heap can reach has a counterpart that the other can reach. -/
theorem reach (hm : Matching ρ h₁ h₂) {start₁ start₂ : List Handle}
    (hstart : ∀ x ∈ start₁, ∀ d, h₁.get? x = some d → ∃ y ∈ start₂, ρ x y)
    (hx : Reach h₁.get? start₁ x) : ∃ y, ρ x y ∧ Reach h₂.get? start₂ y := by
  induction hx with
  | @root x d hx hd =>
      obtain ⟨y, hy, hxy⟩ := hstart x hx d hd
      obtain ⟨_, e, _, he, _⟩ := hm.objects hxy
      exact ⟨y, hxy, .root hy he⟩
  | @child x z f d _ hx hz hd ih =>
      obtain ⟨y, hxy, hy⟩ := ih
      obtain ⟨d', e, hd', he, hde⟩ := hm.objects hxy
      rw [hx] at hd'
      cases Option.some.inj hd'
      cases hde with
      | function hfg =>
          obtain ⟨z', hzz, hz'⟩ := hfg.refersTo hz
          obtain ⟨_, e', _, he', _⟩ := hm.objects hzz
          exact ⟨z', hzz, .child hy he hz' he'⟩

/-- The part of a relation between what both heaps can reach. -/
def Between (ρ : Handle → Handle → Prop) (h₁ : Heap) (start₁ : List Handle) (h₂ : Heap)
    (start₂ : List Handle) (x y : Handle) : Prop :=
  ρ x y ∧ Reach h₁.get? start₁ x ∧ Reach h₂.get? start₂ y

/-- **Matching survives collections.** Each heap keeps what it can reach, so the
relation between what both can reach still matches them. -/
theorem evolve (hm : Matching ρ h₁ h₂) {start₁ start₂ : List Handle}
    {new₁ new₂ : Handle → Object → Prop} {h₁' h₂' : Heap} (he₁ : Evolves h₁ start₁ new₁ h₁')
    (he₂ : Evolves h₂ start₂ new₂ h₂') :
    Matching (Between ρ h₁ start₁ h₂ start₂) h₁' h₂' := by
  refine ⟨fun h h' => hm.functional h.1 h'.1, fun h h' => hm.injective h.1 h'.1, ?_⟩
  rintro x y ⟨hxy, hx, hy⟩
  obtain ⟨d, e, hd, he, hde⟩ := hm.objects hxy
  refine ⟨d, e, (he₁.kept x hx).trans hd, (he₂.kept y hy).trans he, hde.mono ?_⟩
  -- what a reachable object refers to is reachable
  intro a b ha hb hab
  obtain ⟨d', e', hd', he', _⟩ := hm.objects hab
  exact ⟨hab, hx.of_children hd ha hd', hy.of_children he hb he'⟩

/-- Each heap has a string of one content once, so the two can be related. -/
theorem insert (hm : Matching ρ h₁ h₂) (hf₁ : h₁.Faithful) (hf₂ : h₂.Faithful) {a b : Handle}
    {s : String} (ha : h₁.get? a = some (.string s)) (hb : h₂.get? b = some (.string s)) :
    Matching (fun x y => ρ x y ∨ x = a ∧ y = b) h₁ h₂ := by
  -- a counterpart of `a` would have the same content, and `b` has it already
  have hleft : ∀ {y}, ρ a y → y = b := by
    intro y hay
    have hy : h₂.string? y = some s := by
      rw [← hm.string? hay]
      exact string?_eq_some.mpr ha
    have hy' := (hf₂ s y).mpr (string?_eq_some.mp hy)
    exact Option.some.inj (hy'.symm.trans ((hf₂ s b).mpr hb))
  have hright : ∀ {x}, ρ x b → x = a := by
    intro x hxb
    have hx : h₁.string? x = some s := by
      rw [hm.string? hxb]
      exact string?_eq_some.mpr hb
    have hx' := (hf₁ s x).mpr (string?_eq_some.mp hx)
    exact Option.some.inj (hx'.symm.trans ((hf₁ s a).mpr ha))
  refine ⟨?_, ?_, ?_⟩
  · rintro x y y' (h | ⟨rfl, rfl⟩) (h' | ⟨h', rfl⟩)
    · exact hm.functional h h'
    · subst h'; exact hleft h
    · exact (hleft h').symm
    · rfl
  · rintro x x' y (h | ⟨rfl, rfl⟩) (h' | ⟨rfl, h'⟩)
    · exact hm.injective h h'
    · subst h'; exact hright h
    · exact (hright h').symm
    · rfl
  · rintro x y (hxy | ⟨rfl, rfl⟩)
    · obtain ⟨d, e, hd, he, hde⟩ := hm.objects hxy
      exact ⟨d, e, hd, he, hde.mono fun _ _ _ _ => Or.inl⟩
    · exact ⟨_, _, ha, hb, .string s⟩

end Heap.Matching

end StackMachine
