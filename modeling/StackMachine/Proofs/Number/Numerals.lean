import Mathlib.Algebra.Field.Rat
import Mathlib.Algebra.Order.Field.Power
import Mathlib.Algebra.Order.Ring.Rat
import Mathlib.Data.List.Basic
import Mathlib.Data.List.TakeWhile
import Mathlib.Tactic.Ring
import StackMachine.Number

/-!
# Reading numerals

A text with digits, perhaps a point among them and perhaps an exponent behind them,
denotes a decimal, and a decimal denotes a rational number. `Decimal.read?` reads such a
text exactly, whatever wrote it.

Both notations of a decimal are read back as a decimal of the same value. In the full
form the zeros that were filled in count for nothing on the left and for a power of ten
on the right. In the other form the point and the exponent make up for each other, and
so they do after the exponent was taken out of the text, given its sign, filled up and
put back: the first `e` of the text is the one in front of the exponent, since neither a
sign nor a mantissa has one.
-/

namespace StackMachine

namespace Decimal

/-- The number that a decimal stands for. -/
def value (d : Decimal) : ℚ :=
  d.digits * 10 ^ d.exponent

/-- A row of digits, and not an empty one. -/
def IsRow (ds : List Char) : Prop :=
  ds ≠ [] ∧ ∀ c ∈ ds, c.isDigit = true

instance (ds : List Char) : Decidable (IsRow ds) :=
  decidable_of_iff ((!ds.isEmpty && ds.all Char.isDigit) = true) (by simp [IsRow])

/-- Reads a row of digits. -/
def row? (ds : List Char) : Option Nat :=
  if IsRow ds then some (Nat.ofDigitChars 10 ds 0) else none

/-- Reads digits with or without a point among them. -/
def unscaled? (cs : List Char) : Option Decimal :=
  match cut '.' cs with
  | (whole, none) => (row? whole).map (⟨·, 0⟩)
  | (whole, some places) =>
    if IsRow whole ∧ IsRow places then
      (row? (whole ++ places)).map (⟨·, -places.length⟩)
    else none

/-- Reads an integer with or without a sign. -/
def integer? : List Char → Option Int
  | '-' :: ds => (row? ds).map fun n : Nat => -(n : Int)
  | '+' :: ds => (row? ds).map fun n : Nat => (n : Int)
  | ds => (row? ds).map fun n : Nat => (n : Int)

/-- Reads a numeral without a sign, in full or with an exponent. -/
def read? (cs : List Char) : Option Decimal :=
  match cut 'e' cs with
  | (front, none) => unscaled? front
  | (front, some power) =>
    (unscaled? front).bind fun d => (integer? power).map fun k => ⟨d.digits, d.exponent + k⟩

/-! ## Rows of digits -/

theorem isRow_numeral (n : Nat) : IsRow (numeral n) :=
  ⟨Nat.toDigits_ne_nil, fun _ => Nat.isDigit_of_mem_toDigits (by decide) (by decide)⟩

theorem length_numeral_pos (n : Nat) : 0 < (numeral n).length :=
  Nat.length_toDigits_pos

theorem length_numeral_le_iff {n k : Nat} (hk : 0 < k) : (numeral n).length ≤ k ↔ n < 10 ^ k :=
  Nat.length_toDigits_le_iff (by decide) hk

theorem IsRow.append {ds es : List Char} (h : IsRow ds) (he : ∀ c ∈ es, c.isDigit = true) :
    IsRow (ds ++ es) := by
  refine ⟨List.append_ne_nil_of_left_ne_nil h.1 _, fun c hc => ?_⟩
  rcases List.mem_append.mp hc with hc | hc
  · exact h.2 c hc
  · exact he c hc

theorem isDigit_zeros (k : Nat) : ∀ c ∈ List.replicate k '0', c.isDigit = true := by
  intro c hc
  rw [List.eq_of_mem_replicate hc]
  rfl

theorem isRow_zeroFill {ds : List Char} (w : Nat) (h : IsRow ds) : IsRow (zeroFill w ds) := by
  refine ⟨List.append_ne_nil_of_right_ne_nil _ h.1, fun c hc => ?_⟩
  rcases List.mem_append.mp hc with hc | hc
  · exact isDigit_zeros _ c hc
  · exact h.2 c hc

theorem length_zeroFill (w : Nat) (ds : List Char) :
    (zeroFill w ds).length = max w ds.length := by
  rw [zeroFill, List.length_append, List.length_replicate]
  omega

theorem ofDigitChars_numeral (n : Nat) : Nat.ofDigitChars 10 (numeral n) 0 = n :=
  Nat.ofDigitChars_ten_toDigits

/-- Zeros in front of a numeral are not seen. -/
theorem ofDigitChars_zeroFill (w n : Nat) :
    Nat.ofDigitChars 10 (zeroFill w (numeral n)) 0 = n := by
  rw [zeroFill, Nat.ofDigitChars_append, Nat.ofDigitChars_replicate_zero, Nat.mul_zero,
    ofDigitChars_numeral]

theorem row?_of_isRow {ds : List Char} (h : IsRow ds) :
    row? ds = some (Nat.ofDigitChars 10 ds 0) :=
  if_pos h

theorem row?_zeroFill (w n : Nat) : row? (zeroFill w (numeral n)) = some n := by
  rw [row?_of_isRow (isRow_zeroFill w (isRow_numeral n)), ofDigitChars_zeroFill]

/-! ## Cutting a text -/

section

variable {c : Char} {cs rest : List Char}

theorem cut_sep (h : c ∉ cs) : cut c (cs ++ c :: rest) = (cs, some rest) := by
  have hne : ∀ a ∈ cs, (a != c) = true := fun a ha => bne_iff_ne.mpr (ne_of_mem_of_not_mem ha h)
  unfold cut
  rw [List.takeWhile_append_of_pos hne, List.takeWhile_cons_of_neg (by simp),
    List.dropWhile_append_of_pos hne, List.dropWhile_cons_of_neg (by simp), List.append_nil]
  rfl

theorem cut_none (h : c ∉ cs) : cut c cs = (cs, none) := by
  have hne : ∀ a ∈ cs, (a != c) = true := fun a ha => bne_iff_ne.mpr (ne_of_mem_of_not_mem ha h)
  unfold cut
  rw [List.takeWhile_eq_self_iff.mpr hne, List.dropWhile_eq_nil_iff.mpr hne]
  rfl

/-- What is no digit does not stand in a row of digits. -/
theorem not_mem_of_isDigit (hc : c.isDigit = false) (h : ∀ a ∈ cs, a.isDigit = true) : c ∉ cs := by
  intro hmem
  rw [h c hmem] at hc
  exact absurd hc (by decide)

end

theorem unscaled?_whole {ds : List Char} (h : IsRow ds) :
    unscaled? ds = some ⟨Nat.ofDigitChars 10 ds 0, 0⟩ := by
  rw [unscaled?, cut_none (not_mem_of_isDigit rfl h.2)]
  dsimp only
  rw [row?_of_isRow h]
  rfl

theorem unscaled?_point {whole places : List Char} (hw : IsRow whole) (hp : IsRow places) :
    unscaled? (whole ++ '.' :: places) =
      some ⟨Nat.ofDigitChars 10 (whole ++ places) 0, -places.length⟩ := by
  rw [unscaled?, cut_sep (not_mem_of_isDigit rfl hw.2)]
  dsimp only
  rw [if_pos ⟨hw, hp⟩, row?_of_isRow (hw.append hp.2)]
  rfl

/-! ## In full -/

/-- Digits with a point put between them. -/
theorem unscaled?_insertPoint {ds : List Char} {k : Nat} (h : IsRow ds) (hk : 0 < k)
    (hlen : k < ds.length) :
    unscaled? (insertPoint k ds) = some ⟨Nat.ofDigitChars 10 ds 0, -k⟩ := by
  have hwhole : IsRow (ds.take (ds.length - k)) := by
    refine ⟨?_, fun c hc => h.2 c (List.mem_of_mem_take hc)⟩
    rw [← List.length_pos_iff, List.length_take]
    omega
  have hplaces : IsRow (ds.drop (ds.length - k)) := by
    refine ⟨?_, fun c hc => h.2 c (List.mem_of_mem_drop hc)⟩
    rw [← List.length_pos_iff, List.length_drop]
    omega
  have hk' : ds.length - (ds.length - k) = k := by omega
  rw [insertPoint, unscaled?_point hwhole hplaces, List.take_append_drop, List.length_drop, hk']

/-- **The full form denotes the decimal that it was written for.** -/
theorem unscaled?_plain (d : Decimal) :
    ∃ d', unscaled? d.plain = some d' ∧ d'.value = d.value := by
  obtain ⟨n, e⟩ := d
  cases e with
  | ofNat zeros =>
      refine ⟨_, unscaled?_whole ((isRow_numeral n).append (isDigit_zeros zeros)), ?_⟩
      rw [plain, Nat.ofDigitChars_append, ofDigitChars_numeral, Nat.ofDigitChars_replicate_zero]
      simp [value, mul_comm]
  | negSucc k =>
      have hlen : k + 1 < (zeroFill (k + 2) (numeral n)).length := by
        rw [length_zeroFill]
        omega
      refine ⟨_, unscaled?_insertPoint (isRow_zeroFill _ (isRow_numeral n)) (by omega) hlen, ?_⟩
      rw [ofDigitChars_zeroFill]
      rfl

theorem mem_plain {d : Decimal} {c : Char} (h : c ∈ d.plain) : c.isDigit = true ∨ c = '.' := by
  obtain ⟨n, e⟩ := d
  cases e with
  | ofNat zeros => exact .inl (((isRow_numeral n).append (isDigit_zeros zeros)).2 c h)
  | negSucc k =>
      have hrow := isRow_zeroFill (k + 2) (isRow_numeral n)
      rcases List.mem_append.mp h with h | h
      · exact .inl (hrow.2 c (List.mem_of_mem_take h))
      · rcases List.mem_cons.mp h with h | h
        · exact .inr h
        · exact .inl (hrow.2 c (List.mem_of_mem_drop h))

theorem not_mem_plain (d : Decimal) {c : Char} (hc : c.isDigit = false) (hpoint : c ≠ '.') :
    c ∉ d.plain := by
  intro h
  rcases mem_plain h with h | h
  · rw [h] at hc
    exact absurd hc (by decide)
  · exact hpoint h

theorem read?_plain (d : Decimal) : ∃ d', read? d.plain = some d' ∧ d'.value = d.value := by
  rw [read?, cut_none (not_mem_plain d rfl (by decide))]
  exact unscaled?_plain d

/-! ## With an exponent -/

theorem unscaled?_mantissa {ds : List Char} (h : IsRow ds) :
    unscaled? (mantissa ds) = some ⟨Nat.ofDigitChars 10 ds 0, -(ds.length - 1 : Nat)⟩ := by
  match ds, h with
  | [d], h => exact unscaled?_whole h
  | first :: second :: rest, h =>
      have hrest : IsRow (second :: rest) :=
        ⟨by simp, fun c hc => h.2 c (List.mem_cons_of_mem _ hc)⟩
      have hfirst : IsRow [first] := ⟨by simp, fun c hc => h.2 c (by simp_all)⟩
      exact unscaled?_point hfirst hrest

theorem mem_mantissa {ds : List Char} {c : Char} (h : c ∈ mantissa ds) : c ∈ ds ∨ c = '.' := by
  match ds with
  | [] => exact .inl h
  | [d] => exact .inl h
  | first :: second :: rest =>
      simp only [mantissa, List.mem_cons] at h ⊢
      tauto

/-- The exponent in its final form. -/
def signed (k : Int) : List Char :=
  (if k < 0 then '-' else '+') :: zeroFill 2 (numeral k.natAbs)

/-- One digit before the point and an exponent in its final form. -/
def scientific (d : Decimal) : List Char :=
  mantissa (numeral d.digits) ++
    'e' :: signed (d.exponent + ((numeral d.digits).length - 1 : Nat))

theorem padExponent_integer (k : Int) : padExponent (integer k) = signed k := by
  unfold integer signed
  split
  · rfl
  · -- a row of digits does not start with the sign
    have hminus : '-' ∉ numeral k.natAbs := not_mem_of_isDigit rfl (isRow_numeral _).2
    unfold padExponent
    split
    · rename_i ds heq
      rw [heq] at hminus
      exact absurd (List.mem_cons_self ..) hminus
    · rfl

theorem integer?_signed (k : Int) : integer? (signed k) = some k := by
  unfold signed
  split
  · rw [integer?, row?_zeroFill, Option.map_some]
    congr 1
    omega
  · rw [integer?, row?_zeroFill, Option.map_some]
    congr 1
    omega

theorem mantissa_ne_nil {ds : List Char} (h : ds ≠ []) : mantissa ds ≠ [] := by
  match ds, h with
  | [d], _ => simp [mantissa]
  | first :: second :: rest, _ => simp [mantissa]

theorem not_mem_mantissa (n : Nat) {c : Char} (hc : c.isDigit = false) (hpoint : c ≠ '.') :
    c ∉ mantissa (numeral n) := by
  intro hmem
  rcases mem_mantissa hmem with hmem | hmem
  · exact not_mem_of_isDigit hc (isRow_numeral n).2 hmem
  · exact hpoint hmem

theorem head_scientific (d : Decimal) {c : Char} (hc : c.isDigit = false) (hpoint : c ≠ '.') :
    d.scientific.head? ≠ some c := by
  rw [scientific, List.head?_append_of_ne_nil _ (mantissa_ne_nil (isRow_numeral _).1)]
  exact fun h => not_mem_mantissa d.digits hc hpoint (List.mem_of_mem_head? h)

/-- Taking the exponent out of a text and putting it back comes to the form written at once. -/
theorem signExponent_exponential (sign : List Char) (d : Decimal) (hs : 'e' ∉ sign) :
    signExponent (sign ++ d.exponential) = sign ++ d.scientific := by
  have hfront : 'e' ∉ sign ++ mantissa (numeral d.digits) := by
    rw [List.mem_append, not_or]
    exact ⟨hs, not_mem_mantissa _ rfl (by decide)⟩
  rw [exponential, ← List.append_assoc, signExponent, cut_sep hfront]
  dsimp only
  rw [padExponent_integer, List.append_assoc]
  rfl

/-- **The form with an exponent denotes the decimal that it was written for.** -/
theorem read?_scientific (d : Decimal) : read? d.scientific = some d := by
  rw [read?, scientific, cut_sep (not_mem_mantissa _ rfl (by decide))]
  dsimp only
  rw [unscaled?_mantissa (isRow_numeral _), integer?_signed, ofDigitChars_numeral]
  simp

end Decimal

end StackMachine
