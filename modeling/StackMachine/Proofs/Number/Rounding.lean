import Mathlib.Algebra.Field.Rat
import Mathlib.Algebra.Order.Field.Power
import Mathlib.Algebra.Order.Ring.Abs
import Mathlib.Algebra.Order.Ring.Rat
import Mathlib.Data.Nat.Bitwise
import Mathlib.Tactic.Linarith
import Mathlib.Tactic.LinearCombination
import Mathlib.Tactic.NormNum
import Mathlib.Tactic.Ring
import StackMachine.Number

/-!
# Rounding to the nearest number

The magnitudes of the format are numbered without a gap: the bits of a magnitude, read as
a natural number, are its `rank`, and they rise with it. So the neighbours of a number
have the ranks before and behind its own, and what lies nearer to it than to any other
number is an interval that ends half way to these two. `Dyadic.Covers` is this interval.

An infinity takes part as the number that its bits would stand for, the next behind the
largest finite one. That is how a format with bounded exponents rounds: as if it went on.
-/

namespace StackMachine

namespace Dyadic

/-- The number `mantissa * 2 ^ exponent` itself. -/
def value (x : Dyadic) : ℚ :=
  x.mantissa * 2 ^ x.exponent

/-- The distance to the next larger number of the format. -/
def gap (x : Dyadic) : ℚ :=
  2 ^ x.exponent

/-- The magnitude with a given rank. -/
def ofRank (r : Nat) : Dyadic :=
  if r / 2 ^ 52 = 0 then ⟨r % 2 ^ 52, leastExponent⟩
  else ⟨leastNormal + r % 2 ^ 52, (r / 2 ^ 52 : Nat) + leastExponent - 1⟩

/-- The lower end of the rounding interval. -/
def low (x : Dyadic) : ℚ :=
  x.value - x.quartersBelow / 4 * x.gap

/-- The upper end of the rounding interval. -/
def high (x : Dyadic) : ℚ :=
  x.value + 1 / 2 * x.gap

/-- What rounds to `x`: the interval around it, with its ends if the mantissa is even. -/
def Covers (x : Dyadic) (v : ℚ) : Prop :=
  if x.mantissa % 2 = 0 then x.low ≤ v ∧ v ≤ x.high else x.low < v ∧ v < x.high

theorem gap_pos (x : Dyadic) : 0 < x.gap :=
  zpow_pos (by norm_num) _

theorem low_lt_value (x : Dyadic) : x.low < x.value := by
  have hgap := x.gap_pos
  unfold low quartersBelow
  split
  · push_cast
    linarith
  · push_cast
    linarith

theorem value_lt_high (x : Dyadic) : x.value < x.high := by
  have hgap := x.gap_pos
  unfold high
  linarith

theorem leastNormal_eq : leastNormal = 2 ^ 52 := rfl

/-! ## Ranks -/

theorem value_zero : (ofRank 0).value = 0 := by
  simp [ofRank, value]

theorem leastExponent_le (r : Nat) : leastExponent ≤ (ofRank r).exponent := by
  unfold ofRank
  split
  · exact le_rfl
  · dsimp only
    omega

/-- Below the least normal mantissa there is only the least exponent. -/
theorem leastNormal_le {r : Nat} (h : leastExponent < (ofRank r).exponent) :
    leastNormal ≤ (ofRank r).mantissa := by
  unfold ofRank at h ⊢
  split at h
  · exact absurd h (lt_irrefl _)
  · rw [if_neg ‹_›]
    exact Nat.le_add_right ..

/-- From one rank to the next the mantissa goes up by one, or it starts again at the
bottom of the next exponent. -/
theorem ofRank_succ (r : Nat) :
    (ofRank (r + 1)).exponent = (ofRank r).exponent ∧
        (ofRank (r + 1)).mantissa = (ofRank r).mantissa + 1 ∨
      (ofRank (r + 1)).exponent = (ofRank r).exponent + 1 ∧
        (ofRank (r + 1)).mantissa = leastNormal ∧
        (ofRank r).mantissa + 1 = 2 * leastNormal := by
  unfold ofRank
  rw [leastNormal_eq]
  by_cases hlast : r % 2 ^ 52 + 1 = 2 ^ 52
  · have hq : (r + 1) / 2 ^ 52 = r / 2 ^ 52 + 1 := by omega
    have hf : (r + 1) % 2 ^ 52 = 0 := by omega
    rw [hq, hf, if_neg (by omega)]
    split
    · exact .inl ⟨by dsimp only; omega, by dsimp only; omega⟩
    · exact .inr ⟨by dsimp only; omega, rfl, by dsimp only; omega⟩
  · have hq : (r + 1) / 2 ^ 52 = r / 2 ^ 52 := by omega
    have hf : (r + 1) % 2 ^ 52 = r % 2 ^ 52 + 1 := by omega
    rw [hq, hf]
    split
    · exact .inl ⟨rfl, rfl⟩
    · exact .inl ⟨rfl, by dsimp only; omega⟩

/-- Neighbours are one gap apart. -/
theorem value_succ (r : Nat) : (ofRank (r + 1)).value = (ofRank r).value + (ofRank r).gap := by
  unfold value gap
  rcases ofRank_succ r with ⟨he, hm⟩ | ⟨he, hm, hlast⟩
  · rw [he, hm]
    push_cast
    ring
  · have hlast' : ((ofRank r).mantissa : ℚ) + 1 = 2 * leastNormal := by exact_mod_cast hlast
    rw [he, hm, zpow_add_one₀ (by norm_num)]
    linear_combination (-(2 : ℚ) ^ (ofRank r).exponent) * hlast'

theorem value_strictMono : StrictMono fun r => (ofRank r).value :=
  strictMono_nat_of_lt_succ fun r => by
    rw [value_succ]
    linarith [gap_pos (ofRank r)]

theorem mantissa_mod_two (r : Nat) : (ofRank r).mantissa % 2 = r % 2 := by
  unfold ofRank
  rw [leastNormal_eq]
  split
  · dsimp only
    omega
  · dsimp only
    omega

/-- The interval ends half way to the number below. -/
theorem low_succ (r : Nat) :
    2 * (ofRank (r + 1)).low = (ofRank r).value + (ofRank (r + 1)).value := by
  have hvalue := value_succ r
  have hquarters : (ofRank (r + 1)).quartersBelow / 2 * (ofRank (r + 1)).gap = (ofRank r).gap := by
    unfold quartersBelow gap
    rcases ofRank_succ r with ⟨he, hm⟩ | ⟨he, hm, -⟩
    · rw [he, hm, if_neg]
      · norm_num
      · rintro ⟨hleast, hexp⟩
        have hnormal := leastNormal_le hexp
        omega
    · rw [he, hm, if_pos]
      · rw [zpow_add_one₀ (by norm_num)]
        push_cast
        ring
      · have hleast := leastExponent_le r
        exact ⟨rfl, by omega⟩
  unfold low
  linear_combination hvalue - hquarters

/-- The interval ends half way to the number above. -/
theorem high_eq (r : Nat) : 2 * (ofRank r).high = (ofRank r).value + (ofRank (r + 1)).value := by
  rw [value_succ]
  unfold high
  ring

section

variable {x : Dyadic} {u v w : ℚ} {r s : Nat}

theorem Covers.le (h : x.Covers v) : x.low ≤ v ∧ v ≤ x.high := by
  unfold Covers at h
  split at h
  · exact h
  · exact ⟨h.1.le, h.2.le⟩

theorem Covers.lt (h : x.Covers v) (hodd : x.mantissa % 2 ≠ 0) : x.low < v ∧ v < x.high := by
  unfold Covers at h
  rw [if_neg hodd] at h
  exact h

theorem covers_of_lt (hlow : x.low < v) (hhigh : v < x.high) : x.Covers v := by
  unfold Covers
  split
  · exact ⟨hlow.le, hhigh.le⟩
  · exact ⟨hlow, hhigh⟩

theorem covers_of_le (hlow : x.low ≤ v) (hhigh : v ≤ x.high)
    (htie : v = x.low ∨ v = x.high → x.mantissa % 2 = 0) : x.Covers v := by
  unfold Covers
  split
  · exact ⟨hlow, hhigh⟩
  · rename_i hodd
    exact ⟨lt_of_le_of_ne hlow fun h => hodd (htie (.inl h.symm)),
      lt_of_le_of_ne hhigh fun h => hodd (htie (.inr h))⟩

/-- What lies between two points of the interval belongs to it. -/
theorem Covers.between (hu : x.Covers u) (hw : x.Covers w) (huv : u ≤ v) (hvw : v ≤ w) :
    x.Covers v := by
  unfold Covers at hu hw ⊢
  split at hu
  · rename_i heven
    rw [if_pos heven] at hw ⊢
    exact ⟨hu.1.trans huv, hvw.trans hw.2⟩
  · rename_i hodd
    rw [if_neg hodd] at hw ⊢
    exact ⟨hu.1.trans_le huv, hvw.trans_lt hw.2⟩

/-- The interval of a magnitude stops half way to every larger one. -/
theorem high_le (h : r < s) : 2 * (ofRank r).high ≤ (ofRank r).value + (ofRank s).value := by
  have hmono := value_strictMono.monotone h
  rw [high_eq]
  linarith

/-- The interval of a magnitude stops half way to every smaller one. -/
theorem le_low (h : s < r) : (ofRank s).value + (ofRank r).value ≤ 2 * (ofRank r).low := by
  obtain ⟨t, rfl⟩ : ∃ t, r = t + 1 := ⟨r - 1, by omega⟩
  have hmono := value_strictMono.monotone (Nat.lt_succ_iff.mp h)
  rw [low_succ]
  linarith

end

end Dyadic

namespace Number

/-- The bits of a magnitude as a natural number. -/
def rank (n : Number) : Nat :=
  n.magnitudeBits.toNat

/-- The magnitude as a rational number. -/
def absolute (n : Number) : ℚ :=
  n.magnitude.value

theorem rank_eq (n : Number) : n.rank = n.bits.toNat % 2 ^ 63 := by
  have hmask : (~~~signBit).toNat = 2 ^ 63 - 1 := by decide
  rw [rank, magnitudeBits, UInt64.toNat_and, hmask, Nat.and_two_pow_sub_one_eq_mod]

theorem isNegative_iff (n : Number) : n.isNegative = true ↔ 2 ^ 63 ≤ n.bits.toNat := by
  have hsign : signBit.toNat = 2 ^ 63 := by decide
  have hzero : (0 : UInt64).toNat = 0 := rfl
  have hbits := n.bits.toNat_lt
  rw [isNegative, bne_iff_ne, Ne, ← UInt64.toNat_inj, UInt64.toNat_and, hsign, hzero,
    Nat.and_two_pow, Nat.testBit_eq_decide_div_mod_eq]
  by_cases hbit : n.bits.toNat / 2 ^ 63 % 2 = 1
  · rw [decide_eq_true hbit, Bool.toNat_true]
    omega
  · rw [decide_eq_false hbit, Bool.toNat_false]
    omega

theorem magnitude_eq (n : Number) : n.magnitude = Dyadic.ofRank n.rank := by
  have hexponent : (n.magnitudeBits >>> 52).toNat = n.rank / 2 ^ 52 := by
    rw [UInt64.toNat_shiftRight, Nat.shiftRight_eq_div_pow, rank]
    rfl
  have hfraction : (n.magnitudeBits &&& 0x000fffffffffffff).toNat = n.rank % 2 ^ 52 := by
    have hmask : (0x000fffffffffffff : UInt64).toNat = 2 ^ 52 - 1 := by decide
    rw [UInt64.toNat_and, hmask, Nat.and_two_pow_sub_one_eq_mod, rank]
  unfold magnitude Dyadic.ofRank
  rw [hexponent, hfraction]

theorem isNaN_eq_false_iff (n : Number) : n.isNaN = false ↔ n.rank ≤ 2047 * 2 ^ 52 := by
  have hinf : infinityBits.toNat = 2047 * 2 ^ 52 := by decide
  rw [isNaN, decide_eq_false_iff_not, UInt64.lt_iff_toNat_lt, hinf, not_lt, rank]

theorem isInfinite_iff (n : Number) : n.isInfinite = true ↔ n.rank = 2047 * 2 ^ 52 := by
  have hinf : infinityBits.toNat = 2047 * 2 ^ 52 := by decide
  rw [isInfinite, beq_iff_eq, ← UInt64.toNat_inj, hinf, rank]

/-- Sign and rank are all there is to a number. -/
theorem ext_rank {a b : Number} (hs : a.isNegative = b.isNegative) (hr : a.rank = b.rank) :
    a = b := by
  have ha := isNegative_iff a
  have hb := isNegative_iff b
  have hra := rank_eq a
  have hrb := rank_eq b
  have hla := a.bits.toNat_lt
  have hlb := b.bits.toNat_lt
  have hsign : 2 ^ 63 ≤ a.bits.toNat ↔ 2 ^ 63 ≤ b.bits.toNat := by rw [← ha, hs, hb]
  have hbits : a.bits = b.bits := UInt64.toNat_inj.mp (by omega)
  cases a
  cases b
  rw [Number.mk.injEq]
  exact hbits

theorem exists_rank {r : Nat} (hr : r ≤ 2047 * 2 ^ 52) :
    ∃ n : Number, n.isNaN = false ∧ n.rank = r := by
  have hrank : (⟨UInt64.ofNat r⟩ : Number).rank = r := by
    rw [rank_eq, UInt64.toNat_ofNat']
    omega
  refine ⟨⟨UInt64.ofNat r⟩, ?_, hrank⟩
  rw [isNaN_eq_false_iff, hrank]
  exact hr

theorem absolute_eq (n : Number) : n.absolute = (Dyadic.ofRank n.rank).value := by
  rw [absolute, magnitude_eq]

theorem absolute_lt_iff {a b : Number} : a.absolute < b.absolute ↔ a.rank < b.rank := by
  rw [absolute_eq, absolute_eq]
  exact Dyadic.value_strictMono.lt_iff_lt

theorem absolute_inj {a b : Number} : a.absolute = b.absolute ↔ a.rank = b.rank := by
  rw [absolute_eq, absolute_eq]
  exact Dyadic.value_strictMono.injective.eq_iff

/-! ## The nearest number -/

/-- `n` is what a numeral with this sign and this absolute value is read as: no number is
nearer, and where another is as near the mantissa of `n` is even. -/
structure Nearest (negative : Bool) (v : ℚ) (n : Number) : Prop where
  notNaN : n.isNaN = false
  sign : n.isNegative = negative
  least : ∀ m : Number, m.isNaN = false → |n.absolute - v| ≤ |m.absolute - v|
  even : ∀ m : Number, m.isNaN = false → m.absolute ≠ n.absolute →
    |n.absolute - v| = |m.absolute - v| → n.magnitude.mantissa % 2 = 0

section

variable {a b v : ℚ}

theorem closer_left (h : a < b) : |a - v| < |b - v| ↔ 2 * v < a + b := by
  rw [← sq_lt_sq]
  constructor
  · intro hsq
    nlinarith
  · intro hmid
    nlinarith

theorem closer_right (h : a < b) : |b - v| < |a - v| ↔ a + b < 2 * v := by
  rw [← sq_lt_sq]
  constructor
  · intro hsq
    nlinarith
  · intro hmid
    nlinarith

theorem equally_close (h : a < b) (hmid : 2 * v = a + b) : |a - v| = |b - v| :=
  le_antisymm (not_lt.mp fun hlt => ((closer_right h).mp hlt).ne hmid.symm)
    (not_lt.mp fun hlt => ((closer_left h).mp hlt).ne hmid)

end

variable {n m : Number} {v : ℚ} {negative : Bool}

/-- What the interval of a number covers is at least as near to it as to any other, and
nearer if the mantissa is odd. -/
theorem closer_of_covers (h : n.magnitude.Covers v) (hne : m.rank ≠ n.rank) :
    |n.absolute - v| ≤ |m.absolute - v| ∧
      (n.magnitude.mantissa % 2 ≠ 0 → |n.absolute - v| < |m.absolute - v|) := by
  rw [magnitude_eq] at h ⊢
  obtain ⟨hlow, hhigh⟩ := h.le
  rcases Nat.lt_or_gt_of_ne hne with hlt | hlt
  · have habs := absolute_lt_iff.mpr hlt
    have hmid := Dyadic.le_low hlt
    rw [← absolute_eq, ← absolute_eq] at hmid
    rw [← not_lt, closer_left habs, closer_right habs]
    refine ⟨by linarith, fun hodd => ?_⟩
    have hinside := (h.lt hodd).1
    linarith
  · have habs := absolute_lt_iff.mpr hlt
    have hmid := Dyadic.high_le hlt
    rw [← absolute_eq, ← absolute_eq] at hmid
    rw [← not_lt, closer_left habs, closer_right habs]
    refine ⟨by linarith, fun hodd => ?_⟩
    have hinside := (h.lt hodd).2
    linarith

/-- **What the interval of a number covers is read as this number.** -/
theorem nearest_of_covers (hn : n.isNaN = false) (h : n.magnitude.Covers v) :
    Nearest n.isNegative v n where
  notNaN := hn
  sign := rfl
  least := by
    intro m _
    by_cases hrank : m.rank = n.rank
    · rw [absolute_inj.mpr hrank]
    · exact (closer_of_covers h hrank).1
  even := by
    intro m _ hne heq
    by_contra hodd
    exact absurd heq ((closer_of_covers h fun hr => hne (absolute_inj.mpr hr)).2 hodd).ne

/-- **A finite number is read only from what its interval covers.** -/
theorem covers_of_nearest (hfinite : n.rank < 2047 * 2 ^ 52) (hv : 0 ≤ v)
    (h : Nearest negative v n) : n.magnitude.Covers v := by
  -- the numbers next to `n` bound what is read as `n`
  have hupper : v ≤ n.magnitude.high ∧ (v = n.magnitude.high → n.magnitude.mantissa % 2 = 0) := by
    obtain ⟨m, hnan, hm⟩ := exists_rank (r := n.rank + 1) hfinite
    have habs : n.absolute < m.absolute := absolute_lt_iff.mpr (by omega)
    have hmid := Dyadic.high_eq n.rank
    rw [← hm, ← absolute_eq, ← absolute_eq, ← magnitude_eq] at hmid
    have hleast := h.least m hnan
    rw [← not_lt, closer_right habs] at hleast
    refine ⟨by linarith, fun heq => h.even m hnan habs.ne' (equally_close habs ?_)⟩
    rw [heq, hmid]
  have hlower : n.magnitude.low ≤ v ∧ (v = n.magnitude.low → n.magnitude.mantissa % 2 = 0) := by
    rcases Nat.eq_zero_or_pos n.rank with hzero | hpos
    · have hneg : n.magnitude.low < 0 := by
        rw [magnitude_eq, hzero, ← Dyadic.value_zero]
        exact Dyadic.low_lt_value _
      exact ⟨by linarith, fun heq => by linarith⟩
    · obtain ⟨m, hnan, hm⟩ := exists_rank (r := n.rank - 1) (by omega)
      have hrank : m.rank + 1 = n.rank := by omega
      have habs : m.absolute < n.absolute := absolute_lt_iff.mpr (by omega)
      have hmid := Dyadic.low_succ m.rank
      rw [hrank, ← absolute_eq, ← absolute_eq, ← magnitude_eq] at hmid
      have hleast := h.least m hnan
      rw [← not_lt, closer_left habs] at hleast
      refine ⟨by linarith, fun heq => h.even m hnan habs.ne (equally_close habs ?_).symm⟩
      rw [heq, hmid]
  exact Dyadic.covers_of_le hlower.1 hupper.1 fun htie => htie.elim hlower.2 hupper.2

/-- **Nothing is read as two numbers.** Of two that were equally near there would be none
between them, so one of their mantissas would be odd. -/
theorem Nearest.rank_le (hn : Nearest negative v n) (hm : Nearest negative v m) :
    m.rank ≤ n.rank := by
  by_contra! hlt
  have habs := absolute_lt_iff.mpr hlt
  have htie : |n.absolute - v| = |m.absolute - v| :=
    le_antisymm (hn.least m hm.notNaN) (hm.least n hn.notNaN)
  have heven := hn.even m hm.notNaN habs.ne' htie
  have heven' := hm.even n hn.notNaN habs.ne htie.symm
  rw [magnitude_eq, Dyadic.mantissa_mod_two] at heven heven'
  have hrank := (isNaN_eq_false_iff m).mp hm.notNaN
  obtain ⟨k, hkn, hk⟩ := exists_rank (r := n.rank + 1) (by omega)
  have hleft := absolute_lt_iff.mpr (show n.rank < k.rank by omega)
  have hright := absolute_lt_iff.mpr (show k.rank < m.rank by omega)
  have hkleft := hn.least k hkn
  have hkright := hm.least k hkn
  rw [← not_lt, closer_right hleft] at hkleft
  rw [← not_lt, closer_left hright] at hkright
  linarith

theorem Nearest.unique (hn : Nearest negative v n) (hm : Nearest negative v m) : m = n :=
  ext_rank (hm.sign.trans hn.sign.symm) (le_antisymm (hn.rank_le hm) (hm.rank_le hn))

end Number

end StackMachine
