import Mathlib.Data.Rat.Floor
import Mathlib.Tactic.FieldSimp
import Mathlib.Tactic.Positivity
import StackMachine.Proofs.Number.Numerals
import StackMachine.Proofs.Number.Rounding

/-!
# The search for the shortest decimal

The search goes through the powers of ten from above and stops at the first that has a
multiple in the rounding interval. Three things make this the decimal with the fewest
digits. It loses nothing on a grid, because a multiple that the interval covers has
another covered one between itself and the number, next to the number. It loses nothing
above its first grid, which lies over the whole interval, and it does not run past its
last, which is finer than the interval is wide. And a coarser grid does have fewer
digits: between a covered decimal and a covered decimal with more digits lies a power of
ten, which is a multiple of the next coarser grid.
-/

namespace StackMachine

namespace Dyadic

variable {x : Dyadic} {e : Int}

/-! ## Common units -/

theorem zpow_eq_div {b : ℚ} (hb : b ≠ 0) (k : Int) : b ^ k = b ^ k.toNat / b ^ (-k).toNat := by
  rw [← zpow_natCast, ← zpow_natCast, ← zpow_sub₀ hb]
  congr 1
  omega

/-- Multiples of a power of ten and quarters of the last place are whole numbers of one
common unit. -/
theorem exists_unit (x : Dyadic) (e : Int) :
    ∃ u : ℚ, 0 < u ∧ (∀ k : Nat, (k : ℚ) * 10 ^ e = (k * x.tenUnit e : Nat) * u) ∧
      ∀ k : Nat, (k : ℚ) * (x.gap / 4) = (k * x.quarterUnit e : Nat) * u := by
  have hten : (x.tenUnit e : ℚ) = 10 ^ e.toNat * 2 ^ (2 - x.exponent).toNat := by
    simp [tenUnit]
  have hquarter : (x.quarterUnit e : ℚ) = 2 ^ (x.exponent - 2).toNat * 10 ^ (-e).toNat := by
    simp [quarterUnit]
  have hgap : x.gap / 4 = 2 ^ (x.exponent - 2) := by
    rw [gap, zpow_sub₀ (by norm_num)]
    norm_num
  have hneg : (-(x.exponent - 2)).toNat = (2 - x.exponent).toNat := by omega
  refine ⟨1 / (10 ^ (-e).toNat * 2 ^ (2 - x.exponent).toNat), by positivity, ?_, ?_⟩
  · intro k
    rw [Nat.cast_mul, hten, zpow_eq_div (by norm_num)]
    field_simp
  · intro k
    rw [Nat.cast_mul, hquarter, hgap, zpow_eq_div (by norm_num), hneg]
    field_simp

theorem quartersBelow_le (x : Dyadic) : x.quartersBelow ≤ 2 := by
  unfold quartersBelow
  split
  · decide
  · exact le_rfl

theorem value_eq_quarters (x : Dyadic) : x.value = (4 * x.mantissa : Nat) * (x.gap / 4) := by
  rw [value, ← gap]
  push_cast
  ring

theorem high_eq_quarters (x : Dyadic) : x.high = (4 * x.mantissa + 2 : Nat) * (x.gap / 4) := by
  rw [high, value_eq_quarters]
  push_cast
  ring

theorem low_eq_quarters (hx : 0 < x.mantissa) :
    x.low = (4 * x.mantissa - x.quartersBelow : Nat) * (x.gap / 4) := by
  have hbelow := x.quartersBelow_le
  rw [low, value_eq_quarters, Nat.cast_sub (by omega)]
  ring

/-- The comparison between natural numbers is the one between the numbers they scale. -/
theorem roundsFrom_iff (hx : 0 < x.mantissa) (n : Nat) :
    x.roundsFrom e n = true ↔ x.Covers (n * 10 ^ e) := by
  obtain ⟨u, hu, hten, hquarter⟩ := exists_unit x e
  unfold roundsFrom Covers
  rw [low_eq_quarters hx, high_eq_quarters, hten, hquarter, hquarter]
  dsimp only
  split
  · rw [Bool.and_eq_true, decide_eq_true_iff, decide_eq_true_iff,
      mul_le_mul_iff_of_pos_right hu, mul_le_mul_iff_of_pos_right hu, Nat.cast_le, Nat.cast_le]
  · rw [Bool.and_eq_true, decide_eq_true_iff, decide_eq_true_iff,
      mul_lt_mul_iff_of_pos_right hu, mul_lt_mul_iff_of_pos_right hu, Nat.cast_lt, Nat.cast_lt]

/-! ## One grid -/

/-- The two multiples next to the number. -/
theorem neighbours (x : Dyadic) (e : Int) :
    let below := 4 * x.mantissa * x.quarterUnit e / x.tenUnit e
    (below : ℚ) * 10 ^ e ≤ x.value ∧ x.value ≤ (below + 1 : Nat) * 10 ^ e := by
  obtain ⟨u, hu, hten, hquarter⟩ := exists_unit x e
  have hunit : 0 < x.tenUnit e := Nat.mul_pos (Nat.pow_pos (by decide)) (Nat.pow_pos (by decide))
  intro below
  rw [value_eq_quarters, hquarter, hten, hten, mul_le_mul_iff_of_pos_right hu,
    mul_le_mul_iff_of_pos_right hu, Nat.cast_le, Nat.cast_le]
  exact ⟨Nat.div_mul_le_self .., (Nat.lt_mul_of_div_lt (Nat.lt_succ_self _) hunit).le⟩

theorem covers_self (x : Dyadic) : x.Covers x.value :=
  covers_of_lt x.low_lt_value x.value_lt_high

theorem onGrid_some (hx : 0 < x.mantissa) {n : Nat} (h : x.onGrid e = some n) :
    x.Covers (n * 10 ^ e) := by
  rw [← roundsFrom_iff hx]
  unfold onGrid at h
  dsimp only at h
  split at h
  · rename_i hbelow habove
    obtain rfl := Option.some.inj h
    split
    · exact hbelow
    · exact habove
  · rename_i hbelow _
    exact Option.some.inj h ▸ hbelow
  · rename_i _ habove
    exact Option.some.inj h ▸ habove
  · exact absurd h (by simp)

/-- **A grid without a hit has no multiple in the interval.** -/
theorem onGrid_none (hx : 0 < x.mantissa) (h : x.onGrid e = none) (n : Nat) :
    ¬ x.Covers (n * 10 ^ e) := by
  obtain ⟨hbelow, habove⟩ := neighbours x e
  have hpow : (0 : ℚ) < 10 ^ e := zpow_pos (by norm_num) _
  unfold onGrid at h
  dsimp only at h hbelow habove
  split at h
  · exact absurd h (by simp)
  · exact absurd h (by simp)
  · exact absurd h (by simp)
  · rename_i hmiss hmiss'
    rw [Bool.eq_false_iff, Ne, roundsFrom_iff hx] at hmiss hmiss'
    intro hn
    -- the neighbour on this side lies between `n` and the number
    rcases Nat.lt_or_ge n (4 * x.mantissa * x.quarterUnit e / x.tenUnit e + 1) with hlt | hge
    · refine hmiss (hn.between x.covers_self ?_ hbelow)
      exact mul_le_mul_of_nonneg_right (Nat.cast_le.mpr (Nat.lt_succ_iff.mp hlt)) hpow.le
    · refine hmiss' (x.covers_self.between hn habove ?_)
      exact mul_le_mul_of_nonneg_right (Nat.cast_le.mpr hge) hpow.le

/-! ## All grids -/

/-- A covered decimal on the coarsest grid that has one. -/
structure Coarsest (x : Dyadic) (d : Decimal) : Prop where
  covers : x.Covers d.value
  above : ∀ d' : Decimal, d.exponent < d'.exponent → ¬ x.Covers d'.value

/-- A search that has passed over nothing and has a hit before it ends stops at the
coarsest grid. -/
theorem shortestFrom_coarsest (hx : 0 < x.mantissa) {grids : Nat}
    (habove : ∀ d : Decimal, e < d.exponent → ¬ x.Covers d.value)
    (hhit : ∃ d : Decimal, e - grids < d.exponent ∧ d.exponent ≤ e ∧ x.Covers d.value) :
    x.Coarsest (x.shortestFrom grids e) := by
  induction grids generalizing e with
  | zero =>
      obtain ⟨d, hgt, hle, _⟩ := hhit
      omega
  | succ grids ih =>
      rw [shortestFrom]
      cases hgrid : x.onGrid e with
      | some n => exact ⟨onGrid_some hx hgrid, habove⟩
      | none =>
          refine ih (fun d hd => ?_) ?_
          · rcases (Int.le_of_sub_one_lt hd).lt_or_eq with hlt | heq
            · exact habove d hlt
            · rw [Decimal.value, ← heq]
              exact onGrid_none hx hgrid d.digits
          · obtain ⟨d, hgt, hle, hcovers⟩ := hhit
            refine ⟨d, by omega, ?_, hcovers⟩
            rcases hle.lt_or_eq with hlt | heq
            · omega
            · rw [Decimal.value, heq] at hcovers
              exact absurd hcovers (onGrid_none hx hgrid d.digits)

/-! ## The first and the last grid -/

/-- The fractions 28/93 and 59/196 enclose the decimal logarithm of two. -/
theorem two_zpow_le {l p : Int} (hup : 28 * l ≤ 93 * p) (hdown : 59 * l ≤ 196 * p) :
    (2 : ℚ) ^ l ≤ 10 ^ p := by
  have hten : (1 : ℚ) ≤ 10 := by norm_num
  rcases le_or_gt 0 l with hl | hl
  · refine le_of_pow_le_pow_left₀ (by norm_num : 93 ≠ 0) (by positivity) ?_
    calc ((2 : ℚ) ^ l) ^ 93 = (2 ^ 93) ^ l := by rw [← zpow_natCast, zpow_comm, zpow_natCast]
      _ ≤ (10 ^ 28) ^ l := zpow_le_zpow_left₀ hl (by norm_num) (by norm_num)
      _ = 10 ^ (28 * l) := by rw [← zpow_natCast, ← zpow_mul]; rfl
      _ ≤ 10 ^ (p * 93) := zpow_le_zpow_right₀ hten (by omega)
      _ = (10 ^ p) ^ 93 := by rw [zpow_mul]; rfl
  · refine le_of_pow_le_pow_left₀ (by norm_num : 196 ≠ 0) (by positivity) ?_
    calc ((2 : ℚ) ^ l) ^ 196 = (2 ^ 196) ^ l := by rw [← zpow_natCast, zpow_comm, zpow_natCast]
      _ ≤ (10 ^ 59) ^ l := by
          have hpow : ((10 : ℚ) ^ 59) ^ (-l) ≤ (2 ^ 196) ^ (-l) :=
            zpow_le_zpow_left₀ (by omega) (by norm_num) (by norm_num)
          rw [zpow_neg, zpow_neg, inv_le_inv₀ (by positivity) (by positivity)] at hpow
          exact hpow
      _ = 10 ^ (59 * l) := by rw [← zpow_natCast, ← zpow_mul]; rfl
      _ ≤ 10 ^ (p * 196) := zpow_le_zpow_right₀ hten (by omega)
      _ = (10 ^ p) ^ 196 := by rw [zpow_mul]; rfl

theorem ten_zpow_le {l p : Int} (hup : 93 * p ≤ 28 * l) (hdown : 196 * p ≤ 59 * l) :
    (10 : ℚ) ^ p ≤ 2 ^ l := by
  have hneg := two_zpow_le (l := -l) (p := -p) (by omega) (by omega)
  rw [zpow_neg, zpow_neg, inv_le_inv₀ (by positivity) (by positivity)] at hneg
  exact hneg

/-- A magnitude of the format that is not zero. -/
structure Proper (x : Dyadic) : Prop where
  pos : 0 < x.mantissa
  mantissa_lt : x.mantissa < 2 ^ 53
  le_exponent : -1074 ≤ x.exponent
  exponent_le : x.exponent ≤ 971

/-- The first grid lies above the interval. -/
theorem high_lt_ceiling (hx : x.Proper) : x.high < 10 ^ x.ceilingExponent := by
  have hlog : x.mantissa < 2 ^ (x.mantissa.log2 + 1) := Nat.lt_log2_self
  have hbits : x.mantissa.log2 < 53 := (Nat.log2_lt hx.pos.ne').mpr hx.mantissa_lt
  have hle := hx.le_exponent
  have hle' := hx.exponent_le
  have hmantissa : (x.mantissa : ℚ) + 1 ≤ 2 ^ (x.mantissa.log2 + 1) := by exact_mod_cast hlog
  calc x.high < (x.mantissa + 1) * x.gap := by
        rw [high, value, ← gap]
        linarith [x.gap_pos]
    _ ≤ 2 ^ (x.mantissa.log2 + 1) * x.gap := mul_le_mul_of_nonneg_right hmantissa x.gap_pos.le
    _ = 2 ^ (x.mantissa.log2 + 1 + x.exponent) := by
        rw [gap, zpow_add₀ (by norm_num)]
        norm_cast
    _ ≤ 10 ^ x.ceilingExponent := by
        unfold ceilingExponent
        exact two_zpow_le (by omega) (by omega)

/-- The last grid is finer than the interval is wide. -/
theorem finest_le_gap (hx : x.Proper) : (10 : ℚ) ^ (x.ceilingExponent - 23) ≤ x.gap / 2 := by
  have hbits : x.mantissa.log2 < 53 := (Nat.log2_lt hx.pos.ne').mpr hx.mantissa_lt
  have hle := hx.le_exponent
  have hle' := hx.exponent_le
  calc (10 : ℚ) ^ (x.ceilingExponent - 23) ≤ 2 ^ (x.exponent - 1) := by
        unfold ceilingExponent
        exact ten_zpow_le (by omega) (by omega)
    _ = x.gap / 2 := by rw [zpow_sub_one₀ (by norm_num), gap]; rfl

theorem low_pos (hx : 0 < x.mantissa) : 0 < x.low := by
  have hbelow := x.quartersBelow_le
  have hquarters : 0 < 4 * x.mantissa - x.quartersBelow := by omega
  rw [low_eq_quarters hx]
  exact mul_pos (Nat.cast_pos.mpr hquarters) (div_pos x.gap_pos (by norm_num))

/-- The interval is wide enough for a grid that is not coarser than half of the last place. -/
theorem exists_multiple (hx : 0 < x.mantissa) (he : (10 : ℚ) ^ e ≤ x.gap / 2) :
    ∃ n : Nat, x.Covers (n * 10 ^ e) := by
  have hpow : (0 : ℚ) < 10 ^ e := zpow_pos (by norm_num) _
  have hfloor : (⌊x.low / 10 ^ e⌋₊ : ℚ) * 10 ^ e ≤ x.low :=
    (le_div_iff₀ hpow).mp (Nat.floor_le (div_nonneg (low_pos hx).le hpow.le))
  have hnext : x.low < (⌊x.low / 10 ^ e⌋₊ + 1) * 10 ^ e :=
    (div_lt_iff₀ hpow).mp (Nat.lt_floor_add_one _)
  have hwidth : x.low + x.gap / 2 < x.high := by
    have hvalue := x.low_lt_value
    rw [high]
    linarith
  refine ⟨⌊x.low / 10 ^ e⌋₊ + 1, covers_of_lt (by exact_mod_cast hnext) ?_⟩
  push_cast
  linarith

/-- **The search ends on the coarsest grid with a covered decimal.** -/
theorem shortest_coarsest (hx : x.Proper) : x.Coarsest x.shortest := by
  refine shortestFrom_coarsest hx.pos (fun d hd hcovers => ?_) ?_
  · -- a multiple above the ceiling is zero or lies above the interval
    have hhigh := hcovers.le.2
    have hlow := (low_pos hx.pos).trans_le hcovers.le.1
    have hpow : (10 : ℚ) ^ x.ceilingExponent ≤ 10 ^ d.exponent :=
      zpow_le_zpow_right₀ (by norm_num) hd.le
    have hdigits : (1 : ℚ) ≤ d.digits := by
      rcases Nat.eq_zero_or_pos d.digits with hzero | hpos
      · rw [Decimal.value, hzero, Nat.cast_zero, zero_mul] at hlow
        exact absurd hlow (lt_irrefl _)
      · exact_mod_cast hpos
    have hvalue : (10 : ℚ) ^ d.exponent ≤ d.value :=
      le_mul_of_one_le_left (by positivity) hdigits
    linarith [high_lt_ceiling hx]
  · obtain ⟨n, hn⟩ := exists_multiple hx.pos (finest_le_gap hx)
    exact ⟨⟨n, x.ceilingExponent - 23⟩, by dsimp only; omega, by dsimp only; omega, hn⟩

/-- **On the coarsest grid a decimal has the fewest digits.** -/
theorem Coarsest.fewest {d d' : Decimal} (hd : x.Coarsest d) (hd' : x.Covers d'.value) :
    (Decimal.numeral d.digits).length ≤ (Decimal.numeral d'.digits).length := by
  by_contra! hlt
  obtain ⟨k, hk⟩ : ∃ k, (Decimal.numeral d.digits).length = k + 2 := by
    have hpos := Decimal.length_numeral_pos d'.digits
    exact ⟨(Decimal.numeral d.digits).length - 2, by omega⟩
  have hfew : d'.digits < 10 ^ (k + 1) :=
    (Decimal.length_numeral_le_iff (Nat.succ_pos k)).mp (by omega)
  have hmany : 10 ^ (k + 1) ≤ d.digits := by
    rw [← not_lt, ← Decimal.length_numeral_le_iff (Nat.succ_pos k)]
    omega
  have hexponent : d'.exponent ≤ d.exponent := not_lt.mp fun h => hd.above d' h hd'
  have hpow : (10 : ℚ) ^ d'.exponent ≤ 10 ^ d.exponent :=
    zpow_le_zpow_right₀ (by norm_num) hexponent
  -- a power of ten between the two, on the next coarser grid
  have hpower : (⟨10 ^ k, d.exponent + 1⟩ : Decimal).value = 10 ^ (k + 1) * 10 ^ d.exponent := by
    rw [Decimal.value, zpow_add_one₀ (by norm_num)]
    push_cast
    ring
  refine hd.above ⟨10 ^ k, d.exponent + 1⟩ (Int.lt_succ _) (hd'.between hd.covers ?_ ?_)
  · rw [hpower]
    exact mul_le_mul (by exact_mod_cast hfew.le) hpow (by positivity) (by positivity)
  · rw [hpower]
    exact mul_le_mul_of_nonneg_right (by exact_mod_cast hmany) (by positivity)

theorem ofRank_proper {r : Nat} (hpos : 0 < r) (hfinite : r < 2047 * 2 ^ 52) :
    (ofRank r).Proper := by
  unfold ofRank
  rw [leastNormal_eq]
  have hleast : leastExponent = -1074 := rfl
  split
  · constructor <;> dsimp only <;> omega
  · constructor <;> dsimp only <;> omega

end Dyadic

namespace Number

variable {n : Number}

theorem magnitudeBits_eq_zero_iff : n.magnitudeBits = 0 ↔ n.rank = 0 := by
  rw [← UInt64.toNat_inj]
  rfl

/-- **The digits of a finite number are covered by its interval.** -/
theorem decimal_covers (hfinite : n.rank < 2047 * 2 ^ 52) :
    n.magnitude.Covers n.decimal.value := by
  rw [decimal, magnitude_eq]
  split
  · rename_i hzero
    rw [magnitudeBits_eq_zero_iff.mp hzero, Decimal.value, Nat.cast_zero, zero_mul,
      ← Dyadic.value_zero]
    exact Dyadic.covers_self _
  · rename_i hpos
    rw [magnitudeBits_eq_zero_iff] at hpos
    exact (Dyadic.shortest_coarsest (Dyadic.ofRank_proper (by omega) hfinite)).covers

/-- **No decimal with fewer digits is covered.** -/
theorem decimal_fewest (hfinite : n.rank < 2047 * 2 ^ 52) {d : Decimal}
    (hd : n.magnitude.Covers d.value) :
    (Decimal.numeral n.decimal.digits).length ≤ (Decimal.numeral d.digits).length := by
  rw [magnitude_eq] at hd
  rw [decimal, magnitude_eq]
  split
  · exact Decimal.length_numeral_pos d.digits
  · rename_i hpos
    rw [magnitudeBits_eq_zero_iff] at hpos
    exact (Dyadic.shortest_coarsest (Dyadic.ofRank_proper (by omega) hfinite)).fewest hd

end Number

end StackMachine
