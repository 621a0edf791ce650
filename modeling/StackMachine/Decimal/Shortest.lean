import StackMachine.Decimal.Basic

/-!
# The shortest decimal of a binary fraction

A double precision number stands for every real that rounds to it. Those reals
form an interval around the number itself, and the shortest decimal is found on
the coarsest power of ten that has a multiple in this interval: a coarser grid
leaves fewer digits to write.

On a given grid only the two neighbours of the number matter, because any other
multiple in the interval lies behind one of them. All comparisons are made
between natural numbers, after both sides are scaled to a common unit.
-/

namespace StackMachine

/-- The positive number `mantissa * 2 ^ exponent`, with the exponent of the last
place of its format. -/
structure Dyadic where
  mantissa : Nat
  exponent : Int
  deriving DecidableEq, Repr

namespace Dyadic

/-- The mantissa at which the format steps to the next exponent. -/
def leastNormal : Nat := Nat.pow 2 52

/-- The exponent of the last place of the smallest numbers. -/
def leastExponent : Int := -1074

/-- The distance down to the end of the rounding interval, in quarters of the
last place. It is half as long where the numbers below lie twice as dense. -/
def quartersBelow (x : Dyadic) : Nat :=
  if x.mantissa = leastNormal ∧ leastExponent < x.exponent then 1 else 2

/-- How many common units make one multiple of `10 ^ e`. -/
def tenUnit (x : Dyadic) (e : Int) : Nat :=
  Nat.pow 10 e.toNat * Nat.pow 2 (2 - x.exponent).toNat

/-- How many common units make a quarter of the last place of `x`. -/
def quarterUnit (x : Dyadic) (e : Int) : Nat :=
  Nat.pow 2 (x.exponent - 2).toNat * Nat.pow 10 (-e).toNat

/-- Whether `n * 10 ^ e` rounds to `x`. A half goes to the even mantissa, so the
ends of the interval belong to it exactly when the mantissa is even. -/
def roundsFrom (x : Dyadic) (e : Int) (n : Nat) : Bool :=
  let low := (4 * x.mantissa - x.quartersBelow) * x.quarterUnit e
  let high := (4 * x.mantissa + 2) * x.quarterUnit e
  let point := n * x.tenUnit e
  if x.mantissa % 2 = 0 then low ≤ point && point ≤ high else low < point && point < high

/-- The multiple of `10 ^ e` that rounds to `x` and lies nearest to it, if there
is one. Of two at the same distance the larger is taken. -/
def onGrid (x : Dyadic) (e : Int) : Option Nat :=
  let value := 4 * x.mantissa * x.quarterUnit e
  let unit := x.tenUnit e
  let below := value / unit
  match x.roundsFrom e below, x.roundsFrom e (below + 1) with
  | true, true => some (if 2 * value < (2 * below + 1) * unit then below else below + 1)
  | true, false => some below
  | false, true => some (below + 1)
  | false, false => none

/-- The number itself, to its last digit. -/
def exact (x : Dyadic) : Decimal :=
  match x.exponent with
  | .ofNat k => ⟨x.mantissa * Nat.pow 2 k, 0⟩
  | .negSucc k => ⟨x.mantissa * Nat.pow 5 (k + 1), x.exponent⟩

/-- Tries `grids` powers of ten from `10 ^ e` downwards. -/
def shortestFrom (x : Dyadic) : (grids : Nat) → (e : Int) → Decimal
  | 0, _ => x.exact
  | grids + 1, e =>
    match x.onGrid e with
    | some n => ⟨n, e⟩
    | none => x.shortestFrom grids (e - 1)

/-- An exponent whose power of ten lies above the whole rounding interval:
0.30103 is just over the decimal logarithm of two. -/
def ceilingExponent (x : Dyadic) : Int :=
  (x.mantissa.log2 + 1 + x.exponent) * 30103 / 100000 + 2

/-- The decimal with the fewest digits among those that round to `x`, and of
these the nearest. Seventeen digits always suffice, so the search ends on one of
its grids. -/
def shortest (x : Dyadic) : Decimal :=
  x.shortestFrom 24 x.ceilingExponent

end Dyadic

end StackMachine
