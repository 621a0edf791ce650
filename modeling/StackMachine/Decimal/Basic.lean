/-!
# Decimal numerals

A decimal is a natural number of digits and a power of ten. It can be written
out in full (`250000`, `0.00025`) or with an exponent (`2.5e5`, `2.5e-4`).
`signExponent` goes over a text of the second kind and gives its exponent a sign
in any case and at least two digits (`2.5e+05`, `2.5e-04`).
-/

namespace StackMachine

/-- The number `digits * 10 ^ exponent`. -/
structure Decimal where
  digits : Nat
  exponent : Int
  deriving DecidableEq, Repr

namespace Decimal

/-- The decimal digits of a natural number, most significant first. -/
def numeral (n : Nat) : List Char :=
  Nat.toDigits 10 n

/-- Fills a numeral up with zeros on the left until it is at least `width` long. -/
def zeroFill (width : Nat) (ds : List Char) : List Char :=
  List.replicate (width - ds.length) '0' ++ ds

/-- Puts a decimal point in front of the last `places` characters. -/
def insertPoint (places : Nat) (ds : List Char) : List Char :=
  ds.take (ds.length - places) ++ '.' :: ds.drop (ds.length - places)

/-- Every digit written out. A whole number has no point, and a fraction has at
least one digit before its point. -/
def plain (d : Decimal) : List Char :=
  match d.exponent with
  | .ofNat zeros => numeral d.digits ++ List.replicate zeros '0'
  | .negSucc k => insertPoint (k + 1) (zeroFill (k + 2) (numeral d.digits))

/-- The digits with a point after the first, if there is a second. -/
def mantissa : List Char → List Char
  | first :: second :: rest => first :: '.' :: second :: rest
  | ds => ds

/-- An integer, with a sign only if it is negative. -/
def integer (i : Int) : List Char :=
  if i < 0 then '-' :: numeral i.natAbs else numeral i.natAbs

/-- One digit before the point, and the power of ten behind an `e`. -/
def exponential (d : Decimal) : List Char :=
  let ds := numeral d.digits
  mantissa ds ++ 'e' :: integer (d.exponent + (ds.length - 1 : Nat))

/-- The text of a power of ten, with its sign and at least two digits. -/
def padExponent : List Char → List Char
  | '-' :: ds => '-' :: zeroFill 2 ds
  | ds => '+' :: zeroFill 2 ds

/-- A text up to the first `c`, and what stands behind that `c` if there is one. -/
def cut (c : Char) (cs : List Char) : List Char × Option (List Char) :=
  (cs.takeWhile (· != c), (cs.dropWhile (· != c)).tail?)

/-- Writes what stands behind the first `e` of a text with its sign and at least
two digits. A text without an `e` stays as it is. -/
def signExponent (cs : List Char) : List Char :=
  match cut 'e' cs with
  | (front, some power) => front ++ 'e' :: padExponent power
  | (_, none) => cs

end Decimal

end StackMachine
