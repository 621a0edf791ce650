import StackMachine.Decimal.Shortest

/-!
# Numbers

A number is a double precision float, kept as its 64 bits. Two numbers with
different bits are different constants even where arithmetic cannot tell them
apart: `0` and `-0`, or two payloads of a not-a-number.
-/

namespace StackMachine

/-- A double precision float, by its bits. -/
structure Number where
  bits : UInt64
  deriving DecidableEq, Hashable, Repr, Inhabited

namespace Number

/-- The bit that carries the sign. -/
def signBit : UInt64 := 0x8000000000000000

/-- The bits of the positive infinity. -/
def infinityBits : UInt64 := 0x7ff0000000000000

/-- The bit that tells a quiet not-a-number from a signalling one. -/
def quietBit : UInt64 := 0x0008000000000000

/-- The bits that carry exponent and fraction. -/
def magnitudeBits (n : Number) : UInt64 :=
  n.bits &&& ~~~signBit

/-- Whether the sign bit is set. -/
def isNegative (n : Number) : Bool :=
  n.bits &&& signBit != 0

def isNaN (n : Number) : Bool :=
  infinityBits < n.magnitudeBits

def isInfinite (n : Number) : Bool :=
  n.magnitudeBits == infinityBits

def toFloat (n : Number) : Float :=
  Float.ofBits n.bits

def ofFloat (x : Float) : Number :=
  ⟨x.toBits⟩

/-- The number nearest to a 64-bit integer, an even one at a half. -/
def ofInt64 (i : Int64) : Number :=
  ofFloat i.toFloat

/-- The number nearest to a natural number, an even one at a half. Of one that has
more than 64 bits the lowest are put together into a single bit, which is all that
rounding asks of them. -/
def ofNat (n : Nat) : Number :=
  let excess := n.log2 - 63
  let rest := if n % Nat.pow 2 excess = 0 then 0 else 1
  ofFloat ((n / Nat.pow 2 excess ||| rest).toUInt64.toFloat.scaleB excess)

/-- What an operation without a meaningful result gives. -/
def invalid : Number :=
  ⟨signBit ||| infinityBits ||| quietBit⟩

/-- The same not-a-number, made quiet. -/
def quieted (n : Number) : Number :=
  ⟨n.bits ||| quietBit⟩

/-- Applies a float operation. The first not-a-number among the operands is the
result, so that its payload survives. -/
def lift (op : Float → Float → Float) (a b : Number) : Number :=
  if a.isNaN then a.quieted
  else if b.isNaN then b.quieted
  else
    let r := ofFloat (op a.toFloat b.toFloat)
    if r.isNaN then invalid else r

def add (a b : Number) : Number := lift (· + ·) a b

def sub (a b : Number) : Number := lift (· - ·) a b

def mul (a b : Number) : Number := lift (· * ·) a b

def div (a b : Number) : Number := lift (· / ·) a b

/-- Flips the sign, also of a zero and of a not-a-number. -/
def neg (n : Number) : Number :=
  ⟨n.bits ^^^ signBit⟩

def lt (a b : Number) : Bool := decide (a.toFloat < b.toFloat)

def le (a b : Number) : Bool := decide (a.toFloat ≤ b.toFloat)

/-- Equality of floats: the zeros are equal, and a not-a-number equals nothing. -/
def feq (a b : Number) : Bool := a.toFloat == b.toFloat

/-- The larger of a number and a bound; a not-a-number gives the bound. -/
def atLeast (bound n : Number) : Number :=
  if bound.lt n then n else bound

/-- Magnitude of a finite number as mantissa and exponent. -/
def magnitude (n : Number) : Dyadic :=
  let exponent := (n.magnitudeBits >>> 52).toNat
  let fraction := (n.magnitudeBits &&& 0x000fffffffffffff).toNat
  if exponent = 0 then ⟨fraction, Dyadic.leastExponent⟩
  else ⟨Dyadic.leastNormal + fraction, exponent + Dyadic.leastExponent - 1⟩

/-- The decimal that stands for the magnitude of a finite number. -/
def decimal (n : Number) : Decimal :=
  if n.magnitudeBits = 0 then ⟨0, 0⟩ else n.magnitude.shortest

/-- The sign in front of a number's digits. -/
def sign (n : Number) : List Char :=
  if n.isNegative then ['-'] else []

/-- A finite number with every digit written out. -/
def plain (n : Number) : List Char :=
  n.sign ++ n.decimal.plain

/-- A finite number with one digit before the point and a signed exponent. -/
def scientific (n : Number) : List Char :=
  Decimal.signExponent (n.sign ++ n.decimal.exponential)

/-- The text of a number: the fewest digits that read back, written with an
exponent where that is shorter, and with a sign whenever the sign bit is set. -/
def text (n : Number) : String :=
  if n.isNaN then "nan"
  else if n.isInfinite then if n.isNegative then "-inf" else "inf"
  else
    String.ofList (if n.scientific.length < n.plain.length then n.scientific else n.plain)

/-- The bits as sixteen hexadecimal digits. -/
def hex (n : Number) : String :=
  let ds := Nat.toDigits 16 n.bits.toNat
  String.ofList (List.replicate (16 - ds.length) '0' ++ ds)

end Number

end StackMachine
