import StackMachine.Number

/-!
# Values

The machine's values: nil, booleans, numbers, and handles of heap objects. Two
notions of sameness matter. The language's own equality, `Value.equal`, compares
numbers as floats but lets a not-a-number equal every other. Identity of
constants is equality of the terms themselves, so it keeps `0` from `-0` and
one not-a-number from another.
-/

namespace StackMachine

/-- The name of a heap object: its slot, and how often that slot had been freed
when the object was stored. -/
structure Handle where
  index : Nat
  generation : UInt32
  deriving DecidableEq, Hashable, Repr, Inhabited

/-- A handle as messages show it. -/
def Handle.text (h : Handle) : String :=
  s!"GcRef({h.index}@{h.generation})"

inductive Value where
  | nil
  | bool (b : Bool)
  | number (n : Number)
  | object (h : Handle)
  deriving DecidableEq, Repr, Inhabited

/-- Why an operator refuses its operands. -/
inductive OperandError where
  | notNumbers
  | notNumber
  | notAddable
  deriving DecidableEq, Repr

def OperandError.message : OperandError → String
  | notNumbers => "Operands must be numbers."
  | notNumber => "Operand must be a number."
  | notAddable => "Operands must be two numbers or two strings."

namespace Value

/-- The handle of an object, if the value is one. -/
def handle? : Value → Option Handle
  | object h => some h
  | _ => none

/-- Everything counts as true except nil and false. -/
def isTruthy : Value → Bool
  | nil => false
  | bool b => b
  | _ => true

/-- Equality as a program sees it. Objects are equal when they are the same
object, and values of different kinds never are. -/
def equal : Value → Value → Bool
  | nil, nil => true
  | bool a, bool b => a == b
  | number a, number b => a.feq b || (a.isNaN && b.isNaN)
  | object a, object b => a == b
  | _, _ => false

/-- Applies an operation that is defined on two numbers only. -/
def onNumbers (op : Number → Number → Value) : Value → Value → Except OperandError Value
  | number a, number b => .ok (op a b)
  | _, _ => .error .notNumbers

def add (a b : Value) : Except OperandError Value :=
  onNumbers (fun x y => number (x.add y)) a b

def sub (a b : Value) : Except OperandError Value :=
  onNumbers (fun x y => number (x.sub y)) a b

def mul (a b : Value) : Except OperandError Value :=
  onNumbers (fun x y => number (x.mul y)) a b

def div (a b : Value) : Except OperandError Value :=
  onNumbers (fun x y => number (x.div y)) a b

def less (a b : Value) : Except OperandError Value :=
  onNumbers (fun x y => bool (x.lt y)) a b

def lessEqual (a b : Value) : Except OperandError Value :=
  onNumbers (fun x y => bool (x.le y)) a b

def greater (a b : Value) : Except OperandError Value :=
  onNumbers (fun x y => bool (y.lt x)) a b

def greaterEqual (a b : Value) : Except OperandError Value :=
  onNumbers (fun x y => bool (y.le x)) a b

def negate : Value → Except OperandError Value
  | number n => .ok (number n.neg)
  | _ => .error .notNumber

def not (v : Value) : Value :=
  bool (!v.isTruthy)

end Value

/-- The objects among some values, in order. -/
def handlesOf (vs : List Value) : List Handle :=
  vs.filterMap Value.handle?

end StackMachine
