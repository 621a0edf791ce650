import StackMachine.Object

/-!
# Native functions

A small library of bodies for native functions, looked up by name.
-/

namespace StackMachine

namespace Primitive

/-- Interns a text and goes on with its object. A refusal becomes the native
function's own error. -/
def internThen (text : String) (next : Handle → Primitive) : Primitive :=
  intern text fun
    | .ok h => next h
    | .error e => done (.error e.message)

/-- Answers an interned text. -/
def answerText (text : String) : Primitive :=
  internThen text fun h => done (.ok (.object h))

/-- The first argument, or nil. -/
def first (arguments : Array Value) : Primitive :=
  done (.ok (arguments[0]?.getD .nil))

/-- The number of arguments. -/
def count (arguments : Array Value) : Primitive :=
  done (.ok (.number (Number.ofNat arguments.size)))

/-- The sum of the arguments, which must be numbers. -/
def sum (arguments : Array Value) : Primitive :=
  match arguments.foldlM Value.add (.number (Number.ofNat 0)) with
  | .ok total => done (.ok total)
  | .error e => done (.error e.message)

/-- Fails with the arguments as its text. -/
def fail (arguments : Array Value) : Primitive :=
  inspect fun heap =>
    done (.error (",".intercalate (arguments.toList.map (Value.text heap.describe))))

/-- The arguments as text, each in angle brackets. -/
def showAll (arguments : Array Value) : Primitive :=
  inspect fun heap =>
    answerText (arguments.foldl (fun text v => text ++ "<" ++ v.text heap.describe ++ ">") "")

/-- The name of the first argument's type. -/
def typeOf (arguments : Array Value) : Primitive :=
  inspect fun heap =>
    answerText ((arguments[0]?.map (Value.typeName heap.describe)).getD "none")

/-- Interns one string for each number, and answers the last of them. -/
def churnFrom (argc : Nat) (last : Value) : List Nat → Primitive
  | [] => done (.ok last)
  | i :: rest => internThen s!"churn-{argc}-{i}" fun h => churnFrom argc (.object h) rest

/-- Makes ten strings and drops all but the last. -/
def churn (arguments : Array Value) : Primitive :=
  churnFrom arguments.size .nil (List.range 10)

/-- The time in whole milliseconds since the epoch. There is none before it. -/
def clock (_ : Array Value) : Primitive :=
  look fun moment =>
    if moment.time < 0 then
      done (.error ("System clock is before the Unix epoch: " ++
        "second time provided was later than self"))
    else done (.ok (.number (Number.ofNat (moment.time.toNat / 1000000))))

/-- The body with a given name. -/
def ofName? : String → Option (Array Value → Primitive)
  | "first" => some first
  | "count" => some count
  | "sum" => some sum
  | "fail" => some fail
  | "show" => some showAll
  | "type" => some typeOf
  | "churn" => some churn
  | "clock" => some clock
  | _ => none

end Primitive

/-- The native function that reads the clock. -/
def NativeFunction.clock : NativeFunction where
  name := "clock"
  arity := 0
  body := Primitive.clock

end StackMachine
