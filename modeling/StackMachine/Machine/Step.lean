import StackMachine.Machine.Call

/-!
# Single steps

What each instruction does. An operator looks at its operands before it takes
them off the stack, so that an error leaves them there and a collection in the
middle still finds them.
-/

namespace StackMachine

namespace Exec

/-- Replaces the two topmost values by the result of an operator. -/
def binary (op : Value → Value → Except OperandError Value) : Exec Unit := do
  let b ← peek 0
  let a ← peek 1
  let result ← orMismatch (op a b)
  let _ ← pop
  let _ ← pop
  push result

/-- The text of two strings one after the other. -/
def concatenation? (heap : Heap) : Value → Value → Option String
  | .object a, .object b =>
    match heap.string? a, heap.string? b with
    | some s, some t => some (s ++ t)
    | _, _ => none
  | _, _ => none

/-- Adds two numbers or joins two strings. -/
def add : Exec Unit := do
  let b ← peek 0
  let a ← peek 1
  match concatenation? (← get).heap a b with
  | some joined =>
    let result ← intern joined
    let _ ← pop
    let _ ← pop
    push (.object result)
  | none =>
    let result ← orMismatch ((a.add b).mapError fun _ => .notAddable)
    let _ ← pop
    let _ ← pop
    push result

/-- Replaces the two topmost values by whether `p` holds of them. -/
def compare (p : Value → Value → Bool) : Exec Unit := do
  let b ← pop
  let a ← pop
  push (.bool (p a b))

/-- Executes an instruction that has been read. -/
def perform (op : Opcode) (n : Nat) : Exec Unit :=
  match op with
  | .constant => do push (← constant n)
  | .pushNil => push .nil
  | .pushTrue => push (.bool true)
  | .pushFalse => push (.bool false)
  | .pop => do let _ ← pop
  | .getLocal => do push (← getSlot (← localSlot n))
  | .setLocal => do
    let slot ← localSlot n
    setSlot slot (← peek 0)
  | .getGlobal => do
    let key ← name n
    match (← get).globals[key]? with
    | some v => push v
    | none => undefined key
  | .defineGlobal => do
    let key ← name n
    setGlobal key (← peek 0)
    let _ ← pop
  | .setGlobal => do
    let key ← name n
    let v ← peek 0
    if (← get).globals.contains key then setGlobal key v else undefined key
  | .equal => compare Value.equal
  | .notEqual => compare fun a b => !a.equal b
  | .greater => binary Value.greater
  | .greaterEqual => binary Value.greaterEqual
  | .less => binary Value.less
  | .lessEqual => binary Value.lessEqual
  | .add => add
  | .subtract => binary Value.sub
  | .multiply => binary Value.mul
  | .divide => binary Value.div
  | .not => do push (← pop).not
  | .negate => do
    let result ← orMismatch (← peek 0).negate
    let _ ← pop
    push result
  | .print => do print (← pop)
  | .jump | .loop => jump op n
  | .jumpIfFalse => do
    let condition ← pop
    if !condition.isTruthy then jump op n
  | .call => do callValue (← peek n) n
  | .ret => ret

/-- Reads and executes one instruction. -/
def step : Exec Unit := do
  let (op, n) ← fetch
  perform op n

end Exec

end StackMachine
