/-!
# Opcodes

The instruction set. An instruction is one opcode byte followed by its operand:
nothing, a byte, or two bytes with the high one first. The byte of an opcode is
its place in `Opcode.all`.
-/

namespace StackMachine

inductive Opcode where
  | constant
  | pushNil
  | pushTrue
  | pushFalse
  | pop
  | getLocal
  | setLocal
  | getGlobal
  | defineGlobal
  | setGlobal
  | equal
  | notEqual
  | greater
  | greaterEqual
  | less
  | lessEqual
  | add
  | subtract
  | multiply
  | divide
  | not
  | negate
  | print
  | jump
  | jumpIfFalse
  | loop
  | call
  | ret
  deriving DecidableEq, Repr, Inhabited

namespace Opcode

/-- All opcodes, in the order of their bytes. -/
def all : Array Opcode :=
  #[constant, pushNil, pushTrue, pushFalse, pop, getLocal, setLocal, getGlobal, defineGlobal,
    setGlobal, equal, notEqual, greater, greaterEqual, less, lessEqual, add, subtract, multiply,
    divide, not, negate, print, jump, jumpIfFalse, loop, call, ret]

def ofByte? (b : UInt8) : Option Opcode :=
  all[b.toNat]?

def toByte : Opcode → UInt8
  | constant => 0
  | pushNil => 1
  | pushTrue => 2
  | pushFalse => 3
  | pop => 4
  | getLocal => 5
  | setLocal => 6
  | getGlobal => 7
  | defineGlobal => 8
  | setGlobal => 9
  | equal => 10
  | notEqual => 11
  | greater => 12
  | greaterEqual => 13
  | less => 14
  | lessEqual => 15
  | add => 16
  | subtract => 17
  | multiply => 18
  | divide => 19
  | not => 20
  | negate => 21
  | print => 22
  | jump => 23
  | jumpIfFalse => 24
  | loop => 25
  | call => 26
  | ret => 27

@[simp]
theorem ofByte?_toByte (op : Opcode) : ofByte? op.toByte = some op := by
  cases op <;> rfl

/-- The opcode as a listing names it. -/
def name : Opcode → String
  | constant => "CONSTANT"
  | pushNil => "NIL"
  | pushTrue => "TRUE"
  | pushFalse => "FALSE"
  | pop => "POP"
  | getLocal => "GET_LOCAL"
  | setLocal => "SET_LOCAL"
  | getGlobal => "GET_GLOBAL"
  | defineGlobal => "DEFINE_GLOBAL"
  | setGlobal => "SET_GLOBAL"
  | equal => "EQUAL"
  | notEqual => "NOT_EQUAL"
  | greater => "GREATER"
  | greaterEqual => "GREATER_EQUAL"
  | less => "LESS"
  | lessEqual => "LESS_EQUAL"
  | add => "ADD"
  | subtract => "SUBTRACT"
  | multiply => "MULTIPLY"
  | divide => "DIVIDE"
  | not => "NOT"
  | negate => "NEGATE"
  | print => "PRINT"
  | jump => "JUMP"
  | jumpIfFalse => "JUMP_IF_FALSE"
  | loop => "LOOP"
  | call => "CALL"
  | ret => "RETURN"

def ofName? (s : String) : Option Opcode :=
  all.find? (·.name == s)

/-- How many operand bytes follow the opcode. -/
def operandWidth : Opcode → Nat
  | constant | getLocal | setLocal | getGlobal | defineGlobal | setGlobal | call => 1
  | jump | jumpIfFalse | loop => 2
  | _ => 0

end Opcode

end StackMachine
