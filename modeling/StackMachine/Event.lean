import StackMachine.Object

/-!
# Events

What the machine reports about its work, for whoever keeps a log. An event has a
level, a message and named fields.
-/

namespace StackMachine

inductive Event where
  | collectionBegun (number objects bytes : Nat)
  | objectFreed (index : Nat) (kind : ObjectKind) (size : Nat)
  | collectionEnded (freed collectedBytes bytes threshold : Nat)
  | functionResized (size bytes : Nat)
  | nativeDefined (name : String) (arity : UInt8)
  | runBegun (function : Handle) (globals : Nat)
  | runEnded (result : String) (objects bytes : Nat)
  | runtimeError (cause : String) (line : Nat)
  | fatalError (message : String)
  | executing (instruction stack : String)
  deriving DecidableEq, Repr

/-- The value of an event's field. -/
inductive EventField where
  | count (n : Nat)
  | text (s : String)
  deriving DecidableEq, Repr

namespace Event

/-- Whether the event reports an instruction about to be executed. -/
def isInstruction : Event → Bool
  | executing _ _ => true
  | _ => false

def level : Event → String
  | objectFreed _ _ _ | functionResized _ _ | executing _ _ => "TRACE"
  | runtimeError _ _ => "WARN"
  | fatalError _ => "ERROR"
  | _ => "DEBUG"

def message : Event → String
  | collectionBegun _ _ _ => "gc begin"
  | objectFreed _ _ _ => "free"
  | collectionEnded _ _ _ _ => "gc end"
  | functionResized _ _ => "function resized"
  | nativeDefined _ _ => "native defined"
  | runBegun _ _ => "run begin"
  | runEnded _ _ _ => "run end"
  | runtimeError cause _ => s!"runtime error: {cause}"
  | fatalError message => s!"fatal error: {message}"
  | executing instruction _ => instruction

def fields : Event → List (String × EventField)
  | collectionBegun number objects bytes =>
    [("collection", .count number), ("objects", .count objects), ("bytes", .count bytes)]
  | objectFreed index kind size =>
    [("index", .count index), ("kind", .text kind.tag), ("size", .count size)]
  | collectionEnded freed collectedBytes bytes threshold =>
    [("freed", .count freed), ("collected_bytes", .count collectedBytes), ("bytes", .count bytes),
      ("next_gc", .count threshold)]
  | functionResized size bytes => [("size", .count size), ("bytes", .count bytes)]
  | nativeDefined name arity => [("name", .text name), ("arity", .count arity.toNat)]
  | runBegun function globals =>
    [("function", .text function.text), ("globals", .count globals)]
  | runEnded result objects bytes =>
    [("result", .text result), ("objects", .count objects), ("bytes", .count bytes)]
  | runtimeError _ line => [("line", .count line)]
  | fatalError _ => []
  | executing _ stack => [("stack", .text stack)]

end Event

end StackMachine
