import Lowering.Code.Describe
import Lowering.Strategy

/-!
# The log

What compiling and linking report on the way. Events are kept as data and put into words when
someone asks for them, since the words of some are long.
-/

namespace Lowering

/-- How important an event is, from the most important down. -/
inductive Level where
  | error | warn | info | debug | trace
  deriving DecidableEq

namespace Level

/-- The name of a level. -/
def name : Level → String
  | error => "ERROR"
  | warn => "WARN"
  | info => "INFO"
  | debug => "DEBUG"
  | trace => "TRACE"

/-- The rank of a level; a greater rank is less important. -/
def rank : Level → Nat
  | error => 1
  | warn => 2
  | info => 3
  | debug => 4
  | trace => 5

end Level

/-- Something that the log reports. -/
inductive Event where
  /-- A node compiles in a general way. -/
  | dispatched (kind : NodeKind) (descriptor : Descriptor)
  /-- A node compiles by a routine. -/
  | routed (kind : NodeKind) (routine : Routine)
  /-- A literal stands among other content of a field and has no effect. -/
  | literalDropped (literal : Scalar)
  /-- A node stands where only a literal counts. -/
  | literalExpected (found : NodeKind)
  /-- A function is complete: the value of its name in the heap of that moment, the op-lines of its
  body and its parameters. -/
  | functionCompiled (heap : Heap) (name : Value) (body params : Nat)
  /-- Linking is complete. -/
  | linked (ops slots : Nat)
  /-- A program is compiled. -/
  | compiled (ops : Nat)

namespace Event

/-- The level of an event. -/
def level : Event → Level
  | literalDropped _ | literalExpected _ => .warn
  | compiled _ => .info
  | routed _ _ | functionCompiled _ _ _ _ | linked _ _ => .debug
  | dispatched _ _ => .trace

/-- The part of the program that an event comes from. -/
def source : Event → String
  | linked _ _ => "opforge::bytecode::link"
  | compiled _ => "opforge"
  | _ => "opforge::bytecode::compile"

/-- The words of an event. -/
def message : Event → String
  | dispatched kind descriptor => kind.tag ++ " -> " ++ descriptor.text
  | routed kind routine => "compiling " ++ kind.tag ++ " with " ++ routine.name ++ " routine"
  | literalDropped literal =>
    "dropping literal '" ++ literal.text ++ "' inside a multi-element field"
  | literalExpected found => "expected a literal, found a " ++ found.tag ++ " node"
  | functionCompiled heap name body params =>
    "function " ++ heap.describeValue name ++ ": " ++ body.repr ++ " body op-lines, " ++
      params.repr ++ " params"
  | linked ops slots => "linked " ++ ops.repr ++ " op-lines, " ++ slots.repr ++ " slots"
  | compiled ops => "compiled " ++ ops.repr ++ " top-level op-lines"

end Event

end Lowering
