/-
Why an operation stopped.

A `Fault` is an answer: the request was wrong, and the operation says how.
A `Panic` is a broken contract: the operation stops where it stands, and
what it had changed by then stays changed. `Stop` is either of them.

Faults are causes with their data; the wording is in `Fault.message` alone.
-/
import InstructionTree.Opcode

namespace InstructionTree

/-- The reasons for which an operation refuses a request. -/
inductive Fault where
  /-- An index outside of the valid range. Indices are never clamped. -/
  | outOfBounds (index len : Nat)
  /-- A structural edit while cursors are open on the owner. -/
  | invalidDuringTraversal (opcode : Opcode) (depth : Nat)
  /-- A cursor that already started can not be rewound. -/
  | cursorReset
  /-- The cursor is before the first element or past the last. -/
  | noCurrentElement
  /-- The owner of the collection is no longer alive. -/
  | missingOwner
  /-- The layout of the opcode has no such slot. -/
  | unknownSlot (opcode : Opcode) (slot : Nat)
  /-- A collection was requested for a single operand slot. -/
  | notACollection (opcode : Opcode) (slot : SlotName)
  /-- A single operand was requested for a collection slot. -/
  | notAnOperand (opcode : Opcode) (slot : SlotName)
  /-- More children than the layout can hold. -/
  | tooManyChildren (opcode : Opcode) (max : Nat)
  /-- The node is in no slot of a live parent. -/
  | detached
deriving DecidableEq

namespace Fault

/-- The name of the cause. -/
def name : Fault → String
  | outOfBounds .. => "OutOfBounds"
  | invalidDuringTraversal .. => "InvalidDuringTraversal"
  | cursorReset => "CursorReset"
  | noCurrentElement => "NoCurrentElement"
  | missingOwner => "MissingOwner"
  | unknownSlot .. => "UnknownSlot"
  | notACollection .. => "NotACollection"
  | notAnOperand .. => "NotAnOperand"
  | tooManyChildren .. => "TooManyChildren"
  | detached => "Detached"

/-- The message for a reader. -/
def message : Fault → String
  | outOfBounds index len =>
      "Index " ++ Text.natural index
        ++ " is out of range for a collection of " ++ Text.natural len
        ++ " elements"
  | invalidDuringTraversal op depth =>
      "Collection of '" ++ op.mnemonic ++ "' was modified while "
        ++ Text.natural depth ++ " enumeration(s) are active"
  | cursorReset => "Traversal cursor can not be reset once it has started"
  | noCurrentElement => "Traversal cursor is not positioned on an element"
  | missingOwner => "The owner of the child collection is no longer alive"
  | unknownSlot op slot =>
      "'" ++ op.mnemonic ++ "' has no slot " ++ Text.natural slot
  | notACollection op slot =>
      "Slot '" ++ slot.text ++ "' of '" ++ op.mnemonic
        ++ "' holds a single operand, not a collection"
  | notAnOperand op slot =>
      "Slot '" ++ slot.text ++ "' of '" ++ op.mnemonic
        ++ "' is a child collection, not a single operand"
  | tooManyChildren op max =>
      "'" ++ op.mnemonic ++ "' accepts at most " ++ Text.natural max
        ++ " children"
  | detached => "Instruction is not attached to a parent"

/-- The fields of the cause, for inspection. -/
def fields : Fault → List (String × String)
  | outOfBounds index len =>
      [("index", Text.natural index), ("len", Text.natural len)]
  | invalidDuringTraversal op depth =>
      [("opcode", op.inspect), ("depth", Text.natural depth)]
  | unknownSlot op slot =>
      [("opcode", op.inspect), ("slot", Text.natural slot)]
  | notACollection op slot | notAnOperand op slot =>
      [("opcode", op.inspect), ("slot", Text.quoted slot.text)]
  | tooManyChildren op max =>
      [("opcode", op.inspect), ("max", Text.natural max)]
  | cursorReset | noCurrentElement | missingOwner | detached => []

/-- The inspection text: the name alone if the cause carries no data. -/
def inspect (e : Fault) : String :=
  if e.fields.isEmpty then e.name else Text.record e.name e.fields

end Fault

/-- The contracts whose violation ends an operation where it stands. -/
inductive Panic where
  /-- A node was about to become a child of its own subtree. -/
  | notATree (child : Opcode)
  /-- A traversal was closed that was never opened. -/
  | unbalancedTraversal (owner : Opcode)
  /-- The judge of a filtering pass gave up. -/
  | judgeFailed
  /-- Two elements were to be exchanged, and one of them is gone. -/
  | noSuchElement
  /-- A traversal was opened on an owner whose counter of traversals was
  full. -/
  | traversalOverflow
deriving DecidableEq

namespace Panic

/-- The message, where the contract has one. -/
def message? : Panic → Option String
  | notATree child =>
      some ("ILAst must form a tree, '" ++ child.mnemonic
        ++ "' can not become a child of its own subtree")
  | unbalancedTraversal owner =>
      some ("unbalanced end_traversal on '" ++ owner.mnemonic ++ "'")
  | judgeFailed => some "predicate failed"
  | noSuchElement | traversalOverflow => none

end Panic

/-- What ends an operation early. -/
inductive Stop where
  | fault (cause : Fault)
  | panic (cause : Panic)
deriving DecidableEq

/-- Which contracts are enforced. -/
inductive Checks where
  /-- Traversals guard their owner, and broken contracts panic. -/
  | strict
  /-- No guard, and no contract is looked at. -/
  | lax
deriving DecidableEq, Repr

/-- Whether contracts are enforced. -/
def Checks.enforced (checks : Checks) : Bool := checks == .strict

end InstructionTree
