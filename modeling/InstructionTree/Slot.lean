/-
Child slots. A slot is a named place for children: either a single operand
position, or an ordered collection of any length.

Slot names form a closed set, because layouts are fixed per opcode
(`Opcode.layout`): a text that names no slot is simply not a `SlotName`.
-/

namespace InstructionTree

/-- The names that the slots of any opcode have. -/
inductive SlotName where
  | value | left | right | arguments
  | condition | trueInst | falseInst
  | sections | body | instructions | blocks
  | tryBlock | handlers
deriving DecidableEq, Repr

namespace SlotName

/-- The name as text. -/
def text : SlotName → String
  | value => "value"
  | left => "left"
  | right => "right"
  | arguments => "arguments"
  | condition => "condition"
  | trueInst => "true_inst"
  | falseInst => "false_inst"
  | sections => "sections"
  | body => "body"
  | instructions => "instructions"
  | blocks => "blocks"
  | tryBlock => "try_block"
  | handlers => "handlers"

/-- Every slot name. -/
def all : List SlotName :=
  [value, left, right, arguments, condition, trueInst, falseInst,
   sections, body, instructions, blocks, tryBlock, handlers]

/-- The slot name written as `t`. -/
def ofText? (t : String) : Option SlotName :=
  all.find? fun name => name.text == t

end SlotName

/-- How many children a slot can hold. -/
inductive Arity where
  /-- A single operand position: no child or one. -/
  | one
  /-- An ordered collection of any length. -/
  | many
deriving DecidableEq, Repr

/-- A named child slot of a layout. -/
structure Slot where
  name : SlotName
  arity : Arity
deriving DecidableEq, Repr

namespace Slot

/-- Whether the slot is a child collection. -/
def isCollection (s : Slot) : Bool := s.arity == .many

end Slot

/-- The word for an arity in descriptors. -/
def Arity.text : Arity → String
  | .one => "One"
  | .many => "Many"

end InstructionTree
