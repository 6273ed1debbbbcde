/-
One instruction node, as a forest stores it.

# What a node knows

Its opcode never changes. Its slots hold the nodes below it, by identity:
a node may sit in several slots at once, of one owner or of several.

Downwards the slots are the truth. Upwards a node only remembers its last
place: `link` names the node that attached it last, and `position` the
global child index it got there. This pair is a cache. It may be wrong
while a node sits in two places, and `link` may even name a node that has
been freed since; whoever uses the pair verifies it first.

# What is counted

`slotRefs` counts the attaches less the detaches. `depth` counts the open
traversals over the node's collections, `version` its completed child
batches. `handles` counts the references from outside the forest: a node
without a handle that no live node's slot holds is freed.
-/
import InstructionTree.Counter
import InstructionTree.Opcode
import InstructionTree.Operand

namespace InstructionTree

/-- The identity of a node. It is never used again, not even after the
node has been freed. -/
structure NodeId where
  index : Nat
deriving DecidableEq, Repr

instance : Inhabited NodeId := ⟨⟨0⟩⟩

/-- An instruction and its bookkeeping. -/
structure Node where
  /-- The instruction kind. -/
  opcode : Opcode
  /-- The immediate operand. -/
  operand : Operand
  /-- The children, slot by slot. -/
  slots : List (List NodeId)
  /-- The node that attached this one last, alive or not. -/
  link : Option NodeId
  /-- The global child index this node got when it was placed last. -/
  position : Nat
  /-- How many slots hold this node, by the attaches and detaches. -/
  slotRefs : Nat
  /-- How many traversals over this node's collections are open, on a counter
  that may have started over. -/
  depth : Counter
  /-- How many child batches were completed. -/
  version : Nat
  /-- The flags of the subtree, if they were asked for since the last
  change below. -/
  cached : Option Flags
  /-- How many references from outside the forest keep this node. -/
  handles : Nat
deriving DecidableEq

namespace Node

/-- A node that nobody holds, with every slot of its layout empty. -/
def fresh (op : Opcode) (x : Operand) : Node where
  opcode := op
  operand := x
  slots := op.layout.map fun _ => []
  link := none
  position := 0
  slotRefs := 0
  depth := .zero
  version := 0
  cached := none
  handles := 0

instance : Inhabited Node := ⟨fresh .nop .none⟩

/-- The nodes in a slot; none if the layout has no such slot. -/
def slot (x : Node) (i : Nat) : List NodeId := (x.slots[i]?).getD []

/-- All children in global child-index order; empty operand slots are
skipped. -/
def children (x : Node) : List NodeId := x.slots.flatten

/-- The node with other contents in one slot. -/
def setSlot (x : Node) (i : Nat) (items : List NodeId) : Node :=
  { x with slots := x.slots.set i items }

/-- Whether the cached place of the node is `position` below `owner`. -/
def isAt (x : Node) (owner : NodeId) (position : Nat) : Bool :=
  x.position == position && x.link == some owner

/-- The inspection text. -/
def inspect (x : Node) : String :=
  Text.record "IlNode"
    [("opcode", x.opcode.inspect),
     ("operand", x.operand.inspect),
     ("child_index", Text.natural x.position),
     ("slot_refs", Text.natural x.slotRefs),
     ("children", Text.natural x.children.length)]

-- ==================================================== reading a slot

theorem slot_setSlot_self {x : Node} {i : Nat} {items : List NodeId}
    (h : i < x.slots.length) : (x.setSlot i items).slot i = items := by
  simp [slot, setSlot, h]

theorem slot_setSlot_other {x : Node} {i j : Nat} {items : List NodeId}
    (h : i ≠ j) : (x.setSlot i items).slot j = x.slot j := by
  simp [slot, setSlot, h]

@[simp] theorem length_slots_setSlot {x : Node} {i : Nat}
    {items : List NodeId} :
    (x.setSlot i items).slots.length = x.slots.length := by
  simp [setSlot]

@[simp] theorem length_slots_fresh {op : Opcode} {x : Operand} :
    (fresh op x).slots.length = op.layout.length := by
  simp [fresh]

@[simp] theorem children_fresh {op : Opcode} {x : Operand} :
    (fresh op x).children = [] := by
  simp [children, fresh]

end Node

end InstructionTree
