/-
The children of a node: operand slots, the global child index over all
slots, and the edits that go through it.

# The global child index

Slots lie back to back. Every slot before the last takes one index, so
index `i` falls into slot `i` as long as there is one, and into the last
slot otherwise, at the distance from that slot's first index. `locate?`
is this map; `child?`, `findChild?` and `setChild` read, find and write
through it.
-/
import InstructionTree.Collection.Edit

namespace InstructionTree.Forest

-- ======================================================= operand slots

/-- Refuses a slot that is not in the layout of `n`, or is a collection. -/
def checkOperandSlot (f : Forest) (n : NodeId) (i : Nat) : Except Fault Unit :=
  let op := (f.node n).opcode
  match op.slot? i with
  | none => .error (.unknownSlot op i)
  | some s =>
      if s.isCollection then .error (.notAnOperand op s.name) else .ok ()

/-- The child in a single operand slot. -/
def slotChild? (f : Forest) (n : NodeId) (i : Nat) :
    Except Fault (Option NodeId) :=
  (f.checkOperandSlot n i).map fun _ => (f.slot n i).head?

/-- A slot that holds what `child` names and nothing else, with the place
of that node. -/
def slotAssigned (f : Forest) (n : NodeId) (i : Nat) : Option NodeId → Forest
  | none => f.setSlot n i []
  | some c => (f.setPosition c i).setSlot n i [c]

/-- Attaches a node if there is one. -/
def attach? (checks : Checks) (owner : NodeId) : Option NodeId → Edit Unit
  | none => fun f => .ok () f
  | some c => attach checks owner c

/-- Detaches a node if there is one. -/
def detach? (f : Forest) (owner : NodeId) : Option NodeId → Forest
  | none => f
  | some old => f.detach owner old

/-- Assigns or empties a single operand slot. No other child moves, so
this is allowed while traversals are open. Assigning what the slot holds
already does nothing at all. -/
def setSlotChild (checks : Checks) (n : NodeId) (i : Nat)
    (child : Option NodeId) : Edit Unit := fun f =>
  match f.checkOperandSlot n i with
  | .error e => Edit.fail e f
  | .ok () =>
      let old := (f.slot n i).head?
      if old = child then .ok () f
      else
        (attach? checks n child (f.slotAssigned n i child))
          |>.next (fun f => (f.detach? n old).commit n)
          |>.always (fun f => f.reapAll old.toList)

-- =============================================== the global child index

/-- The size of the global child-index space: one index for every operand
slot, even an empty one, and the length of the collection. -/
def childCount (f : Forest) (n : NodeId) : Nat :=
  let x := f.node n
  ((x.opcode.layout.zip x.slots).map fun slot =>
    if slot.1.isCollection then slot.2.length else 1).foldr (· + ·) 0

/-- The slot of a global child index, and the index inside that slot. -/
def locate? (f : Forest) (n : NodeId) (i : Nat) : Option (Nat × Nat) :=
  let x := f.node n
  if x.slots.length = 0 then none
  else
    let slot := min i (x.slots.length - 1)
    let inner := i - slot
    if 0 < inner ∧ ((x.opcode.slot? slot).any Slot.isCollection) = false then
      none
    else some (slot, inner)

/-- The child at a global child index; none past the end and in an empty
operand slot. -/
def child? (f : Forest) (n : NodeId) (i : Nat) : Option NodeId := do
  let (slot, inner) ← f.locate? n i
  (f.slot n slot)[inner]?

/-- All children in global child-index order; empty operand slots are
skipped. -/
def children (f : Forest) (n : NodeId) : List NodeId := (f.node n).children

/-- The global child index that the cached place of `child` gives, if
`child` is really there. -/
def cachedChild? (f : Forest) (n child : NodeId) : Option Nat :=
  let x := f.node child
  if x.link = some n ∧ f.child? n x.position = some child then
    some x.position
  else none

/-- The first global child index of `child` in slots from `i` on. -/
def scanSlots (child : NodeId) : Nat → List (List NodeId) → Option Nat
  | _, [] => none
  | i, items :: rest =>
      match items.findIdx? fun m => m == child with
      | some inner => some (i + inner)
      | none => scanSlots child (i + 1) rest

/-- A global child index of `child`: the cached one if it is right, else
the first. -/
def findChild? (f : Forest) (n child : NodeId) : Option Nat :=
  (f.cachedChild? n child).or (scanSlots child 0 (f.node n).slots)

/-- Replaces the child at a global child index. -/
def setChild (checks : Checks) (n : NodeId) (i : Nat) (child : NodeId) :
    Edit Unit := fun f =>
  match if i < f.childCount n then f.locate? n i else none with
  | none => Edit.fail (.outOfBounds i (f.childCount n)) f
  | some (slot, inner) =>
      match Collection.at? f n slot with
      | .ok c => c.set checks inner child f
      | .error _ => setSlotChild checks n slot (some child) f

-- ================================================ through the parent

/-- Where the parent of `n` holds it: the parent and a global child
index. -/
def placeInParent? (f : Forest) (n : NodeId) : Option (NodeId × Nat) := do
  let p ← f.parent? n
  let i ← f.findChild? p n
  return (p, i)

/-- Replaces `n` inside its parent. -/
def replaceWith (checks : Checks) (n replacement : NodeId) :
    Edit Unit := fun f =>
  match f.placeInParent? n with
  | none => Edit.fail .detached f
  | some (p, i) => setChild checks p i replacement f

/-- Removes `n` from its parent: an operand slot is emptied, a collection
loses the element. -/
def removeFromParent (checks : Checks) (n : NodeId) : Edit Unit := fun f =>
  match f.placeInParent? n with
  | none => Edit.fail .detached f
  | some (p, i) =>
      match f.locate? p i with
      | none => Edit.fail .detached f
      | some (slot, inner) =>
          match Collection.at? f p slot with
          | .ok c => (c.removeAt checks inner f).map fun _ => ()
          | .error _ => setSlotChild checks p slot none f

/-- Whether a slot holds `n`, by the count of attaches and detaches. -/
def isConnected (f : Forest) (n : NodeId) : Bool :=
  0 < (f.node n).slotRefs

-- ====================================================== whole nodes

/-- Creates a node without children. Nobody holds it yet. -/
def create (op : Opcode) (x : Operand) : Edit NodeId := fun f =>
  let (n, f) := f.alloc (Node.fresh op x)
  .ok n f

/-- Fills slots of `n` from slot `i` on: an operand slot takes one child,
a collection takes all that are left. Filling ends where the children do.
Answers the children that found no slot. -/
def fillSlots (checks : Checks) (n : NodeId) :
    Nat → List Slot → List NodeId → Edit (List NodeId)
  | _, [], children, f => .ok children f
  | i, s :: rest, children, f =>
      if s.isCollection then
        match Collection.addRange checks ⟨n, i⟩ children f with
        | .ok () f => fillSlots checks n (i + 1) rest [] f
        | .stop e f => .stop e f
      else
        match children with
        | [] => .ok [] f
        | child :: children =>
            match setSlotChild checks n i (some child) f with
            | .ok () f => fillSlots checks n (i + 1) rest children f
            | .stop e f => .stop e f

/-- Creates a node with children in global child-index order. If the
layout can not hold all of them the new node is freed again; what its
children were told stays with them. -/
def build (checks : Checks) (op : Opcode) (x : Operand)
    (children : List NodeId) : Edit NodeId := fun f =>
  let (n, f) := f.alloc (Node.fresh op x)
  match fillSlots checks n 0 op.layout children f with
  | .ok [] f => .ok n f
  | .ok (_ :: _) f =>
      Edit.fail (.tooManyChildren op op.layout.length) (f.reap n)
  | .stop e f => .stop e (f.reap n)

end InstructionTree.Forest
