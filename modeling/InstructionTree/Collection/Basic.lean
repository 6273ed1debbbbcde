/-
Handles over a child collection of a node.

The elements live in the owner's slot; a `Collection` only names owner
and slot. All handles over one slot see the same elements. An element at
index `i` has global child index `base + i`, where the base is the slot
index, since every slot before a collection takes exactly one index.

# Looking an element up

Every node caches its last place, so `indexOf?` first looks there: if the
node's link is the owner and the element at that position is the node
itself, that is an answer. Otherwise it scans. So the answer is always a
place where the node is, whatever the cache says.
-/
import InstructionTree.Forest.Owner

namespace InstructionTree

/-- A handle over one child collection of a node. -/
structure Collection where
  owner : NodeId
  slot : Nat
deriving DecidableEq, Repr

namespace Collection

variable (c : Collection) (f : Forest)

-- ============================================================ opening

/-- A handle over the collection in `slot` of the node `owner`. -/
def at? (owner : NodeId) (slot : Nat) : Except Fault Collection :=
  let op := (f.node owner).opcode
  match op.slot? slot with
  | none => .error (.unknownSlot op slot)
  | some s =>
      if s.isCollection then .ok ⟨owner, slot⟩
      else .error (.notACollection op s.name)

/-- A handle over the collection in the slot whose name reads `name`. An
unknown name is reported as the first slot past the layout. -/
def named? (owner : NodeId) (name : String) : Except Fault Collection :=
  let x := f.node owner
  at? f owner ((x.opcode.slotIndex? name).getD x.slots.length)

/-- Like `at?`, for an owner that may have been freed. -/
def ofWeak? (owner : NodeId) (slot : Nat) : Except Fault Collection :=
  if f.isAlive owner then at? f owner slot else .error .missingOwner

-- ============================================================ reading

/-- The global child index of the first element. -/
def base : Nat := c.slot

/-- The elements in order. -/
def items : List NodeId := f.slot c.owner c.slot

/-- The number of elements. -/
def length : Nat := (c.items f).length

/-- The descriptor of the slot. -/
def descriptor? : Option Slot := (f.node c.owner).opcode.slot? c.slot

/-- The element at `i`. -/
def get? (i : Nat) : Except Fault NodeId :=
  match (c.items f)[i]? with
  | some n => .ok n
  | none => .error (.outOfBounds i (c.length f))

/-- The index that the cached place of `n` gives, if `n` is really there. -/
def cachedIndex? (n : NodeId) : Option Nat :=
  let x := f.node n
  if x.link = some c.owner ∧ c.base ≤ x.position
      ∧ (c.items f)[x.position - c.base]? = some n then
    some (x.position - c.base)
  else none

/-- An index of `n`: the cached one if it is right, else the first. -/
def indexOf? (n : NodeId) : Option Nat :=
  (c.cachedIndex? f n).or ((c.items f).findIdx? fun m => m == n)

/-- Whether `n` is an element. -/
def contains (n : NodeId) : Bool := (c.indexOf? f n).isSome

/-- The inspection text. -/
def inspect : String :=
  Text.record "InstructionCollection"
    [("owner", (f.node c.owner).opcode.inspect),
     ("slot", Text.quoted
       (((c.descriptor? f).map fun s => s.name.text).getD "")),
     ("base", Text.natural c.base),
     ("len", Text.natural (c.length f))]

-- ============================================================ storing

/-- Stores other elements, without any bookkeeping. -/
def setItems (items : List NodeId) : Forest :=
  f.setSlot c.owner c.slot items

/-- Caches the place at index `i` in `n`. -/
def place (i : Nat) (n : NodeId) : Forest :=
  f.setPosition n (c.base + i)

/-- Moves the cached place of `n` from index `old` to index `new`, unless
the cached place is another one. -/
def renumber (old new : Nat) (n : NodeId) : Forest :=
  if (f.node n).isAt c.owner (c.base + old) then c.place f new n else f

/-- Renumbers elements that moved together: the one at index `i`, counted
from `start`, was at index `old i`. They are visited in order, and a node
that occurs more than once is tested again at each occurrence. -/
def renumberFrom (old : Nat → Nat) : Nat → List NodeId → Forest → Forest
  | _, [], f => f
  | i, n :: rest, f => renumberFrom old (i + 1) rest (c.renumber f (old i) i n)

-- ============================================== what storing leaves be

/-- What was stored is read back, if the owner is alive and has the
slot. -/
theorem items_setItems {c : Collection} {f : Forest} {items : List NodeId}
    (alive : f.isAlive c.owner = true)
    (bound : c.slot < (f.node c.owner).slots.length) :
    c.items (c.setItems f items) = items := by
  simp [Collection.items, Forest.slot, setItems, Forest.setSlot,
    Forest.node_update, alive, Node.slot_setSlot_self bound]

/-- Caching a place changes no element. -/
@[simp] theorem items_place (c : Collection) (f : Forest) (i : Nat)
    (n : NodeId) :
    c.items (c.place f i n) = c.items f := by
  simp only [Collection.items, Forest.slot, place, Forest.setPosition,
    Forest.node_update]
  split <;> rfl

@[simp] theorem items_renumber (c : Collection) (f : Forest) (old new : Nat)
    (n : NodeId) : c.items (c.renumber f old new n) = c.items f := by
  unfold renumber
  split <;> simp

/-- Renumbering changes no element. -/
@[simp] theorem items_renumberFrom (c : Collection) (old : Nat → Nat) :
    ∀ (i : Nat) (ns : List NodeId) (f : Forest),
      c.items (c.renumberFrom old i ns f) = c.items f
  | _, [], _ => rfl
  | i, n :: rest, f => by
      rw [renumberFrom, items_renumberFrom c old (i + 1) rest, items_renumber]

end Collection

end InstructionTree
