/-
A forest: the store of all nodes, and the events they reported.

Identities are indices into the store, handed out in order, so a new node
never gets the identity of a freed one. The view of a forest is `get?`:
the live node of an identity, or nothing. Every operation of this file has
one equation that says what it does to the view; nothing else about the
store is used elsewhere.
-/
import InstructionTree.Node

namespace InstructionTree

/-- What a forest reports while it works, for an observer. -/
inductive Event where
  /-- A child batch of a node was completed. -/
  | committed (opcode : Opcode) (version : Nat)
  /-- A traversal was opened; `depth` of them are open now. -/
  | opened (opcode : Opcode) (depth : Nat)
  /-- A traversal was closed; `depth` of them are open now. -/
  | closed (opcode : Opcode) (depth : Nat)
  /-- A structural edit was refused because of `depth` open traversals. -/
  | rejected (opcode : Opcode) (depth : Nat)
deriving DecidableEq

/-- All nodes by identity, and what an observer was told so far. -/
structure Forest where
  /-- The nodes by identity; nothing where one was freed. -/
  cells : Array (Option Node)
  /-- The events so far, in order. -/
  events : Array Event
  /-- How many detaches met a node that counted no slot any more, so that
  there was nothing left to take away. -/
  overdrafts : Nat
deriving DecidableEq

namespace Forest

/-- The forest without any node. -/
def empty : Forest := ⟨#[], #[], 0⟩

instance : EmptyCollection Forest := ⟨empty⟩
instance : Inhabited Forest := ⟨empty⟩

-- ============================================================ reading

/-- How many identities were handed out. No forest has more live nodes. -/
def size (f : Forest) : Nat := f.cells.size

/-- The live node with identity `n`. -/
def get? (f : Forest) (n : NodeId) : Option Node := (f.cells[n.index]?).join

/-- Whether `n` has not been freed. -/
def isAlive (f : Forest) (n : NodeId) : Bool := (f.get? n).isSome

/-- The node with identity `n`; a freed one reads as an untouched no-op. -/
def node (f : Forest) (n : NodeId) : Node := (f.get? n).getD default

/-- The nodes in a slot of `n`. -/
def slot (f : Forest) (n : NodeId) (i : Nat) : List NodeId :=
  (f.node n).slot i

-- ============================================================ writing

/-- Stores a new node and names its identity. -/
def alloc (f : Forest) (x : Node) : NodeId × Forest :=
  (⟨f.size⟩, { f with cells := f.cells.push (some x) })

/-- Changes a live node; a freed one stays freed. -/
def update (f : Forest) (n : NodeId) (g : Node → Node) : Forest :=
  match f.get? n with
  | none => f
  | some x => { f with cells := f.cells.setIfInBounds n.index (some (g x)) }

/-- Frees a node, whoever holds it. -/
def erase (f : Forest) (n : NodeId) : Forest :=
  { f with cells := f.cells.setIfInBounds n.index none }

/-- Reports an event. -/
def emit (f : Forest) (e : Event) : Forest :=
  { f with events := f.events.push e }

-- ========================================================= small edits

/-- Gives a slot of `n` other contents. -/
def setSlot (f : Forest) (n : NodeId) (i : Nat) (items : List NodeId) :
    Forest :=
  f.update n fun x => x.setSlot i items

/-- Caches `position` as the global child index of `n`. -/
def setPosition (f : Forest) (n : NodeId) (position : Nat) : Forest :=
  f.update n fun x => { x with position := position }

/-- Replaces the operand of `n`. -/
def setOperand (f : Forest) (n : NodeId) (operand : Operand) : Forest :=
  f.update n fun x => { x with operand := operand }

-- =========================================================== the view

@[simp] theorem get?_empty (n : NodeId) : (∅ : Forest).get? n = none := by
  simp [get?, EmptyCollection.emptyCollection, empty]

@[simp] theorem get?_emit (f : Forest) (e : Event) (n : NodeId) :
    (f.emit e).get? n = f.get? n := rfl

theorem get?_alloc (f : Forest) (x : Node) (n : NodeId) :
    (f.alloc x).2.get? n = if n = (f.alloc x).1 then some x else f.get? n := by
  obtain ⟨i⟩ := n
  by_cases h : i = f.cells.size
  · simp [get?, alloc, size, h]
  · simp [get?, alloc, size, h, Array.getElem?_push]

/-- A live node has one of the identities handed out. -/
theorem index_lt_size {f : Forest} {n : NodeId} {x : Node}
    (h : f.get? n = some x) : n.index < f.size := by
  rcases Nat.lt_or_ge n.index f.size with inside | outside
  · exact inside
  · simp [get?, Array.getElem?_eq_none outside] at h

theorem get?_update (f : Forest) (m n : NodeId) (g : Node → Node) :
    (f.update m g).get? n = if n = m then (f.get? n).map g else f.get? n := by
  obtain ⟨i⟩ := m
  obtain ⟨j⟩ := n
  unfold update
  split
  next h => split <;> simp_all
  next x h =>
    have bound : i < f.cells.size := index_lt_size h
    by_cases same : j = i
    · subst same
      simp only [get?, Array.getElem?_setIfInBounds_self_of_lt bound,
        Option.join_some, if_true] at h ⊢
      simp [h]
    · have other : i ≠ j := fun e => same e.symm
      simp [get?, Array.getElem?_setIfInBounds_ne other, same]

theorem get?_erase (f : Forest) (m n : NodeId) :
    (f.erase m).get? n = if n = m then none else f.get? n := by
  obtain ⟨i⟩ := m
  obtain ⟨j⟩ := n
  by_cases same : j = i
  · subst same
    by_cases bound : j < f.cells.size <;> simp [get?, erase, bound]
  · have other : i ≠ j := fun e => same e.symm
    simp [get?, erase, Array.getElem?_setIfInBounds_ne other, same]

@[simp] theorem size_update (f : Forest) (n : NodeId) (g : Node → Node) :
    (f.update n g).size = f.size := by
  unfold update
  split <;> simp [size]

@[simp] theorem size_erase (f : Forest) (n : NodeId) :
    (f.erase n).size = f.size := by
  simp [erase, size]

/-- A live node is read as it is stored. -/
theorem node_of_get? {f : Forest} {n : NodeId} {x : Node}
    (h : f.get? n = some x) : f.node n = x := by
  simp [node, h]

theorem isAlive_iff {f : Forest} {n : NodeId} :
    f.isAlive n = true ↔ ∃ x, f.get? n = some x := by
  simp [isAlive, Option.isSome_iff_exists]

/-- Changing a node frees none. -/
@[simp] theorem isAlive_update (f : Forest) (m n : NodeId) (g : Node → Node) :
    (f.update m g).isAlive n = f.isAlive n := by
  simp only [isAlive, get?_update]
  split <;> simp

@[simp] theorem isAlive_emit (f : Forest) (e : Event) (n : NodeId) :
    (f.emit e).isAlive n = f.isAlive n := rfl

theorem node_update (f : Forest) (m n : NodeId) (g : Node → Node) :
    (f.update m g).node n
      = if n = m ∧ f.isAlive n = true then g (f.node n) else f.node n := by
  simp only [node, isAlive, get?_update]
  by_cases same : n = m
  · subst same
    simp only [if_pos, true_and]
    cases f.get? n <;> simp
  · simp [same]

@[simp] theorem node_emit (f : Forest) (e : Event) (n : NodeId) :
    (f.emit e).node n = f.node n := rfl

end Forest

end InstructionTree
