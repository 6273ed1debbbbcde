/-
Cursors: traversals that forbid structural edits while they are open.

A cursor walks the stored elements, not a snapshot, so an element that is
replaced ahead of it is seen when its turn comes. Every open cursor counts
once in the depth of its owner; closing it counts it out again. The counter
of the depth is the only thing that can keep a cursor from being opened.
-/
import InstructionTree.Collection.Edit

namespace InstructionTree

/-- Where a cursor stands. -/
inductive Cursor.Place where
  | notStarted
  | at (i : Nat)
  | exhausted
deriving DecidableEq, Repr

/-- A traversal of a collection. -/
structure Cursor where
  collection : Collection
  place : Cursor.Place
deriving DecidableEq, Repr

namespace Cursor

-- ================================================ opening and closing

/-- A cursor before the first element, with its traversal counted. -/
def start (c : Collection) (f : Forest) : Cursor × Forest :=
  let f := f.beginTraversal c.owner
  let x := f.node c.owner
  (⟨c, .notStarted⟩, f.emit (.opened x.opcode x.depth.shown))

/-- Opens a cursor before the first element. -/
def opening (checks : Checks) (c : Collection) : Edit Cursor :=
  Forest.unlessSpent checks c.owner fun f => .ok (start c f).1 (start c f).2

/-- Closes a cursor. -/
def close (checks : Checks) (cursor : Cursor) : Edit Unit := fun f =>
  (Forest.endTraversal checks cursor.collection.owner f).next fun f =>
    let x := f.node cursor.collection.owner
    f.emit (.closed x.opcode x.depth.shown)

-- ============================================================= walking

/-- The index of the element that `next` answered last. -/
def index? (cursor : Cursor) : Option Nat :=
  match cursor.place with
  | .at i => some i
  | _ => none

/-- The element that `next` answered last, as it is stored now. -/
def current? (cursor : Cursor) (f : Forest) : Option NodeId :=
  cursor.index?.bind fun i => (cursor.collection.items f)[i]?

/-- Whether the cursor has passed the last element. -/
def isExhausted (cursor : Cursor) : Bool :=
  cursor.place == .exhausted

/-- How many elements are ahead. -/
def remaining (cursor : Cursor) (f : Forest) : Nat :=
  match cursor.place with
  | .notStarted => cursor.collection.length f
  | .at i => cursor.collection.length f - (i + 1)
  | .exhausted => 0

/-- The cursor at index `i`, and the element there; exhausted if there is
none. -/
def moveTo (cursor : Cursor) (f : Forest) (i : Nat) : Option NodeId × Cursor :=
  match (cursor.collection.items f)[i]? with
  | some n => (some n, { cursor with place := .at i })
  | none => (none, { cursor with place := .exhausted })

/-- The next element, and the cursor on it. An exhausted cursor stays
exhausted. -/
def next (cursor : Cursor) (f : Forest) : Option NodeId × Cursor :=
  match cursor.place with
  | .notStarted => cursor.moveTo f 0
  | .at i => cursor.moveTo f (i + 1)
  | .exhausted => (none, cursor)

/-- The elements that at most `count` calls of `next` answer. -/
def takeNext (f : Forest) : Nat → Cursor → List NodeId × Cursor
  | 0, cursor => ([], cursor)
  | count + 1, cursor =>
      match cursor.next f with
      | (none, cursor) => ([], cursor)
      | (some n, cursor) =>
          let (rest, cursor) := takeNext f count cursor
          (n :: rest, cursor)

/-- All elements ahead; the cursor is exhausted after them. -/
def rest (cursor : Cursor) (f : Forest) : List NodeId × Cursor :=
  takeNext f (cursor.remaining f + 1) cursor

-- ============================================================= editing

/-- Replaces the current element in place. -/
def replaceCurrent (checks : Checks) (cursor : Cursor) (n : NodeId) :
    Edit Unit :=
  match cursor.index? with
  | none => Edit.fail .noCurrentElement
  | some i => cursor.collection.set checks i n

/-- The cursor before the first element again. With checks on, a cursor
that has started can not go back. -/
def reset (checks : Checks) (cursor : Cursor) : Except Fault Cursor :=
  if cursor.place = .notStarted then .ok cursor
  else if checks.enforced then .error .cursorReset
  else .ok { cursor with place := .notStarted }

-- ========================================================== inspection

/-- The inspection text of a place. -/
def Place.inspect : Place → String
  | .notStarted => "NotStarted"
  | .at i => Text.tagged "At" (Text.natural i)
  | .exhausted => "Exhausted"

/-- The inspection text. -/
def inspect (cursor : Cursor) (f : Forest) : String :=
  Text.record "ChildCursor"
    [("collection", cursor.collection.inspect f),
     ("state", cursor.place.inspect)]

end Cursor

end InstructionTree
