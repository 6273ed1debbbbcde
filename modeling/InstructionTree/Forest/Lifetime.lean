/-
How long nodes live.

A node is kept by references from outside (`Node.handles`) and by the
slots of live nodes. `release` gives one outside reference back; the node
is freed at once if nothing keeps it any more, and with it, in turn, every
node that only it kept. Nodes that keep each other in a ring are never
freed.

Freeing is not an edit: nothing is detached, so a surviving child keeps
its counters and its link, and reads as parentless from then on.
-/
import InstructionTree.Forest.Basic

namespace InstructionTree.Forest

-- ======================================================= who is kept

/-- Whether a slot of a live node holds `n`. -/
def isHeld (f : Forest) (n : NodeId) : Bool :=
  f.cells.toList.any fun cell =>
    match cell with
    | none => false
    | some x => x.slots.any fun items => items.contains n

/-- Whether `n` is alive although nothing keeps it. -/
def isLoose (f : Forest) (n : NodeId) : Bool :=
  match f.get? n with
  | none => false
  | some x => x.handles == 0 && !f.isHeld n

-- =========================================================== freeing

/-- Frees `n` if it is loose, then in the same way what was in its slots,
`depth` levels down. -/
def reapWithin : Nat → Forest → NodeId → Forest
  | 0, f, _ => f
  | depth + 1, f, n =>
      if f.isLoose n then
        (f.node n).children.foldl (reapWithin depth) (f.erase n)
      else f

/-- Frees `n` and all that only it kept, unless something keeps it. Each
level frees a node, so there are no more levels than identities. -/
def reap (f : Forest) (n : NodeId) : Forest :=
  reapWithin f.size f n

/-- Lets go of several nodes, one after the other. -/
def reapAll (f : Forest) (ns : List NodeId) : Forest :=
  ns.foldl reap f

-- =========================================================== handles

/-- Takes a reference to `n` from outside. -/
def hold (f : Forest) (n : NodeId) : Forest :=
  f.update n fun x => { x with handles := x.handles + 1 }

/-- Gives a reference from outside back. -/
def release (f : Forest) (n : NodeId) : Forest :=
  (f.update n fun x => { x with handles := x.handles - 1 }).reap n

/-- Takes a reference to each of several nodes. -/
def holdAll (f : Forest) (ns : List NodeId) : Forest :=
  ns.foldl hold f

/-- Gives a reference to each of several nodes back. -/
def releaseAll (f : Forest) (ns : List NodeId) : Forest :=
  ns.foldl release f

end InstructionTree.Forest
