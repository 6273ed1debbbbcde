/-
The way up from a node, along the last attachers that are still alive.

Links are a cache, so the way up need not be the way the slots lead down.
It may even run into a ring; `ancestors` then lists every node on the way
at least once and stops, and `climbEnds` tells that it is one.
-/
import InstructionTree.Forest.Basic

namespace InstructionTree.Forest

/-- The node that attached `n` last, if it is still alive. -/
def parent? (f : Forest) (n : NodeId) : Option NodeId :=
  (f.node n).link.filter f.isAlive

/-- At most `steps` nodes of the way up from `n`. -/
def ancestorsWithin (f : Forest) : Nat → NodeId → List NodeId
  | 0, _ => []
  | steps + 1, n =>
      match f.parent? n with
      | none => []
      | some p => p :: ancestorsWithin f steps p

/-- The way up from `n`, nearest first. A way that ends is never longer
than the number of identities. -/
def ancestors (f : Forest) (n : NodeId) : List NodeId :=
  f.ancestorsWithin f.size n

/-- Whether the way up from `n` ends after at most `steps` nodes. -/
def climbEndsWithin (f : Forest) : Nat → NodeId → Bool
  | 0, n => (f.parent? n).isNone
  | steps + 1, n =>
      match f.parent? n with
      | none => true
      | some p => climbEndsWithin f steps p

/-- Whether the way up from `n` ends. -/
def climbEnds (f : Forest) (n : NodeId) : Bool :=
  f.climbEndsWithin f.size n

/-- Whether `a` is `n` or on the way up from `n`. -/
def isDescendantOf (f : Forest) (n a : NodeId) : Bool :=
  n == a || (f.ancestors n).contains a

end InstructionTree.Forest
