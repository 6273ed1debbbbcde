/-
Edits that draw their elements from a program of the client.

`addRange` and `replaceList` are given elements that are at hand. A client
may give a program instead that hands them out (`Source`), for instance one
that makes them. It runs after the guard was passed and before anything is
stored, and like a judge it may do what it likes meanwhile: edit the forest,
open cursors, and stop early.

The guard is not looked at again when it has ended. If it left a traversal
of the owner open, the edit is made under that traversal.
-/
import InstructionTree.Collection.Edit

namespace InstructionTree

/-- What is done with the nodes that are handed out. -/
inductive Draw where
  /-- They are appended. -/
  | addRange
  /-- They replace all elements. -/
  | replaceList
deriving DecidableEq

/-- The edit, given the nodes. -/
def Draw.change : Draw → List NodeId → Change NodeId
  | addRange, ns => .addRange ns
  | replaceList, ns => .replaceList ns

namespace Collection

/-- A program that hands out nodes, on a forest and a state of its own. -/
abbrev Source (σ : Type) := Forest × σ → Outcome (Forest × σ) (List NodeId)

variable (checks : Checks) (c : Collection)

/-- The edit, given the nodes, whoever traverses the owner. -/
def store : Draw → List NodeId → Edit Unit
  | .addRange, ns => c.appendAll checks ns
  | .replaceList, ns => c.overwriteAll checks ns

/-- Makes an edit with the nodes that `source` hands out, unless structural
edits are refused before it is asked. The owner and the nodes are kept alive
while they are stored. -/
def draw (kind : Draw) (source : Source σ) (s : Forest × σ) :
    Outcome (Forest × σ) Unit :=
  match Forest.requireUntraversed checks c.owner s.1 with
  | .stop why f => .stop why (f, s.2)
  | .ok () f =>
      match source (f, s.2) with
      | .stop why s => .stop why s
      | .ok ns (f, st) =>
          ((c.store checks kind ns (f.holdAll (c.owner :: ns))).always
            fun f => f.releaseAll (c.owner :: ns)).mapState fun f => (f, st)

end Collection

end InstructionTree
