/-
What lies below a node: its tree, and the aggregate flags.

# Rings

Slots may form a ring, and then a node has no tree. `isAcyclicBelow`
walks down level by level; since a walk without repetition has no more
steps than there are identities, a level that is still not empty after
that many steps proves a ring.

# The flag cache

`flags?` remembers its answers in the nodes, so that asking again costs
nothing until a commit forgets them. An answer that is still remembered
is believed, even where the nodes below changed behind it. So a node
that remembers asks nobody, and a ring matters to `flags?` only if none
of its nodes remembers: `flagsEnd` walks down as `isAcyclicBelow` does,
but stops at nodes that remember.
-/
import InstructionTree.Forest.Children
import InstructionTree.Tree

namespace InstructionTree.Forest

-- ============================================================== rings

section

variable (below : NodeId → List NodeId)

/-- The nodes one level below any of `ns`, each once. -/
def nextLevel (ns : List NodeId) : List NodeId :=
  (ns.flatMap below).eraseDups

/-- Whether every walk down from `ns` ends within `steps` steps. -/
def descentEndsWithin : Nat → List NodeId → Bool
  | 0, ns => ns.isEmpty
  | steps + 1, ns =>
      ns.isEmpty || descentEndsWithin steps (nextLevel below ns)

end

/-- Whether no ring of slots can be reached from `n`. -/
def isAcyclicBelow (f : Forest) (n : NodeId) : Bool :=
  descentEndsWithin f.children f.size [n]

-- ============================================================ the tree

/-- The tree below `n`, if it has at most `height` levels. -/
def treeWithin (f : Forest) : Nat → NodeId → Option Tree
  | 0, _ => none
  | height + 1, n =>
      let x := f.node n
      (x.children.mapM (f.treeWithin height)).map (.node x.opcode x.operand)

/-- The tree below `n`, unless a ring lies below it. -/
def tree? (f : Forest) (n : NodeId) : Option Tree :=
  if f.isAcyclicBelow n then f.treeWithin f.size n else none

/-- The printed form of `n`, unless a ring lies below it. -/
def display? (f : Forest) (n : NodeId) : Option String :=
  (f.tree? n).map Tree.display

-- ============================================================== flags

/-- Adds to `acc` what a parent inherits from `child`. -/
def inherit (ask : NodeId → Forest → Flags × Forest)
    (acc : Flags × Forest) (child : NodeId) : Flags × Forest :=
  let (flags, f) := ask child acc.2
  (acc.1 ∪ flags.propagated, f)

/-- Whom `n` asks for flags: nobody, if it remembers its own. -/
def asks (f : Forest) (n : NodeId) : List NodeId :=
  if (f.node n).cached.isSome then [] else f.children n

/-- Whether asking `n` for its flags ends: no ring of nodes that remember
nothing is met on the way down. -/
def flagsEnd (f : Forest) (n : NodeId) : Bool :=
  descentEndsWithin f.asks f.size [n]

/-- Asks for the flags of `n`, at most `height` levels down, and remembers
every answer on the way. -/
def flagsWithin : Nat → NodeId → Forest → Flags × Forest
  | 0, n, f => ((f.node n).opcode.directFlags, f)
  | height + 1, n, f =>
      let x := f.node n
      match x.cached with
      | some flags => (flags, f)
      | none =>
          let (flags, f) := x.children.foldl
            (inherit (flagsWithin height)) (x.opcode.directFlags, f)
          let (flags, f) :=
            match if x.opcode = .block then x.children.getLast? else none with
            | none => (flags, f)
            | some last =>
                let (tail, f) := flagsWithin height last f
                (flags ∪ (tail ∩ .endPointUnreachable), f)
          (flags, f.update n fun x => { x with cached := some flags })

/-- The flags of `n` and its subtree, and the forest that remembers
them; nothing if asking would never end. -/
def flags? (f : Forest) (n : NodeId) : Option (Flags × Forest) :=
  if f.flagsEnd n then some (flagsWithin f.size n f) else none

end InstructionTree.Forest
