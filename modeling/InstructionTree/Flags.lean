/-
Semantic flags of an instruction and of its subtree.

A `Flags` is a set of 32 positions. Seven of them have a name; the others
may be present too, and every set operation carries them along, so that
a set survives a trip through a reader that does not know all names.

`END_POINT_UNREACHABLE` speaks about the end of the instruction itself.
It is the one flag a parent does not inherit (`Flags.propagated`).
-/
import InstructionTree.Text

namespace InstructionTree

/-- A set of instruction flags, one bit each. -/
structure Flags where
  bits : BitVec 32
deriving DecidableEq, Repr

namespace Flags

-- ======================================================= named flags

/-- The set without any flag. -/
def empty : Flags := ⟨0⟩

/-- The instruction may read from a local variable. -/
def mayReadLocals : Flags := ⟨0x01⟩

/-- The instruction may write to a local variable. -/
def mayWriteLocals : Flags := ⟨0x02⟩

/-- The instruction has observable effects beyond locals. -/
def sideEffect : Flags := ⟨0x04⟩

/-- The instruction may throw an exception. -/
def mayThrow : Flags := ⟨0x08⟩

/-- The instruction may transfer control to a block outside of itself. -/
def mayBranch : Flags := ⟨0x10⟩

/-- The instruction contains structured control flow. -/
def controlFlow : Flags := ⟨0x20⟩

/-- Control never reaches the end of the instruction. -/
def endPointUnreachable : Flags := ⟨0x40⟩

/-- The flags that have a name, lowest bit first. -/
def named : List (String × Flags) :=
  [("MAY_READ_LOCALS", mayReadLocals),
   ("MAY_WRITE_LOCALS", mayWriteLocals),
   ("SIDE_EFFECT", sideEffect),
   ("MAY_THROW", mayThrow),
   ("MAY_BRANCH", mayBranch),
   ("CONTROL_FLOW", controlFlow),
   ("END_POINT_UNREACHABLE", endPointUnreachable)]

/-- The set of all named flags. -/
def all : Flags := ⟨0x7f⟩

-- ==================================================== set operations

/-- The flags in either set. -/
def union (a b : Flags) : Flags := ⟨a.bits ||| b.bits⟩

/-- The flags in both sets. -/
def inter (a b : Flags) : Flags := ⟨a.bits &&& b.bits⟩

/-- The flags of `a` that are not in `b`. -/
def diff (a b : Flags) : Flags := ⟨a.bits &&& ~~~b.bits⟩

instance : EmptyCollection Flags := ⟨empty⟩
instance : Inhabited Flags := ⟨empty⟩
instance : Union Flags := ⟨union⟩
instance : Inter Flags := ⟨inter⟩
instance : SDiff Flags := ⟨diff⟩

/-- Whether no flag is set, named or not. -/
def isEmpty (a : Flags) : Bool := a.bits == 0

/-- Whether every flag of `b` is in `a`. -/
def contains (a b : Flags) : Bool := a ∩ b == b

/-- Whether the sets have a flag in common. -/
def intersects (a b : Flags) : Bool := !(a ∩ b).isEmpty

/-- Whether every named flag is set, whatever the others. -/
def isAll (a : Flags) : Bool := a.contains all

/-- Whether only named flags are set. -/
def isKnown (a : Flags) : Bool := (a \ all).isEmpty

/-- The named flags of a set. -/
def truncated (a : Flags) : Flags := a ∩ all

/-- The names of the named flags of a set, lowest bit first. -/
def names (a : Flags) : List String :=
  (named.filter fun flag => a.contains flag.2).map Prod.fst

-- ==================================================== what they mean

/-- The part of the flags that a parent instruction inherits. -/
def propagated (a : Flags) : Flags := a \ endPointUnreachable

/-- Whether evaluating the instruction can be observed by other code. -/
def hasSideEffects (a : Flags) : Bool :=
  a.intersects (sideEffect ∪ mayWriteLocals ∪ mayThrow)

-- ======================================================== inspection

/-- The inspection text: the names, then the remaining bits in
hexadecimal, all separated by bars. -/
def inspect (a : Flags) : String :=
  let rest := a \ all
  let unnamed := "0x" ++ Text.hex 0 rest.bits.toNat
  let parts := a.names ++ (if rest.isEmpty then [] else [unnamed])
  Text.tagged "InstructionFlags"
    (if parts.isEmpty then "0x0" else Text.separated " | " parts)

end Flags

end InstructionTree
