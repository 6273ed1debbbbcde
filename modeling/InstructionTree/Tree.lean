/-
Instruction trees as plain values, and what a tree says about itself.

A forest shares nodes and may even contain rings; a `Tree` is what is left
when one looks at a node from above and forgets identities. Two questions
about a node are really questions about its tree: how it prints, and which
flags it has.

# The printed form

The mnemonic; then a blank and the operand, if there is one; then the
children in parentheses, separated by a comma and a blank, if there are
any. Empty operand slots leave no trace.

# The flags

A tree has its own flags, and inherits from each child all flags but the
one about the end point. A block ends where its last instruction does.
-/
import InstructionTree.Opcode
import InstructionTree.Operand

namespace InstructionTree

/-- An instruction with its children, without identity. -/
inductive Tree where
  | node (opcode : Opcode) (operand : Operand) (children : List Tree)

namespace Tree

-- =========================================================== printing

/-- The mnemonic, and the operand if there is one. -/
def head (op : Opcode) (x : Operand) : String :=
  if x = .none then op.mnemonic else op.mnemonic ++ " " ++ x.display

mutual

/-- The printed form of a tree. -/
def display : Tree → String
  | node op x [] => head op x
  | node op x (child :: rest) =>
      head op x ++ "(" ++ child.display ++ displayRest rest ++ ")"

/-- The printed forms of further children, each after a comma. -/
def displayRest : List Tree → String
  | [] => ""
  | child :: rest => ", " ++ child.display ++ displayRest rest

end

-- ============================================================== flags

mutual

/-- The flags of a tree. -/
def flags : Tree → Flags
  | node op _ children =>
      op.directFlags ∪ inherited children
        ∪ (if op = .block then endPoint children else ∅)

/-- The flags that a parent inherits from its children. -/
def inherited : List Tree → Flags
  | [] => ∅
  | child :: rest => child.flags.propagated ∪ inherited rest

/-- Whether the end of the last tree is unreachable, as flags. -/
def endPoint : List Tree → Flags
  | [] => ∅
  | [last] => last.flags ∩ .endPointUnreachable
  | _ :: next :: rest => endPoint (next :: rest)

end

end Tree

end InstructionTree
