/-
The instruction kinds of the tree, and the slot layout of each.

Stack operations have already become expression trees, and structured
control flow is represented by nested containers, so the set is small.

# Layouts

A layout lists slots in order. Slots lie back to back in one global
child-index space, where every single operand slot takes exactly one
index, even while it is empty. Only the last slot of a layout may be a
collection; so slot `i` always starts at global index `i`:

    switch      value: one      sections: many
    global      0               1 .. 1 + n
-/
import InstructionTree.Flags
import InstructionTree.Slot

namespace InstructionTree

/-- The kind of an instruction. -/
inductive Opcode where
  /-- No operation. -/
  | nop
  /-- Load a 32-bit integer constant. -/
  | constInt32
  /-- Load a 64-bit integer constant. -/
  | constInt64
  /-- Load a local variable. -/
  | loadLocal
  /-- Store a value into a local variable. -/
  | storeLocal
  /-- Integer addition. -/
  | add
  /-- Integer subtraction. -/
  | sub
  /-- Integer multiplication. -/
  | mul
  /-- Integer division; throws on a zero divisor. -/
  | div
  /-- Method call. -/
  | call
  /-- Object construction. -/
  | newObject
  /-- Two-way conditional. -/
  | conditional
  /-- Multi-way branch on an integer value. -/
  | switch
  /-- A single case of a switch. -/
  | switchCase
  /-- Sequence of instructions without inner control flow. -/
  | block
  /-- Container of blocks that form a control flow graph. -/
  | container
  /-- Protected region with handlers. -/
  | tryCatch
  /-- A handler of a protected region. -/
  | handler
  /-- Unconditional branch to a block. -/
  | branch
  /-- Leaves a block container. -/
  | leave
  /-- Return from the method, with an optional value. -/
  | ret
  /-- Throw an exception object. -/
  | raise
deriving DecidableEq, Repr

namespace Opcode

instance : Inhabited Opcode := ⟨nop⟩

/-- Every opcode, in the order of the instruction set. -/
def all : List Opcode :=
  [nop, constInt32, constInt64, loadLocal, storeLocal, add, sub, mul,
   div, call, newObject, conditional, switch, switchCase, block,
   container, tryCatch, handler, branch, leave, ret, raise]

-- ============================================================= names

/-- The mnemonic, under which an opcode is printed and read. -/
def mnemonic : Opcode → String
  | nop => "nop"
  | constInt32 => "ldc.i4"
  | constInt64 => "ldc.i8"
  | loadLocal => "ldloc"
  | storeLocal => "stloc"
  | add => "add"
  | sub => "sub"
  | mul => "mul"
  | div => "div"
  | call => "call"
  | newObject => "newobj"
  | conditional => "if"
  | switch => "switch"
  | switchCase => "case"
  | block => "block"
  | container => "container"
  | tryCatch => "try.catch"
  | handler => "catch"
  | branch => "br"
  | leave => "leave"
  | ret => "ret"
  | raise => "throw"

/-- The inspection text. -/
def inspect : Opcode → String
  | nop => "Nop"
  | constInt32 => "LdcI4"
  | constInt64 => "LdcI8"
  | loadLocal => "LdLoc"
  | storeLocal => "StLoc"
  | add => "Add"
  | sub => "Sub"
  | mul => "Mul"
  | div => "Div"
  | call => "Call"
  | newObject => "NewObj"
  | conditional => "If"
  | switch => "Switch"
  | switchCase => "SwitchSection"
  | block => "Block"
  | container => "BlockContainer"
  | tryCatch => "TryCatch"
  | handler => "CatchHandler"
  | branch => "Branch"
  | leave => "Leave"
  | ret => "Return"
  | raise => "Throw"

/-- The opcode with mnemonic `t`. -/
def ofMnemonic? (t : String) : Option Opcode :=
  all.find? fun op => op.mnemonic == t

-- =========================================================== layouts

/-- The child slots of an opcode, in global child-index order. -/
def layout : Opcode → List Slot
  | nop | constInt32 | constInt64 | loadLocal | branch | leave => []
  | storeLocal | ret | raise => [⟨.value, .one⟩]
  | add | sub | mul | div => [⟨.left, .one⟩, ⟨.right, .one⟩]
  | call | newObject => [⟨.arguments, .many⟩]
  | conditional => [⟨.condition, .one⟩, ⟨.trueInst, .one⟩, ⟨.falseInst, .one⟩]
  | switch => [⟨.value, .one⟩, ⟨.sections, .many⟩]
  | switchCase | handler => [⟨.body, .one⟩]
  | block => [⟨.instructions, .many⟩]
  | container => [⟨.blocks, .many⟩]
  | tryCatch => [⟨.tryBlock, .one⟩, ⟨.handlers, .many⟩]

/-- The slot at `i`, if the layout has one. -/
def slot? (op : Opcode) (i : Nat) : Option Slot := op.layout[i]?

/-- The index of the slot whose name reads `t`. -/
def slotIndex? (op : Opcode) (t : String) : Option Nat :=
  op.layout.findIdx? fun s => s.name.text == t

/-- The largest number of children, or `none` if the layout ends in a
collection. -/
def maxChildren? (op : Opcode) : Option Nat :=
  if op.layout.any Slot.isCollection then none else some op.layout.length

-- ============================================================= flags

/-- The flags an instruction has on its own, whatever its children. -/
def directFlags : Opcode → Flags
  | loadLocal => .mayReadLocals
  | storeLocal => .mayWriteLocals
  | div => .mayThrow
  | call | newObject => .mayThrow ∪ .sideEffect
  | conditional | switch | tryCatch => .controlFlow
  | branch | leave | ret => .mayBranch ∪ .endPointUnreachable
  | raise => .mayThrow ∪ .endPointUnreachable
  | _ => ∅

-- ================================================ facts about layouts

/-- Only the last slot of a layout is a collection, so every slot before
position `i` holds one child, and slot `i` starts at global index `i`. -/
theorem succ_eq_length_of_isCollection {op : Opcode} {i : Nat} {s : Slot}
    (h : op.slot? i = some s) (many : s.isCollection = true) :
    i + 1 = op.layout.length := by
  cases op <;> rcases i with _ | _ | _ | i <;>
    simp [slot?, layout] at h <;> subst h <;>
    simp_all [layout, Slot.isCollection]

/-- A layout has no limit on children exactly if its last slot is a
collection. -/
theorem maxChildren?_eq_none_iff {op : Opcode} :
    op.maxChildren? = none ↔ ∃ s ∈ op.layout, s.isCollection = true := by
  simp [maxChildren?]

end Opcode

end InstructionTree
