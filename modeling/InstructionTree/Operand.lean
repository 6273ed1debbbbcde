/-
Immediate operands: the values that an instruction carries itself, such as
constants or variable indices. Children are never operands of this kind;
they live in slots.

The printed form tells the kinds apart: a plain decimal, a decimal with
`L`, `V_` and a decimal, `IL_` and at least four lower-case hexadecimal
digits, `0x` and eight upper-case hexadecimal digits.
-/
import InstructionTree.Text

namespace InstructionTree

/-- The immediate operand of an instruction. -/
inductive Operand where
  /-- No immediate operand. -/
  | none
  /-- A 32-bit integer constant. -/
  | int32 (value : Int32)
  /-- A 64-bit integer constant. -/
  | int64 (value : Int64)
  /-- The index of a local variable. -/
  | local (index : UInt16)
  /-- A branch target: the index of a block inside its container. -/
  | target (block : UInt32)
  /-- The metadata token of a method, type or field. -/
  | token (token : UInt32)
deriving DecidableEq

namespace Operand

instance : Inhabited Operand := ⟨.none⟩

/-- The printed form; empty for the missing operand. -/
def display : Operand → String
  | .none => ""
  | .int32 v => Text.integer v.toInt
  | .int64 v => Text.integer v.toInt ++ "L"
  | .local i => "V_" ++ Text.natural i.toNat
  | .target b => "IL_" ++ Text.hex 4 b.toNat
  | .token t => "0x" ++ Text.upperHex 8 t.toNat

/-- The inspection text. -/
def inspect : Operand → String
  | .none => "None"
  | .int32 v => Text.tagged "I4" (Text.integer v.toInt)
  | .int64 v => Text.tagged "I8" (Text.integer v.toInt)
  | .local i => Text.tagged "Local" (Text.natural i.toNat)
  | .target b => Text.tagged "Target" (Text.natural b.toNat)
  | .token t => Text.tagged "Token" (Text.natural t.toNat)

/-- Whether the operand is a 32-bit constant that `m` divides. -/
def isMultipleOf (m : Int) : Operand → Bool
  | .int32 v => v.toInt % m == 0
  | _ => false

end Operand

end InstructionTree
