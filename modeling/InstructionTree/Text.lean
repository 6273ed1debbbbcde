/-
How values are laid out as text: numerals, and the one-line inspection
layout of a record.

# The numerals

Decimal numerals carry a minus sign below zero and nothing above it.
Hexadecimal numerals are padded with zeros on the left up to a width;
a numeral that is already wider is never cut.

# The inspection layout

`record` writes a record as its name followed by its fields in
declaration order: `Name { a: 1, b: 2 }`. Everything in this
library that can be inspected goes through it, so the spacing is
decided once.
-/

namespace InstructionTree.Text

-- =========================================================== numerals

/-- The decimal numeral of a natural number. -/
def natural (n : Nat) : String :=
  String.ofList (Nat.toDigits 10 n)

/-- The decimal numeral of an integer, with a minus sign below zero. -/
def integer : Int → String
  | .ofNat n => natural n
  | .negSucc n => "-" ++ natural (n + 1)

/-- The lower-case hexadecimal numeral, padded with zeros to `width`. -/
def hex (width n : Nat) : String :=
  String.ofList ((Nat.toDigits 16 n).leftpad width '0')

/-- The upper-case hexadecimal numeral, padded with zeros to `width`. -/
def upperHex (width n : Nat) : String :=
  String.ofList (((Nat.toDigits 16 n).map Char.toUpper).leftpad width '0')

-- ======================================================== separators

/-- The texts one after the other, with `gap` between neighbours. -/
def separated (gap : String) : List String → String
  | [] => ""
  | [t] => t
  | t :: u :: rest => t ++ gap ++ separated gap (u :: rest)

-- =========================================================== records

/-- A name in double quotes. -/
def quoted (t : String) : String :=
  "\"" ++ t ++ "\""

/-- The inspection layout of a record with at least one field. -/
def record (name : String) (fields : List (String × String)) : String :=
  name ++ " \x7b "
    ++ separated ", " (fields.map fun field => field.1 ++ ": " ++ field.2)
    ++ " \x7d"

/-- The inspection layout of a tag that carries one value. -/
def tagged (name value : String) : String :=
  name ++ "(" ++ value ++ ")"

end InstructionTree.Text
