/-
Numerals can be read back.

`read` computes the number that a list of digits stands for, in either case
and with any zeros before it. Whatever a numeral function does to the
digits of a number, as long as each of them keeps its value (`Spells`), the
number is read back from them, and so no two numbers have one numeral.

What a numeral consists of is kept apart from that: `figures` are all the
characters of numerals, so that a text around a numeral can be told from it.
-/
import InstructionTree.Text
import Mathlib.Logic.Function.Basic

namespace InstructionTree.Text

variable {b n : Nat} {c : Char}

-- =============================================================== figures

/-- The digits of numerals, in either case. -/
def figures : List Char := "0123456789abcdefABCDEF".toList

/-- The value of a digit, in either case. -/
def digit (c : Char) : Nat := "0123456789abcdef".toList.idxOf c.toLower

/-- The characters of a numeral are digits of its base. -/
theorem exists_digitChar (hb : 1 < b) (hc : c ∈ Nat.toDigits b n) :
    ∃ d < b, c = Nat.digitChar d := by
  induction n using Nat.strongRecOn with
  | ind n ih =>
      rw [Nat.toDigits_eq_if hb] at hc
      split at hc
      case isTrue hlt => exact ⟨n, hlt, List.mem_singleton.mp hc⟩
      case isFalse hge =>
        rcases List.mem_append.mp hc with hc | hc
        · exact ih (n / b) (Nat.div_lt_self (by omega) hb) hc
        · exact ⟨n % b, Nat.mod_lt n (by omega), List.mem_singleton.mp hc⟩

-- =============================================================== reading

/-- The number that a list of digits stands for. -/
def read (b : Nat) (l : List Char) : Nat :=
  l.foldl (fun sum c => b * sum + digit c) 0

/-- A way to write digits that leaves each its value. -/
def Spells (k : Char → Char) : Prop :=
  ∀ d < 16, digit (k (Nat.digitChar d)) = d ∧ k (Nat.digitChar d) ∈ figures

theorem spells_id : Spells id := by
  unfold Spells
  decide

theorem spells_toUpper : Spells Char.toUpper := by
  unfold Spells
  decide

theorem read_append_singleton (b : Nat) (l : List Char) (c : Char) :
    read b (l ++ [c]) = b * read b l + digit c := by
  rw [read, List.foldl_append]
  rfl

/-- A number is read back from its digits. -/
theorem read_toDigits {k : Char → Char} (hk : Spells k) (hb : 1 < b)
    (hle : b ≤ 16) (n : Nat) : read b ((Nat.toDigits b n).map k) = n := by
  induction n using Nat.strongRecOn with
  | ind n ih =>
      rw [Nat.toDigits_eq_if hb]
      split
      case isTrue hlt =>
        have hdigit := (hk n (Nat.lt_of_lt_of_le hlt hle)).1
        simp [read, hdigit]
      case isFalse hge =>
        have hmod := Nat.mod_lt n (show b > 0 by omega)
        have hdigit := (hk (n % b) (Nat.lt_of_lt_of_le hmod hle)).1
        rw [List.map_append, List.map_singleton, read_append_singleton,
          ih (n / b) (Nat.div_lt_self (by omega) hb), hdigit,
          Nat.div_add_mod]

/-- Zeros before it do not change what a numeral stands for. -/
theorem read_leftpad (b width : Nat) (l : List Char) :
    read b (l.leftpad width '0') = read b l := by
  have hzeros : ∀ count, read b (List.replicate count '0') = 0 := by
    intro count
    induction count with
    | zero => rfl
    | succ count ih =>
        rw [List.replicate_succ', read_append_singleton, ih]
        rfl
  rw [List.leftpad, read, List.foldl_append]
  exact congrArg (fun start => l.foldl _ start) (hzeros _)

-- ============================================================== numerals

theorem read_natural (n : Nat) : read 10 (natural n).toList = n := by
  have hread := read_toDigits spells_id (by decide : 1 < 10) (by decide) n
  rw [List.map_id] at hread
  rwa [natural, String.toList_ofList]

theorem read_hex (width n : Nat) : read 16 (hex width n).toList = n := by
  have hread := read_toDigits spells_id (by decide : 1 < 16) (by decide) n
  rw [List.map_id] at hread
  rwa [hex, String.toList_ofList, read_leftpad]

theorem read_upperHex (width n : Nat) :
    read 16 (upperHex width n).toList = n := by
  rw [upperHex, String.toList_ofList, read_leftpad]
  exact read_toDigits spells_toUpper (by decide) (by decide) n

theorem natural_injective : Function.Injective natural :=
  Function.LeftInverse.injective (g := fun t : String => read 10 t.toList)
    read_natural

theorem hex_injective (width : Nat) : Function.Injective (hex width) :=
  Function.LeftInverse.injective (g := fun t : String => read 16 t.toList)
    (read_hex width)

theorem upperHex_injective (width : Nat) :
    Function.Injective (upperHex width) :=
  Function.LeftInverse.injective (g := fun t : String => read 16 t.toList)
    (read_upperHex width)

-- ============================================================== characters

/-- However they are spelled, digits are figures. -/
theorem mem_figures_of_spells {k : Char → Char} (hk : Spells k) (hb : 1 < b)
    (hle : b ≤ 16) (hc : c ∈ (Nat.toDigits b n).map k) : c ∈ figures := by
  obtain ⟨d, hd, rfl⟩ := List.mem_map.mp hc
  obtain ⟨m, hm, rfl⟩ := exists_digitChar hb hd
  exact (hk m (Nat.lt_of_lt_of_le hm hle)).2

theorem mem_figures_of_leftpad {width : Nat} {l : List Char}
    (hl : ∀ c ∈ l, c ∈ figures) (hc : c ∈ l.leftpad width '0') :
    c ∈ figures := by
  rcases List.mem_append.mp hc with hc | hc
  · rw [(List.mem_replicate.mp hc).2]
    decide
  · exact hl c hc

theorem mem_natural (hc : c ∈ (natural n).toList) : c ∈ figures := by
  rw [natural, String.toList_ofList, ← List.map_id (Nat.toDigits ..)] at hc
  exact mem_figures_of_spells spells_id (by decide) (by decide) hc

theorem mem_hex {width : Nat} (hc : c ∈ (hex width n).toList) :
    c ∈ figures := by
  rw [hex, String.toList_ofList] at hc
  refine mem_figures_of_leftpad (fun c hc => ?_) hc
  rw [← List.map_id (Nat.toDigits ..)] at hc
  exact mem_figures_of_spells spells_id (by decide) (by decide) hc

theorem mem_upperHex {width : Nat} (hc : c ∈ (upperHex width n).toList) :
    c ∈ figures := by
  rw [upperHex, String.toList_ofList] at hc
  exact mem_figures_of_leftpad (fun c hc =>
    mem_figures_of_spells spells_toUpper (by decide) (by decide) hc) hc

-- ============================================================ signed ones

theorem mem_integer {i : Int} (hc : c ∈ (integer i).toList) :
    c = '-' ∨ c ∈ figures := by
  cases i with
  | ofNat n => exact .inr (mem_natural hc)
  | negSucc n =>
      rw [integer, String.toList_append] at hc
      exact (List.mem_append.mp hc).imp List.mem_singleton.mp mem_natural

/-- A numeral has a digit. -/
theorem integer_ne_empty (i : Int) : integer i ≠ "" := by
  intro hempty
  have hlist := congrArg String.toList hempty
  cases i with
  | ofNat n =>
      rw [integer, natural, String.toList_ofList] at hlist
      exact Nat.toDigits_ne_nil hlist
  | negSucc n =>
      rw [integer, String.toList_append] at hlist
      cases hlist

/-- The sign tells negative numbers from the others. -/
theorem integer_injective : Function.Injective integer := by
  have hsigned : ∀ m n, natural m ≠ "-" ++ natural n := by
    intro m n heq
    have hminus : '-' ∈ (natural m).toList := by
      rw [heq, String.toList_append]
      exact List.mem_append_left _ (.head _)
    exact absurd (mem_natural hminus) (by decide)
  intro i j heq
  cases i with
  | ofNat m =>
      cases j with
      | ofNat n => exact congrArg Int.ofNat (natural_injective heq)
      | negSucc n => exact absurd heq (hsigned m (n + 1))
  | negSucc m =>
      cases j with
      | ofNat n => exact absurd heq.symm (hsigned n (m + 1))
      | negSucc n =>
          have hsame :=
            natural_injective (String.append_right_inj _ |>.mp heq)
          exact congrArg Int.negSucc (Nat.succ.inj hsame)

end InstructionTree.Text
