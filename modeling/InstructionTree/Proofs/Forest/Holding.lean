/-
How many slot positions hold a node.

`holdCount` is what `slotRefs` wants to be: the number of positions, over
all slots of all live nodes, at which a node is stored. The lemmas compare
the counts of two forests that differ in one slot of one owner
(`holdCount_exchange`); freeing owners can only lower them
(`holdCount_le_of_children`).

# Covered

A freed owner tells its children nothing, so `slotRefs` may be larger than
the number of positions, but it is never smaller (`Covered`). This is what
a detach relies on: the counter of a node that still sits somewhere does
not run out.
-/
import InstructionTree.Proofs.Forest.Touch
import Mathlib.Algebra.Order.BigOperators.Group.Finset

namespace InstructionTree.Forest

variable {f g h : Forest}

-- =========================================================== the count

/-- The number of slot positions of live nodes that hold `n`. -/
def holdCount (f : Forest) (n : NodeId) : Nat :=
  ∑ i ∈ Finset.range f.size, (f.children ⟨i⟩).count n

/-- Identities that were not handed out hold nothing. -/
theorem holdCount_eq_sum {bound : Nat} (hbound : f.size ≤ bound)
    (n : NodeId) :
    f.holdCount n = ∑ i ∈ Finset.range bound, (f.children ⟨i⟩).count n := by
  refine Finset.sum_subset ?_ fun i _ hi => ?_
  · intro i hi
    rw [Finset.mem_range] at hi ⊢
    omega
  · have hdead : f.isAlive ⟨i⟩ = false :=
      f.not_alive_of_size_le (by simpa using hi)
    rw [children_of_not_alive f hdead]
    rfl

theorem count_le_holdCount (p n : NodeId) :
    (f.children p).count n ≤ f.holdCount n := by
  cases halive : f.isAlive p with
  | false =>
      rw [children_of_not_alive f halive]
      exact Nat.zero_le _
  | true =>
      have hmem : p.index ∈ Finset.range f.size :=
        Finset.mem_range.mpr (f.index_lt_of_alive halive)
      exact Finset.single_le_sum (f := fun i => (f.children ⟨i⟩).count n)
        (fun i _ => Nat.zero_le _) hmem

theorem holdCount_pos_iff {n : NodeId} :
    0 < f.holdCount n ↔ ∃ p, n ∈ f.children p := by
  constructor
  · intro hpos
    by_contra hnone
    have hzero : f.holdCount n = 0 :=
      Finset.sum_eq_zero fun i _ =>
        List.count_eq_zero.mpr fun hn => hnone ⟨⟨i⟩, hn⟩
    omega
  · rintro ⟨p, hp⟩
    exact Nat.lt_of_lt_of_le (List.count_pos_iff.mpr hp)
      (count_le_holdCount p n)

/-- Two nodes that hold `n` hold it twice. -/
theorem count_add_count_le {p q n : NodeId} (hne : p ≠ q) :
    (f.children p).count n + (f.children q).count n ≤ f.holdCount n := by
  have hindex : p.index ≠ q.index := by
    intro heq
    cases p
    cases q
    exact hne (congrArg NodeId.mk heq)
  have hbound : f.size ≤ f.size + p.index + q.index + 1 := by omega
  rw [holdCount_eq_sum hbound]
  have hpair : ({p.index, q.index} : Finset Nat)
      ⊆ Finset.range (f.size + p.index + q.index + 1) := by
    intro i hi
    rw [Finset.mem_insert, Finset.mem_singleton] at hi
    rw [Finset.mem_range]
    omega
  have hsum := Finset.sum_le_sum_of_subset
    (f := fun i => (f.children ⟨i⟩).count n) hpair
  rwa [Finset.sum_pair hindex] at hsum

-- ============================================================ exchanges

/-- The count, with one owner set apart. -/
theorem holdCount_split (f : Forest) {bound : Nat} (hbound : f.size ≤ bound)
    (o n : NodeId) (ho : o.index < bound) :
    f.holdCount n = (f.children o).count n
      + ∑ i ∈ (Finset.range bound).erase o.index,
        (f.children ⟨i⟩).count n := by
  rw [holdCount_eq_sum hbound]
  exact (Finset.add_sum_erase _ (fun i => (f.children ⟨i⟩).count n)
    (Finset.mem_range.mpr ho)).symm

/-- If only one owner holds `n` elsewhere than before, the counts differ
by what that owner holds. -/
theorem holdCount_exchange {o n : NodeId} (hsize : f.size ≤ g.size)
    (hothers : ∀ p, p ≠ o →
      (g.children p).count n = (f.children p).count n) :
    g.holdCount n + (f.children o).count n
      = f.holdCount n + (g.children o).count n := by
  have hbound : f.size ≤ g.size + o.index + 1 := by omega
  have hbound' : g.size ≤ g.size + o.index + 1 := by omega
  have hf := f.holdCount_split hbound o n (by omega)
  have hg := g.holdCount_split hbound' o n (by omega)
  have hrest : ∑ i ∈ (Finset.range (g.size + o.index + 1)).erase o.index,
        (g.children ⟨i⟩).count n
      = ∑ i ∈ (Finset.range (g.size + o.index + 1)).erase o.index,
        (f.children ⟨i⟩).count n := by
    refine Finset.sum_congr rfl fun i hi => hothers ⟨i⟩ ?_
    rintro rfl
    exact (Finset.mem_erase.mp hi).1 rfl
  omega

/-- If no other owner holds `n` more often than before, the count grows at
most by what the one owner holds. -/
theorem holdCount_exchange_le {o n : NodeId} (hsize : f.size ≤ g.size)
    (hothers : ∀ p, p ≠ o →
      (g.children p).count n ≤ (f.children p).count n) :
    g.holdCount n + (f.children o).count n
      ≤ f.holdCount n + (g.children o).count n := by
  have hbound : f.size ≤ g.size + o.index + 1 := by omega
  have hbound' : g.size ≤ g.size + o.index + 1 := by omega
  have hf := f.holdCount_split hbound o n (by omega)
  have hg := g.holdCount_split hbound' o n (by omega)
  have hrest : ∑ i ∈ (Finset.range (g.size + o.index + 1)).erase o.index,
        (g.children ⟨i⟩).count n
      ≤ ∑ i ∈ (Finset.range (g.size + o.index + 1)).erase o.index,
        (f.children ⟨i⟩).count n := by
    refine Finset.sum_le_sum fun i hi => hothers ⟨i⟩ ?_
    rintro rfl
    exact (Finset.mem_erase.mp hi).1 rfl
  omega

/-- If no node has `n` more often among its children, `holdCount` of `n` has
not grown. -/
theorem holdCount_le_of_children {n : NodeId} (hsize : f.size ≤ g.size)
    (hchildren : ∀ p, (g.children p).count n ≤ (f.children p).count n) :
    g.holdCount n ≤ f.holdCount n := by
  rw [holdCount_eq_sum (f := f) hsize]
  exact Finset.sum_le_sum fun i _ => hchildren ⟨i⟩

theorem holdCount_eq_of_children {n : NodeId} (hsize : f.size ≤ g.size)
    (hchildren : ∀ p, (g.children p).count n = (f.children p).count n) :
    g.holdCount n = f.holdCount n := by
  rw [holdCount_eq_sum (f := f) hsize]
  exact Finset.sum_congr rfl fun i _ => hchildren ⟨i⟩

/-- Other contents in one slot, counted. -/
theorem count_flatten_set (n : NodeId) :
    ∀ (slots : List (List NodeId)) {i : Nat} (new : List NodeId),
      i < slots.length →
      ((slots.set i new).flatten).count n + ((slots[i]?).getD []).count n
        = slots.flatten.count n + new.count n
  | [], _, _, hi => absurd hi (Nat.not_lt_zero _)
  | items :: rest, 0, new, _ => by
      simp only [List.set_cons_zero, List.flatten_cons, List.count_append,
        List.getElem?_cons_zero, Option.getD_some]
      omega
  | items :: rest, i + 1, new, hi => by
      have ih := count_flatten_set n rest new (Nat.lt_of_succ_lt_succ hi)
      simp only [List.set_cons_succ, List.flatten_cons, List.count_append,
        List.getElem?_cons_succ]
      omega

-- ============================================================= covered

/-- Every live node counts at least the positions that hold it. -/
def Covered (f : Forest) : Prop :=
  ∀ n, f.isAlive n = true → f.holdCount n ≤ (f.node n).slotRefs

end InstructionTree.Forest
