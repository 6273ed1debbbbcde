/-
One index space, and all that is read through it.

`childCount` adds up what the slots take, `locate?` computes a slot from
an index, `children` lists the slots one after the other, and a collection
counts from its own base. None of them is defined by another one. They
agree because only the last slot is a collection and an operand slot holds
one node or none, which is part of `WellFormed`.

# Places

A place is an index inside of a slot. `HasPlace` are the places that a
node has: one in each operand slot, empty or not, and one for each element
of the collection. They are what the indices below the child count stand
for (`bijOn_locate?`), so two forests that give a node the same places
give it the same indices.

To see that listing the slots is reading index after index, both are
compared with `pick`, which walks along the slots and counts down.
-/
import InstructionTree.Proofs.Forest.Faults
import Mathlib.Data.Set.Function

namespace InstructionTree.Forest

variable {f g : Forest} {n m : NodeId} {i j k : Nat}

-- ================================================================ walking

/-- What is at an index of the space, found by walking along the slots. -/
def pick : List (Slot × List NodeId) → Nat → Option NodeId
  | [], _ => none
  | slot :: rest, i =>
      if i < span slot then slot.2[i]? else pick rest (i - span slot)

/-- An element is picked at the index of its slot and its own. -/
theorem LastOnly.pick_add {slots : List (Slot × List NodeId)}
    (h : LastOnly slots) {slot : Slot × List NodeId}
    (hslot : slots[i]? = some slot) (hk : k < span slot) :
    pick slots (i + k) = slot.2[k]? := by
  induction slots generalizing i with
  | nil => cases hslot
  | cons first rest ih =>
      unfold pick
      cases i with
      | zero =>
          cases hslot
          rw [Nat.zero_add, if_pos hk]
      | succ i =>
          cases rest with
          | nil => cases hslot
          | cons next rest =>
              rw [h.span_head, if_neg (by omega), ← ih h.tail hslot]
              congr 1
              omega

/-- Reading a list index after index, and maybe further. -/
private theorem filterMap_range_getElem? {l : List NodeId} :
    ∀ {count : Nat}, l.length ≤ count →
      (List.range count).filterMap (fun i => l[i]?) = l := by
  induction l with
  | nil => exact fun _ => List.filterMap_eq_nil_iff.mpr fun _ _ => rfl
  | cons n rest ih =>
      intro count hle
      cases count with
      | zero => exact absurd hle (Nat.not_succ_le_zero _)
      | succ count =>
          rw [List.range_succ_eq_map, List.filterMap_cons, List.filterMap_map]
          exact congrArg (n :: ·) (ih (Nat.le_of_succ_le_succ hle))

/-- The slots one after the other are what is picked index after index, if
no operand slot holds more than its one index. -/
theorem flatten_eq_picked {slots : List (Slot × List NodeId)}
    (hfit : ∀ slot ∈ slots, slot.2.length ≤ span slot) :
    (slots.map Prod.snd).flatten
      = (List.range (space slots)).filterMap (pick slots) := by
  induction slots with
  | nil => rfl
  | cons slot rest ih =>
      have hfirst : (List.range (span slot)).filterMap (pick (slot :: rest))
          = slot.2 := by
        rw [List.filterMap_congr fun i hi => ?_]
        · exact filterMap_range_getElem? (hfit slot (.head _))
        · rw [pick, if_pos (List.mem_range.mp hi)]
      have hrest : pick (slot :: rest) ∘ (span slot + ·) = pick rest := by
        funext i
        rw [Function.comp_apply, pick, if_neg (by omega),
          Nat.add_sub_cancel_left]
      rw [space_cons, List.range_add, List.filterMap_append,
        List.filterMap_map, hfirst, hrest, List.map_cons, List.flatten_cons,
        ih fun slot hslot => hfit slot (.tail _ hslot)]

-- ================================================================= places

/-- What is read where an index leads. -/
theorem child?_of_locate? (hlocate : f.locate? n i = some (j, k)) :
    f.child? n i = (f.slot n j)[k]? := by
  unfold child?
  rw [hlocate]
  rfl

/-- Slot `place.1` of `n` has an index `place.2`: an operand slot has one,
the collection has one for each element. -/
def HasPlace (f : Forest) (n : NodeId) (place : Nat × Nat) : Prop :=
  ∃ s, (f.node n).opcode.slot? place.1 = some s
    ∧ place.2 < span (s, f.slot n place.1)

/-- An operand slot has the place of its one node. -/
theorem HasPlace.operand {s : Slot}
    (hs : (f.node n).opcode.slot? j = some s)
    (hone : s.isCollection = false) : f.HasPlace n (j, 0) :=
  ⟨s, hs, by simp [span, hone]⟩

section

variable (hwf : f.WellFormed)
include hwf

/-- The contents of a slot of the layout. -/
theorem WellFormed.getElem?_zip {s : Slot}
    (hs : (f.node n).opcode.slot? j = some s) :
    ((f.node n).opcode.layout.zip (f.node n).slots)[j]?
      = some (s, f.slot n j) := by
  have hj : j < (f.node n).slots.length := by
    rw [hwf.layout]
    exact (List.getElem?_eq_some_iff.mp hs).1
  have hstored := List.getElem?_eq_getElem hj
  rw [f.slot_of_getElem? hstored]
  exact List.getElem?_zip_eq_some.mpr ⟨hs, hstored⟩

/-- A slot holds no more than it has places for. -/
theorem WellFormed.length_le_span {s : Slot}
    (hs : (f.node n).opcode.slot? j = some s) :
    (f.slot n j).length ≤ span (s, f.slot n j) := by
  unfold span
  split
  · exact Nat.le_refl _
  case isFalse hone => exact hwf.arity hs (Bool.eq_false_iff.mpr hone)

/-- The indices below the child count are the places of the node. -/
theorem WellFormed.locate?_iff {place : Nat × Nat} :
    i < f.childCount n ∧ f.locate? n i = some place
      ↔ f.HasPlace n place ∧ i = place.1 + place.2 := by
  obtain ⟨j, k⟩ := place
  constructor
  · rintro ⟨hi, hlocate⟩
    obtain ⟨j', k', s, hlocate', hs, hbound⟩ := hwf.locate?_of_lt hi
    cases hlocate.symm.trans hlocate'
    refine ⟨⟨s, hs, ?_⟩, (locate?_eq_some hlocate).2.1⟩
    unfold span
    split
    case isTrue hmany => exact hbound hmany
    case isFalse hone =>
      have hzero := inner_eq_zero hlocate hs (Bool.eq_false_iff.mpr hone)
      exact hzero ▸ Nat.one_pos
  · rintro ⟨⟨s, hs, hk⟩, rfl⟩
    have hj : j < (f.node n).slots.length := by
      rw [hwf.layout]
      exact (List.getElem?_eq_some_iff.mp hs).1
    refine ⟨(hwf.lastOnly n).add_lt (hwf.getElem?_zip hs) hk,
      locate?_add hj ?_⟩
    unfold span at hk
    split at hk
    case isTrue hmany =>
      refine .inr ⟨s, ?_, hs, hmany⟩
      rw [hwf.layout]
      exact Opcode.succ_eq_length_of_isCollection hs hmany
    case isFalse => exact .inl (Nat.lt_one_iff.mp hk)

/-- An index below the child count has a place. -/
theorem WellFormed.exists_place (hi : i < f.childCount n) :
    ∃ place, f.locate? n i = some place ∧ f.HasPlace n place
      ∧ i = place.1 + place.2 := by
  obtain ⟨j, k, -, hlocate, -⟩ := hwf.locate?_of_lt hi
  exact ⟨(j, k), hlocate, hwf.locate?_iff.mp ⟨hi, hlocate⟩⟩

/-- The indices below the child count stand for the places of the node,
one for one. -/
theorem WellFormed.bijOn_locate? (n : NodeId) :
    Set.BijOn (f.locate? n) {i | i < f.childCount n}
      (some '' {place | f.HasPlace n place}) := by
  refine ⟨fun i hi => ?_, fun a ha b hb hab => ?_, ?_⟩
  · obtain ⟨place, hlocate, hplace, -⟩ := hwf.exists_place hi
    exact ⟨place, hplace, hlocate.symm⟩
  · obtain ⟨place, hlocate, -, rfl⟩ := hwf.exists_place ha
    exact (hwf.locate?_iff.mp ⟨hb, hab.symm.trans hlocate⟩).2.symm
  · rintro - ⟨place, hplace, rfl⟩
    exact ⟨_, hwf.locate?_iff.mpr ⟨hplace, rfl⟩⟩

-- ================================================================ reading

/-- At a place is read what its slot holds there. -/
theorem WellFormed.child?_of_hasPlace (hplace : f.HasPlace n (j, k)) :
    f.child? n (j + k) = (f.slot n j)[k]? :=
  child?_of_locate? (hwf.locate?_iff.mpr ⟨hplace, rfl⟩).2

/-- Past the end there is no child. -/
theorem WellFormed.child?_of_le (hi : f.childCount n ≤ i) :
    f.child? n i = none := by
  cases hchild : f.child? n i with
  | none => rfl
  | some m => exact absurd (hwf.lt_childCount hchild) (Nat.not_lt.mpr hi)

/-- Below the end, only an empty operand slot has no child. -/
theorem WellFormed.child?_eq_none :
    f.child? n i = none ↔ f.childCount n ≤ i
      ∨ ∃ s, (f.node n).opcode.slot? i = some s ∧ s.isCollection = false
        ∧ f.slot n i = [] := by
  constructor
  · intro hnone
    by_cases hi : i < f.childCount n
    case neg => exact .inl (Nat.le_of_not_lt hi)
    obtain ⟨⟨j, k⟩, -, hplace, rfl⟩ := hwf.exists_place hi
    rw [hwf.child?_of_hasPlace hplace, List.getElem?_eq_none_iff] at hnone
    obtain ⟨s, hs, hk⟩ := hplace
    unfold span at hk
    split at hk
    case isTrue => exact absurd hk (Nat.not_lt.mpr hnone)
    case isFalse hone =>
      obtain rfl : k = 0 := Nat.lt_one_iff.mp hk
      exact .inr ⟨s, hs, Bool.eq_false_iff.mpr hone,
        List.eq_nil_of_length_eq_zero (Nat.le_zero.mp hnone)⟩
  · rintro (hi | ⟨s, hs, hone, hempty⟩)
    · exact hwf.child?_of_le hi
    · have hchild := hwf.child?_of_hasPlace (HasPlace.operand hs hone)
      rw [hempty] at hchild
      exact hchild

/-- The children are the child at every index, where there is one. -/
theorem WellFormed.children_eq_filterMap (n : NodeId) :
    f.children n
      = (List.range (f.childCount n)).filterMap (f.child? n) := by
  have hslots : ((f.node n).opcode.layout.zip (f.node n).slots).map Prod.snd
      = (f.node n).slots :=
    List.map_snd_zip (Nat.le_of_eq (hwf.layout n))
  have hfit : ∀ slot ∈ (f.node n).opcode.layout.zip (f.node n).slots,
      slot.2.length ≤ span slot := by
    rintro ⟨s, items⟩ hslot
    obtain ⟨j, hj⟩ := List.mem_iff_getElem?.mp hslot
    have hs : (f.node n).opcode.slot? j = some s :=
      (List.getElem?_zip_eq_some.mp hj).1
    cases (hwf.getElem?_zip hs).symm.trans hj
    exact hwf.length_le_span hs
  rw [children_eq, ← hslots, flatten_eq_picked hfit]
  refine List.filterMap_congr fun i hi => ?_
  obtain ⟨⟨j, k⟩, -, hplace, rfl⟩ :=
    hwf.exists_place (List.mem_range.mp hi)
  rw [hwf.child?_of_hasPlace hplace]
  obtain ⟨s, hs, hk⟩ := hplace
  exact (hwf.lastOnly n).pick_add (hwf.getElem?_zip hs) hk

/-- A collection counts from its base. -/
theorem WellFormed.child?_base_add {c : Collection} (hc : c.Fits f)
    (j : Nat) : f.child? c.owner (c.base + j) = (c.items f)[j]? := by
  have hlast := hc.last hwf
  obtain ⟨s, hs, hmany⟩ := hc
  exact child?_of_locate? (locate?_add (hlast ▸ Nat.lt_succ_self _)
    (.inr ⟨s, hlast, hs, hmany⟩))

/-- Two forests that give a node the same layout and a collection of the
same length give it the same places. -/
theorem WellFormed.childCount_congr (hwg : g.WellFormed)
    (hop : (g.node n).opcode = (f.node n).opcode)
    (hlength : ∀ j s, (f.node n).opcode.slot? j = some s →
      s.isCollection = true → (g.slot n j).length = (f.slot n j).length) :
    g.childCount n = f.childCount n := by
  have hplaces : ∀ place, g.HasPlace n place ↔ f.HasPlace n place := by
    intro place
    have hspan : ∀ s, (f.node n).opcode.slot? place.1 = some s →
        span (s, g.slot n place.1) = span (s, f.slot n place.1) := by
      intro s hs
      unfold span
      split
      case isTrue hmany => exact hlength _ s hs hmany
      case isFalse => rfl
    unfold HasPlace
    rw [hop]
    exact exists_congr fun s => and_congr_right fun hs => by rw [hspan s hs]
  refine eq_of_forall_lt_iff fun i => ⟨fun hi => ?_, fun hi => ?_⟩
  · obtain ⟨place, -, hplace, hsum⟩ := hwg.exists_place hi
    exact (hwf.locate?_iff.mpr ⟨(hplaces place).mp hplace, hsum⟩).1
  · obtain ⟨place, -, hplace, hsum⟩ := hwf.exists_place hi
    exact (hwg.locate?_iff.mpr ⟨(hplaces place).mpr hplace, hsum⟩).1

end

end InstructionTree.Forest
