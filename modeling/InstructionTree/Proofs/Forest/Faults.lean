/-
Refusals of what goes through a node.

`childCount` is the size of the index space that `locate?` maps, so an
index below it leads to a slot and, in a collection, to an element. What
is done there can not be refused for an index any more. A node that its
parent holds is found below it (`findChild?_isSome`), so the edits that
look a node up in its parent fail for want of a place, or because a
traversal forbids the removal, and for nothing else.
-/
import InstructionTree.Proofs.Collection.Faults
import InstructionTree.Proofs.Forest.Places

namespace InstructionTree

-- ================================================================ layouts

namespace Opcode

/-- The fault of a request for an operand in slot `i`. -/
def operandFault? (op : Opcode) (i : Nat) : Option Fault :=
  match op.slot? i with
  | none => some (.unknownSlot op i)
  | some s => if s.isCollection then some (.notAnOperand op s.name) else none

/-- The fault of a request for the collection in slot `i`. -/
def collectionFault? (op : Opcode) (i : Nat) : Option Fault :=
  match op.slot? i with
  | none => some (.unknownSlot op i)
  | some s => if s.isCollection then none else some (.notACollection op s.name)

end Opcode

namespace Forest

variable {checks : Checks} {f : Forest} {n m : NodeId} {i : Nat}

-- ========================================================= the index space

/-- The number of global child indices of a slot: its length if it is a
collection, and one otherwise. -/
def span (slot : Slot × List NodeId) : Nat :=
  if slot.1.isCollection then slot.2.length else 1

/-- The number of global child indices of some slots. -/
def space (slots : List (Slot × List NodeId)) : Nat :=
  (slots.map span).foldr (· + ·) 0

theorem space_cons (slot : Slot × List NodeId)
    (rest : List (Slot × List NodeId)) :
    space (slot :: rest) = span slot + space rest := rfl

/-- Every slot that others follow takes one node. -/
def LastOnly (slots : List (Slot × List NodeId)) : Prop :=
  ∀ i slot, slots[i]? = some slot → slot.1.isCollection = true →
    i + 1 = slots.length

theorem LastOnly.tail {slot : Slot × List NodeId}
    {rest : List (Slot × List NodeId)} (h : LastOnly (slot :: rest)) :
    LastOnly rest := by
  intro i s hs hcoll
  have hlast := h (i + 1) s hs hcoll
  rw [List.length_cons] at hlast
  omega

/-- A slot that others follow has a `span` of one. -/
theorem LastOnly.span_head {slot next : Slot × List NodeId}
    {rest : List (Slot × List NodeId)}
    (h : LastOnly (slot :: next :: rest)) : span slot = 1 := by
  unfold span
  rw [if_neg]
  intro hcoll
  have hlast := h 0 slot rfl hcoll
  rw [List.length_cons, List.length_cons] at hlast
  omega

/-- Every index below `space` falls into a slot: its own, or the last one. -/
theorem LastOnly.slot_of_lt {slots : List (Slot × List NodeId)}
    (h : LastOnly slots) {i : Nat} (hi : i < space slots) :
    ∃ slot, slots[min i (slots.length - 1)]? = some slot
      ∧ i - min i (slots.length - 1) < span slot := by
  induction slots generalizing i with
  | nil => exact absurd hi (Nat.not_lt_zero i)
  | cons slot rest ih =>
      rw [space_cons] at hi
      cases rest with
      | nil => exact ⟨slot, by simp, by simpa [space] using hi⟩
      | cons next rest =>
          rw [h.span_head] at hi
          cases i with
          | zero => exact ⟨slot, by simp, by rw [h.span_head]; simp⟩
          | succ i =>
              obtain ⟨s, hs, hlt⟩ := ih h.tail (i := i) (by omega)
              have hmin : min (i + 1) ((slot :: next :: rest).length - 1)
                  = min i ((next :: rest).length - 1) + 1 := by
                simp only [List.length_cons]
                omega
              refine ⟨s, ?_, ?_⟩
              · rw [hmin]
                exact hs
              · rw [hmin]
                omega

/-- Every place of a slot is an index below `space`. -/
theorem LastOnly.add_lt {slots : List (Slot × List NodeId)}
    (h : LastOnly slots) {i k : Nat} {slot : Slot × List NodeId}
    (hslot : slots[i]? = some slot) (hk : k < span slot) :
    i + k < space slots := by
  induction slots generalizing i with
  | nil => cases hslot
  | cons first rest ih =>
      rw [space_cons]
      cases i with
      | zero =>
          cases hslot
          omega
      | succ i =>
          cases rest with
          | nil => cases hslot
          | cons next rest =>
              have hrest := ih h.tail hslot
              rw [h.span_head]
              omega

section

variable (hwf : f.WellFormed)
include hwf

theorem WellFormed.lastOnly (n : NodeId) :
    LastOnly ((f.node n).opcode.layout.zip (f.node n).slots) := by
  intro i slot hslot hcoll
  obtain ⟨hs, -⟩ := List.getElem?_zip_eq_some.mp hslot
  have hlast := Opcode.succ_eq_length_of_isCollection hs hcoll
  rw [List.length_zip, hwf.layout, Nat.min_self, hlast]

/-- An index below the child count leads to a slot, and in a collection to
an element. -/
theorem WellFormed.locate?_of_lt (hi : i < f.childCount n) :
    ∃ j k s, f.locate? n i = some (j, k)
      ∧ (f.node n).opcode.slot? j = some s
      ∧ (s.isCollection = true → k < (f.slot n j).length) := by
  obtain ⟨⟨s, items⟩, hslot, hk⟩ := (hwf.lastOnly n).slot_of_lt hi
  obtain ⟨hs, hitems⟩ := List.getElem?_zip_eq_some.mp hslot
  rw [List.length_zip, hwf.layout, Nat.min_self] at hslot hk hs hitems
  dsimp only at hs hitems
  have hstored : f.slot n (min i ((f.node n).opcode.layout.length - 1))
      = items := f.slot_of_getElem? hitems
  have hbound := (List.getElem?_eq_some_iff.mp hs).1
  refine ⟨_, i - min i ((f.node n).opcode.layout.length - 1), s, ?_, hs,
    fun hcoll => ?_⟩
  · unfold locate? Opcode.slot?
    dsimp only
    rw [hwf.layout, if_neg (by omega), hs, if_neg]
    rintro ⟨hpos, hone⟩
    rw [Option.any_some] at hone
    rw [span, if_neg (by simp [hone])] at hk
    omega
  · rw [hstored]
    rwa [span, if_pos hcoll] at hk

/-- An index at which `child?` finds a node is below `childCount`. -/
theorem WellFormed.lt_childCount (hchild : f.child? n i = some m) :
    i < f.childCount n := by
  obtain ⟨j, k, hlocate, hm⟩ := child?_eq_some.mp hchild
  obtain ⟨hj, rfl, -⟩ := locate?_eq_some hlocate
  have hlayout := hj
  rw [hwf.layout] at hlayout
  have hs := List.getElem?_eq_getElem hlayout
  have hitems := List.getElem?_eq_getElem hj
  have hslot : ((f.node n).opcode.layout.zip (f.node n).slots)[j]?
      = some ((f.node n).opcode.layout[j], (f.node n).slots[j]) :=
    List.getElem?_zip_eq_some.mpr ⟨hs, hitems⟩
  refine (hwf.lastOnly n).add_lt hslot ?_
  unfold span
  dsimp only
  split
  case isTrue =>
    rw [← f.slot_of_getElem? hitems]
    exact (List.getElem?_eq_some_iff.mp hm).1
  case isFalse hone =>
    have hzero := inner_eq_zero hlocate hs (by simpa using hone)
    omega

-- ====================================================== finding a child

omit hwf in
theorem not_mem_of_scanSlots {slots : List (List NodeId)}
    (hnone : scanSlots m i slots = none) : m ∉ slots.flatten := by
  induction slots generalizing i with
  | nil => exact List.not_mem_nil
  | cons items rest ih =>
      rw [scanSlots] at hnone
      split at hnone
      · cases hnone
      next hscan =>
        rw [List.findIdx?_eq_none_iff] at hscan
        rw [List.flatten_cons, List.mem_append]
        rintro (hm | hm)
        · simpa using hscan m hm
        · exact ih hnone hm

/-- `findChild?` finds exactly the children. -/
theorem WellFormed.findChild?_isSome :
    (f.findChild? n m).isSome = true ↔ m ∈ f.children n := by
  constructor
  · intro hsome
    obtain ⟨i, hi⟩ := Option.isSome_iff_exists.mp hsome
    exact mem_children_of_child? (child?_of_findChild? hwf hi)
  · intro hm
    unfold findChild?
    cases hscan : scanSlots m 0 (f.node n).slots with
    | none => exact absurd hm (not_mem_of_scanSlots hscan)
    | some i => simp

end

/-- Whether the parent of `n` is alive and holds it. -/
def isStored (f : Forest) (n : NodeId) : Bool :=
  (f.parent? n).any fun p => (f.children p).contains n

theorem WellFormed.placeInParent?_isSome (hwf : f.WellFormed) :
    (f.placeInParent? n).isSome = f.isStored n := by
  unfold placeInParent? isStored
  cases hparent : f.parent? n with
  | none => rfl
  | some p =>
      show ((f.findChild? p n).bind fun i => some (p, i)).isSome
        = (f.children p).contains n
      rw [Bool.eq_iff_iff, List.contains_iff_mem, ← hwf.findChild?_isSome]
      cases f.findChild? p n with
      | none => rfl
      | some i => rfl

-- =============================================================== refusals

theorem checkOperandSlot_eq (f : Forest) (n : NodeId) (i : Nat) :
    f.checkOperandSlot n i
      = match (f.node n).opcode.operandFault? i with
        | none => .ok ()
        | some e => .error e := by
  unfold checkOperandSlot Opcode.operandFault?
  dsimp only
  cases (f.node n).opcode.slot? i with
  | none => rfl
  | some s =>
      cases hcoll : s.isCollection with
      | true => simp [hcoll]
      | false => simp [hcoll]

theorem at?_eq (f : Forest) (n : NodeId) (i : Nat) :
    Collection.at? f n i
      = match (f.node n).opcode.collectionFault? i with
        | none => .ok ⟨n, i⟩
        | some e => .error e := by
  unfold Collection.at? Opcode.collectionFault?
  dsimp only
  cases (f.node n).opcode.slot? i with
  | none => rfl
  | some s =>
      cases hcoll : s.isCollection with
      | true => simp [hcoll]
      | false => simp [hcoll]

/-- `Collection.at?` answers a collection at every slot that takes many nodes.
-/
theorem at?_of_collection {s : Slot}
    (hs : (f.node n).opcode.slot? i = some s)
    (hcoll : s.isCollection = true) : Collection.at? f n i = .ok ⟨n, i⟩ := by
  simp [at?_eq, Opcode.collectionFault?, hs, hcoll]

/-- `Collection.at?` answers `notACollection` at every slot that takes one
node, and such a slot has no `operandFault?`. -/
theorem at?_of_operand {s : Slot} (hs : (f.node n).opcode.slot? i = some s)
    (hcoll : s.isCollection = false) :
    Collection.at? f n i = .error (.notACollection (f.node n).opcode s.name)
      ∧ (f.node n).opcode.operandFault? i = none := by
  simp [at?_eq, Opcode.collectionFault?, Opcode.operandFault?, hs, hcoll]

@[simp] theorem fault?_attach? (n : NodeId) (child : Option NodeId) :
    (attach? checks n child f).fault? = none := by
  cases child with
  | none => rfl
  | some c => exact fault?_attach n c

/-- An `operandFault?` is reported to no observer. -/
theorem reported_of_operandFault? {op : Opcode} {e : Fault}
    (hfault : op.operandFault? i = some e) : e.reported f = f := by
  unfold Opcode.operandFault? at hfault
  split at hfault
  · cases hfault
    rfl
  · split at hfault
    · cases hfault
      rfl
    · cases hfault

theorem refuses_setSlotChild (n : NodeId) (i : Nat)
    (child : Option NodeId) :
    (setSlotChild checks n i child f).Refuses f
      ((f.node n).opcode.operandFault? i) := by
  unfold setSlotChild
  rw [checkOperandSlot_eq]
  cases hfault : (f.node n).opcode.operandFault? i with
  | some e =>
      show Outcome.stop (.fault e) f = .stop (.fault e) (e.reported f)
      rw [reported_of_operandFault? hfault]
  | none =>
      dsimp only
      split
      · rfl
      · simp [Outcome.Refuses]

/-- The fault of `setChild` at index `i`, if there is one: it is at or past the
end. -/
def childFault? (f : Forest) (n : NodeId) (i : Nat) : Option Fault :=
  if f.childCount n ≤ i then some (.outOfBounds i (f.childCount n)) else none

section

variable (hwf : f.WellFormed)
include hwf

/-- `setChild` is refused with `childFault?`, and with no other fault. -/
theorem refuses_setChild (n : NodeId) (i : Nat) (child : NodeId) :
    (setChild checks n i child f).Refuses f (f.childFault? n i) := by
  unfold setChild childFault?
  by_cases hi : f.childCount n ≤ i
  · rw [if_pos hi, if_neg (Nat.not_lt_of_le hi)]
    rfl
  · obtain ⟨j, k, s, hlocate, hs, hbound⟩ :=
      hwf.locate?_of_lt (Nat.lt_of_not_le hi)
    rw [if_neg hi, if_pos (Nat.lt_of_not_le hi), hlocate]
    cases hcoll : s.isCollection with
    | true =>
        have hat := at?_of_collection hs hcoll
        have hset : (Collection.set checks ⟨n, j⟩ k child f).Refuses f _ :=
          Collection.refuses_set k child
        have hk : ¬ Collection.length ⟨n, j⟩ f ≤ k :=
          Nat.not_le_of_lt (hbound hcoll)
        rw [if_neg hk] at hset
        simpa only [hat] using hset
    | false =>
        obtain ⟨hat, hnone⟩ := at?_of_operand hs hcoll
        have hset : (setSlotChild checks n j (some child) f).Refuses f _ :=
          refuses_setSlotChild n j (some child)
        rw [hnone] at hset
        simpa only [hat] using hset

/-- `replaceWith` is refused with `detached`, and only for a node that is not
`isStored`. -/
theorem refuses_replaceWith (n m : NodeId) :
    (replaceWith checks n m f).Refuses f
      (if f.isStored n then none else some .detached) := by
  rw [← hwf.placeInParent?_isSome]
  unfold replaceWith
  cases hplace : f.placeInParent? n with
  | none => rfl
  | some place =>
      obtain ⟨p, i⟩ := place
      have hchild := child?_of_findChild? hwf (placeInParent?_eq_some hplace).2
      have hset : (setChild checks p i m f).Refuses f _ :=
        refuses_setChild hwf p i m
      have hi := hwf.lt_childCount hchild
      rwa [childFault?, if_neg (Nat.not_le_of_lt hi)] at hset

/-- Whether global child index `i` of `n` falls into a collection. -/
def inCollection (f : Forest) (n : NodeId) (i : Nat) : Bool :=
  (f.locate? n i).any fun place =>
    ((f.node n).opcode.slot? place.1).any Slot.isCollection

/-- The fault of removing `n` from its parent: there has to be a place, and
no traversal if that is in a collection. -/
def removalFault? (checks : Checks) (f : Forest) (n : NodeId) :
    Option Fault :=
  if f.isStored n then
    (f.placeInParent? n).bind fun place =>
      if f.inCollection place.1 place.2 then
        f.traversalFault? checks place.1
      else none
  else some .detached

/-- `removeFromParent` is refused with `removalFault?`, and with no other
fault. -/
theorem refuses_removeFromParent (n : NodeId) :
    (removeFromParent checks n f).Refuses f (f.removalFault? checks n) := by
  unfold removeFromParent removalFault?
  rw [← hwf.placeInParent?_isSome]
  cases hplace : f.placeInParent? n with
  | none => rfl
  | some place =>
      obtain ⟨p, i⟩ := place
      have hchild := child?_of_findChild? hwf (placeInParent?_eq_some hplace).2
      obtain ⟨j, k, hlocate, hm⟩ := child?_eq_some.mp hchild
      have hj := (locate?_eq_some hlocate).1
      rw [hwf.layout] at hj
      have hs : (f.node p).opcode.slot? j
          = some (f.node p).opcode.layout[j] := List.getElem?_eq_getElem hj
      cases hcoll : (f.node p).opcode.layout[j].isCollection with
      | true =>
          have hat := at?_of_collection hs hcoll
          have hremove : (Collection.removeAt checks ⟨p, j⟩ k f).Refuses f _ :=
            Collection.refuses_removeAt (List.getElem?_eq_some_iff.mp hm).1
          simpa [hlocate, hat, inCollection, hs, hcoll, Outcome.refuses_map]
            using hremove
      | false =>
          obtain ⟨hat, hnone⟩ := at?_of_operand hs hcoll
          have hset : (setSlotChild checks p j none f).Refuses f _ :=
            refuses_setSlotChild p j none
          rw [hnone] at hset
          simpa [hlocate, hat, inCollection, hs, hcoll] using hset

end

end Forest

end InstructionTree
