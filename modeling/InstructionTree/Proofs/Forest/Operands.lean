/-
Assigning an operand slot: its books and its places.

What `exchange_apply` and `placed_apply` are for collections, the lemmas
here are for the operand slots: whatever a slot held leaves, what is
assigned enters and is placed at the index of the slot, and nothing else
moves.
-/
import InstructionTree.Proofs.Forest.Places
import InstructionTree.Proofs.Forest.Steps

namespace InstructionTree.Forest

variable {checks : Checks} {locks : List NodeId} {f g : Forest}
  {n : NodeId} {i : Nat} {child : Option NodeId}

/-- The node that assigning `child` to slot `i` of `n` attaches. -/
def assignedTo (f : Forest) (n : NodeId) (i : Nat)
    (child : Option NodeId) : List NodeId :=
  if (f.slot n i).head? = child then [] else child.toList

/-- The node that assigning `child` to slot `i` of `n` detaches. -/
def unassigned (f : Forest) (n : NodeId) (i : Nat)
    (child : Option NodeId) : List NodeId :=
  if (f.slot n i).head? = child then [] else (f.slot n i).head?.toList

/-- An operand slot was assigned: it held `child` already, or everything
followed its attach. -/
theorem setSlotChild_eq_ok {u : Unit}
    (hout : setSlotChild checks n i child f = .ok u g) :
    (∃ s, (f.node n).opcode.slot? i = some s ∧ s.isCollection = false)
      ∧ ((f.slot n i).head? = child ∧ g = f
        ∨ (f.slot n i).head? ≠ child
          ∧ ∃ k, attach? checks n child (f.slotAssigned n i child) = .ok () k
            ∧ g = ((k.detach? n (f.slot n i).head?).commit n).reapAll
              (f.slot n i).head?.toList) := by
  unfold setSlotChild at hout
  split at hout
  · cases hout
  next u' hcheck =>
    refine ⟨checkOperandSlot_ok hcheck, ?_⟩
    dsimp only at hout
    split at hout
    case isTrue hsame =>
      cases hout
      exact .inl ⟨hsame, rfl⟩
    case isFalse hother =>
      obtain ⟨h, hnext, hg⟩ := Outcome.always_eq_ok hout
      obtain ⟨k, hattach, hh⟩ := Outcome.next_eq_ok hnext
      exact .inr ⟨hother, k, hattach, by rw [hg, hh]⟩

/-- In a well-formed forest an operand slot holds its `head?` and nothing else.
-/
theorem slot_eq_head {s : Slot} (hwf : f.WellFormed)
    (hs : (f.node n).opcode.slot? i = some s)
    (hone : s.isCollection = false) :
    f.slot n i = (f.slot n i).head?.toList := by
  have hlen := hwf.arity hs hone
  rcases hslot : f.slot n i with _ | ⟨c, _ | ⟨d, rest⟩⟩
  · rfl
  · rfl
  · rw [hslot] at hlen
    simp at hlen

theorem isAlive_attach? {k : Forest} {u : Unit}
    (hattach : attach? checks n child f = .ok u k) (m : NodeId) :
    k.isAlive m = f.isAlive m := by
  cases child with
  | none =>
      cases hattach
      rfl
  | some c => exact isAlive_attach hattach m

theorem position_attach? {k : Forest} {u : Unit}
    (hattach : attach? checks n child f = .ok u k) (m : NodeId) :
    (k.node m).position = (f.node m).position := by
  cases child with
  | none =>
      cases hattach
      rfl
  | some c =>
      rw [(attach_eq_ok hattach).2]
      exact position_enter ..

theorem position_detach? (old : Option NodeId) (m : NodeId) :
    ((f.detach? n old).node m).position = (f.node m).position := by
  cases old with
  | none => rfl
  | some old => exact position_detach ..

/-- After an assignment the account says that `child` was stored and entered.
-/
private theorem account_assigned {k : Forest} {u : Unit}
    (hn : f.isAlive n = true) (hi : i < (f.node n).slots.length)
    (hchild : ∀ c ∈ child, f.isAlive c = true)
    (hattach : attach? checks n child (f.slotAssigned n i child)
      = .ok u k) :
    Account n i f child.toList [] child.toList k := by
  have hstart : Account n i f [] [] (f.slot n i) f := .start hn hi
  cases child with
  | none =>
      cases hattach
      exact hstart.store []
  | some c =>
      rw [(attach_eq_ok hattach).2]
      refine ((hstart.place c i).store [c]).enter ?_
      exact (isAlive_slotAssigned n i (some c) c).trans (hchild c rfl)

theorem exchange_setSlotChild {u : Unit} (hwf : f.WellFormed)
    (hn : f.isAlive n = true) (hchild : ∀ c ∈ child, f.isAlive c = true)
    (hout : setSlotChild checks n i child f = .ok u g) :
    ∃ k, Exchange n i (f.assignedTo n i child) (f.unassigned n i child)
        child.toList f k
      ∧ g = k.reapAll (f.unassigned n i child) := by
  obtain ⟨⟨s, hs, hone⟩, hcases⟩ := setSlotChild_eq_ok hout
  have hslot := slot_eq_head hwf hs hone
  have hi : i < (f.node n).slots.length := by
    rw [hwf.layout]
    exact (List.getElem?_eq_some_iff.mp hs).1
  unfold assignedTo unassigned
  rcases hcases with ⟨hsame, rfl⟩ | ⟨hother, k, hattach, hg⟩
  · rw [if_pos hsame, if_pos hsame, ← hsame, ← hslot]
    exact ⟨_, .start hn hi, rfl⟩
  · rw [if_neg hother, if_neg hother, hg]
    have hassigned := account_assigned hn hi hchild hattach
    have hleft : Account n i f child.toList (f.slot n i).head?.toList
        child.toList (k.detach? n (f.slot n i).head?) := by
      cases hold : (f.slot n i).head? with
      | none => exact hassigned
      | some old =>
          have hmem : old ∈ f.slot n i := List.mem_of_head? hold
          refine hassigned.leave ?_ ?_
          · rw [isAlive_attach? hattach, isAlive_slotAssigned]
            exact hwf.closed (f.mem_children_of_mem_slot hmem)
          · have hpos := List.count_pos_iff.mpr hmem
            rw [List.count_nil]
            omega
    refine ⟨_, Exchange.calm ⟨hleft, fun m => ?_⟩ (alike_commit n).calm
      ((isAlive_commit ..).trans hleft.owner), rfl⟩
    have hcount := congrArg (List.count m) hslot
    omega

/-- `setSlotChild` that succeeded is `Placed`: what it assigned has its place,
and nothing else moved. -/
theorem placed_setSlotChild {u : Unit} (hwf : f.WellFormed)
    (hchild : ∀ c ∈ child, f.isAlive c = true)
    (hout : setSlotChild checks n i child f = .ok u g) :
    Placed n i (f.assignedTo n i child) (f.slot n i) child.toList
      (fun _ => (f.slot n i).head? ≠ child) f g := by
  obtain ⟨⟨s, hs, hone⟩, hcases⟩ := setSlotChild_eq_ok hout
  have hslot := slot_eq_head hwf hs hone
  unfold assignedTo
  rcases hcases with ⟨hsame, rfl⟩ | ⟨hother, k, hattach, rfl⟩
  · rw [if_pos hsame, ← hsame, ← hslot]
    exact .of_stays (fun h => by cases h) (fun _ _ => rfl) fun hk _ => hk
  · rw [if_neg hother]
    have hpos : ∀ m, ((k.detach? n (f.slot n i).head?).node m).position
        = ((f.slotAssigned n i child).node m).position := by
      intro m
      rw [position_detach?, position_attach? hattach]
    refine Placed.calm (.of_stays (fun {m} hm _ => ?_)
      (fun {m} hm _ => ?_) fun _ h => absurd hother h)
      ((alike_commit n).calm.trans (sheds_reapAll _ _).calm)
    · have hc : child = some m := Option.mem_toList.mp hm
      subst hc
      refine ⟨0, rfl, (hpos m).trans ((position_setSlot ..).trans ?_)⟩
      exact position_setPosition_self f i (hchild m rfl)
    · rw [hpos]
      cases child with
      | none => exact position_setSlot ..
      | some c =>
          refine (position_setSlot ..).trans ?_
          exact position_setPosition_ne f i fun h => hm (h ▸ .head _)

end InstructionTree.Forest
