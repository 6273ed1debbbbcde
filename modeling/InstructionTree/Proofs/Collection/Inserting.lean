/-
The place that an edit gives to the node it puts somewhere.

Adding, replacing and assigning an operand write a place into the cache of
the node, then let it enter, and write no place any more. So the cache
points to the index that was written (`PointsTo`).

Inserting moves the later elements along after it has written the place,
and the test whether an element moves, being at its old index, reads the
cache again. The inserted node passes it if it is linked to the owner
already and is the next element, too; then its place moves along, and the
same test may be passed at the element after that. So the place is dragged
to the end of the run of the node that was at the index (`dragged`). It is
an index of the node still, but not the one it was inserted at.
-/
import InstructionTree.Proofs.Collection.Places
import InstructionTree.Proofs.Forest.Operands

namespace InstructionTree

open Forest

variable {checks : Checks} {locks : List NodeId} {f g : Forest}
  {n o : NodeId} {i j : Nat}

-- ============================================================== pointing

/-- The cached place of `n` is index `j` of `o`. -/
structure Forest.PointsTo (f : Forest) (n o : NodeId) (j : Nat) : Prop where
  linked : (f.node n).link = some o
  placed : (f.node n).position = j

namespace Forest.PointsTo

/-- `enter` makes a node with position `j` point to `o` and `j`. -/
theorem enter (hn : f.isAlive n = true) (hplaced : (f.node n).position = j) :
    (f.enter o n).PointsTo n o j where
  linked := by rw [Forest.enter, node_update_self f hn]
  placed := (position_enter ..).trans hplaced

/-- A node goes on pointing there when another one is detached. -/
theorem detach (h : f.PointsTo n o j) {p old : NodeId} (hne : old ≠ n) :
    (f.detach p old).PointsTo n o j := by
  have hsame : (f.detach p old).node n = f.node n :=
    node_update_ne f (Ne.symm hne)
  exact ⟨by rw [hsame, h.linked], by rw [hsame, h.placed]⟩

theorem calm (h : f.PointsTo n o j) (hfg : Calm f g)
    (hn : g.isAlive n = true) : g.PointsTo n o j :=
  ⟨(hfg.link (.inl hn)).trans h.linked,
    (hfg.position (.inl hn)).trans h.placed⟩

theorem commit (h : f.PointsTo n o j) (hn : f.isAlive n = true)
    (p : NodeId) : (f.commit p).PointsTo n o j :=
  h.calm (alike_commit p).calm ((isAlive_commit ..).trans hn)

/-- A node that points to a live owner has it as its parent. -/
theorem parent (h : f.PointsTo n o j) (ho : f.isAlive o = true) :
    f.parent? n = some o :=
  parent?_eq_some_iff.mpr ⟨h.linked, ho⟩

end Forest.PointsTo

-- ============================================================== operands

/-- `setSlotChild` that assigned a node to slot `i` makes it point to `i`. -/
theorem Forest.pointsTo_setSlotChild {u : Unit} (hn : f.isAlive n = true)
    (hother : (f.slot o i).head? ≠ some n) (hn' : g.isAlive n = true)
    (hout : setSlotChild checks o i (some n) f = .ok u g) :
    g.PointsTo n o i := by
  obtain ⟨-, ⟨hsame, -⟩ | ⟨-, k, hattach, rfl⟩⟩ := setSlotChild_eq_ok hout
  · exact absurd hsame hother
  · obtain ⟨-, rfl⟩ := attach_eq_ok hattach
    have hassigned : ((f.slotAssigned o i (some n)).node n).position = i :=
      (position_setSlot ..).trans (position_setPosition_self f i hn)
    have hentered : ((f.slotAssigned o i (some n)).enter o n).PointsTo n o i
      := .enter ((isAlive_slotAssigned ..).trans hn) hassigned
    have hleft : (((f.slotAssigned o i (some n)).enter o n).detach? o
        (f.slot o i).head?).PointsTo n o i := by
      cases hold : (f.slot o i).head? with
      | none => exact hentered
      | some old =>
          exact hentered.detach fun h => hother (hold.trans (congrArg some h))
    exact hleft.calm ((alike_commit o).calm.trans
      (sheds_reapAll _ _).calm) hn'

namespace Collection

variable {c : Collection}

-- ============================================================== dragging

/-- How far the place of `n` is dragged along when it is inserted at `i`:
to the end of the run of `n` that is there, if this collection's owner is
the one that `n` is linked to. -/
def dragged (c : Collection) (f : Forest) (i : Nat) (n : NodeId) : Nat :=
  if (f.node n).link = some c.owner then
    (((c.items f).drop i).takeWhile fun m => m == n).length
  else 0

/-- Nothing is dragged unless the node is linked to the owner and is at
the index already. -/
theorem dragged_eq_zero : c.dragged f i n = 0
    ↔ (f.node n).link ≠ some c.owner ∨ (c.items f)[i]? ≠ some n := by
  unfold dragged
  split
  case isFalse hlink => exact iff_of_true rfl (.inl hlink)
  case isTrue hlink =>
    rw [← List.head?_drop]
    cases (c.items f).drop i with
    | nil => simp
    | cons m rest => by_cases hm : m = n <;> simp [hm, hlink]

/-- Elements that were at an index of the place of `n` or behind it before
they moved to the right leave the place alone. -/
private theorem position_ahead {ns : List NodeId} {start : Nat}
    (hahead : (f.node n).position + 1 < c.base + start) :
    ((c.renumberFrom (fun j => j - 1) start ns f).node n).position
      = (f.node n).position := by
  induction ns generalizing start f with
  | nil => rfl
  | cons m rest ih =>
      have hmiss : ((c.renumber f (start - 1) start m).node n).position
          = (f.node n).position :=
        position_renumber_miss fun _ => by omega
      rw [renumberFrom, ih (by rw [hmiss]; omega), hmiss]

/-- Elements that move one to the right, the first of them from the place
of `n`: it is dragged along as long as they are `n`. -/
private theorem position_dragged {ns : List NodeId} {i : Nat}
    (hlink : (f.node n).link = some c.owner)
    (hplaced : (f.node n).position = c.base + i) :
    ((c.renumberFrom (fun j => j - 1) (i + 1) ns f).node n).position
      = c.base + (i + (ns.takeWhile fun m => m == n).length) := by
  induction ns generalizing i f with
  | nil => exact hplaced
  | cons m rest ih =>
      have hlink' : ((c.renumber f i (i + 1) m).node n).link
          = some c.owner := by
        rw [c.field_renumber (F := Node.link) (fun _ _ => rfl), hlink]
      rw [renumberFrom, Nat.add_sub_cancel]
      by_cases hm : m = n
      · subst hm
        rw [ih hlink' (position_renumber_hit hlink hplaced),
          List.takeWhile_cons, if_pos (beq_self_eq_true m), List.length_cons]
        omega
      · have hmiss : ((c.renumber f i (i + 1) m).node n).position
            = c.base + i :=
          (position_renumber_miss fun h => absurd h hm).trans hplaced
        rw [position_ahead (by rw [hmiss]; omega), hmiss,
          List.takeWhile_cons, if_neg (by simpa using hm)]
        rfl

/-- The position of a node that was inserted at `i`: `i`, and as far as it was
`dragged` behind. -/
theorem position_inserted (hn : f.isAlive n = true) :
    ((c.inserted f i n).node n).position
      = c.base + (i + c.dragged f i n) := by
  have hplaced : ((c.setItems (c.place f i n)
      ((c.items f).insertIdx i n)).node n).position = c.base + i :=
    (position_setSlot ..).trans (position_setPosition_self f _ hn)
  have hlink : ((c.setItems (c.place f i n)
      ((c.items f).insertIdx i n)).node n).link = (f.node n).link :=
    (link_setSlot ..).trans (link_setPosition ..)
  unfold inserted dragged
  split
  case isTrue howner => exact position_dragged (hlink.trans howner) hplaced
  case isFalse hother =>
    -- no test succeeds for a node that is linked elsewhere
    rcases position_renumberFrom (c := c) (fun j => j - 1) n
      ((c.items f).drop i) (i + 1) _ with ⟨hsame, -⟩ | ⟨howner, -⟩
    · exact hsame.trans hplaced
    · exact absurd (hlink.symm.trans howner) hother

private theorem getElem?_run {l : List NodeId} {k : Nat}
    (hk : k < (l.takeWhile fun m => m == n).length) : l[k]? = some n := by
  induction l generalizing k with
  | nil => exact absurd hk (Nat.not_lt_zero k)
  | cons m rest ih =>
      rw [List.takeWhile_cons] at hk
      split at hk
      case isTrue hm =>
        cases k with
        | zero => exact congrArg some (beq_iff_eq.mp hm)
        | succ k => exact ih (Nat.lt_of_succ_lt_succ hk)
      case isFalse => exact absurd hk (Nat.not_lt_zero k)

/-- After the insertion the node is stored at the index that it is dragged to.
-/
theorem getElem?_dragged (hi : i ≤ (c.items f).length) :
    ((c.items f).insertIdx i n)[i + c.dragged f i n]? = some n := by
  cases hrun : c.dragged f i n with
  | zero =>
      rw [Nat.add_zero, List.getElem?_insertIdx_self, if_pos hi]
  | succ k =>
      have hlt : k < (((c.items f).drop i).takeWhile
          fun m => m == n).length := by
        unfold dragged at hrun
        split at hrun
        · omega
        · cases hrun
      have hk := getElem?_run hlt
      rw [List.getElem?_drop] at hk
      rw [List.getElem?_insertIdx_of_gt (by omega), ← hk]
      rfl

-- ================================================================= edits

theorem pointsTo_add {u : Unit} (hn : f.isAlive n = true)
    (hout : c.add checks n f = .ok u g) :
    g.PointsTo n c.owner (c.base + c.length f) := by
  rw [add_eq_ok hout]
  have hpushed : ((c.pushed f n).node n).position
      = c.base + c.length f :=
    (position_setSlot ..).trans (position_setPosition_self f _ hn)
  have halive : (c.pushed f n).isAlive n = true := by
    rw [pushed, isAlive_setItems, isAlive_place, hn]
  exact (PointsTo.enter halive hpushed).commit
    ((isAlive_enter ..).trans halive) _

theorem pointsTo_insert {u : Unit} (hn : f.isAlive n = true)
    (hout : c.insert checks i n f = .ok u g) :
    g.PointsTo n c.owner (c.base + (i + c.dragged f i n)) := by
  rw [(insert_eq_ok hout).2]
  have halive : (c.inserted f i n).isAlive n = true := by
    rw [inserted, isAlive_renumberFrom, isAlive_setItems, isAlive_place, hn]
  exact (PointsTo.enter halive (position_inserted hn)).commit
    ((isAlive_enter ..).trans halive) _

theorem pointsTo_set {u : Unit} (hn : f.isAlive n = true)
    (hother : (c.items f)[i]? ≠ some n) (hn' : g.isAlive n = true)
    (hout : c.set checks i n f = .ok u g) :
    g.PointsTo n c.owner (c.base + i) := by
  obtain ⟨old, hold, ⟨hsame, -⟩ | ⟨hne, hg⟩⟩ := set_eq_ok hout
  · exact absurd (hsame ▸ hold) hother
  · have hover : ((c.overwritten f i n).node n).position = c.base + i :=
      (position_setSlot ..).trans (position_setPosition_self f _ hn)
    have halive : (c.overwritten f i n).isAlive n = true := by
      rw [overwritten, isAlive_setItems, isAlive_place, hn]
    have hentered : ((c.overwritten f i n).enter c.owner n).PointsTo n
        c.owner (c.base + i) := .enter halive hover
    rw [hg] at hn' ⊢
    exact (hentered.detach hne).calm ((alike_commit c.owner).calm.trans
      (sheds_reap _ old).calm) hn'

end Collection

end InstructionTree
