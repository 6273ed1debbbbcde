/-
Every edit of a collection is made of small steps of its owner.

For every part of an edit that can not stop there is a lemma that it is
small steps (`touches_overwritten`, `touches_inserted`, ...); for every
edit there is one that says how it ends (`carried_set`, `carried_add`,
...), and `carried_apply` is all of them in one statement. They need that
the handle names a collection of its owner (`Fits`), and that the owner
and the nodes mentioned are locked: a loop that lets go of nodes on the
way must not free those it still needs.
-/
import InstructionTree.Proofs.Forest.Touch

namespace InstructionTree.Collection

open Forest

variable {checks : Checks} {locks : List NodeId} {c : Collection}
  {f g : Forest}

-- =============================================================== fitting

/-- The slot that `c` names is one that takes many nodes, by the layout of its
owner's opcode. -/
def Fits (c : Collection) (f : Forest) : Prop :=
  ∃ s, (f.node c.owner).opcode.slot? c.slot = some s
    ∧ s.isCollection = true

namespace Fits

/-- The owner of a collection that fits is alive. -/
theorem alive (hc : c.Fits f) : f.isAlive c.owner = true := by
  cases halive : f.isAlive c.owner with
  | true => rfl
  | false =>
      obtain ⟨s, hs, -⟩ := hc
      rw [node_of_not_alive f halive] at hs
      cases hs

/-- `Fits` looks at the opcode of the owner alone. -/
theorem of_opcode (hc : c.Fits f)
    (hop : (g.node c.owner).opcode = (f.node c.owner).opcode) :
    c.Fits g := by
  obtain ⟨s, hs, hmany⟩ := hc
  exact ⟨s, by rw [hop]; exact hs, hmany⟩

theorem alike (hc : c.Fits f) (hfg : Alike f g) : c.Fits g :=
  hc.of_opcode (hfg.opcode c.owner)

/-- A collection that fits does so as long as its owner lives. -/
theorem ages (hc : c.Fits f) (hfg : Ages f g)
    (halive : g.isAlive c.owner = true) : c.Fits g :=
  hc.of_opcode (hfg.opcode (f.index_lt_of_alive hc.alive) halive)

/-- A collection that fits does so after `Touches` of its owner, if that is
alive. -/
theorem touches (hc : c.Fits f) (hfg : Touches checks c.owner f g)
    (halive : g.isAlive c.owner = true) : c.Fits g :=
  hc.ages hfg.ages halive

/-- The slot of a collection that fits is one of the slots of its owner. -/
theorem bound (hc : c.Fits f) (hwf : f.WellFormed) :
    c.slot < (f.node c.owner).slots.length := by
  obtain ⟨s, hs, -⟩ := hc
  rw [hwf.layout]
  exact (List.getElem?_eq_some_iff.mp hs).1

/-- The slot of a collection that fits is the last slot of its owner. -/
theorem last (hc : c.Fits f) (hwf : f.WellFormed) :
    c.slot + 1 = (f.node c.owner).slots.length := by
  obtain ⟨s, hs, hmany⟩ := hc
  rw [hwf.layout]
  exact Opcode.succ_eq_length_of_isCollection hs hmany

end Fits

/-- What `Collection.at?` answers is a collection that fits. -/
theorem fits_at? {n : NodeId} {i : Nat} (h : at? f n i = .ok c) :
    c = ⟨n, i⟩ ∧ c.Fits f := by
  unfold at? at h
  dsimp only at h
  split at h
  · cases h
  next s hslot =>
    split at h
    case isTrue hmany =>
      cases h
      exact ⟨rfl, s, hslot, hmany⟩
    case isFalse => cases h

/-- Elements are alive. -/
theorem alive_of_mem_items (hwf : f.WellFormed) {n : NodeId}
    (hn : n ∈ c.items f) : f.isAlive n = true :=
  hwf.closed (f.mem_children_of_mem_slot hn)

-- ============================================================== storing

theorem touches_place (i : Nat) (n : NodeId) :
    Touches checks c.owner f (c.place f i n) :=
  .single (.place n _)

/-- `setItems` of live nodes is a small step. -/
theorem touches_setItems (hc : c.Fits f) {items : List NodeId}
    (hlive : ∀ n ∈ items, f.isAlive n = true) :
    Touches checks c.owner f (c.setItems f items) := by
  refine .single (.store c.slot items hlive fun s hs hone => ?_)
  obtain ⟨s', hs', hmany⟩ := hc
  rw [hs] at hs'
  cases hs'
  rw [hone] at hmany
  cases hmany

/-- `renumber` is small steps: one `setPosition`, or none. -/
theorem touches_renumber (old new : Nat) (n : NodeId) :
    Touches checks c.owner f (c.renumber f old new n) := by
  unfold renumber
  split
  · exact touches_place new n
  · exact .refl

theorem touches_renumberFrom (old : Nat → Nat) :
    ∀ (i : Nat) (ns : List NodeId) {f : Forest},
      Touches checks c.owner f (c.renumberFrom old i ns f)
  | _, [], _ => .refl
  | i, n :: rest, _ =>
      (touches_renumber (old i) i n).trans
        (touches_renumberFrom old (i + 1) rest)

/-- `place` and `setItems` with the node among the live items are small steps.
-/
theorem touches_stored (hc : c.Fits f) (i : Nat) (n : NodeId)
    {items : List NodeId} (hlive : ∀ m ∈ items, f.isAlive m = true) :
    Touches checks c.owner f (c.setItems (c.place f i n) items) := by
  refine (touches_place i n).trans (touches_setItems ?_ fun m hm => ?_)
  · exact hc.of_opcode (f.field_setPosition (fun _ _ => rfl) ..)
  · exact (f.isAlive_setPosition ..).trans (hlive m hm)

section

variable (hwf : f.WellFormed) (hc : c.Fits f) {n : NodeId}
include hwf hc

/-- Storing one node in the place of another one is small steps: it is placed
and stored. -/
theorem touches_overwritten (i : Nat) (hn : f.isAlive n = true) :
    Touches checks c.owner f (c.overwritten f i n) := by
  refine touches_stored hc i n fun m hm => ?_
  rcases List.mem_or_eq_of_mem_set hm with hm | rfl
  · exact alive_of_mem_items hwf hm
  · exact hn

theorem touches_appended (i : Nat) (hn : f.isAlive n = true) :
    Touches checks c.owner f
      (c.setItems (c.place f i n) (c.items f ++ [n])) := by
  refine touches_stored hc i n fun m hm => ?_
  rcases List.mem_append.mp hm with hm | hm
  · exact alive_of_mem_items hwf hm
  · rwa [List.mem_singleton.mp hm]

/-- `inserted` is small steps. -/
theorem touches_inserted (i : Nat) (hn : f.isAlive n = true) :
    Touches checks c.owner f (c.inserted f i n) := by
  refine (touches_stored hc i n fun m hm => ?_).trans
    (touches_renumberFrom _ _ _)
  by_cases hi : i ≤ (c.items f).length
  · rcases (List.mem_insertIdx hi).mp hm with rfl | hm
    · exact hn
    · exact alive_of_mem_items hwf hm
  · rw [List.insertIdx_of_length_lt (by omega)] at hm
    exact alive_of_mem_items hwf hm

/-- `takenOut` is small steps. -/
theorem touches_takenOut (i : Nat) (old : NodeId) :
    Touches checks c.owner f (c.takenOut f i old) := by
  refine (touches_setItems hc fun m hm => ?_).tail (.leave old)
  exact alive_of_mem_items hwf (List.mem_of_mem_eraseIdx hm)

theorem touches_erased (i : Nat) (old : NodeId) :
    Touches checks c.owner f (c.erased f i old) :=
  (touches_takenOut hwf hc i old).trans (touches_renumberFrom _ _ _)

theorem touches_swapped (i : Nat) (old last : NodeId)
    (hlast : last ∈ c.items f) :
    Touches checks c.owner f
      ((c.setItems f (((c.items f).set i last).take (c.length f - 1))).detach
        c.owner old) := by
  refine (touches_setItems hc fun m hm => ?_).tail (.leave old)
  rcases List.mem_or_eq_of_mem_set (List.mem_of_mem_take hm) with hm | rfl
  · exact alive_of_mem_items hwf hm
  · exact alive_of_mem_items hwf hlast

/-- `swapErased` is small steps. -/
theorem touches_swapErased (i : Nat) (old last : NodeId)
    (hlast : last ∈ c.items f) :
    Touches checks c.owner f (c.swapErased f i old last) := by
  have hswapped : Touches checks c.owner f _ :=
    touches_swapped hwf hc i old last hlast
  unfold swapErased
  dsimp only
  split
  · exact hswapped.trans (touches_renumber _ _ _)
  · exact hswapped

/-- `moved` is small steps. -/
theorem touches_moved (a b : Nat) (hn : n ∈ c.items f) :
    Touches checks c.owner f (c.moved f a b n) := by
  refine (touches_setItems hc fun m hm => ?_).trans
    (touches_renumberFrom _ _ _)
  have hm' : m = n ∨ m ∈ (c.items f).eraseIdx a := by
    by_cases hb : b ≤ ((c.items f).eraseIdx a).length
    · exact (List.mem_insertIdx hb).mp hm
    · rw [List.insertIdx_of_length_lt (by omega)] at hm
      exact .inr hm
  rcases hm' with rfl | hm'
  · exact alive_of_mem_items hwf hn
  · exact alive_of_mem_items hwf (List.mem_of_mem_eraseIdx hm')

end

/-- `cleared` is small steps. -/
theorem touches_cleared (hc : c.Fits f) :
    Touches checks c.owner f (c.cleared f) := by
  have hdetach : ∀ (ns : List NodeId) (f : Forest),
      Touches checks c.owner f
        (ns.foldl (fun f old => f.detach c.owner old) f) := by
    intro ns
    induction ns with
    | nil => exact fun f => .refl
    | cons n rest ih => exact fun f => .head (.leave n) (ih _)
  refine (touches_setItems hc fun m hm => ?_).trans (hdetach _ _)
  cases hm

/-- `discard` is small steps, if the owner is locked: it lets go of elements on
the way. -/
theorem touches_discard (ho : c.owner ∈ locks) (i : Nat) :
    ∀ (count : Nat) {f : Forest}, f.Sound checks locks → c.Fits f →
      Touches checks c.owner f (c.discard i count f)
  | 0, _, _, _ => .refl
  | count + 1, f, hs, hc => by
      unfold discard
      split
      · exact .refl
      next old _ =>
        have hstep : Touches checks c.owner f
            ((c.takenOut f i old).reap old) :=
          (touches_takenOut hs.toWellFormed hc i old).trans
            (sheds_reap _ old).touches
        have hs' := hstep.sound hs
        exact hstep.trans (touches_discard ho i count hs'
          (hc.touches hstep (hs'.alive ho)))

theorem touches_erasedRange (ho : c.owner ∈ locks)
    (hs : f.Sound checks locks) (hc : c.Fits f) (i count : Nat) :
    Touches checks c.owner f (c.erasedRange f i count) :=
  (touches_discard ho i count hs hc).trans (touches_renumberFrom _ _ _)

-- ==================================================== how an edit ends

/-- `attach` after small steps that freed nobody is `Tried`. -/
private theorem tried_stored (hc : c.Fits f) {n : NodeId}
    (hn : f.isAlive n = true) (hfg : Touches checks c.owner f g)
    (hsame : ∀ m, g.isAlive m = f.isAlive m) :
    Tried checks c.owner f (attach checks c.owner n g) :=
  (tried_attach ((hsame _).trans hc.alive) ((hsame _).trans hn)).after hfg

@[simp] theorem isAlive_setItems (items : List NodeId) (m : NodeId) :
    (c.setItems f items).isAlive m = f.isAlive m :=
  isAlive_setSlot ..

@[simp] theorem isAlive_place (i : Nat) (n m : NodeId) :
    (c.place f i n).isAlive m = f.isAlive m :=
  isAlive_setPosition ..

/-- `clear` commits what `touches_cleared` says, or is refused. -/
theorem carried_clear (hc : c.Fits f) :
    Carried checks c.owner f (c.clear checks f) :=
  Carried.behindGuard (.done _ (touches_cleared hc) (sheds_reapAll _ _))

section

variable (hs : f.Sound checks locks) (hc : c.Fits f)
include hs hc

-- these edits need no lock on the owner

/-- `removeAt` is refused, or finds no element, or commits and lets go of one.
-/
theorem carried_removeAt (i : Nat) :
    Carried checks c.owner f (c.removeAt checks i f) := by
  refine Carried.behindGuard ?_
  split
  · exact .refused _
  next old _ =>
    exact .done _ (touches_erased hs.toWellFormed hc i old)
      (sheds_reap _ old)

theorem carried_remove (n : NodeId) :
    Carried checks c.owner f (c.remove checks n f) := by
  refine Carried.behindGuard ?_
  split
  · exact .idle _
  next i _ => exact (carried_removeAt hs hc i).map _

/-- So does `swapRemoveAt`. -/
theorem carried_swapRemoveAt (i : Nat) :
    Carried checks c.owner f (c.swapRemoveAt checks i f) := by
  refine Carried.behindGuard ?_
  split
  next old last _ hlast =>
    exact .done _ (touches_swapErased hs.toWellFormed hc i old last
      (List.mem_of_getLast? hlast)) (sheds_reap _ old)
  · exact .refused _

/-- `move` is refused, or one of its indices is past the end, or it commits. -/
theorem carried_move (a b : Nat) :
    Carried checks c.owner f (c.move checks a b f) := by
  refine Carried.behindGuard ?_
  split
  · exact .refused _
  next n hn =>
    split
    · exact .done _ (touches_moved hs.toWellFormed hc a b
        (List.mem_of_getElem? hn)) .refl
    · exact .refused _

theorem carried_moveToEnd (n : NodeId) :
    Carried checks c.owner f (c.moveToEnd checks n f) := by
  refine Carried.behindGuard ?_
  split
  · exact .idle _
  next i _ => exact (carried_move hs hc i _).map _

/-- `set` finds no element, or the node itself, or tries to attach the node and
commits. -/
theorem carried_set (i : Nat) {n : NodeId} (hn : f.isAlive n = true) :
    Carried checks c.owner f (c.set checks i n f) := by
  unfold set
  split
  · exact .refused _
  next old _ =>
    split
    · exact .idle _
    · have htried : Tried checks c.owner f
          (attach checks c.owner n (c.overwritten f i n)) :=
        tried_stored hc hn (touches_overwritten hs.toWellFormed hc i hn)
          fun m => by simp [overwritten]
      cases hout : attach checks c.owner n (c.overwritten f i n) with
      | ok a g =>
          rw [hout] at htried
          cases htried with
          | ok _ hfg =>
              exact .done _ (hfg.tail (.leave old)) (sheds_reap _ old)
      | stop why g =>
          rw [hout] at htried
          cases htried with
          | stop op hfg =>
              exact .broken op (hfg.trans (sheds_reap _ old).touches)

/-- Appending one node, placed at `i`. -/
private theorem tried_appended (i : Nat) {n : NodeId}
    (hn : f.isAlive n = true) :
    Tried checks c.owner f (attach checks c.owner n
      (c.setItems (c.place f i n) (c.items f ++ [n]))) :=
  tried_stored hc hn (touches_appended hs.toWellFormed hc i hn)
    fun m => by simp

theorem carried_add {n : NodeId} (hn : f.isAlive n = true) :
    Carried checks c.owner f (c.add checks n f) :=
  (tried_appended hs hc (c.length f) hn).commit.behindGuard

/-- Appending places, stores and attaches one node after the other, and may
stop on any of them. -/
theorem tried_append {ns : List NodeId}
    (hns : ∀ n ∈ ns, f.isAlive n = true) :
    Tried checks c.owner f (c.append checks ns f) := by
  induction ns generalizing f with
  | nil => exact .ok _ .refl
  | cons n rest ih =>
      have htried : Tried checks c.owner f (attach checks c.owner n
          (c.setItems (c.place f (c.length f) n) (c.items f ++ [n]))) :=
        tried_appended hs hc (c.length f) (hns n (.head _))
      unfold append pushed
      cases hout : attach checks c.owner n
          (c.setItems (c.place f (c.length f) n) (c.items f ++ [n])) with
      | ok a g =>
          have halive : ∀ m, g.isAlive m = f.isAlive m := fun m => by
            rw [isAlive_attach hout, isAlive_setItems, isAlive_place]
          rw [hout] at htried
          cases htried with
          | ok _ hfg =>
              refine (ih (hfg.sound hs) ?_ fun m hm => ?_).after hfg
              · exact hc.touches hfg ((halive _).trans hc.alive)
              · exact (halive m).trans (hns m (.tail _ hm))
      | stop why g =>
          rw [hout] at htried
          exact htried

omit hs hc in
/-- `append` that succeeded freed nobody. -/
theorem isAlive_append {ns : List NodeId} {a : Unit}
    (hout : c.append checks ns f = .ok a g) (m : NodeId) :
    g.isAlive m = f.isAlive m := by
  induction ns generalizing f with
  | nil =>
      cases hout
      rfl
  | cons n rest ih =>
      unfold append at hout
      split at hout
      next h hattach =>
        rw [ih hout, isAlive_attach hattach, pushed, isAlive_setItems,
          isAlive_place]
      · cases hout

theorem carried_addRange {ns : List NodeId}
    (hns : ∀ n ∈ ns, f.isAlive n = true) :
    Carried checks c.owner f (c.addRange checks ns f) :=
  (tried_append hs hc hns).commit.behindGuard

/-- `insert` is refused, or its index is past the end, or it tries to attach
the node and commits. -/
theorem carried_insert (i : Nat) {n : NodeId} (hn : f.isAlive n = true) :
    Carried checks c.owner f (c.insert checks i n f) := by
  refine Carried.behindGuard ?_
  split
  · exact .refused _
  · exact (tried_stored hc hn (touches_inserted hs.toWellFormed hc i hn)
      fun m => by simp [inserted]).commit

-- the loops of these let nodes go on the way

variable (ho : c.owner ∈ locks)
include ho

theorem carried_removeRange (i count : Nat) :
    Carried checks c.owner f (c.removeRange checks i count f) := by
  refine Carried.behindGuard ?_
  split
  · exact .refused _
  · split
    · exact .refused _
    · exact .done _ (touches_erasedRange ho hs hc i count) .refl

omit ho in
/-- One step of overwriting tries to attach the node, and then lets go of what
it overwrote. -/
theorem tried_overwriteOne (i : Nat) {n : NodeId}
    (hn : f.isAlive n = true) :
    Tried checks c.owner f (c.overwriteOne checks i n f) := by
  unfold overwriteOne
  split
  next old _ =>
    have htried : Tried checks c.owner f
        (attach checks c.owner n (c.overwritten f i n)) :=
      tried_stored hc hn (touches_overwritten hs.toWellFormed hc i hn)
        fun m => by simp [overwritten]
    exact (htried.next fun _ => .single (.leave old)).always
      fun g => (sheds_reap g old).touches
  · exact tried_appended hs hc i hn

/-- `overwrite` is `Tried`, if the owner and all nodes are locked. -/
theorem tried_overwrite {ns : List NodeId} (i : Nat)
    (hns : ∀ n ∈ ns, n ∈ locks) :
    Tried checks c.owner f (c.overwrite checks i ns f) := by
  induction ns generalizing f i with
  | nil => exact .ok _ .refl
  | cons n rest ih =>
      have htried : Tried checks c.owner f (c.overwriteOne checks i n f) :=
        tried_overwriteOne hs hc i (hs.alive (hns n (.head _)))
      unfold overwrite
      cases hout : c.overwriteOne checks i n f with
      | ok a g =>
          rw [hout] at htried
          cases htried with
          | ok _ hfg =>
              have hs' := hfg.sound hs
              exact (ih hs' (hc.touches hfg (hs'.alive ho)) (i + 1)
                fun m hm => hns m (.tail _ hm)).after hfg
      | stop why g =>
          rw [hout] at htried
          exact htried

/-- `replaceList` is refused, or it overwrites, discards the rest and commits.
-/
theorem carried_replaceList {ns : List NodeId} (hns : ∀ n ∈ ns, n ∈ locks) :
    Carried checks c.owner f (c.replaceList checks ns f) := by
  refine Carried.behindGuard ?_
  have htried := tried_overwrite hs hc ho 0 hns
  unfold overwriteAll
  cases hout : c.overwrite checks 0 ns f with
  | ok a g =>
      rw [hout] at htried
      cases htried with
      | ok _ hfg =>
          have hs' := hfg.sound hs
          exact .done _ (hfg.trans (touches_discard ho _ _ hs'
            (hc.touches hfg (hs'.alive ho)))) .refl
  | stop why g =>
      rw [hout] at htried
      cases htried with
      | stop op hfg => exact .broken op hfg

/-- A change is `Carried` out at its owner, whichever it is and however it
ends. -/
theorem carried_apply {change : Change NodeId}
    (hns : ∀ n ∈ change.nodes, n ∈ locks) :
    Carried checks c.owner f (c.apply checks change f) := by
  have hone : ∀ {n : NodeId}, n ∈ [n] := .head _
  cases change with
  | set i n => exact (carried_set hs hc i (hs.alive (hns n hone))).map _
  | add n => exact (carried_add hs hc (hs.alive (hns n hone))).map _
  | addRange ns =>
      exact (carried_addRange hs hc fun n hn => hs.alive (hns n hn)).map _
  | insert i n => exact (carried_insert hs hc i (hs.alive (hns n hone))).map _
  | removeAt i => exact (carried_removeAt hs hc i).map _
  | remove n => exact (carried_remove hs hc n).map _
  | removeRange i count =>
      exact (carried_removeRange hs hc ho i count).map _
  | swapRemoveAt i => exact (carried_swapRemoveAt hs hc i).map _
  | clear => exact (carried_clear hc).map _
  | move a b => exact (carried_move hs hc a b).map _
  | moveToEnd n => exact (carried_moveToEnd hs hc n).map _
  | replaceList ns => exact (carried_replaceList hs hc ho hns).map _

end

end InstructionTree.Collection
