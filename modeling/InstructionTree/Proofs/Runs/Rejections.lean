/-
Which edits the attach check rejects.

An edit is legal if the owner can not be reached from any node that it
attaches. The check does not look for the child below itself, though; it
looks for it on the way up from the owner, along the links. The two agree
as long as every link names a node that holds the one that has it. A link
that has become stale leads elsewhere, and a legal edit breaks off if it
leads to the node that is to enter (`Sees.broke_iff_above`).

Links become stale where a node is taken off its parent but not off
everybody. Runs in which that does not happen never see a legal edit
rejected, wherever their nodes are shared.
-/
import InstructionTree.Proofs.Collection.Rejections
import InstructionTree.Proofs.Runs.Balance
import InstructionTree.Proofs.Runs.Building
import InstructionTree.Proofs.Runs.Indices
import InstructionTree.Proofs.Runs.Upheld

namespace InstructionTree

open Forest

variable {locks ns : List NodeId} {f g : Forest} {n m : NodeId} {i : Nat}

namespace Forest

/-- Replacing a child breaks off if it is replaced by another one, and that
is above its owner. -/
theorem broke_setChild (hwf : f.WellFormed) (hroot : f.Rooted n)
    (hi : i < f.childCount n) :
    (setChild .strict n i m f).Broke
      ↔ ∃ c ∈ (if f.child? n i = some m then [] else [m]), f.Above n c := by
  by_cases hsame : f.child? n i = some m
  · rw [setChild_self hwf hsame, if_pos hsame]
    simp
  rw [if_neg hsame]
  obtain ⟨⟨j, k⟩, -, hplace, rfl⟩ := hwf.exists_place hi
  rw [hwf.child?_of_hasPlace hplace] at hsame
  obtain ⟨s, hs, hset⟩ := setChild_of_hasPlace .strict hwf hplace m
  obtain ⟨s', hs', hk⟩ := hplace
  cases hs.symm.trans hs'
  rw [hset]
  unfold span at hk
  split at hk
  case isTrue hmany =>
    have hold : (Collection.items ⟨n, j⟩ f)[k]? = some (f.slot n j)[k] :=
      List.getElem?_eq_getElem hk
    rw [List.getElem?_eq_getElem hk, Option.some_inj] at hsame
    rw [if_pos hmany, Collection.broke_set hold hsame, breaksTree_iff hroot]
    simp
  case isFalse hone =>
    have hslot : f.checkOperandSlot n j = .ok () := by
      rw [checkOperandSlot_eq, (at?_of_operand hs
        (Bool.eq_false_iff.mpr hone)).2]
    have hzero : k = 0 := Nat.lt_one_iff.mp hk
    rw [hzero, ← List.head?_eq_getElem?] at hsame
    rw [if_neg hone, broke_setSlotChild hslot hsame, breaksTree_iff hroot]
    simp

/-- `replaceWith` in strict mode breaks off exactly if `m` is not `n` and the
parent is below `m`, or is `m`. -/
theorem broke_replaceWith {p : NodeId} (hwf : f.WellFormed)
    (hroot : ∀ n, f.Rooted n) (hplace : f.placeInParent? n = some (p, i)) :
    (replaceWith .strict n m f).Broke
      ↔ ∃ c ∈ (if n = m then [] else [m]), f.Above p c := by
  have hchild := child?_of_findChild? hwf (placeInParent?_eq_some hplace).2
  have hbroke := broke_setChild (m := m) hwf (hroot p)
    (hwf.lt_childCount hchild)
  simp only [hchild, Option.some_inj] at hbroke
  rw [replaceWith, hplace]
  exact hbroke

theorem not_broke_removeFromParent {checks : Checks} :
    ¬ (removeFromParent checks n f).Broke := by
  unfold removeFromParent
  split
  · exact Outcome.not_broke_fault _ _
  · split
    · exact Outcome.not_broke_fault _ _
    · split
      · rw [Outcome.broke_map]
        exact Collection.not_broke_removeAt _
      · exact not_broke_unassign

/-- `build` never breaks off on the check of an attach: nobody's link leads to
the new node. -/
theorem not_broke_build {checks : Checks} {op : Opcode} {x : Operand}
    (hns : ∀ c ∈ ns, f.isAlive c = true) :
    ¬ (build checks op x ns f).Broke := by
  have hnew := f.not_alive_alloc (Node.fresh op x)
  have hfresh : (f.alloc (Node.fresh op x)).1 ∉ ns := by
    intro hmem
    rw [hns _ hmem] at hnew
    cases hnew
  obtain ⟨g, -, -, hbuild⟩ := build_lined checks op x hfresh
  rw [hbuild]
  split
  · exact Outcome.not_broke_ok _ _
  · exact Outcome.not_broke_fault _ _

end Forest

-- ============================================================ operations

namespace Operation

variable {op : Operation}

theorem entering_alike (op : Operation) (hfg : Alike f g) :
    op.entering g = op.entering f := by
  have hitems : ∀ c : Collection, c.items g = c.items f :=
    fun c => slot_congr (hfg.slots c.owner) c.slot
  cases op with
  | setSlotChild n i child =>
      show g.assignedTo n i child = f.assignedTo n i child
      unfold assignedTo
      rw [slot_congr (hfg.slots n) i]
  | setChild n i m =>
      show (if g.child? n i = some m then [] else [m])
        = if f.child? n i = some m then [] else [m]
      rw [child?_congr (hfg.opcode n) (hfg.slots n) i]
  | change c ch => exact congrArg ch.entered (hitems c)
  | replaceCurrent cursor n =>
      show (cursor.index?.map fun i =>
          (Change.set i n).entered (cursor.collection.items g)).getD [] = _
      rw [hitems]
      rfl
  | _ => rfl

/-- The `body` of an edit is refused with `op.fault?`, in either mode. -/
theorem refuses_edit (checks : Checks) (hwf : f.WellFormed)
    (hedit : op.isEdit = true) :
    (op.body checks f).Refuses f (op.fault? checks f) := by
  cases op with
  | build | removeAll => cases hedit
  | _ => exact refuses_body hwf rfl fun j hj => by cases hj

/-- The part of an operation that works breaks off, if it is not refused,
exactly if a node that it attaches is above its owner. -/
theorem broke_body (hwf : f.WellFormed) (hroot : ∀ n, f.Rooted n)
    (hedit : op.isEdit = true)
    (hfault : op.fault? .strict f = none)
    (hlist : ∀ c ns, op ≠ .change c (.replaceList ns)) :
    (op.body .strict f).Broke
      ↔ ∃ n ∈ op.entering f, f.Above (op.owner f) n := by
  cases op with
  | setSlotChild n i child =>
      have hslot : f.checkOperandSlot n i = .ok () := by
        rw [checkOperandSlot_eq, show (f.node n).opcode.operandFault? i = none
          from hfault]
      exact broke_assign (hroot n) hslot child
  | setChild n i m =>
      refine broke_setChild hwf (hroot n) (Nat.lt_of_not_le fun hi => ?_)
      have hout : f.childFault? n i = none := hfault
      rw [childFault?, if_pos hi] at hout
      cases hout
  | replaceWith n m =>
      have hstored : f.isStored n = true := by
        by_contra hnot
        rw [fault?, if_neg hnot] at hfault
        cases hfault
      rw [← hwf.placeInParent?_isSome, Option.isSome_iff_exists] at hstored
      obtain ⟨⟨p, i⟩, hplace⟩ := hstored
      rw [owner, (placeInParent?_eq_some hplace).1]
      exact broke_replaceWith hwf hroot hplace
  | removeFromParent n =>
      exact Outcome.broke_iff_of_nil not_broke_removeFromParent
  | change c ch =>
      exact Outcome.broke_map.trans (Collection.broke_apply (hroot c.owner)
        hfault fun ns hch => hlist c ns (congrArg _ hch))
  | replaceCurrent cursor n =>
      have hout : cursor.fault? .strict n f = none := hfault
      rw [Cursor.fault?] at hout
      cases hindex : cursor.index? with
      | none =>
          rw [hindex] at hout
          cases hout
      | some i =>
          rw [hindex] at hout
          have hi : i < cursor.collection.length f := by
            simpa [Change.outside?] using (Collection.fault?_eq_none hout).2
          rw [body, Cursor.replaceCurrent, entering, hindex]
          exact Collection.broke_exchange (hroot _) hi
  | create | build | hold | drop | setOperand | flags | removeAll
  | openCursor | closeCursor | notify => cases hedit

/-- Whatever the edit, it breaks off on a node that was above its owner
before it. -/
theorem above_of_broke_body (hready : op.Ready locks f)
    (hs : f.Sound .strict (op.keeps ++ locks)) (hedit : op.isEdit = true)
    (hbroke : (op.body .strict f).Broke) :
    ∃ n ∈ op.entering f, f.Above (op.owner f) n := by
  by_cases hlist : ∃ c ns, op = .change c (.replaceList ns)
  · obtain ⟨c, ns, rfl⟩ := hlist
    exact Collection.above_of_broke_apply hs hready.1 (.head _)
      (fun n hn => List.mem_append_left _ (.tail _ hn))
      (Outcome.broke_map.mp hbroke)
  have hrefuses := refuses_edit .strict hs.toWellFormed hedit
  cases hfault : op.fault? .strict f with
  | some e =>
      rw [hfault] at hrefuses
      exact absurd hbroke hrefuses.not_broke
  | none =>
      exact (broke_body hs.toWellFormed (hs.rooted rfl) hedit hfault
        fun c ns hop => hlist ⟨c, ns, hop⟩).mp hbroke

section

variable (hready : op.Ready locks f)
include hready

/-- A build does not break off, and no node is `Above` the one that is still
to be built. -/
private theorem broke_build (hbuild : op.builds = true) :
    (op.run .strict f).Broke
      ↔ ∃ n ∈ op.entering f, f.Above (op.owner f) n := by
  cases op with
  | build a x ns =>
      have hready' := Ready.alike hready (alike_holdAll ns)
      rw [run, Outcome.broke_always]
      refine iff_of_false (fun hbroke => ?_) ?_
      · exact not_broke_build hready' (Outcome.broke_map.mp hbroke)
      · rintro ⟨n, hn, hup⟩
        have hnone := f.not_alive_of_size_le (n := ⟨f.size⟩) (Nat.le_refl _)
        rcases Relation.ReflTransGen.cases_head hup with rfl | ⟨p, hp, -⟩
        · cases (hready _ hn).symm.trans hnone
        · cases (alive_of_parent? hp).symm.trans hnone
  | create | hold | drop | setOperand | flags | setSlotChild | setChild
  | replaceWith | removeFromParent | change | removeAll | openCursor
  | closeCursor | replaceCurrent | notify => cases hbuild

variable (hs : f.Sound .strict locks)
  (hop : op.isEdit = true ∨ op.builds = true)
include hs hop

/-- An edit without a fault breaks off exactly if some node that it attaches is
its owner or above it, `replaceList` apart. -/
theorem broke_run (hfault : op.fault? .strict f = none)
    (hlist : ∀ c ns, op ≠ .change c (.replaceList ns)) :
    (op.run .strict f).Broke
      ↔ ∃ n ∈ op.entering f, f.Above (op.owner f) n := by
  rcases hop with hedit | hbuild
  case inr => exact broke_build hready hbuild
  have hheld := alike_holdAll (f := f) op.keeps
  have hs' := hs.holdAll hready.keeps
  rw [← fault?_holdAll op op.keeps] at hfault
  have hbody := broke_body hs'.toWellFormed (hs'.rooted rfl) hedit hfault
    hlist
  rw [op.entering_alike hheld, op.owner_alike hheld, hheld.above] at hbody
  exact Outcome.broke_always.trans hbody

theorem above_of_broke_run (hbroke : (op.run .strict f).Broke) :
    ∃ n ∈ op.entering f, f.Above (op.owner f) n := by
  rcases hop with hedit | hbuild
  case inr => exact (broke_build hready hbuild).mp hbroke
  have hheld := alike_holdAll (f := f) op.keeps
  have hbody := above_of_broke_body (hready.alike hheld)
    (hs.holdAll hready.keeps) hedit (Outcome.broke_always.mp hbroke)
  rwa [op.entering_alike hheld, op.owner_alike hheld, hheld.above] at hbody

omit hop in
/-- An edit without a fault that does not break off succeeds. -/
theorem run_eq_ok (hedit : op.isEdit = true)
    (hfault : op.fault? .strict f = none)
    (hwhole : ¬ (op.run .strict f).Broke) :
    ∃ g, op.run .strict f = .ok () g := by
  have hheld := alike_holdAll (f := f) op.keeps
  have hs' := hs.holdAll hready.keeps
  obtain ⟨o, hcarried⟩ := carried_body (hready.alike hheld) hs' hedit
  rw [← fault?_holdAll op op.keeps] at hfault
  have hrefuses := refuses_edit .strict hs'.toWellFormed hedit
  rw [hfault] at hrefuses
  rcases hcarried.ok_or_broke hrefuses with ⟨u, g, hout⟩ | hbroke
  · exact ⟨g.releaseAll op.keeps, by rw [run, hout]; rfl⟩
  · exact absurd (Outcome.broke_always.mpr hbroke) hwhole

end

/-- From no node that the operation attaches does `Holds` lead to its owner. -/
def Legal (op : Operation) (f : Forest) : Prop :=
  ∀ n ∈ op.entering f, ¬ Relation.ReflTransGen f.Holds n (op.owner f)

end Operation

-- ============================================================ rejections

namespace Sees

variable {permits : Permit} {op : Operation}

/-- What the attach check rejects. An edit that is not refused breaks off
exactly if a node that it attaches is above the owner by links; only for an
edit that overwrites, some of these may have been let go of in time. So a
legal edit breaks off only where a link on the way up from the owner, below
a node that it attaches, names a parent that does not hold its node any
more.

There is no such link after a run that takes nodes off their parents only
with the last position that they count. After it no legal edit breaks off,
and those that are not refused are done. -/
theorem broke_iff_above (hf : Sees .strict permits locks f)
    (hready : op.Ready locks f)
    (hop : op.isEdit = true ∨ op.builds = true) :
    (op.fault? .strict f = none →
      (∀ c ns, op ≠ .change c (.replaceList ns)) →
      ((op.run .strict f).Broke
        ↔ ∃ n ∈ op.entering f, f.Above (op.owner f) n))
    ∧ (op.Legal f → (op.run .strict f).Broke →
      ∃ n ∈ op.entering f, ∃ m p, f.Above (op.owner f) m
        ∧ f.parent? m = some p ∧ m ∉ f.children p ∧ f.Above p n)
    ∧ (Runs .strict Upright [] ∅ f → op.Legal f →
      ¬ (op.run .strict f).Broke
        ∧ (op.isEdit = true → op.fault? .strict f = none →
          ∃ g, op.run .strict f = .ok () g)) := by
  have hs : f.Sound .strict locks := hf.sound
  have hstale : op.Legal f → (op.run .strict f).Broke →
      ∃ n ∈ op.entering f, ∃ m p, f.Above (op.owner f) m
        ∧ f.parent? m = some p ∧ m ∉ f.children p ∧ f.Above p n := by
    intro hlegal hbroke
    obtain ⟨n, hn, hup⟩ := Operation.above_of_broke_run hready hs hop hbroke
    exact ⟨n, hn, exists_stale_of_above hup (hlegal n hn)⟩
  refine ⟨Operation.broke_run hready hs hop, hstale,
    fun hupright hlegal => ?_⟩
  have hup : f.Upheld :=
    hupright.upheld rfl (sound_empty .strict) covered_empty upheld_empty
  have hwhole : ¬ (op.run .strict f).Broke := fun hbroke => by
    obtain ⟨n, -, m, p, -, hp, hgone, -⟩ := hstale hlegal hbroke
    exact hgone (hup m p hp)
  exact ⟨hwhole, fun hedit hfault =>
    Operation.run_eq_ok hready hs hedit hfault hwhole⟩

/-- From a node without children `Holds` leads nowhere but to itself. -/
private theorem not_reaches {o : NodeId} (hleaf : f.children n = [])
    (hne : n ≠ o) : ¬ Relation.ReflTransGen f.Holds n o := by
  intro hreach
  rcases Relation.ReflTransGen.cases_head hreach with rfl | ⟨c, hc, -⟩
  · exact hne rfl
  · rw [Holds, hleaf] at hc
    cases hc

/-- A block in two others. The one it was put into first lets go of it, and
may be put into it then. -/
theorem broke_iff_above_of_former :
    let ops : List Operation :=
      [.create .block .none, .hold ⟨0⟩, .create .block .none, .hold ⟨1⟩,
        .create .block .none, .hold ⟨2⟩, .change ⟨⟨0⟩, 0⟩ (.add ⟨2⟩),
        .change ⟨⟨1⟩, 0⟩ (.add ⟨2⟩), .change ⟨⟨0⟩, 0⟩ (.removeAt 0)]
    let f := played .strict ops ∅
    let last : Operation := .change ⟨⟨2⟩, 0⟩ (.add ⟨0⟩)
    Runs .strict Upright [] ∅ f ∧ last.Ready [] f ∧ last.Legal f
      ∧ ∃ g, last.run .strict f = .ok () g := by
  intro ops f last
  have hplays : Plays .strict (fun op f => op.partsLast .strict f) [] ops
      ∅ := by decide
  have hf : Runs .strict Upright [] ∅ f :=
    hplays.runs (fun hop hparts => hop.upright hparts) .refl
  have hready : last.Ready [] f := by decide
  have hlegal : last.Legal f := by
    intro n hn
    obtain rfl := List.mem_singleton.mp hn
    exact not_reaches (by decide) (by decide)
  obtain ⟨-, -, hdone⟩ := broke_iff_above (.between hf) hready (.inl rfl)
  exact ⟨hf, hready, hlegal, (hdone hf hlegal).2 rfl (by decide)⟩

/-- The same, but the block it was put into last lets go of it. That is
empty then and still the parent, and may not be put into it. -/
theorem broke_of_latter :
    let ops : List Operation :=
      [.create .block .none, .hold ⟨0⟩, .create .block .none, .hold ⟨1⟩,
        .create .block .none, .hold ⟨2⟩, .change ⟨⟨0⟩, 0⟩ (.add ⟨2⟩),
        .change ⟨⟨1⟩, 0⟩ (.add ⟨2⟩), .change ⟨⟨1⟩, 0⟩ (.removeAt 0)]
    let f := played .strict ops ∅
    let last : Operation := .change ⟨⟨2⟩, 0⟩ (.add ⟨1⟩)
    Runs .strict Plain [] ∅ f ∧ last.Ready [] f ∧ last.Legal f
      ∧ f.children ⟨1⟩ = [] ∧ f.parent? ⟨2⟩ = some ⟨1⟩
      ∧ last.run .strict f
        = .stop (.panic (.notATree .block)) (last.run .strict f).state := by
  intro ops f last
  have hplays : Plays .strict (fun _ _ => true) [] ops ∅ := by decide
  have hlegal : last.Legal f := by
    intro n hn
    obtain rfl := List.mem_singleton.mp hn
    exact not_reaches (by decide) (by decide)
  exact ⟨hplays.runs (fun hop _ => hop.plain) .refl, by decide, hlegal,
    by decide, by decide, by decide⟩

end Sees

end InstructionTree
