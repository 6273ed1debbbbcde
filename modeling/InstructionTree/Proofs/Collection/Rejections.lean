/-
Which edits of a collection break off on the attach check.

The check looks for the child on the way up from the owner. An edit that
puts several nodes somewhere asks it once for each of them, on forests that
no client sees; but it asks about nobody who was not above the owner before
the edit (`above_of_broke_apply`). For most edits that is all there is to
it: they break off exactly if some node that enters is above the owner
(`broke_apply`). Only an edit that overwrites lets go of elements between
its attaches, and whoever was above the owner by one of these may be gone
when it is asked about.
-/
import InstructionTree.Proofs.Collection.Contract
import InstructionTree.Proofs.Collection.Exchanges
import InstructionTree.Proofs.Collection.Faults
import InstructionTree.Proofs.Forest.Ascents

namespace InstructionTree

variable {checks : Checks} {locks ns : List NodeId} {f g : Forest}
  {n o : NodeId} {i : Nat}

/-- A program that `Refuses` with a fault does not break off. -/
theorem Outcome.Refuses.not_broke {α : Type} {e : Fault}
    {out : Outcome Forest α} (hout : out.Refuses f (some e)) :
    ¬ out.Broke := by
  rw [show out = .stop (.fault e) (e.reported f) from hout]
  exact not_broke_fault _ _

/-- A program that does not break off does so exactly if some node of `[]` is
`above`. -/
theorem Outcome.broke_iff_of_nil {α : Type} {out : Outcome Forest α}
    {above : NodeId → Prop} (hout : ¬ out.Broke) :
    out.Broke ↔ ∃ n ∈ [], above n := by
  simpa using hout

namespace Forest

theorem broke_guarded {α : Type} {body : Edit α} :
    (guarded checks o body f).Broke
      ↔ f.isGuarded checks o = false ∧ (body f).Broke := by
  cases hguard : f.isGuarded checks o with
  | true => simp [guarded, hguard, Edit.fail]
  | false => simp [guarded_of_open body hguard]

/-- After steps that `Stores`, `attach` breaks off exactly if the node was the
owner or above it before them. -/
theorem Stores.broke_attach (hfg : Stores f g) (hroot : f.Rooted o) :
    (attach .strict o n g).Broke ↔ f.Above o n := by
  rw [Forest.broke_attach, hfg.breaksTree, breaksTree_iff hroot]

/-- `setSlotChild` to nothing never breaks off: there is no attach. -/
theorem not_broke_unassign : ¬ (setSlotChild checks o i none f).Broke := by
  unfold setSlotChild
  split
  · exact Outcome.not_broke_fault _ _
  · dsimp only
    split
    · exact Outcome.not_broke_ok _ _
    · rw [Outcome.broke_always, Outcome.broke_next]
      exact Outcome.not_broke_ok _ _

/-- An operand slot breaks off if it would get another node, and that is
above its owner. -/
theorem broke_assign (hroot : f.Rooted o)
    (hslot : f.checkOperandSlot o i = .ok ()) (child : Option NodeId) :
    (setSlotChild .strict o i child f).Broke
      ↔ ∃ c ∈ f.assignedTo o i child, f.Above o c := by
  unfold assignedTo
  by_cases hsame : (f.slot o i).head? = child
  · rw [if_pos hsame, setSlotChild, hslot, if_pos hsame]
    simp
  rw [if_neg hsame]
  cases child with
  | none => exact Outcome.broke_iff_of_nil not_broke_unassign
  | some c =>
      rw [broke_setSlotChild hslot hsame, breaksTree_iff hroot]
      simp

end Forest

open Forest

namespace Collection

variable {c : Collection}

-- ======================================================= several attaches

/-- Appending breaks off exactly if one of the nodes is above the owner:
those that are attached before it do not come between. -/
theorem broke_append (hroot : f.Rooted c.owner) :
    (c.append .strict ns f).Broke ↔ ∃ n ∈ ns, f.Above c.owner n := by
  induction ns generalizing f with
  | nil => simp [append]
  | cons n rest ih =>
      have hstores : Stores f (c.pushed f n) := stores_stored _
      unfold append
      by_cases hup : f.Above c.owner n
      case pos =>
        obtain ⟨op, s, hout⟩ := (hstores.broke_attach hroot).mpr hup
        rw [hout]
        exact iff_of_true ⟨op, s, rfl⟩ ⟨n, .head _, hup⟩
      have hopens : (c.pushed f n).breaksTree .strict c.owner n = false := by
        rw [hstores.breaksTree]
        exact Bool.eq_false_iff.mpr (mt (breaksTree_iff hroot).mp hup)
      have hsame : ∀ {m}, f.Above c.owner m →
          ((c.pushed f n).enter c.owner n).parent? m = f.parent? m := by
        intro m hm
        rw [parent?_enter_ne fun hmn : m = n => hup (hmn ▸ hm),
          hstores.parent?]
      have hrest := ih (hroot.congr hsame)
      simp only [above_congr hsame] at hrest
      rw [attach_of_opens hopens, List.exists_mem_cons_iff, or_iff_right hup]
      exact hrest

theorem broke_overwriteOne (hroot : f.Rooted c.owner) :
    (c.overwriteOne .strict i n f).Broke ↔ f.Above c.owner n := by
  unfold overwriteOne
  split
  · rw [Outcome.broke_always, Outcome.broke_next]
    exact (stores_stored _).broke_attach hroot
  · exact (stores_stored _).broke_attach hroot

/-- If `overwrite` breaks off, one of its nodes was the owner or above it
before the first attach. -/
theorem above_of_broke_overwrite (hs : f.Sound .strict locks)
    (hc : c.Fits f) (ho : c.owner ∈ locks) (hns : ∀ n ∈ ns, n ∈ locks)
    (hbroke : (c.overwrite .strict i ns f).Broke) :
    ∃ n ∈ ns, f.Above c.owner n := by
  induction ns generalizing i f with
  | nil => exact absurd hbroke (Outcome.not_broke_ok _ _)
  | cons n rest ih =>
      have htried : Tried .strict c.owner f (c.overwriteOne .strict i n f) :=
        tried_overwriteOne hs hc i (hs.alive (hns n (.head _)))
      have hone := broke_overwriteOne (i := i) (n := n) (hs.rooted rfl c.owner)
      unfold overwrite at hbroke
      cases hout : c.overwriteOne .strict i n f with
      | stop why g =>
          rw [hout] at hbroke hone
          exact ⟨n, .head _, hone.mp hbroke⟩
      | ok u g =>
          rw [hout] at hbroke htried
          cases htried with
          | ok _ hfg =>
              have hs' : g.Sound .strict locks := hfg.sound hs
              obtain ⟨m, hm, hup⟩ := ih hs' (hc.touches hfg (hs'.alive ho))
                (fun m hm => hns m (.tail _ hm)) hbroke
              exact ⟨m, .tail _ hm, hfg.above hs hup⟩

-- ================================================================= edits

-- Taking elements out and moving them asks about nobody.

theorem not_broke_removeAt (i : Nat) :
    ¬ (c.removeAt checks i f).Broke := by
  rw [removeAt, broke_guarded]
  rintro ⟨-, hbroke⟩
  split at hbroke
  · exact Outcome.not_broke_fault _ _ hbroke
  · exact Outcome.not_broke_ok _ _ hbroke

theorem not_broke_remove (n : NodeId) : ¬ (c.remove checks n f).Broke := by
  rw [remove, broke_guarded]
  rintro ⟨-, hbroke⟩
  split at hbroke
  · exact Outcome.not_broke_ok _ _ hbroke
  · exact not_broke_removeAt _ (Outcome.broke_map.mp hbroke)

theorem not_broke_removeRange (i count : Nat) :
    ¬ (c.removeRange checks i count f).Broke := by
  rw [removeRange, broke_guarded]
  rintro ⟨-, hbroke⟩
  split at hbroke
  · exact Outcome.not_broke_fault _ _ hbroke
  · split at hbroke
    · exact Outcome.not_broke_fault _ _ hbroke
    · exact Outcome.not_broke_ok _ _ hbroke

theorem not_broke_swapRemoveAt (i : Nat) :
    ¬ (c.swapRemoveAt checks i f).Broke := by
  rw [swapRemoveAt, broke_guarded]
  rintro ⟨-, hbroke⟩
  split at hbroke
  · exact Outcome.not_broke_ok _ _ hbroke
  · exact Outcome.not_broke_fault _ _ hbroke

theorem not_broke_clear : ¬ (c.clear checks f).Broke := by
  rw [clear, broke_guarded]
  rintro ⟨-, hbroke⟩
  exact Outcome.not_broke_ok _ _ hbroke

theorem not_broke_move (a b : Nat) : ¬ (c.move checks a b f).Broke := by
  rw [move, broke_guarded]
  rintro ⟨-, hbroke⟩
  split at hbroke
  · exact Outcome.not_broke_fault _ _ hbroke
  · split at hbroke
    · exact Outcome.not_broke_ok _ _ hbroke
    · exact Outcome.not_broke_fault _ _ hbroke

theorem not_broke_moveToEnd (n : NodeId) :
    ¬ (c.moveToEnd checks n f).Broke := by
  rw [moveToEnd, broke_guarded]
  rintro ⟨-, hbroke⟩
  split at hbroke
  · exact Outcome.not_broke_ok _ _ hbroke
  · exact not_broke_move _ _ (Outcome.broke_map.mp hbroke)

/-- `set` breaks off exactly if it attaches a node that is the owner or above
it; to the same node it attaches nobody. -/
theorem broke_exchange (hroot : f.Rooted c.owner) (hi : i < c.length f) :
    (c.set .strict i n f).Broke
      ↔ ∃ m ∈ (Change.set i n).entered (c.items f), f.Above c.owner m := by
  obtain ⟨old, hold⟩ := exists_getElem? hi
  by_cases hsame : old = n
  · have hnone : (Change.set i n).entered (c.items f) = [] :=
      if_pos (hsame ▸ hold)
    rw [hnone, set, hold]
    simp [hsame]
  · have hone : (Change.set i n).entered (c.items f) = [n] :=
      if_neg fun h => hsame (Option.some.inj (hold.symm.trans h))
    rw [hone, broke_set hold hsame, breaksTree_iff hroot]
    simp

/-- Where `fault?` is none, the guard is down if it matters, and no index is
`outside?`. -/
theorem fault?_eq_none {ch : Change NodeId}
    (hfault : fault? checks c ch f = none) :
    (ch.exchanges = false → f.isGuarded checks c.owner = false)
      ∧ ch.outside? (c.length f) = none := by
  obtain ⟨htraversal, hindex⟩ := Option.or_eq_none_iff.mp hfault
  refine ⟨fun hchange => ?_, Option.map_eq_none_iff.mp hindex⟩
  rw [hchange, if_neg Bool.false_ne_true] at htraversal
  refine Bool.eq_false_iff.mpr fun hguard => ?_
  rw [traversalFault?_of_guard hguard] at htraversal
  cases htraversal

/-- An edit that is not refused breaks off exactly if a node that enters is
above the owner, unless it overwrites. -/
theorem broke_apply {ch : Change NodeId} (hroot : f.Rooted c.owner)
    (hfault : fault? .strict c ch f = none)
    (hlist : ∀ ns, ch ≠ .replaceList ns) :
    (c.apply .strict ch f).Broke
      ↔ ∃ n ∈ ch.entered (c.items f), f.Above c.owner n := by
  obtain ⟨hopen, hin⟩ := fault?_eq_none hfault
  cases ch with
  | set i n =>
      have hi : i < c.length f := by simpa [Change.outside?] using hin
      exact Outcome.broke_map.trans (broke_exchange hroot hi)
  | add n =>
      refine Outcome.broke_map.trans ?_
      rw [broke_add (hopen rfl), breaksTree_iff hroot]
      simp [Change.entered]
  | addRange ns =>
      refine Outcome.broke_map.trans ?_
      rw [addRange, broke_guarded, and_iff_right (hopen rfl), appendAll,
        Outcome.broke_next]
      exact broke_append hroot
  | insert i n =>
      have hi : ¬ c.length f < i := by simpa [Change.outside?] using hin
      refine Outcome.broke_map.trans ?_
      rw [broke_insert (hopen rfl) (Nat.le_of_not_lt hi),
        breaksTree_iff hroot]
      simp [Change.entered]
  | removeAt i =>
      exact Outcome.broke_map.trans
        (Outcome.broke_iff_of_nil (not_broke_removeAt i))
  | remove n =>
      exact Outcome.broke_map.trans
        (Outcome.broke_iff_of_nil (not_broke_remove n))
  | removeRange i count =>
      exact Outcome.broke_map.trans
        (Outcome.broke_iff_of_nil (not_broke_removeRange i count))
  | swapRemoveAt i =>
      exact Outcome.broke_map.trans
        (Outcome.broke_iff_of_nil (not_broke_swapRemoveAt i))
  | clear =>
      exact Outcome.broke_map.trans (Outcome.broke_iff_of_nil not_broke_clear)
  | move a b =>
      exact Outcome.broke_map.trans
        (Outcome.broke_iff_of_nil (not_broke_move a b))
  | moveToEnd n =>
      exact Outcome.broke_map.trans
        (Outcome.broke_iff_of_nil (not_broke_moveToEnd n))
  | replaceList ns => exact absurd rfl (hlist ns)

/-- Whatever the edit, it breaks off on a node that was above the owner
before it. -/
theorem above_of_broke_apply {ch : Change NodeId} (hs : f.Sound .strict locks)
    (hc : c.Fits f) (ho : c.owner ∈ locks) (hns : ∀ n ∈ ch.nodes, n ∈ locks)
    (hbroke : (c.apply .strict ch f).Broke) :
    ∃ n ∈ ch.entered (c.items f), f.Above c.owner n := by
  by_cases hlist : ∃ ns, ch = .replaceList ns
  · obtain ⟨ns, rfl⟩ := hlist
    obtain ⟨-, hover⟩ := broke_guarded.mp (Outcome.broke_map.mp hbroke)
    exact above_of_broke_overwrite hs hc ho hns (Outcome.broke_next.mp hover)
  · cases hfault : fault? .strict c ch f with
    | some e =>
        have hrefused : (c.apply .strict ch f).Refuses f (some e) :=
          hfault ▸ refuses_apply ch
        exact absurd hbroke hrefused.not_broke
    | none =>
        exact (broke_apply (hs.rooted rfl c.owner) hfault
          fun ns h => hlist ⟨ns, h⟩).mp hbroke

end Collection

end InstructionTree
