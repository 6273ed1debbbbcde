/-
Editing a node through its parent, wherever a client is.

A node says who its parent is, the parent says at which index it finds the
node, and the index leads to a place in a slot. All three may be misled:
the parent is the node that attached this one last, the index comes from a
cache or from a scan, and the node may be at other places of this parent
and of others as well. What is found is an occurrence of the node all the
same, so there is exactly one place that the edit is about (`OwnPlace`),
and replacing or removing the node is an edit of that place alone.

The client has the node, not the parent. So nobody is freed, and what
`Collection.Altering` says about one place is all that there is to say.
-/
import InstructionTree.Proofs.Collection.Altering
import InstructionTree.Proofs.Forest.Refilling
import InstructionTree.Proofs.Runs.Indices
import InstructionTree.Proofs.Runs.Tracked

namespace InstructionTree

open Forest

variable {checks : Checks} {locks : List NodeId} {f g : Forest}
  {n m p : NodeId} {i j k : Nat} {s : Slot}

namespace Forest

-- ============================================================== own places

/-- The parent of `n` is gone or nobody, or none of its slots holds `n`. -/
def Detached (f : Forest) (n : NodeId) : Prop :=
  ∀ p, f.parent? n = some p → ∀ j, n ∉ f.slot p j

/-- The place that edits of `n` through its parent `p` are about: there `p`
finds it at global child index `i`, which is inner index `k` of slot `j`. -/
structure OwnPlace (f : Forest) (n p : NodeId) (i j k : Nat) : Prop where
  parent : f.parent? n = some p
  found : f.findChild? p n = some i
  located : f.locate? p i = some (j, k)

theorem WellFormed.detached_iff (hwf : f.WellFormed) :
    f.Detached n ↔ f.placeInParent? n = none := by
  rw [← Option.not_isSome_iff_eq_none, hwf.placeInParent?_isSome]
  unfold Detached isStored
  cases hparent : f.parent? n with
  | none => simp
  | some p => simp [Forest.mem_children_iff]

namespace OwnPlace

variable (hplace : f.OwnPlace n p i j k)
include hplace

theorem placeInParent? : f.placeInParent? n = some (p, i) := by
  unfold Forest.placeInParent?
  rw [hplace.parent, Option.bind_eq_bind, Option.bind_some, hplace.found]
  rfl

theorem alive : f.isAlive p = true :=
  (parent?_eq_some_iff.mp hplace.parent).2

theorem bound : j < (f.node p).slots.length :=
  (locate?_eq_some hplace.located).1

theorem sum : i = j + k :=
  (locate?_eq_some hplace.located).2.1

variable (hwf : f.WellFormed)
include hwf

/-- Slot `j` of the parent `p` has `n` at index `k`, where its own place says.
-/
theorem stored : (f.slot p j)[k]? = some n := by
  rw [← child?_of_locate? hplace.located]
  exact child?_of_findChild? hwf hplace.found

theorem hasPlace : f.HasPlace p (j, k) := by
  have hchild := child?_of_findChild? hwf hplace.found
  exact (hwf.locate?_iff.mp ⟨hwf.lt_childCount hchild, hplace.located⟩).1

/-- If that slot is an operand slot, `n` is all it holds. -/
theorem operand (hs : (f.node p).opcode.slot? j = some s)
    (hone : s.isCollection = false) : k = 0 ∧ f.slot p j = [n] := by
  have hk := inner_eq_zero hplace.located hs hone
  have hstored := hplace.stored hwf
  rw [hk, ← List.head?_eq_getElem?] at hstored
  refine ⟨hk, ?_⟩
  rw [slot_eq_head hwf hs hone, hstored]
  rfl

end OwnPlace

/-- A node has an `OwnPlace` unless it is `Detached`. -/
theorem WellFormed.exists_ownPlace (hwf : f.WellFormed) :
    f.Detached n ↔ ∀ p i j k, ¬ f.OwnPlace n p i j k := by
  rw [hwf.detached_iff]
  constructor
  · intro hnone p i j k hplace
    cases hnone.symm.trans hplace.placeInParent?
  · intro hnowhere
    cases hplace : f.placeInParent? n with
    | none => rfl
    | some place =>
        obtain ⟨hparent, hfound⟩ := placeInParent?_eq_some hplace
        have hchild := child?_of_findChild? hwf hfound
        obtain ⟨⟨j, k⟩, hlocate, -⟩ :=
          hwf.exists_place (hwf.lt_childCount hchild)
        exact absurd ⟨hparent, hfound, hlocate⟩ (hnowhere _ _ j k)

-- =============================================================== refusals

/-- `replaceWith` answers `detached` exactly if `n` is `Detached`. -/
theorem replaceWith_detached (hwf : f.WellFormed) :
    replaceWith checks n m f = .stop (.fault .detached) f
      ↔ f.Detached n := by
  rw [hwf.detached_iff, ← Option.not_isSome_iff_eq_none,
    hwf.placeInParent?_isSome]
  have hrefuses : (replaceWith checks n m f).Refuses f _ :=
    refuses_replaceWith hwf n m
  constructor
  · intro hout hstored
    rw [hout, if_pos hstored] at hrefuses
    cases hrefuses
  · intro hnot
    rw [if_neg hnot] at hrefuses
    exact hrefuses

theorem removeFromParent_detached (hwf : f.WellFormed) :
    removeFromParent checks n f = .stop (.fault .detached) f
      ↔ f.Detached n := by
  rw [hwf.detached_iff, ← Option.not_isSome_iff_eq_none,
    hwf.placeInParent?_isSome]
  have hrefuses : (removeFromParent checks n f).Refuses f _ :=
    refuses_removeFromParent hwf n
  constructor
  · intro hout hstored
    have hfault := hrefuses.fault?_eq
    rw [hout] at hfault
    exact removalFault?_ne_detached hstored hfault.symm
  · intro hnot
    rw [removalFault?, if_neg hnot] at hrefuses
    exact hrefuses

-- ================================================================ replacing

section

variable (hplace : f.OwnPlace n p i j k)
include hplace

theorem replaceWith_eq :
    replaceWith checks n m f = setChild checks p i m f := by
  unfold replaceWith
  rw [hplace.placeInParent?]

section

variable (hwf : f.WellFormed)
include hwf

/-- `replaceWith` of `n` by itself succeeds and leaves the forest as it was. -/
theorem replaceWith_self : replaceWith checks n n f = .ok () f := by
  rw [replaceWith_eq hplace]
  exact setChild_self hwf (child?_of_findChild? hwf hplace.found)

/-- `replaceWith` that succeeded puts `m` at the own place of `n`, and changes
no other position. -/
theorem alters_replaceWith {u : Unit} (hn : 0 < (f.node n).handles)
    (hout : replaceWith checks n m f = .ok u g) :
    Alters p j ((f.slot p j).set k m) f g := by
  have hstored := hplace.stored hwf
  obtain ⟨s, hs, hset⟩ :=
    setChild_of_hasPlace checks hwf (hplace.hasPlace hwf) m
  rw [replaceWith_eq hplace, hplace.sum, hset] at hout
  split at hout
  case isTrue hmany =>
    exact Collection.alters_set (c := ⟨p, j⟩) hwf ⟨s, hs, hmany⟩ hn hstored
      hout
  case isFalse hone =>
    obtain ⟨rfl, hslot⟩ := hplace.operand hwf hs (Bool.eq_false_iff.mpr hone)
    rw [hslot]
    exact alters_setSlotChild hplace.alive hplace.bound hn hslot hout

end

/-- `replaceWith` of a node with a place succeeds, or breaks off on the check
of an attach. -/
theorem replaceWith_total (hs : f.Sound checks locks) (hm : m ∈ locks) :
    (∃ g, replaceWith checks n m f = .ok () g)
      ∨ (replaceWith checks n m f).Broke := by
  have hwf := hs.toWellFormed
  have hcarried : Carried checks p f (setChild checks p i m f) :=
    carried_setChild hs i hplace.alive (hs.alive hm)
  have hfault : (replaceWith checks n m f).fault? = none := by
    have hstored : f.isStored n = true := by
      rw [← hwf.placeInParent?_isSome, hplace.placeInParent?]
      rfl
    have hrefuses : (replaceWith checks n m f).Refuses f _ :=
      refuses_replaceWith hwf n m
    rw [hstored] at hrefuses
    exact hrefuses
  rw [replaceWith_eq hplace] at hfault ⊢
  exact (hcarried.ok_or_broke hfault).imp_left fun ⟨_, g, hg⟩ => ⟨g, hg⟩

-- ================================================================= removing

section

variable (hs : (f.node p).opcode.slot? j = some s)
include hs

/-- In an operand slot `removeFromParent` is `setSlotChild` to nothing. -/
theorem removeFromParent_of_operand (hone : s.isCollection = false) :
    removeFromParent checks n f = setSlotChild checks p j none f := by
  unfold removeFromParent
  simp only [hplace.placeInParent?, hplace.located,
    (at?_of_operand hs hone).1]

/-- In a collection `removeFromParent` is `removeAt` at the own place of `n`.
-/
theorem removeFromParent_of_collection (hmany : s.isCollection = true) :
    removeFromParent checks n f
      = (Collection.removeAt checks ⟨p, j⟩ k f).map fun _ => () := by
  unfold removeFromParent
  simp only [hplace.placeInParent?, hplace.located,
    at?_of_collection hs hmany]

/-- In a collection of a guarded parent `removeFromParent` is refused. -/
theorem removeFromParent_refused (hmany : s.isCollection = true)
    (hguard : f.isGuarded checks p = true) :
    removeFromParent checks n f = refusal p f :=
  removeFromParent_guarded (c := ⟨p, j⟩) ⟨s, hs, hmany⟩
    hplace.placeInParent? hplace.located hguard

variable (hwf : f.WellFormed) (hn : 0 < (f.node n).handles)
include hwf hn

/-- Nothing but a traversal keeps a node from being removed, and that only
from a collection. -/
theorem removeFromParent_total
    (hopen : s.isCollection = true → f.isGuarded checks p = false) :
    ∃ g, removeFromParent checks n f = .ok () g
      ∧ Alters p j ((f.slot p j).eraseIdx k) f g := by
  have hstored := hplace.stored hwf
  cases hkind : s.isCollection with
  | true =>
      have hfits : (⟨p, j⟩ : Collection).Fits f := ⟨s, hs, hkind⟩
      have hout : Collection.removeAt checks ⟨p, j⟩ k f = .ok n
          (((Collection.erased ⟨p, j⟩ f k n).commit p).reap n) := by
        unfold Collection.removeAt
        rw [guarded_of_open _ (hopen hkind)]
        simp only [show (Collection.items ⟨p, j⟩ f)[k]? = some n from hstored]
      rw [removeFromParent_of_collection hplace hs hkind, hout]
      exact ⟨_, rfl, Collection.alters_removeAt hfits hn hstored hout⟩
  | false =>
      obtain ⟨rfl, hslot⟩ := hplace.operand hwf hs hkind
      have hcheck : f.checkOperandSlot p j = .ok () := by
        rw [checkOperandSlot_eq, (at?_of_operand hs hkind).2]
      have hout : ∃ g, setSlotChild checks p j none f = .ok () g := by
        unfold setSlotChild
        rw [hcheck, hslot]
        exact ⟨_, rfl⟩
      obtain ⟨g, hout⟩ := hout
      rw [removeFromParent_of_operand hplace hs hkind, hslot]
      exact ⟨g, hout,
        alters_setSlotChild hplace.alive hplace.bound hn hslot hout⟩

end

end

end Forest

-- =================================================================== seen

namespace Sees

variable {permits : Permit}

/-- Replacing a node in its parent and removing it from there are about one
place, wherever a client is: an occurrence of the node that its parent
finds. They are refused if there is none. Whatever else holds the node,
other slots of the same parent included, goes on holding it. -/
theorem alters_own_place (hf : Sees checks permits locks f) (n : NodeId) :
    (f.Detached n ↔ ∀ p i j k, ¬ f.OwnPlace n p i j k)
    ∧ (∀ m, replaceWith checks n m f = .stop (.fault .detached) f
      ↔ f.Detached n)
    ∧ (removeFromParent checks n f = .stop (.fault .detached) f
      ↔ f.Detached n)
    ∧ ∀ p i j k, f.OwnPlace n p i j k →
      f.child? p i = some n ∧ (f.slot p j)[k]? = some n
      -- replacing the node
      ∧ (∀ m, f.Referenced [n, m] →
        ((∃ g, replaceWith checks n m f = .ok () g)
          ∨ (replaceWith checks n m f).Broke)
        ∧ (n = m → replaceWith checks n m f = .ok () f)
        ∧ ∀ g, replaceWith checks n m f = .ok () g →
          Alters p j ((f.slot p j).set k m) f g
          ∧ g.child? p i = some m
          ∧ ∀ q l, q ≠ p ∨ l ≠ i → g.child? q l = f.child? q l)
      -- removing it
      ∧ (f.Referenced [n] → ∀ s, (f.node p).opcode.slot? j = some s →
        (removeFromParent checks n f = refusal p f
          ∨ ∃ g, removeFromParent checks n f = .ok () g)
        ∧ (removeFromParent checks n f = refusal p f ↔
          s.isCollection = true ∧ checks = .strict
            ∧ 0 < (f.node p).depth.shown)
        ∧ ∀ g, removeFromParent checks n f = .ok () g →
          Alters p j ((f.slot p j).eraseIdx k) f g
          ∧ (s.isCollection = false → g.slot p j = [])
          ∧ ∀ q, (g.children q).count n + (if q = p then 1 else 0)
            = (f.children q).count n) := by
  have hwf := hf.sound.toWellFormed
  refine ⟨hwf.exists_ownPlace, fun m => replaceWith_detached hwf,
    removeFromParent_detached hwf, fun p i j k hplace =>
      ⟨child?_of_findChild? hwf hplace.found, hplace.stored hwf,
        fun m hheld => ?_, fun hheld s hs => ?_⟩⟩
  · obtain ⟨hlocked, -, hm⟩ := hf.lock hheld
    refine ⟨replaceWith_total hplace hlocked hm, ?_, fun g hout => ?_⟩
    · rintro rfl
      exact replaceWith_self hplace hwf
    · have halters := alters_replaceWith hplace hwf (hheld n (.head _)) hout
      obtain ⟨hread, hothers⟩ := halters.child?_set hplace.located
        (List.getElem?_eq_some_iff.mp (hplace.stored hwf)).1
      refine ⟨halters, hread, fun q l hne => ?_⟩
      by_cases hq : q = p
      · exact hq ▸ hothers l (hne.resolve_left fun h => h hq)
      · exact halters.child?_other hq l
  · by_cases hclosed : s.isCollection = true ∧ f.isGuarded checks p = true
    · have hout := removeFromParent_refused hplace hs hclosed.1 hclosed.2
      rw [hout]
      exact ⟨.inl rfl, iff_of_true rfl ⟨hclosed.1,
        isGuarded_iff.mp hclosed.2⟩, nofun⟩
    · obtain ⟨g, hout, halters⟩ := removeFromParent_total hplace hs hwf
        (hheld n (.head _)) fun hmany =>
          Bool.eq_false_iff.mpr fun h => hclosed ⟨hmany, h⟩
      rw [hout]
      refine ⟨.inr ⟨g, rfl⟩, iff_of_false nofun fun h =>
        hclosed ⟨h.1, isGuarded_iff.mpr h.2⟩, ?_⟩
      rintro _ ⟨⟩
      refine ⟨halters, fun hone => ?_, fun q => ?_⟩
      · obtain ⟨rfl, hslot⟩ := hplace.operand hwf hs hone
        rw [halters.slot_self hplace.bound, hslot]
        rfl
      · have hcount := halters.count_eraseIdx hplace.bound
          (hplace.stored hwf) q n
        simpa using hcount

/-- A node that a block holds twice and another block once. The first block
took it over last, at its third index, and that place is the one that is
emptied, or refused to be while a cursor is open, or filled anew. -/
theorem alters_own_place_of_repeated :
    let c : Collection := ⟨⟨0⟩, 0⟩
    let ops : List Operation :=
      [.create .block .none, .hold ⟨0⟩, .create .nop .none, .hold ⟨1⟩,
        .create .nop .none, .hold ⟨2⟩, .create .block .none, .hold ⟨3⟩,
        .create .nop .none, .hold ⟨4⟩, .change ⟨⟨3⟩, 0⟩ (.add ⟨1⟩),
        .change c (.addRange [⟨1⟩, ⟨2⟩, ⟨1⟩])]
    let f := played .strict ops ∅
    let h := played .strict (ops ++ [.openCursor c]) ∅
    ∃ g k, Sees .strict Plain [] f ∧ Sees .strict Plain [] h
      ∧ removeFromParent .strict ⟨1⟩ f = .ok () g
      ∧ g.slot ⟨0⟩ 0 = [⟨1⟩, ⟨2⟩] ∧ g.slot ⟨3⟩ 0 = [⟨1⟩]
      ∧ removeFromParent .strict ⟨1⟩ h = refusal ⟨0⟩ h
      ∧ replaceWith .strict ⟨1⟩ ⟨4⟩ h = .ok () k
      ∧ k.child? ⟨0⟩ 2 = some ⟨4⟩ ∧ k.child? ⟨0⟩ 0 = some ⟨1⟩
      ∧ k.child? ⟨3⟩ 0 = some ⟨1⟩ := by
  intro c ops f h
  have hplays : Plays .strict (fun _ _ => true) [] (ops ++ [.openCursor c]) ∅
    := by decide
  have hh : Sees .strict Plain [] h :=
    .between (hplays.runs (fun hop _ => hop.plain) .refl)
  have hbefore : Plays .strict (fun _ _ => true) [] ops ∅ := by decide
  have hf : Sees .strict Plain [] f :=
    .between (hbefore.runs (fun hop _ => hop.plain) .refl)
  have hplace : f.OwnPlace ⟨1⟩ ⟨0⟩ 2 0 2 :=
    ⟨by decide, by decide, by decide⟩
  have hplace' : h.OwnPlace ⟨1⟩ ⟨0⟩ 2 0 2 :=
    ⟨by decide, by decide, by decide⟩
  have hslot : (f.node ⟨0⟩).opcode.slot? 0 = some ⟨.instructions, .many⟩ := by
    decide
  have hslot' :
      (h.node ⟨0⟩).opcode.slot? 0 = some ⟨.instructions, .many⟩ := by decide
  have hout : removeFromParent .strict ⟨1⟩ f
      = .ok () (removeFromParent .strict ⟨1⟩ f).state := by decide
  have hout' : replaceWith .strict ⟨1⟩ ⟨4⟩ h
      = .ok () (replaceWith .strict ⟨1⟩ ⟨4⟩ h).state := by decide
  obtain ⟨-, -, -, hremove⟩ :=
    (Sees.alters_own_place hf ⟨1⟩).2.2.2 _ _ _ _ hplace
  obtain ⟨-, -, hdone⟩ := hremove (by decide) _ hslot
  obtain ⟨halters, -⟩ := hdone _ hout
  obtain ⟨-, -, hreplace, hrefuse⟩ :=
    (Sees.alters_own_place hh ⟨1⟩).2.2.2 _ _ _ _ hplace'
  obtain ⟨-, hrefused, -⟩ := hrefuse (by decide) _ hslot'
  obtain ⟨-, -, hdone'⟩ := hreplace ⟨4⟩ (by decide)
  obtain ⟨-, hread, hothers⟩ := hdone' _ hout'
  have hother : (⟨3⟩ : NodeId) ≠ ⟨0⟩ := by decide
  have hslots : (f.slot ⟨0⟩ 0).eraseIdx 2 = [⟨1⟩, ⟨2⟩]
      ∧ f.slot ⟨3⟩ 0 = [⟨1⟩] := by decide +kernel
  have hchildren : h.child? ⟨0⟩ 0 = some ⟨1⟩ ∧ h.child? ⟨3⟩ 0 = some ⟨1⟩ := by
    decide +kernel
  have hopen : 0 < (h.node ⟨0⟩).depth.shown := by decide +kernel
  exact ⟨_, _, hf, hh, hout, (halters.slot_self hplace.bound).trans hslots.1,
    (halters.slot_ne (.inl hother)).trans hslots.2,
    hrefused.mpr ⟨rfl, rfl, hopen⟩, hout', hread,
    (hothers ⟨0⟩ 0 (.inr nofun)).trans hchildren.1,
    (hothers ⟨3⟩ 0 (.inl hother)).trans hchildren.2⟩

end Sees

end InstructionTree
