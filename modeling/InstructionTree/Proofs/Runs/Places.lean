/-
Cached places are kept by every edit of every plain run.

The same node may be stored in several slots, and several times in one
collection; its cached place is right for one of them at most. Whatever
was done before, an edit of an owner gives the nodes it attaches a right
place there, leaves the places of other owners' nodes alone, and keeps a
right place of its own right until the element at that place goes.
-/
import InstructionTree.Proofs.Runs.Listed

namespace InstructionTree

open Forest

variable {checks : Checks} {locks : List NodeId} {f g : Forest}
  {o : NodeId} {entered : List NodeId} {removed gone : Nat → Prop}

namespace Forest

/-- `KeepsPlaces` says less if more indices count as removed. -/
theorem KeepsPlaces.mono (hfg : KeepsPlaces o entered removed f g)
    (hgone : ∀ j, removed j → gone j) : KeepsPlaces o entered gone f g :=
  { hfg with
    remaining := fun hn haccurate hkept =>
      hfg.remaining hn haccurate (mt (hgone _) hkept) }

end Forest

/-- `Edited.keepsPlaces` with the indices of slot `i` counted from it: index
`k` is `i + k`. -/
theorem Edited.keepsPlaces_add {i : Nat} {left new : List NodeId}
    (hfg : Edited o i entered left new removed f g) (hs : f.Sound checks locks)
    (hs' : g.Sound checks locks) (hcov : f.Covered) :
    KeepsPlaces o entered (fun j => ∃ k, j = i + k ∧ removed k) f g := by
  refine (hfg.keepsPlaces hs.toWellFormed hcov hs'.closed).mono ?_
  rintro j ⟨k, hj, hk⟩
  exact ⟨k, (locate?_eq_some hj).2.1, hk⟩

-- ========================================================== single edits

namespace Collection

variable {c : Collection}

theorem keepsPlaces_apply {change : Change NodeId} {answer : ChangeAnswer}
    (hs : f.Sound checks locks) (hc : c.Fits f) (hcov : f.Covered)
    (ho : c.owner ∈ locks) (hns : ∀ n ∈ change.nodes, n ∈ locks)
    (hout : c.apply checks change f = .ok answer g) :
    KeepsPlaces c.owner (change.entered (c.items f))
      (fun j => ∃ k, j = c.slot + k
        ∧ change.removes (c.indexOf? f) (c.items f) k) f g := by
  have hcarried : Carried checks c.owner f (c.apply checks change f) :=
    carried_apply hs hc ho hns
  exact (edited_apply hs hc hcov ho hns hout).keepsPlaces_add hs
    (hcarried.sound_of_ok hs hout) hcov

theorem keepsPlaces_removeAll {calls : List Judgement} {count : Nat}
    (hs : f.Sound checks locks) (hc : c.Fits f) (hcov : f.Covered)
    (ho : c.owner ∈ locks) (hidle : ∀ j ∈ calls, j.Idle checks locks)
    (hout : Filtered checks c f calls (.ok count g)) :
    KeepsPlaces c.owner []
      (fun j => ∃ k, j = c.slot + k
        ∧ ∃ call, calls[k]? = some call ∧ call.rejects = true) f g := by
  have hs' := (hout.sound ho hs hc fun j hj => (hidle j hj).1).1
  rcases edited_removeAll hs hc hcov ho hidle hout with ⟨e, ev, hstop⟩ | hfg
  · cases hstop
  · exact hfg.keepsPlaces_add hs hs' hcov

end Collection

theorem Forest.keepsPlaces_setSlotChild {i : Nat} {child : Option NodeId}
    {u : Unit} (hs : f.Sound checks locks) (hcov : f.Covered)
    (ho : o ∈ locks) (hchild : ∀ c ∈ child, c ∈ locks)
    (hout : setSlotChild checks o i child f = .ok u g) :
    KeepsPlaces o (f.assignedTo o i child)
      (fun j => j = i ∧ (f.slot o i).head? ≠ child) f g := by
  have halive := hs.alive ho
  have hcarried : Carried checks o f (setSlotChild checks o i child f) :=
    carried_setSlotChild i halive fun c hc => hs.alive (hchild c hc)
  have hs' : g.Sound checks locks := hcarried.sound_of_ok hs hout
  obtain ⟨⟨s, hslot, hone⟩, -⟩ := setSlotChild_eq_ok hout
  obtain ⟨-, hfg⟩ := edited_setSlotChild hs halive hchild (.inl ho) hout
  refine (hfg.keepsPlaces hs.toWellFormed hcov hs'.closed).mono ?_
  rintro j ⟨k, hj, hother⟩
  have hk := inner_eq_zero hj hslot hone
  subst hk
  exact ⟨(locate?_eq_some hj).2.1, hother⟩

-- ============================================================ plain runs

/-- In every forest that a plain run reaches, every edit that succeeds
keeps cached places. -/
theorem Runs.edits_keepPlaces (hf : Runs checks Plain [] ∅ f) :
    (∀ {c : Collection} {change : Change NodeId} {answer : ChangeAnswer}
      {g : Forest}, c.Fits f → f.Referenced (c.owner :: change.nodes) →
      c.apply checks change f = .ok answer g →
      KeepsPlaces c.owner (change.entered (c.items f))
        (fun j => ∃ k, j = c.slot + k
          ∧ change.removes (c.indexOf? f) (c.items f) k) f g)
    ∧ (∀ {o : NodeId} {i : Nat} {child : Option NodeId} {g : Forest},
      f.Referenced (o :: child.toList) →
      setSlotChild checks o i child f = .ok () g →
      KeepsPlaces o (f.assignedTo o i child)
        (fun j => j = i ∧ (f.slot o i).head? ≠ child) f g)
    ∧ (∀ {σ : Type} {c : Collection} {judge : Collection.Judge σ}
      {st st' : σ} {count : Nat} {g : Forest}, c.Fits f →
      f.Referenced [c.owner] →
      (∀ j ∈ c.removalCalls checks judge (f, st),
        Runs checks Plain [j.node, c.owner] j.before j.after) →
      c.removeAll checks judge (f, st) = .ok count (g, st') →
      KeepsPlaces c.owner []
        (fun j => ∃ k, j = c.slot + k
          ∧ ∃ call, (c.removalCalls checks judge (f, st))[k]? = some call
            ∧ call.rejects = true) f g) := by
  have hs : f.Sound checks [] := hf.sound_of_empty
  have hcov : f.Covered := hf.covered_of_empty
  refine ⟨fun hc hheld hout => ?_, fun hheld hout => ?_,
    fun {σ c judge st st' count g} hc hheld hcalls hout => ?_⟩
  · refine Collection.keepsPlaces_apply (hs.lock hheld) hc hcov ?_ ?_ hout
    · exact List.mem_dedup.mpr (.head _)
    · exact fun n hn => List.mem_dedup.mpr (.tail _ hn)
  · refine keepsPlaces_setSlotChild (hs.lock hheld) hcov ?_ ?_ hout
    · exact List.mem_dedup.mpr (.head _)
    · exact fun n hn =>
        List.mem_dedup.mpr (.tail _ (Option.mem_toList.mpr hn))
  · have hfiltered := Collection.filtered_removeAll checks c judge f st
    rw [hout] at hfiltered
    exact Collection.keepsPlaces_removeAll (hs.lock hheld) hc hcov
      (.head _) (fun j hj => (hcalls j hj).idle) hfiltered

/-- A node stored twice in one block, and another one that a second block
took over: inserting before them moves the place of the first along and
leaves the second alone. -/
theorem Runs.edits_keepPlaces_of_shared :
    let ops : List Operation :=
      [.create .block .none, .hold ⟨0⟩, .create .constInt32 .none, .hold ⟨1⟩,
        .create .constInt64 .none, .hold ⟨2⟩, .create .block .none, .hold ⟨3⟩,
        .create .nop .none, .hold ⟨4⟩,
        .change ⟨⟨0⟩, 0⟩ (.addRange [⟨1⟩, ⟨1⟩, ⟨2⟩]),
        .change ⟨⟨3⟩, 0⟩ (.add ⟨2⟩)]
    let f := played .strict ops ∅
    ∃ g, Runs .strict Plain [] ∅ f
      ∧ (⟨⟨0⟩, 0⟩ : Collection).apply .strict (.insert 0 ⟨4⟩) f = .ok .done g
      ∧ g.Accurate ⟨4⟩ ⟨0⟩ ∧ g.Accurate ⟨1⟩ ⟨0⟩
      ∧ (g.node ⟨2⟩).link = some ⟨3⟩ ∧ (g.node ⟨2⟩).position = 0 := by
  intro ops f
  have hplays : Plays .strict (fun _ _ => true) [] ops ∅ := by decide
  have hf : Runs .strict Plain [] ∅ f :=
    hplays.runs (fun hop _ => hop.plain) .refl
  have hout : (⟨⟨0⟩, 0⟩ : Collection).apply .strict (.insert 0 ⟨4⟩) f
      = .ok .done
        ((⟨⟨0⟩, 0⟩ : Collection).apply .strict (.insert 0 ⟨4⟩) f).state := by
    decide
  have hkeeps := (Runs.edits_keepPlaces hf).1 (c := ⟨⟨0⟩, 0⟩) (by decide)
    (by decide) hout
  obtain ⟨hlink, hposition, -⟩ :=
    hkeeps.elsewhere (n := ⟨2⟩) (by decide) (by decide) (by decide)
  refine ⟨_, hf, hout, hkeeps.attached (.head _),
    (hkeeps.remaining (n := ⟨1⟩) (by decide) ⟨by decide, by decide⟩ ?_).1,
    hlink.trans (by decide), hposition.trans (by decide)⟩
  rintro ⟨k, -, hk⟩
  exact hk

end InstructionTree
