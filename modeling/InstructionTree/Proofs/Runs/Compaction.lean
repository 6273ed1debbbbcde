/-
Filtering with a predicate that edits nothing, among clients who do as
they like in between.

`Tame` clients break no tree, give no notices of their own, and do nothing
that shows in the calls of a filtering. That is less than to edit nothing
there (`Journeys.calm`). Wherever they arrive, the counters cover what they
count (`Journeys.covered`). So a pass over any collection, however often it
stores a node and whoever else does, goes as `Sifts.view`, `Sifts.concludes`
and `Sifts.ridden` say. The traversal of the pass can always be closed, so what
its end has to do is done, also if the predicate gives up.
-/
import InstructionTree.Proofs.Collection.Compaction
import InstructionTree.Proofs.Runs.Faults
import InstructionTree.Proofs.Runs.Versions

namespace InstructionTree

open Forest Collection

variable {checks : Checks} {locks : List NodeId} {f g : Forest}
  {op : Operation}

-- ====================================================== what is not broken

/-- `fillSlots` with no nodes to place never panics. -/
theorem Forest.fillSlots_nil_ne_panic {n : NodeId} {p : Panic}
    (slots : List Slot) (i : Nat) (f : Forest) :
    fillSlots checks n i slots [] f ≠ .stop (.panic p) g := by
  induction slots generalizing i f with
  | nil =>
      intro h
      cases h
  | cons s rest ih =>
      unfold fillSlots
      split
      · unfold Collection.addRange guarded
        cases f.isGuarded checks n with
        | true =>
            intro h
            cases h
        | false => exact ih (i + 1) _
      · intro h
        cases h

/-- `build` without children never panics. -/
theorem Forest.build_nil_ne_panic {a : Opcode} {x : Operand} {p : Panic} :
    build checks a x [] f ≠ .stop (.panic p) g := by
  unfold build
  dsimp only
  split
  · intro h
    cases h
  · intro h
    cases h
  next e k hstop =>
    intro h
    cases h
    exact fillSlots_nil_ne_panic _ _ _ hstop

namespace Operation

/-- An operation that calls nobody breaks off on the check of an attach, if
it does. -/
theorem panic_of_single {p : Panic} (hop : op.single = true)
    (hready : op.Ready locks f) (hs : f.Sound checks locks)
    (hout : op.run checks f = .stop (.panic p) g) :
    ∃ a, p = .notATree a := by
  obtain ⟨k, hbody, -⟩ := Outcome.always_eq_stop hout
  cases op with
  | create | hold | drop | setOperand | flags => cases hbody
  | build a x ns =>
      have hbuilds : Builds checks _ _ a.layout ns
          (Forest.build checks a x ns _) :=
        builds_build (hs.holdAll hready.keeps)
          (hready.alike (alike_holdAll (f := f) (build a x ns).keeps))
      rw [body] at hbody
      rw [Outcome.map_eq_stop hbody] at hbuilds
      cases hbuilds with
      | stop _ _ _ _ _ _ hcarried =>
          cases hcarried with
          | broken a => exact ⟨a, rfl⟩
  | setSlotChild | setChild | replaceWith | removeFromParent | change
  | replaceCurrent => exact panic_of_edit rfl hready hs hout
  | removeAll | openCursor | closeCursor | notify => cases hop

/-- A `steady` operation that does not edit is `Calm`: it changes no slot and
no counter of a node that lives on. -/
theorem run_calm_of_steady (hop : op.steady = true)
    (hquiet : op.edits = false) (hready : op.Ready locks f)
    (hs : f.Sound checks locks) : Calm f (op.run checks f).state := by
  refine run_calm hready hs hquiet fun p s hrun => ?_
  obtain ⟨k, hbody, -⟩ := Outcome.always_eq_stop hrun
  cases op with
  | create | hold | drop | setOperand | flags => cases hbody
  | build a x ns =>
      have hnone : ns = [] := by simpa [edits] using hquiet
      subst hnone
      exact build_nil_ne_panic (Outcome.map_eq_stop hbody)
  | setSlotChild | setChild | replaceWith | removeFromParent | change
  | replaceCurrent | notify => cases hquiet
  | removeAll | openCursor | closeCursor => cases hop

end Operation

-- ============================================================ tame clients

/-- Clients who break no tree, give no notices of their own, and do nothing
that shows in the calls of a filtering. -/
structure Tame (checks : Checks) (locks : List NodeId) (op : Operation)
    (f : Forest) (out : Outcome Forest Unit) : Prop where
  whole : ∀ a g, out ≠ .stop (.panic (.notATree a)) g
  unforced : ∀ o r, op ≠ .notify o r
  still : ∀ j ∈ op.calls checks (f.holdAll op.keeps), Calm j.before j.after

variable {stack : List Frame} {u w : World} {σ : Type} {c : Collection}
  {judge : Judge σ} {st : σ} {walks : Nat → List Walk}

/-- A journey of operations that do not edit (`Unedited`) is `Calm`. -/
theorem Journeys.calm (huw : Journeys checks Unedited stack u w)
    (hu : u.Tallied checks (passes stack) (kept stack)) :
    Calm u.forest w.forest := by
  induction huw with
  | refl => exact .refl _
  | @step stack u v deed huv hfeasible hpermit ih =>
      have hv := (huv.lasts (World.lasting_tallied checks Unedited) hu).1
      refine (ih hu).trans ?_
      by_cases hdeed : ∃ op, deed = .act op
      · obtain ⟨op, rfl⟩ := hdeed
        exact Operation.run_calm_of_steady hfeasible.1 hpermit hfeasible.2
          hv.sound
      · exact (Deed.unnoticed (fun op hop => hdeed ⟨op, hop⟩) _ v default).1
  | filter _ _ _ _ hpermit => cases hpermit

/-- A call whose journey is `Calm` is `Idle`: it keeps the forest sound and
changes no slot. -/
theorem Journeys.idle {permits : Permit} {o : NodeId} {j : Judgement}
    {before after : List Walk}
    (hcall : Journeys checks permits (⟨o, j.node⟩ :: stack)
      ⟨j.before, before⟩ ⟨j.after, after⟩)
    (hbefore : World.Tallied checks (o :: passes stack)
      (j.node :: o :: kept stack) ⟨j.before, before⟩)
    (hcalm : Calm j.before j.after) :
    j.Idle checks (o :: kept stack) := by
  obtain ⟨hafter, hages⟩ :=
    hcall.lasts (World.lasting_tallied checks permits) hbefore
  refine ⟨fun _ => ⟨hafter.sound.mono fun n => ?_, hages⟩, fun _ => hcalm⟩
  rw [List.count_append]
  exact Nat.le_add_left ..

/-- A journey of `Tame` operations leads from `Covered` forests to `Covered`
ones. -/
theorem Journeys.covered (huw : Journeys checks (Tame checks) stack u w)
    (hu : u.Tallied checks (passes stack) (kept stack))
    (hcov : u.forest.Covered) : w.forest.Covered := by
  have hP := World.lasting_tallied checks (Tame checks)
  induction huw with
  | refl => exact hcov
  | @step stack u v deed huv hfeasible hpermit ih =>
      have hv := (huv.lasts hP hu).1
      by_cases hdeed : ∃ op, deed = .act op
      · obtain ⟨op, rfl⟩ := hdeed
        have hsingle : op.single = true := by
          have hsteady := hfeasible.1
          have hunforced := hpermit.unforced
          cases op with
          | notify o r => exact absurd rfl (hunforced o r)
          | removeAll | openCursor | closeCursor => cases hsteady
          | _ => rfl
        have hcalls : op.calls checks (v.forest.holdAll op.keeps) = [] :=
          Operation.calls_eq_nil (Operation.unfiltered_of_single hsingle) _
        refine Operation.run_covered hfeasible.2 hv.sound (ih hu hcov)
          (fun j hj => ?_) hpermit.unforced fun _ p s hrun => ?_
        · rw [hcalls] at hj
          cases hj
        · obtain ⟨a, rfl⟩ := Operation.panic_of_single hsingle hfeasible.2
            hv.sound hrun
          exact hpermit.whole a s hrun
      · have hunnoticed : Calm v.forest (deed.run checks _ v).forest ∧ _ :=
          Deed.unnoticed (fun op hop => hdeed ⟨op, hop⟩) (passes stack) v
            default
        exact hunnoticed.1.covered hv.sound.toWellFormed (ih hu hcov)
  | @filter stack u v σ c judge st walks huv hc hwalks hcalls hpermit ih _ =>
      obtain ⟨hv, -⟩ := huv.lasts hP hu
      obtain ⟨hbefore, -⟩ := hP.filtering hv hc hwalks rfl
        fun k j hk hj => (hcalls k j hk).lasts hP hj
      have hlocks : v.forest.Sound checks (kept stack) :=
        hv.sound.mono fun n => by
          rw [List.count_append]
          exact Nat.le_add_left ..
      refine Operation.run_covered hc hlocks
        (ih hu hcov) (fun j hj => ?_) hpermit.unforced (fun h => by cases h)
      obtain ⟨k, hk⟩ := List.mem_iff_getElem?.mp hj
      exact Journeys.idle (hcalls k j hk)
        (hbefore k j hk) (hpermit.still j hj)

/-- Where a `Tame` journey arrives from nothing, the filtering of `c` begins in
a sound and `Covered` forest, in which `c` fits. -/
theorem Arrives.covered_hold (hw : Arrives checks (Tame checks) [] w)
    (hc : c.Fits w.forest) :
    (w.forest.hold c.owner).Sound checks [c.owner]
      ∧ c.Fits (w.forest.hold c.owner)
      ∧ (w.forest.hold c.owner).Covered := by
  have htallied := hw.tallied
  have hheld := alike_hold (f := w.forest) c.owner
  have hs : (w.forest.hold c.owner).Sound checks [c.owner] :=
    (htallied.sound.mono fun n => Nat.zero_le _).hold hc.alive
  refine ⟨hs, hc.ages hheld.ages (hs.alive (.head _)), ?_⟩
  cases hw with
  | here hw =>
      exact hheld.calm.covered htallied.sound.toWellFormed
        (hw.covered (.empty checks) covered_empty)

/-- If its predicate edits nothing, it comes to its end, and nothing shows
in its calls. -/
theorem Arrives.idle_calls {permits : Permit}
    (hw : Arrives checks permits [] w) (hc : c.Fits w.forest)
    (hwalks : walks 0 = w.walks)
    (hcalls : ∀ k j,
      (c.removalCalls checks judge (w.forest.hold c.owner, st))[k]? = some j →
      Journeys checks Unedited [⟨c.owner, j.node⟩] ⟨j.before, walks k⟩
        ⟨j.after, walks (k + 1)⟩) :
    (∃ g, c.removalEnd checks judge (w.forest.hold c.owner, st) = .ok () g)
    ∧ ∀ j ∈ c.removalCalls checks judge (w.forest.hold c.owner, st),
      j.Idle checks [c.owner] ∧ Raises c.owner 0 j.before j.after := by
  have hP := World.lasting_tallied checks Unedited
  obtain ⟨hbefore, hend, -⟩ := hP.filtering hw.tallied hc hwalks rfl
    fun k j hk hj => (hcalls k j hk).lasts hP hj
  refine ⟨hend, fun j hj => ?_⟩
  obtain ⟨k, hk⟩ := List.mem_iff_getElem?.mp hj
  exact ⟨Journeys.idle (hcalls k j hk) (hbefore k j hk)
      ((hcalls k j hk).calm (hbefore k j hk)),
    (hcalls k j hk).raises (hbefore k j hk) c.owner⟩

-- ============================================================= the theorem

/-- A filtering after a `Tame` journey, with a predicate that edits nothing:
the order of the calls, what each of them sees, and what the pass leaves. -/
theorem Arrives.compacts (hw : Arrives checks (Tame checks) [] w)
    (hc : c.Fits w.forest)
    (hguard : w.forest.isGuarded checks c.owner = false)
    (hwalks : walks 0 = w.walks) :
    let f := w.forest.hold c.owner
    let items := c.items f
    let calls := c.removalCalls checks judge (f, st)
    let out := (c.removeAll checks judge (f, st)).mapState Prod.fst
    let g := out.state
    (∀ k j, calls[k]? = some j →
      Journeys checks Unedited [⟨c.owner, j.node⟩] ⟨j.before, walks k⟩
        ⟨j.after, walks (k + 1)⟩) →
    -- the elements are shown in order, and every time none is missing
    (∀ k j, calls[k]? = some j → items[k]? = some j.node
      ∧ (c.items j.before).length = items.length
      ∧ ∃ zone, zone.Perm (rejectedNodes (calls.take k))
        ∧ c.items j.before
          = keptNodes (calls.take k) ++ zone ++ items.drop k)
    -- all are judged and the rejected ones counted, or the last call gave up
    ∧ ((calls.length = items.length
        ∧ (∀ j ∈ calls, ∃ answer h, j.verdict = .ok answer h)
        ∧ out = .ok (calls.countP Judgement.rejects) g)
      ∨ ∃ why, out = .stop why g
        ∧ (∃ j h, calls.getLast? = some j ∧ j.verdict = .stop why h)
        ∧ ∀ k j, calls[k]? = some j → k + 1 < calls.length →
          ∃ answer h, j.verdict = .ok answer h)
    -- what was kept is left, and what was not judged
    ∧ c.items g = keptNodes calls ++ items.drop calls.length
    -- every rejection counts once
    ∧ (∀ n, g.isAlive n = true →
      (g.node n).slotRefs + (rejectedNodes calls).count n
        = (f.node n).slotRefs)
    -- all is one commit, if anything was rejected
    ∧ (∀ n, f.isAlive n = true → g.isAlive n = true →
      (g.node n).version = (f.node n).version
        + if n = c.owner ∧ calls.any Judgement.rejects = true then 1 else 0)
    -- a place that leads to what was not rejected leads to it again
    ∧ ∀ i n, items[i]? = some n →
      (∀ j, calls[i]? = some j → j.rejects = false) →
      f.parent? n = some c.owner → (f.node n).position = c.base + i →
      g.parent? n = some c.owner
        ∧ (g.node n).position = c.base + newIndex calls i
        ∧ (c.items g)[newIndex calls i]? = some n := by
  intro f items calls out g hcalls
  -- where the pass begins
  obtain ⟨hs, hcf, hcov⟩ := hw.covered_hold hc
  have hwf := hs.toWellFormed
  have hguard' : f.isGuarded checks c.owner = false :=
    (isGuarded_holdAll (f := w.forest) [c.owner] c.owner).trans hguard
  obtain ⟨⟨h, hend⟩, hquiet⟩ := hw.idle_calls hc hwalks hcalls
  have hidle : ∀ j ∈ calls, j.Idle checks [c.owner] :=
    fun j hj => (hquiet j hj).1
  -- where it ends
  obtain ⟨pass, stopped, k, hsifts, hfinish, hout⟩ :=
    removeAll_ended checks c judge st hguard' hend
  have hg : g = h := by
    show Outcome.state ((c.removeAll checks judge (f, st)).mapState _) = h
    rw [hout]
    cases stopped <;> rfl
  have hstate : (pass.finish checks c k).state = g := by
    rw [hfinish, hg]
    rfl
  have hwf' : g.WellFormed := ((filtered_removeAll checks c judge f st).sound
    (.head _) hs hcf fun j hj => (hidle j hj).1).1.toWellFormed
  obtain ⟨hrejected, hall, hlast⟩ :=
    hsifts.concludes (.head _) hs hcf hcov hidle
  obtain ⟨-, hnodes, -, hx, -⟩ :=
    hsifts.culled (.head _) hs hcf hcov hidle
  rw [hstate] at hx
  have hitems : c.items g = keptNodes calls ++ items.drop calls.length :=
    hx.account.slot_self
  refine ⟨fun k j hk => hsifts.view (.head _) hs hcf hcov hidle hk, ?_,
    hitems, fun n hn => hx.account.count hwf hcov (.inl hn),
    fun n hf hn => ?_, fun i n hi hkept hparent hpos => ?_⟩
  · rw [hg]
    cases stopped with
    | none =>
        refine .inl ⟨hall rfl, fun j hj => ?_, hrejected ▸ hout⟩
        obtain ⟨k, hk⟩ := List.mem_iff_getElem?.mp hj
        exact hsifts.answered hk (.inl rfl)
    | some why =>
        exact .inr ⟨why, hout, hlast why rfl,
          fun k j hk hlt => hsifts.answered hk (.inr hlt)⟩
  · have hraises := raises_removeAll hend fun j hj => (hquiet j hj).2
    rw [hraises.version hf hn, ite_and]
  · have hstored := getElem?_newIndex hnodes hi hkept
    rw [← hitems] at hstored
    have hmem : n ∈ g.children c.owner :=
      g.mem_children_of_mem_slot (List.mem_of_getElem? hstored)
    have hlink := (parent?_eq_some_iff.mp hparent).1
    have hposition := hsifts.ridden (.head _) hs hcf hcov
      hidle hi hlink hpos hkept
    rw [hstate] at hposition
    exact ⟨parent?_eq_some_iff.mpr ⟨hx.linked hwf hcov hwf'.closed
        List.not_mem_nil hmem hlink, hx.account.owner⟩,
      hposition (.inl (hwf'.closed hmem)), hstored⟩

/-- The predicate rejects the first of three elements and gives up at the
second one: that is kept, and the last one moves along with its place. -/
theorem Arrives.compacts_of_quitting :
    let c : Collection := ⟨⟨0⟩, 0⟩
    let deeds : List Deed :=
      [.act (.create .block .none), .act (.hold ⟨0⟩),
        .act (.create .nop .none), .act (.hold ⟨1⟩),
        .act (.create .ret .none), .act (.hold ⟨2⟩),
        .act (.change c (.addRange [⟨1⟩, ⟨1⟩, ⟨2⟩]))]
    let w := World.after .strict deeds ⟨∅, []⟩
    let f := w.forest.hold ⟨0⟩
    let calls := c.removalCalls .strict (quittingJudge 1) (f, 0)
    let out := (c.removeAll .strict (quittingJudge 1) (f, 0)).mapState
      Prod.fst
    let g := out.state
    calls.map Judgement.node = [⟨1⟩, ⟨1⟩]
      ∧ out = .stop (.panic .judgeFailed) g
      ∧ c.items g = [⟨1⟩, ⟨2⟩]
      ∧ (f.node ⟨1⟩).slotRefs = 2 ∧ (g.node ⟨1⟩).slotRefs = 1
      ∧ (f.node ⟨0⟩).version = 1 ∧ (g.node ⟨0⟩).version = 2
      ∧ (f.node ⟨2⟩).position = 2 ∧ (g.node ⟨2⟩).position = 1 := by
  intro c deeds w f calls out g
  have hpermits : ∀ locks (op : Operation) f g, op.single = true →
      Tame .strict locks op f (.ok () g) := by
    intro locks op f g hop
    refine ⟨fun _ _ h => (by cases h), ?_, ?_⟩
    · rintro o r rfl
      cases hop
    · rw [Operation.calls_eq_nil (Operation.unfiltered_of_single hop)]
      intro j hj
      cases hj
  have hw : Arrives .strict (Tame .strict) [] w :=
    .here (Journeys.of_finishes hpermits (by decide +kernel)
      (by decide +kernel))
  have hsame : ∀ j ∈ calls, j.after = j.before := by decide +kernel
  obtain ⟨-, -, hitems, hrefs, hversion, hplace⟩ :=
    @Arrives.compacts .strict w Nat c (quittingJudge 1) 0
      (fun _ => w.walks) hw (by decide +kernel) (by decide +kernel) rfl
      fun k j hj => by
        rw [hsame j (List.mem_of_getElem? hj)]
        exact .refl
  obtain ⟨-, hposition, -⟩ := hplace 2 ⟨2⟩ (by decide +kernel)
    (by decide +kernel) (by decide +kernel) (by decide +kernel)
  have hone : (g.node ⟨1⟩).slotRefs + (rejectedNodes calls).count ⟨1⟩
      = (f.node ⟨1⟩).slotRefs := hrefs ⟨1⟩ (by decide +kernel)
  have hcount : (rejectedNodes calls).count ⟨1⟩ = 1 := by decide +kernel
  have hbefore : (f.node ⟨1⟩).slotRefs = 2 := by decide +kernel
  refine ⟨by decide +kernel, by decide +kernel, hitems.trans ?_, hbefore, ?_,
    by decide +kernel, ?_, by decide +kernel, hposition.trans ?_⟩
  · decide +kernel
  · show (g.node ⟨1⟩).slotRefs = 1
    omega
  · exact (hversion ⟨0⟩ (by decide +kernel) (by decide +kernel)).trans
      (by decide +kernel)
  · decide +kernel

end InstructionTree
