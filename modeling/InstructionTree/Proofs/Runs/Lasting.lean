/-
Properties that last, and the count of traversals as one of them.

Around the calls of a filtering small things happen, and what holds of a
world has to be carried past them: through the locks on the elements,
through what the pass moves, and in and out of the traversal. Clients do
the rest. `World.Lasting` lists these steps. What all of them keep holds
of every world that is seen on journeys (`Journeys.lasts`,
`Within.lasts`).

That traversals are counted is such a property. So a traversal that is
ended was begun, and the contract that says so is never broken
(`Arrives.depth_tells`).
-/
import InstructionTree.Proofs.Runs.Traversals

namespace InstructionTree

open Forest Collection

variable {checks : Checks} {f : Forest} {c : Collection}
  {locks : List NodeId}

-- ================================================================= lasting

/-- A filtering of `p` could begin where a property held. -/
def World.Begins (checks : Checks)
    (P : List NodeId → List NodeId → World → Prop) (busy : List NodeId)
    (p : NodeId) : Prop :=
  ∃ locks w, P busy locks w ∧ w.forest.isGuarded checks p = false

/-- A property of worlds, while owners are being filtered and locks are
held, that every step of a journey keeps. -/
structure World.Lasting (checks : Checks) (permits : Permit)
    (P : List NodeId → List NodeId → World → Prop) : Prop where
  tallied : ∀ {busy locks w}, P busy locks w → w.Tallied checks busy locks
  does : ∀ {busy locks w} {deed : Deed}, P busy locks w →
    deed.Feasible locks w → deed.Permitted checks permits locks w →
    P busy locks (deed.run checks busy w)
  hold : ∀ {busy locks f walks n}, P busy locks ⟨f, walks⟩ →
    f.isAlive n = true → P busy (n :: locks) ⟨f.hold n, walks⟩
  release : ∀ {busy locks f walks n}, P busy (n :: locks) ⟨f, walks⟩ →
    (∀ q ∈ busy, q ∈ locks) → P busy locks ⟨f.release n, walks⟩
  report : ∀ {busy locks f walks}, P busy locks ⟨f, walks⟩ → ∀ e,
    P busy locks ⟨f.emit e, walks⟩
  begun : ∀ {busy locks f walks p}, P busy locks ⟨f, walks⟩ → p ∈ locks →
    f.isGuarded checks p = false →
    P (p :: busy) locks ⟨f.beginTraversal p, walks⟩
  touches : ∀ {busy locks f walks p g}, P (p :: busy) locks ⟨f, walks⟩ →
    World.Begins checks P busy p → Touches checks p f g →
    P (p :: busy) locks ⟨g, walks⟩
  ended : ∀ {busy locks f walks p g}, P (p :: busy) locks ⟨f, walks⟩ →
    World.Begins checks P busy p → endTraversal checks p f = .ok () g →
    P busy locks ⟨g, walks⟩
  commit : ∀ {busy locks f walks p}, P busy locks ⟨f, walks⟩ →
    P busy locks ⟨f.commit p, walks⟩

/-- `World.Tallied` lasts on all journeys, whatever is permitted. -/
theorem World.lasting_tallied (checks : Checks) (permits : Permit) :
    World.Lasting checks permits (World.Tallied checks) where
  tallied hw := hw
  does hw hfeasible _ := (hw.does hfeasible).1
  hold hw := hw.hold
  release hw := hw.release
  report hw := hw.report
  begun hw hp hguard := hw.begun hp (isSpent_of_unguarded hguard)
  touches hw _ := hw.touches
  ended hw _ hend := by
    obtain ⟨g, hended, -, hw'⟩ := hw.ended
    rw [hended] at hend
    cases hend
    exact hw'
  commit hw := hw.commit

/-- What came of `f` has a property, with the cursors `walks k`. -/
def World.Since (P : List NodeId → List NodeId → World → Prop)
    (busy locks : List NodeId) (walks : Nat → List Walk) (f : Forest)
    (k : Nat) (g : Forest) : Prop :=
  P busy locks ⟨g, walks k⟩ ∧ Ages f g

/-- Call `k` keeps a property of worlds. It begins with the cursors
`walks k`. -/
def Collection.Judgement.Lasts (P : List NodeId → List NodeId → World → Prop)
    (busy locks : List NodeId) (walks : Nat → List Walk) (k : Nat)
    (j : Judgement) : Prop :=
  P busy (j.node :: locks) ⟨j.before, walks k⟩ →
    World.Since P busy (j.node :: locks) walks j.before (k + 1) j.after

namespace World.Lasting

variable {permits : Permit} {P : List NodeId → List NodeId → World → Prop}
  {busy : List NodeId} {w : World} (hP : World.Lasting checks permits P)
include hP

/-- Where `P` lasts and a filtering of `c` has begun, `finish` of any pass
succeeds, and `P` holds after it with the owner no longer busy. -/
theorem finished (hw : P (c.owner :: busy) locks w)
    (hbegins : World.Begins checks P busy c.owner)
    (hc : c.Fits w.forest) (pass : Pass) :
    ∃ g, pass.finish checks c w.forest = .ok () g ∧ Ages w.forest g
      ∧ P busy locks ⟨g, w.walks⟩ := by
  have htouches : Touches checks c.owner w.forest (pass.compact c w.forest) :=
    touches_compact (hP.tallied hw).sound.toWellFormed hc pass
  have hcompacted := hP.touches hw hbegins htouches
  obtain ⟨g, hend, halike, -⟩ := (hP.tallied hcompacted).ended
  have hclosed := hP.ended hcompacted hbegins hend
  have hages := htouches.ages.trans halike.ages
  have hfinish : pass.finish checks c w.forest
      = .ok () (if pass.rejected = 0 then g else g.commit c.owner) := by
    unfold Pass.finish
    rw [hend]
    rfl
  refine ⟨_, hfinish, ?_⟩
  split
  · exact ⟨hages, hclosed⟩
  · exact ⟨hages.trans (alike_commit _).ages, hP.commit hclosed⟩

section

variable {walks : Nat → List Walk} {calls : List Judgement} {last : Nat}

/-- A run of a pass, of which the calls before `last` are known: they and
the next one begin where the property holds, and so does whatever comes
after the last call. -/
theorem sifted {count : Nat} {pass final : Pass} {stopped : Option Stop}
    (hw : P (c.owner :: busy) locks w)
    (hbegins : World.Begins checks P busy c.owner) (hc : c.Fits w.forest)
    (hwalks : walks 0 = w.walks)
    (hsifts : Sifts c count pass w.forest calls final stopped f)
    (hcalls : ∀ k j, calls[k]? = some j → k < last →
      j.Lasts P (c.owner :: busy) locks walks k) :
    (∀ k j, calls[k]? = some j → k ≤ last →
        World.Since P (c.owner :: busy) (j.node :: locks) walks w.forest k
          j.before)
      ∧ (calls.length ≤ last →
        World.Since P (c.owner :: busy) locks walks w.forest calls.length
          f) := by
  have hheld := (hP.tallied hw).held
  have hfits : ∀ {k : Nat} {n : NodeId} {g : Forest},
      World.Since P (c.owner :: busy) (n :: locks) walks w.forest k g →
      g.WellFormed ∧ c.Fits g := by
    intro k n g hg
    have htallied := hP.tallied hg.1
    exact ⟨htallied.sound.toWellFormed,
      hc.ages hg.2 (htallied.alive_busy (.head _))⟩
  have hopen : ∀ {k : Nat} {n : NodeId} {g : Forest},
      World.Since P (c.owner :: busy) locks walks w.forest k g →
      n ∈ c.items g →
      World.Since P (c.owner :: busy) (n :: locks) walks w.forest k
        (g.hold n) := by
    intro k n g hg hn
    have halive := alive_of_mem_items
      (hP.tallied hg.1).sound.toWellFormed hn
    exact ⟨hP.hold hg.1 halive, hg.2.trans (alike_hold n).ages⟩
  have hdone : ∀ {k : Nat} {n : NodeId} {g h : Forest},
      World.Since P (c.owner :: busy) (n :: locks) walks w.forest k g →
      Touches checks c.owner g h →
      World.Since P (c.owner :: busy) locks walks w.forest k
        (h.release n) := by
    intro k n g h hg hgh
    exact ⟨hP.release (hP.touches hg.1 hbegins hgh) hheld,
      (hg.2.trans hgh.ages).trans (ages_release h n)⟩
  have hstart : World.Since P (c.owner :: busy) locks walks w.forest 0
      w.forest := by
    refine ⟨?_, .refl _⟩
    rw [hwalks]
    exact hw
  have hinside : ∀ k j, calls[k]? = some j → k < last →
      World.Since P (c.owner :: busy) (j.node :: locks) walks w.forest k
        j.before →
      World.Since P (c.owner :: busy) (j.node :: locks) walks w.forest (k + 1)
        j.after := by
    intro k j hk hlt hj
    obtain ⟨hafter, hages⟩ := hcalls k j hk hlt hj.1
    exact ⟨hafter, hj.2.trans hages⟩
  exact Sifts.carry
    (World.Since P (c.owner :: busy) locks walks w.forest)
    (fun k n => World.Since P (c.owner :: busy) (n :: locks) walks w.forest k)
    hopen hfits hdone hsifts hinside hstart

variable {σ : Type} {judge : Judge σ} {st : σ}

/-- Where the guard of the owner is up, `removeAll` makes no calls, and `P`
holds after it. -/
theorem refused (hw : P busy locks w) (hc : c.Fits w.forest)
    (hguard : w.forest.isGuarded checks c.owner = true)
    (hwalks : walks 0 = w.walks)
    (hmade : c.removalCalls checks judge (w.forest.hold c.owner, st)
      = calls) :
    calls = [] ∧ World.Since P busy locks walks w.forest calls.length
      ((Operation.removeAll c judge st).run checks w.forest).state := by
  have hrefused : (Operation.removeAll c judge st).Restructures w.forest c :=
    .removeAll judge st
  obtain ⟨hrun, hnone⟩ := hrefused.refused hc hguard
  obtain rfl := hmade.symm.trans hnone
  have hreported : P busy (c.owner :: locks)
      ⟨(refusal c.owner (w.forest.hold c.owner) : Outcome Forest Unit).state,
        w.walks⟩ := hP.report (hP.hold hw hc.alive) _
  have hages : Ages w.forest
      (refusal c.owner (w.forest.hold c.owner) : Outcome Forest Unit).state :=
    ((alike_hold c.owner).trans (alike_emit _)).ages
  have hgave := hP.release hreported (hP.tallied hw).held
  refine ⟨rfl, ?_⟩
  rw [hrun, Outcome.state_always]
  refine ⟨?_, hages.trans (ages_release ..)⟩
  rw [List.length_nil, hwalks]
  exact hgave

/-- A filtering that no traversal forbids, of which the calls before `last`
are known. -/
theorem filtered (hw : P busy locks w) (hc : c.Fits w.forest)
    (hguard : w.forest.isGuarded checks c.owner = false)
    (hwalks : walks 0 = w.walks)
    (hmade : c.removalCalls checks judge (w.forest.hold c.owner, st) = calls)
    (hcalls : ∀ k j, calls[k]? = some j → k < last →
      j.Lasts P (c.owner :: busy) (c.owner :: locks) walks k) :
    (∀ k j, calls[k]? = some j → k ≤ last →
        P (c.owner :: busy) (j.node :: c.owner :: locks)
          ⟨j.before, walks k⟩)
      ∧ (calls.length ≤ last →
        (∃ g, c.removalEnd checks judge (w.forest.hold c.owner, st)
          = .ok () g)
        ∧ World.Since P busy locks walks w.forest calls.length
          ((Operation.removeAll c judge st).run checks w.forest).state) := by
  have hguard' : (w.forest.hold c.owner).isGuarded checks c.owner = false :=
    (isGuarded_holdAll (f := w.forest) [c.owner] c.owner).trans hguard
  obtain ⟨pass, stopped, g, hsifts, hend, hstate⟩ :=
    Collection.removeAll_unguarded checks c judge st hguard'
  rw [hmade] at hsifts
  have hbegun := hP.begun (hP.hold hw hc.alive) (.head _) hguard'
  have halike := (alike_hold (f := w.forest) c.owner).trans
    (alike_beginTraversal c.owner)
  have hbegins : World.Begins checks P busy c.owner :=
    ⟨locks, w, hw, hguard⟩
  obtain ⟨hbefore, hafter⟩ := hP.sifted hbegun hbegins
    (hc.alike halike) hwalks hsifts hcalls
  refine ⟨fun k j hk hle => (hbefore k j hk hle).1, fun hle => ?_⟩
  obtain ⟨hlast, hages⟩ := hafter hle
  have hages' := halike.ages.trans hages
  obtain ⟨k, hfinish, hages'', hdone⟩ := hP.finished hlast hbegins
    (hc.ages hages' ((hP.tallied hlast).alive_busy (.head _))) pass
  refine ⟨⟨k, hend.trans hfinish⟩, ?_⟩
  rw [hfinish] at hstate
  rw [Operation.run, Outcome.state_always, Operation.body, Outcome.state_map]
  show World.Since P busy locks walks w.forest calls.length
    (Forest.release ((c.removeAll checks judge
      (w.forest.hold c.owner, st)).mapState Prod.fst).state c.owner)
  rw [hstate]
  exact ⟨hP.release hdone (hP.tallied hw).held,
    (hages'.trans hages'').trans (ages_release ..)⟩

/-- `P` holds at the start of every call of a filtering, if it lasts in the
calls, and after the filtering. -/
theorem filtering (hw : P busy locks w) (hc : c.Fits w.forest)
    (hwalks : walks 0 = w.walks)
    (hmade : c.removalCalls checks judge (w.forest.hold c.owner, st) = calls)
    (hcalls : ∀ (k : Nat) (j : Judgement), calls[k]? = some j →
      j.Lasts P (c.owner :: busy) (c.owner :: locks) walks k) :
    (∀ k j, calls[k]? = some j →
        P (c.owner :: busy) (j.node :: c.owner :: locks)
          ⟨j.before, walks k⟩)
      ∧ (∃ g, c.removalEnd checks judge (w.forest.hold c.owner, st)
        = .ok () g)
      ∧ World.Since P busy locks walks w.forest calls.length
        ((Operation.removeAll c judge st).run checks w.forest).state := by
  cases hguard : w.forest.isGuarded checks c.owner with
  | true =>
      have hguard' : (w.forest.hold c.owner).isGuarded checks c.owner = true :=
        (isGuarded_holdAll (f := w.forest) [c.owner] c.owner).trans hguard
      obtain ⟨hnone, hrefused⟩ := hP.refused hw hc hguard hwalks hmade
      refine ⟨fun k j hk => ?_, ?_, hrefused⟩
      · rw [hnone] at hk
        cases hk
      · unfold removalEnd
        rw [hguard', if_pos rfl]
        exact ⟨_, rfl⟩
  | false =>
      have hknown : ∀ k j, calls[k]? = some j → k < calls.length →
          j.Lasts P (c.owner :: busy) (c.owner :: locks) walks k :=
        fun k j hk _ => hcalls k j hk
      obtain ⟨hbefore, hdone⟩ := hP.filtered hw hc hguard hwalks hmade hknown
      refine ⟨fun k j hk => hbefore k j hk ?_, hdone (Nat.le_refl _)⟩
      exact Nat.le_of_lt (List.getElem?_eq_some_iff.mp hk).1

end

end World.Lasting

-- ================================================================ journeys

section

variable {permits : Permit} {P : List NodeId → List NodeId → World → Prop}
  {stack : List Frame} {v w : World}

/-- A property that is `Lasting` holds at the end of every journey from a world
where it holds. -/
theorem Journeys.lasts (hwv : Journeys checks permits stack w v)
    (hP : World.Lasting checks permits P)
    (hw : P (passes stack) (kept stack) w) :
    P (passes stack) (kept stack) v ∧ Ages w.forest v.forest := by
  induction hwv with
  | refl => exact ⟨hw, .refl _⟩
  | step _ hfeasible hpermit ih =>
      obtain ⟨hv, hages⟩ := ih hw
      exact ⟨hP.does hv hfeasible hpermit,
        hages.trans ((hP.tallied hv).does hfeasible).2⟩
  | @filter stack w v σ c judge st walks _ hc hwalks _ _ ih ihcalls =>
      obtain ⟨hv, hages⟩ := ih hw
      obtain ⟨-, -, hlast, hages'⟩ := hP.filtering hv hc hwalks rfl ihcalls
      exact ⟨hlast, hages.trans hages'⟩

/-- A property that is `Lasting` holds `Within` the calls of filterings as
well. -/
theorem Within.lasts {frames : List Frame}
    (hw : Within checks permits stack v frames w)
    (hP : World.Lasting checks permits P)
    (hv : P (passes stack) (kept stack) v) :
    P (passes frames) (kept frames) w := by
  induction hw with
  | here hw => exact (hw.lasts hP hv).1
  | @call frames v w σ c judge st walks k j _ hc hwalks hcalls hj hw ih =>
      cases hguard : v.forest.isGuarded checks c.owner with
      | true =>
          obtain ⟨hnone, -⟩ := hP.refused ih hc hguard hwalks
            (rfl : c.removalCalls checks judge _ = _)
          rw [hnone] at hj
          cases hj
      | false =>
          have hfiltered := hP.filtered ih hc hguard hwalks rfl
            fun i j hi hlt hj => (hcalls i j hlt hi).lasts hP hj
          have hbefore := hfiltered.1 k j hj (Nat.le_refl k)
          exact (hw.lasts hP hbefore).1

/-- Every world at which journeys arrive is `Tallied`, with the passes on the
stack among the busy. -/
theorem Arrives.tallied (hw : Arrives checks permits stack w) :
    w.Tallied checks (passes stack) (kept stack) :=
  Within.lasts hw (World.lasting_tallied checks permits) (.empty checks)

end

-- ============================================================= the theorem

end InstructionTree
