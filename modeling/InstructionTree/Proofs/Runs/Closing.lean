/-
A filtering always comes to a proper end.

The calls of a filtering may be any journeys. Where no checks are made
they may edit the collection itself, empty it, and filter it in turn, and
every call may give up. Nothing of this makes the end of the pass fail
(`World.Tallied.closing`): its traversal was counted, and what it takes
out lies within what is stored by then. So somebody who gives up in a
call is never met by a second failure on the way out.
-/
import InstructionTree.Proofs.Collection.Closing
import InstructionTree.Proofs.Runs.Compaction

namespace InstructionTree

open Forest Collection

variable {checks : Checks} {permits : Permit} {stack : List Frame}
  {w : World} {σ : Type} {c : Collection} {judge : Judge σ} {st : σ}
  {walks : Nat → List Walk} {busy locks : List NodeId}

/-- How a filtering with these `calls` ends where no traversal forbids it: the
pass, what stopped it, the forest `g` after the last call and `h` after the end
of the pass. -/
structure Collection.Concludes (c : Collection) (f : Forest)
    (calls : List Judgement) (out : Outcome Forest Nat) (pass : Pass)
    (stopped : Option Stop) (g h : Forest) : Prop where
  /-- The calls came as far as `pass` says, and left `g`. -/
  sifts : Sifts c (c.length f) ⟨0, 0, 0⟩ (f.beginTraversal c.owner) calls
    pass stopped g
  /-- Everything that was judged was kept or rejected. -/
  balanced : pass.kept + pass.rejected = pass.judged
  judged : pass.judged ≤ c.length f
  rejected : pass.rejected = calls.countP Judgement.rejects
  /-- The end of the pass makes `h` of it. -/
  closes : pass.Closes c g h
  /-- Nothing stopped the pass until the elements were used up. -/
  finished : stopped = none → out = .ok pass.rejected h
    ∧ pass.judged = calls.length
    ∧ (calls.length = c.length f ∨ c.length g ≤ calls.length)
  /-- The last call gave up, or kept an element whose index it had
  removed. -/
  broken : ∀ why, stopped = some why → out = .stop why h
    ∧ ∃ j, calls.getLast? = some j
      ∧ ((∃ k, j.verdict = .stop why k)
        ∨ why = .panic .noSuchElement ∧ (∃ k, j.verdict = .ok false k)
          ∧ c.length j.after ≤ pass.judged)

/-- A filtering in a `Tallied` world that no traversal forbids, of calls that
count traversals. Its end `Concludes` the pass without a panic of its own, and
the world is `Tallied` again. -/
theorem World.Tallied.closing (hw : w.Tallied checks busy locks)
    (hc : c.Fits w.forest)
    (hguard : w.forest.isGuarded checks c.owner = false)
    (hwalks : walks 0 = w.walks) :
    let f := w.forest.hold c.owner
    let calls := c.removalCalls checks judge (f, st)
    let out := (c.removeAll checks judge (f, st)).mapState Prod.fst
    (∀ (k : Nat) (j : Judgement), calls[k]? = some j →
      j.Lasts (World.Tallied checks) (c.owner :: busy) (c.owner :: locks)
        walks k) →
    ∃ pass stopped g h, c.Concludes f calls out pass stopped g h
      ∧ pass.finish checks c g = .ok () h
      ∧ ((g.node c.owner).depth.wraps = 0 → h.isAlive c.owner = true →
        (h.node c.owner).depth.shown + 1 = (g.node c.owner).depth.shown)
      ∧ ∀ o, h.isAlive o = true →
        Tells checks (((walks calls.length).map Walk.owner).count o
          + busy.count o) (h.node o).depth := by
  intro f calls out hcalls
  have hP := World.lasting_tallied checks fun _ _ _ _ => True
  have hguard' : f.isGuarded checks c.owner = false :=
    (isGuarded_holdAll (f := w.forest) [c.owner] c.owner).trans hguard
  obtain ⟨-, ⟨h, hend⟩, -⟩ := hP.filtering hw hc hwalks rfl hcalls
  obtain ⟨pass, stopped, g, hsifts, hfinish, hout⟩ :=
    removeAll_ended checks c judge st hguard' hend
  -- what the last call left
  have hbegun := (hw.hold hc.alive).begun (.head _)
    (isSpent_of_unguarded hguard')
  have halike := (alike_hold (f := w.forest) c.owner).trans
    (alike_beginTraversal c.owner)
  obtain ⟨-, hafter⟩ := hP.sifted hbegun ⟨locks, w, hw, hguard⟩
    (hc.alike halike) hwalks hsifts fun k j hk _ => hcalls k j hk
  obtain ⟨hlast, hages⟩ := hafter (Nat.le_refl _)
  have ho : c.owner ∈ World.owners ⟨g, walks calls.length⟩
      ++ c.owner :: locks := List.mem_append_right _ (.head _)
  have hfits := (hc.alike halike).ages hages (hlast.sound.alive ho)
  obtain ⟨h', hfinish', hcloses⟩ := closes_finish hlast.sound ho hfits pass
    (hlast.traversed (List.mem_append_right _ (.head _)))
  rw [hfinish] at hfinish'
  cases hfinish'
  have hrejected := hsifts.rejected_eq
  have hjudged := hsifts.judged_le
  rw [Nat.zero_add] at hrejected hjudged
  refine ⟨pass, stopped, g, h, ?_, hfinish, fun hwraps ho => ?_,
    fun o ho => ?_⟩
  · constructor
    case sifts => exact hsifts
    case balanced => exact hsifts.balanced rfl
    case judged => exact hjudged
    case rejected => exact hrejected
    case closes => exact hcloses
    case finished =>
      rintro rfl
      obtain ⟨hall, hused⟩ := hsifts.exhausted rfl
      rw [Nat.zero_add] at hall
      exact ⟨hout, hall, hused.imp_right hall.symm.trans_ge⟩
    case broken =>
      rintro why rfl
      exact ⟨hout, hsifts.stopped_by rfl rfl⟩
  · have hshown := (hlast.tells c.owner).counts hwraps
    rw [List.count_cons_self] at hshown
    rw [hcloses.depth ho, if_pos rfl, Counter.shown_prev, hshown]
    omega
  · have hless : Tells checks _ (h.node o).depth :=
      (hlast.tells o).lowered (hcloses.depth ho)
    refine hless.of_eq ?_
    rw [← List.singleton_append (l := busy), List.count_append]
    show ((walks calls.length).map Walk.owner).count o + _ - _ = _
    omega

-- ============================================================= the theorem

/-- A filtering in a world that is seen on journeys, whatever its calls do: the
pass ends with `Concludes`, gives back the one traversal it began, and the
world is `Tallied` after it. -/
theorem Arrives.ends_cleanly (hw : Arrives checks permits stack w)
    (hc : c.Fits w.forest) (hwalks : walks 0 = w.walks) :
    let f := w.forest.hold c.owner
    let calls := c.removalCalls checks judge (f, st)
    let out := (c.removeAll checks judge (f, st)).mapState Prod.fst
    (∀ k j, calls[k]? = some j →
      Journeys checks permits (⟨c.owner, j.node⟩ :: stack)
        ⟨j.before, walks k⟩ ⟨j.after, walks (k + 1)⟩) →
    -- there are no more calls than there were elements
    calls.length ≤ c.length f
    -- a traversal forbids it, and nothing happens
    ∧ (w.forest.isGuarded checks c.owner = true →
      calls = [] ∧ out = refusal c.owner f)
    -- or the pass is brought to its end, and that never fails
    ∧ (w.forest.isGuarded checks c.owner = false →
      ∃ pass stopped g h, c.Concludes f calls out pass stopped g h
        ∧ pass.finish checks c g = .ok () h
        -- it counts out its own traversal, if the counter never started over
        ∧ ((g.node c.owner).depth.wraps = 0 → h.isAlive c.owner = true →
          (h.node c.owner).depth.shown + 1 = (g.node c.owner).depth.shown)
        -- what is still counted are cursors, and passes around this one
        ∧ ∀ o, h.isAlive o = true →
          Tells checks (((walks calls.length).map Walk.owner).count o
            + (passes stack).count o) (h.node o).depth) := by
  intro f calls out hcalls
  have hsame : f.isGuarded checks c.owner
      = w.forest.isGuarded checks c.owner :=
    isGuarded_holdAll (f := w.forest) [c.owner] c.owner
  have hrefused : w.forest.isGuarded checks c.owner = true →
      calls = [] ∧ out = refusal c.owner f := by
    intro hguard
    obtain ⟨hout, hnone⟩ := removeAll_guarded (hsame.trans hguard) judge st
    exact ⟨hnone, hout⟩
  have hended : w.forest.isGuarded checks c.owner = false → _ :=
    fun hguard => hw.tallied.closing hc hguard hwalks fun k j hk hj =>
      (hcalls k j hk).lasts (World.lasting_tallied checks permits) hj
  refine ⟨?_, hrefused, hended⟩
  cases hguard : w.forest.isGuarded checks c.owner with
  | true =>
      rw [(hrefused hguard).1]
      exact Nat.zero_le _
  | false =>
      obtain ⟨_, _, _, _, hends, -⟩ := hended hguard
      exact hends.sifts.length_le

/-- A judge that rejects `n`, and empties the collection before it keeps
anybody else. -/
def Collection.clearingJudge (c : Collection) (n : NodeId) : Judge Unit :=
  fun m s =>
    if m = n then .ok true s
    else .ok false (((Operation.change c .clear).run .lax s.1).state, s.2)

/-- Without checks the first of two elements is rejected, and then the
collection is emptied under the pass: the second one cannot be kept any
more, and the pass takes out nothing, but the rejection is committed, and
the traversal is over. -/
theorem Arrives.ends_cleanly_of_clearing :
    let c : Collection := ⟨⟨0⟩, 0⟩
    let deeds : List Deed :=
      [.act (.create .block .none), .act (.hold ⟨0⟩),
        .act (.create .nop .none), .act (.hold ⟨1⟩),
        .act (.create .ret .none), .act (.hold ⟨2⟩),
        .act (.change c (.addRange [⟨1⟩, ⟨2⟩]))]
    let w := World.after .lax deeds ⟨∅, []⟩
    let f := w.forest.hold ⟨0⟩
    let judge := clearingJudge c ⟨1⟩
    let calls := c.removalCalls .lax judge (f, ())
    let out := (c.removeAll .lax judge (f, ())).mapState Prod.fst
    calls.map Judgement.node = [⟨1⟩, ⟨2⟩] ∧ calls.length ≤ c.length f
      ∧ (∃ h, out = .stop (.panic .noSuchElement) h
        ∧ c.items h = [] ∧ (h.node ⟨0⟩).version = 3
        ∧ (h.node ⟨0⟩).depth.shown = 0)
      ∧ (f.node ⟨0⟩).version = 1 := by
  intro c deeds w f judge calls out
  have hallows : World.Allows .lax deeds ⟨∅, []⟩ := by decide +kernel
  have hw : Arrives .lax Touring [] w :=
    .here (Journeys.of_allows hallows)
  have hmade : ∀ j ∈ calls, j.after = if j.node = ⟨1⟩ then j.before
      else ((Operation.change c .clear).run .lax j.before).state := by
    decide +kernel
  have hready : ∀ j ∈ calls, (Operation.change c .clear).Ready
      [j.node, ⟨0⟩] j.before := by decide +kernel
  have hcalls : ∀ (k : Nat) (j : Judgement), calls[k]? = some j →
      Journeys .lax Touring [⟨c.owner, j.node⟩] ⟨j.before, []⟩
        ⟨j.after, []⟩ := by
    intro k j hj
    have hmem := List.mem_of_getElem? hj
    rw [hmade j hmem]
    split
    · exact .refl
    · have hfeasible : (Deed.act (.change c .clear)).Feasible
          (kept [⟨c.owner, j.node⟩]) ⟨j.before, []⟩ := ⟨rfl, hready j hmem⟩
      have hpermit : (Deed.act (.change c .clear)).Permitted .lax Touring
          (kept [⟨c.owner, j.node⟩]) ⟨j.before, []⟩ := .inr rfl
      exact Journeys.refl.step hfeasible hpermit
  obtain ⟨hlength, -, hends⟩ := @Arrives.ends_cleanly .lax Touring [] w Unit c
    judge () (fun _ => []) hw (by decide +kernel) (by decide +kernel) hcalls
  obtain ⟨pass, stopped, g, h, hend, -, -, hdepth⟩ :=
    hends (by decide +kernel)
  refine ⟨by decide +kernel, hlength, ⟨h, ?_⟩, by decide +kernel⟩
  have hgone : out = .stop (.panic .noSuchElement) out.state := by
    decide +kernel
  have hitems : c.items out.state = [] := by decide +kernel
  have hversion : (out.state.node ⟨0⟩).version = 3 := by decide +kernel
  have halive : out.state.isAlive ⟨0⟩ = true := by decide +kernel
  have hwraps : (out.state.node ⟨0⟩).depth.wraps = 0 := by decide +kernel
  cases stopped with
  | none =>
      have hout : out = .ok pass.rejected h := (hend.finished rfl).1
      rw [hout] at hgone
      cases hgone
  | some why =>
      have hout : out = .stop why h := (hend.broken why rfl).1
      rw [hout, Outcome.state] at hgone hitems hversion halive hwraps
      exact ⟨hout.trans hgone, hitems, hversion,
        (hdepth ⟨0⟩ halive).counts hwraps⟩

-- ============================================================= what breaks it

/-- A counter that is raised from zero shows how often it was, as long as it
can. -/
theorem Counter.shown_iterate_next {k : Nat} (hk : k < UInt32.size) :
    (Counter.next^[k] .zero).shown = k := by
  induction k with
  | zero => rfl
  | succ k ih =>
      have hshown := ih (Nat.lt_of_succ_lt hk)
      have hroom : (Counter.next^[k] .zero).isFull = false := by
        rw [← Bool.not_eq_true, isFull_iff, hshown]
        exact Nat.ne_of_lt hk
      rw [Function.iterate_succ_apply', shown_next hroom, hshown]

/-- Without checks any number of cursors can be opened on a collection: some
world is reached whose owner has the counter raised `count` times. -/
theorem Arrives.crowded (hw : Arrives .lax permits stack w)
    (hc : c.Fits w.forest) (count : Nat) :
    ∃ v, Arrives .lax permits stack v ∧ c.Fits v.forest
      ∧ c.items v.forest = c.items w.forest
      ∧ (v.forest.node c.owner).depth
        = Counter.next^[count] (w.forest.node c.owner).depth := by
  induction count with
  | zero => exact ⟨w, hw, hc, rfl, rfl⟩
  | succ count ih =>
      obtain ⟨v, hv, hfits, hitems, hdepth⟩ := ih
      have halike := v.alike_opened c (!(passes stack).contains c.owner)
      have hopened : (Deed.start c).run .lax (passes stack) v
          = v.opened c (!(passes stack).contains c.owner) := rfl
      refine ⟨_, hv.journeys (.start hfits), ?_⟩
      rw [hopened, Function.iterate_succ_apply', ← hdepth]
      refine ⟨hfits.alike halike,
        (slot_congr (halike.slots c.owner) c.slot).trans hitems, ?_⟩
      have hbegun := depth_beginTraversal hfits.alive c.owner
      rw [if_pos rfl] at hbegun
      exact (depth_holdAll [c.owner] c.owner).trans hbegun

/-- Where the counter of an owner is full, an empty collection is filtered
without checks: in the end the counter shows nothing. -/
private theorem Arrives.lost_of_full (hw : Arrives .lax permits stack w)
    (hc : c.Fits w.forest) (hempty : c.items w.forest = [])
    (hfull : (w.forest.node c.owner).depth.shown = UInt32.size - 1) :
    ∃ h, (c.removeAll .lax judge (w.forest.hold c.owner, st)).mapState
        Prod.fst = .ok 0 h
      ∧ (h.node c.owner).depth.shown = 0 := by
  have hnone : c.length (w.forest.hold c.owner) = 0 :=
    congrArg List.length ((slot_congr
      ((alike_hold c.owner).slots c.owner) c.slot).trans hempty)
  obtain ⟨_, _, _, hsifts, -⟩ := removeAll_unguarded .lax c judge st
    (rfl : (w.forest.hold c.owner).isGuarded .lax c.owner = false)
  rw [hnone] at hsifts
  obtain ⟨hcalls, -⟩ := hsifts.eq_of_zero
  obtain ⟨pass, stopped, g, h, hend, -⟩ :=
    @World.Tallied.closing .lax w σ c judge st (fun _ => w.walks) _ _
      hw.tallied hc rfl rfl fun k j hj => by
        rw [hcalls] at hj
        cases hj
  have hsifts := hend.sifts
  rw [hnone] at hsifts
  obtain ⟨-, rfl, rfl, rfl⟩ := hsifts.eq_of_zero
  refine ⟨h, (hend.finished rfl).1, ?_⟩
  cases halive : h.isAlive c.owner with
  | false =>
      rw [node_of_not_alive h halive]
      rfl
  | true =>
      have hheld : ((w.forest.hold c.owner).node c.owner).depth
          = (w.forest.node c.owner).depth := depth_holdAll [c.owner] c.owner
      have hspent : (w.forest.node c.owner).depth.isFull = true := by
        rw [Counter.isFull_iff, hfull]
        rfl
      rw [hend.closes.depth halive, if_pos rfl, Counter.shown_prev,
        depth_beginTraversal ((isAlive_hold ..).trans hc.alive), if_pos rfl,
        hheld, Counter.shown_next_of_full hspent]

/-- A judge that closes a cursor, and rejects what it is shown. -/
def Collection.leavingJudge (checks : Checks) (cursor : Cursor) :
    Judge Unit := fun _ s =>
  match cursor.close checks s.1 with
  | .ok _ f => .ok true (f, s.2)
  | .stop why f => .stop why (f, s.2)

/-- Two ways for a traversal to be counted wrongly when a filtering ends.
With checks on, somebody ended the traversal of an open cursor by notice,
and a call closes the cursor: the end of the pass breaks off. Without
checks, there are as many cursors as the counter can show: it shows nothing
after the pass, though none was closed. -/
theorem Arrives.ends_uncounted :
    let c : Collection := ⟨⟨0⟩, 0⟩
    (let ops : List Operation :=
      [.create .block .none, .hold ⟨0⟩, .create .nop .none, .hold ⟨1⟩,
        .change c (.add ⟨1⟩), .openCursor c]
    let notice : Operation := .notify ⟨0⟩ .endTraversal
    let f := (notice.run .strict (played .strict ops ∅)).state
    let judge := leavingJudge .strict ⟨c, .notStarted⟩
    Runs .strict (fun _ _ _ _ => True) [] ∅ f
      ∧ (c.removalCalls .strict judge (f.hold ⟨0⟩, ())).map
        (fun j => (j.node, j.rejects)) = [(⟨1⟩, true)]
      ∧ ∃ g, c.removeAll .strict judge (f.hold ⟨0⟩, ())
        = .stop (.panic (.unbalancedTraversal .block)) g)
    ∧ ∃ w h, Arrives .lax Touring [] w
      ∧ (w.forest.node ⟨0⟩).depth.shown = UInt32.size - 1
      ∧ (c.removeAll .lax (fun _ s => .ok false s)
          (w.forest.hold ⟨0⟩, ())).mapState Prod.fst = .ok 0 h
      ∧ (h.node ⟨0⟩).depth.shown = 0 := by
  intro c
  constructor
  · intro ops notice f judge
    have hplays : Plays .strict (fun _ _ => true) [] ops ∅ := by
      decide +kernel
    refine ⟨?_, by decide +kernel, (c.removeAll .strict judge
      (f.hold ⟨0⟩, ())).state, by decide +kernel⟩
    have hready : notice.Ready [] (played .strict ops ∅) := by
      decide +kernel
    exact (hplays.runs (fun _ _ => trivial) .refl).step hready
      (fun j hj => by cases hj) trivial
  · have hallows : World.Allows .lax
        [.act (.create .block .none), .act (.hold ⟨0⟩)] ⟨∅, []⟩ := by
      decide +kernel
    have hblock : Arrives .lax Touring [] _ := .here (.of_allows hallows)
    obtain ⟨w, hw, hc, hitems, hdepth⟩ :=
      hblock.crowded (c := c) (by decide +kernel) (UInt32.size - 1)
    have hempty : c.items w.forest = [] := hitems.trans (by decide +kernel)
    have hshown : (w.forest.node ⟨0⟩).depth.shown = UInt32.size - 1 := by
      rw [hdepth]
      exact Counter.shown_iterate_next (Nat.sub_lt (by decide) one_pos)
    obtain ⟨h, hout, hclosed⟩ := hw.lost_of_full hc hempty hshown
    exact ⟨w, h, hw, hshown, hout, hclosed⟩

end InstructionTree
