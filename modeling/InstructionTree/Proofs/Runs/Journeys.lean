/-
Journeys: whatever clients may do, with checks or without.

The operations of a journey leave the count of traversals alone
(`Operation.steady`); an owner may be told of children that it does not
have. What else a journey may consist of is the business of `permits`,
which sees every operation and every filtering, where it started and how
it ended, on all levels. There are no other assumptions: a judge may open
and close cursors, filter in turn, and give up where it likes.

`Within` are the worlds that are seen on journeys from a world, those in
the middle of a filtering included: the calls before the current one have
ended, and the current one has come that far. Who `Arrives` somewhere
began with nothing. Clients that give no notice of their own are
`Touring`.
-/
import InstructionTree.Proofs.Runs.Worlds

namespace InstructionTree

open Forest Collection

variable {checks : Checks} {locks : List NodeId} {f : Forest}
  {op : Operation}

-- =================================================== steady operations

namespace Operation

/-- Whether the operation makes no calls, and neither begins nor ends a
traversal. -/
def steady : Operation → Bool
  | removeAll .. | openCursor _ | closeCursor _
  | notify _ .beginTraversal | notify _ .endTraversal => false
  | _ => true

theorem steady_of_single (hop : op.single = true) : op.steady = true := by
  cases op with
  | removeAll | openCursor | closeCursor | notify => cases hop
  | _ => rfl

theorem unfiltered_of_steady (hop : op.steady = true) :
    op.filters = false := by
  cases op with
  | removeAll => cases hop
  | _ => rfl

end Operation

-- ================================================================ journeys

namespace Deed

/-- The client can do this, while `locks` are held. -/
def Feasible (locks : List NodeId) (w : World) : Deed → Prop
  | act op => op.steady = true ∧ op.Ready (w.owners ++ locks) w.forest
  | start c => c.Fits w.forest
  | next _ | reset _ | close _ => True

/-- The client may do this, as far as `permits` is concerned. -/
def Permitted (checks : Checks) (permits : Permit) (locks : List NodeId)
    (w : World) : Deed → Prop
  | act op => permits (w.owners ++ locks) op w.forest
      (op.run checks w.forest)
  | start _ | next _ | reset _ | close _ => True

end Deed

/-- What happens to a world while the filterings of `stack` are under
way. -/
inductive Journeys (checks : Checks) (permits : Permit) :
    List Frame → World → World → Prop where
  | refl {stack : List Frame} {w : World} : Journeys checks permits stack w w
  | step {stack : List Frame} {w v : World} {deed : Deed}
      (hwv : Journeys checks permits stack w v)
      (hfeasible : deed.Feasible (kept stack) v)
      (hpermit : deed.Permitted checks permits (kept stack) v) :
      Journeys checks permits stack w (deed.run checks (passes stack) v)
  /-- A collection is filtered; call `k` begins with the cursors
  `walks k`. -/
  | filter {stack : List Frame} {w v : World} {σ : Type} {c : Collection}
      {judge : Judge σ} {st : σ} {walks : Nat → List Walk}
      (hwv : Journeys checks permits stack w v) (hc : c.Fits v.forest)
      (hwalks : walks 0 = v.walks)
      (hcalls : ∀ k j, (c.removalCalls checks judge
          (v.forest.hold c.owner, st))[k]? = some j →
        Journeys checks permits (⟨c.owner, j.node⟩ :: stack)
          ⟨j.before, walks k⟩ ⟨j.after, walks (k + 1)⟩)
      (hpermit : permits (v.owners ++ kept stack) (.removeAll c judge st)
        v.forest ((Operation.removeAll c judge st).run checks v.forest)) :
      Journeys checks permits stack w
        ⟨((Operation.removeAll c judge st).run checks v.forest).state,
          walks (c.removalCalls checks judge
            (v.forest.hold c.owner, st)).length⟩

/-- The worlds that are seen on journeys from `u`, while the filterings of
`stack` are under way. -/
inductive Within (checks : Checks) (permits : Permit) (stack : List Frame)
    (u : World) : List Frame → World → Prop where
  | here {w : World} (hw : Journeys checks permits stack u w) :
      Within checks permits stack u stack w
  /-- In call `k` of a filtering. -/
  | call {frames : List Frame} {v w : World} {σ : Type} {c : Collection}
      {judge : Judge σ} {st : σ} {walks : Nat → List Walk} {k : Nat}
      {j : Judgement} (hv : Within checks permits stack u frames v)
      (hc : c.Fits v.forest) (hwalks : walks 0 = v.walks)
      (hcalls : ∀ i j, i < k → (c.removalCalls checks judge
          (v.forest.hold c.owner, st))[i]? = some j →
        Journeys checks permits (⟨c.owner, j.node⟩ :: frames)
          ⟨j.before, walks i⟩ ⟨j.after, walks (i + 1)⟩)
      (hj : (c.removalCalls checks judge
        (v.forest.hold c.owner, st))[k]? = some j)
      (hw : Journeys checks permits (⟨c.owner, j.node⟩ :: frames)
        ⟨j.before, walks k⟩ w) :
      Within checks permits stack u (⟨c.owner, j.node⟩ :: frames) w

/-- The worlds at which journeys from nothing arrive, in the calls on `stack`.
-/
abbrev Arrives (checks : Checks) (permits : Permit) :
    List Frame → World → Prop :=
  Within checks permits [] ⟨∅, []⟩

theorem Journeys.trans {permits : Permit} {stack : List Frame}
    {u w v : World} (huw : Journeys checks permits stack u w)
    (hwv : Journeys checks permits stack w v) :
    Journeys checks permits stack u v := by
  induction hwv with
  | refl => exact huw
  | step _ hfeasible hpermit ih => exact (ih huw).step hfeasible hpermit
  | filter _ hc hwalks hcalls hpermit ih _ =>
      exact (ih huw).filter hc hwalks hcalls hpermit

/-- Opening a cursor on any collection that fits is a journey of one deed. -/
theorem Journeys.start {permits : Permit} {stack : List Frame}
    {walks : List Walk} {c : Collection} (hc : c.Fits f) :
    Journeys checks permits stack ⟨f, walks⟩
      ((Deed.start c).run checks (passes stack) ⟨f, walks⟩) :=
  Journeys.refl.step (hc : (Deed.start c).Feasible (kept stack) ⟨f, walks⟩)
    trivial

/-- Who has arrived `Within` some calls can go on from there by `Journeys` in
the innermost of them. -/
theorem Within.journeys {permits : Permit} {stack frames : List Frame}
    {u w v : World} (hw : Within checks permits stack u frames w)
    (hwv : Journeys checks permits frames w v) :
    Within checks permits stack u frames v := by
  cases hw with
  | here hw => exact .here (hw.trans hwv)
  | call hv hc hwalks hcalls hj hw =>
      exact .call hv hc hwalks hcalls hj (hw.trans hwv)

/-- The permit of operations that filter or are `single`: no notices, and no
traversals but those of cursors and passes. -/
def Touring : Permit := fun _ op _ _ => op.filters = true ∨ op.single = true

-- ================================================================== listed

/-- Whether the deed is done in `w` without a fault or a panic. -/
def Deed.done (checks : Checks) (w : World) : Deed → Bool
  | act op => decide (op.run checks w.forest
      = .ok () (op.run checks w.forest).state)
  | start _ | next _ | reset _ | close _ => true

/-- `permits` allows each of the deeds in the world where its turn comes,
outside of all filterings. -/
def World.Grants (checks : Checks) (permits : Permit) :
    List Deed → World → Prop
  | [], _ => True
  | deed :: rest, w => deed.Permitted checks permits [] w
      ∧ World.Grants checks permits rest (deed.run checks [] w)

/-- Whether each of the deeds is `done` in the world where its turn comes,
outside of all filterings. -/
def World.finishes (checks : Checks) : List Deed → World → Bool
  | [], _ => true
  | deed :: rest, w => deed.done checks w
      && World.finishes checks rest (deed.run checks [] w)

theorem Deed.Ready.feasible {locks : List NodeId} {w : World}
    {deed : Deed} (hready : deed.Ready locks w) : deed.Feasible locks w := by
  cases deed with
  | act op => exact ⟨op.steady_of_single hready.1, hready.2⟩
  | start c => exact hready
  | next | reset | close => trivial

/-- Deeds that the client may do one after the other, each permitted, make a
journey. -/
theorem Journeys.after {permits : Permit} {deeds : List Deed} {w v : World}
    (hwv : Journeys checks permits [] w v) (hall : v.Allows checks deeds)
    (hpermits : v.Grants checks permits deeds) :
    Journeys checks permits [] w (v.after checks deeds) := by
  induction deeds generalizing v with
  | nil => exact hwv
  | cons deed rest ih =>
      exact ih (hwv.step hall.1.feasible hpermits.1) hall.2 hpermits.2

/-- So are deeds in which nothing stops the client, wherever the success
of such operations is permitted. -/
theorem Journeys.of_finishes {permits : Permit} {deeds : List Deed}
    {w : World}
    (hpermits : ∀ locks op f g, op.single = true →
      permits locks op f (.ok () g))
    (hall : w.Allows checks deeds) (hdone : w.finishes checks deeds = true) :
    Journeys checks permits [] w (w.after checks deeds) := by
  refine Journeys.refl.after hall ?_
  induction deeds generalizing w with
  | nil => trivial
  | cons deed rest ih =>
      rw [World.finishes, Bool.and_eq_true] at hdone
      refine ⟨?_, ih hall.2 hdone.2⟩
      cases deed with
      | act op =>
          have hrun := of_decide_eq_true hdone.1
          rw [Deed.Permitted, hrun]
          exact hpermits _ _ _ _ hall.1.1
      | start | next | reset | close => trivial

/-- Deeds that the client may do one after the other make a `Touring` journey.
-/
theorem Journeys.of_allows {deeds : List Deed} {w : World}
    (hall : w.Allows checks deeds) :
    Journeys checks Touring [] w (w.after checks deeds) := by
  refine Journeys.refl.after hall ?_
  induction deeds generalizing w with
  | nil => trivial
  | cons deed rest ih =>
      refine ⟨?_, ih hall.2⟩
      cases deed with
      | act op => exact .inr hall.1.1
      | start | next | reset | close => trivial

end InstructionTree
