/-
Edits whose elements the client hands out.

While a traversal of the owner is open the client is not asked for anything
(`draw_guarded`). Otherwise it is asked. Where its program stops, so does
the edit (`draw_stopped`); where that leaves no traversal of the owner open,
the edit is the one of a list that was at hand, made afterwards (`draw_eq`).
So a client whose programs leave none goes on a journey (`Journeys.draw`),
and all that is said of journeys holds of it.

A program that opens a cursor on the owner and leaves it open is another
matter: the guard was asked before, and the collection is edited under the
cursor (`Collection.draw_under_cursor`).
-/
import InstructionTree.Collection.Draw
import InstructionTree.Proofs.Runs.Journeys

namespace InstructionTree

open Forest Collection

variable {checks : Checks} {f g : Forest} {c : Collection} {σ : Type}
  {kind : Draw} {source : Source σ} {st st' : σ} {ns : List NodeId}

-- ================================================================== drawing

namespace Collection

/-- Where the guard of the owner is up, `draw` is refused and `source` is not
run: its state is what it was. -/
theorem draw_guarded (hguard : f.isGuarded checks c.owner = true) :
    c.draw checks kind source (f, st)
      = (refusal c.owner f).mapState fun g => (g, st) := by
  unfold draw requireUntraversed
  rw [guarded_of_guard _ hguard]
  rfl

/-- Where `source` stops, `draw` stops with the same reason in the same state,
and nothing is stored. -/
theorem draw_stopped {why : Stop} {s : Forest × σ}
    (hguard : f.isGuarded checks c.owner = false)
    (hsource : source (f, st) = .stop why s) :
    c.draw checks kind source (f, st) = .stop why s := by
  unfold draw requireUntraversed
  rw [guarded_of_open _ hguard]
  dsimp only
  rw [hsource]

/-- With the guard down, the change that `kind` makes of `ns` is `store`, and
its answer is `done`. -/
theorem apply_draw (hguard : f.isGuarded checks c.owner = false) :
    c.apply checks (kind.change ns) f
      = (c.store checks kind ns f).map fun _ => .done := by
  cases kind with
  | addRange | replaceList =>
      exact congrArg (Outcome.map _) (guarded_of_open _ hguard)

/-- Where the program leaves no traversal open, it is the edit of what was
handed out. -/
theorem draw_eq (hguard : f.isGuarded checks c.owner = false)
    (hsource : source (f, st) = .ok ns (g, st'))
    (hopen : g.isGuarded checks c.owner = false) :
    c.draw checks kind source (f, st)
      = ((Operation.change c (kind.change ns)).run checks g).mapState
        fun h => (h, st') := by
  have hkeeps : (Operation.change c (kind.change ns)).keeps
      = c.owner :: ns := by
    cases kind <;> rfl
  have hbody : (Operation.change c (kind.change ns)).body checks
      (g.holdAll (c.owner :: ns))
      = c.store checks kind ns (g.holdAll (c.owner :: ns)) := by
    have hopen' : (g.holdAll (c.owner :: ns)).isGuarded checks c.owner
        = false := (isGuarded_holdAll _ _).trans hopen
    simp only [Operation.body, apply_draw hopen']
    cases c.store checks kind ns (g.holdAll (c.owner :: ns)) <;> rfl
  unfold draw requireUntraversed
  rw [guarded_of_open _ hguard]
  dsimp only
  rw [hsource, Operation.run, hkeeps, hbody]

end Collection

/-- An edit that stores drawn nodes replaces no element. -/
theorem Operation.replacement?_draw (c : Collection) (kind : Draw)
    (ns : List NodeId) (f : Forest) :
    (Operation.change c (kind.change ns)).replacement? f = none := by
  cases kind <;> rfl

-- ================================================================= journeys

variable {permits : Permit} {stack : List Frame} {w u : World}
  {walks : List Walk}

/-- An edit of what the client hands out is a journey: that of the program,
and the edit. -/
theorem Journeys.draw (hwu : Journeys checks permits stack w u)
    (hguard : u.forest.isGuarded checks c.owner = false)
    (hsource : source (u.forest, st) = .ok ns (g, st'))
    (huv : Journeys checks permits stack u ⟨g, walks⟩)
    (hopen : g.isGuarded checks c.owner = false)
    (hready : (Operation.change c (kind.change ns)).Ready
      (World.owners ⟨g, walks⟩ ++ kept stack) g)
    (hpermit : permits (World.owners ⟨g, walks⟩ ++ kept stack)
      (.change c (kind.change ns)) g
      ((Operation.change c (kind.change ns)).run checks g)) :
    Journeys checks permits stack w
      ⟨(c.draw checks kind source (u.forest, st)).state.1, walks⟩ := by
  have hfeasible : (Deed.act (.change c (kind.change ns))).Feasible
      (kept stack) ⟨g, walks⟩ := ⟨rfl, hready⟩
  have hstep := (hwu.trans huv).step hfeasible hpermit
  have hsame : walks.map (Walk.replaced none) = walks := List.map_id _
  rw [Deed.run, Operation.replacement?_draw, hsame] at hstep
  rw [draw_eq hguard hsource hopen]
  cases hrun : (Operation.change c (kind.change ns)).run checks g <;>
    rw [hrun] at hstep <;> exact hstep

end InstructionTree
