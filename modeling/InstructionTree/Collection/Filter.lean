/-
Filtering a collection in place, in one forward pass.

`removeAll` shows every element to a judge, in order, and removes those
the judge rejects. The judge is a program: it may keep a state of its own
beside the forest, edit the forest, and stop early. The pass counts as a
traversal of the owner while it runs.

# Zones

A `Pass` splits the elements seen so far in two. Indices below `kept` hold
survivors, in order. Indices from `kept` up to `judged` hold rejected
elements, which are detached already but still stored, so the collection
keeps its length until the pass ends. From `judged` on nothing was touched.

# How a pass ends

However the judging ended, `Pass.finish` removes the rejected zone, moves
the rest to the left, closes the traversal, and commits if an element was
rejected. Then an early stop of the judge continues. All bounds are cut
to the elements that are stored at that moment, because a judge that no
guard stops may have changed their number.
-/
import InstructionTree.Collection.Edit

namespace InstructionTree.Collection

/-- How far a filtering pass has come. -/
structure Pass where
  /-- How many elements survived. -/
  kept : Nat
  /-- How many elements were judged. -/
  judged : Nat
  /-- How many elements were rejected. -/
  rejected : Nat
deriving DecidableEq, Repr

/-- A program that decides whether to reject a node, on a forest and a
state of its own. -/
abbrev Judge (σ : Type) := NodeId → Forest × σ → Outcome (Forest × σ) Bool

variable (checks : Checks) (c : Collection)

-- ========================================================== one verdict

/-- Rejects the element that was just judged. -/
def reject (n : NodeId) (pass : Pass) (f : Forest) : Pass × Forest :=
  ({ pass with judged := pass.judged + 1, rejected := pass.rejected + 1 },
   f.detach c.owner n)

/-- Keeps the element that was just judged: its cached place moves to the
next free index of the survivors, and it changes places with the element
stored there. If one of the two indices is gone, the exchange fails after
the cached place was moved. -/
def keep (n : NodeId) (pass : Pass) (f : Forest) : Option Pass × Forest :=
  let f := c.renumber f pass.judged pass.kept n
  let items := c.items f
  match items[pass.kept]?, items[pass.judged]? with
  | some first, some second =>
      (some { pass with kept := pass.kept + 1, judged := pass.judged + 1 },
       c.setItems f ((items.set pass.kept second).set pass.judged first))
  | _, _ => (none, f)

-- ============================================================= the pass

/-- Judges at most `count` further elements. Answers how far the pass came
and what stopped it early, if anything. The element under judgement is
kept alive until its verdict is carried out. -/
def sift (judge : Judge σ) :
    Nat → Pass → Forest × σ → (Pass × Option Stop) × (Forest × σ)
  | 0, pass, s => ((pass, none), s)
  | count + 1, pass, (f, st) =>
      match (c.items f)[pass.judged]? with
      | none => ((pass, none), (f, st))
      | some n =>
          match judge n (f.hold n, st) with
          | .stop why (f, st) => ((pass, some why), (f.release n, st))
          | .ok true (f, st) =>
              let (pass, f) := c.reject n pass f
              sift judge count pass (f.release n, st)
          | .ok false (f, st) =>
              match c.keep n pass f with
              | (some pass, f) => sift judge count pass (f.release n, st)
              | (none, f) =>
                  ((pass, some (.panic .noSuchElement)), (f.release n, st))

/-- Removes the rejected zone and renumbers what follows it. -/
def Pass.compact (pass : Pass) (f : Forest) : Forest :=
  let items := c.items f
  let stop := min pass.judged items.length
  let start := min pass.kept stop
  let shift := stop - start
  let tail := items.drop stop
  let f := c.setItems f (items.take start ++ tail)
  let f := f.reapAll ((items.drop start).take shift)
  if shift = 0 then f
  else c.renumberFrom (fun j => j + shift) start tail f

/-- Ends a pass: compacts, closes its traversal, and commits if an element
was rejected. -/
def Pass.finish (pass : Pass) : Edit Unit := fun f =>
  (Forest.endTraversal checks c.owner (pass.compact c f)).next fun f =>
    if pass.rejected = 0 then f else f.commit c.owner

/-- Removes every element that `judge` rejects, and answers how many these
were. Each of the elements at the start is judged at most once. If the
judge stopped the pass early, that is how the whole ends. With checks on,
the pass begins where no traversal is open, so its own finds room on the
counter. -/
def removeAll (judge : Judge σ) (s : Forest × σ) : Outcome (Forest × σ) Nat :=
  match Forest.requireUntraversed checks c.owner s.1 with
  | .stop why f => .stop why (f, s.2)
  | .ok () f =>
      let ((pass, stopped), (f, st)) :=
        c.sift judge (c.length f) ⟨0, 0, 0⟩ (f.beginTraversal c.owner, s.2)
      match stopped, pass.finish checks c f with
      | some why, ended => .stop why (ended.state, st)
      | none, .ok () f => .ok pass.rejected (f, st)
      | none, .stop why f => .stop why (f, st)

end InstructionTree.Collection
