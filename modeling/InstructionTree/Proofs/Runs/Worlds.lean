/-
Clients that walk collections while they edit.

A client may have any number of cursors open, and do anything in between
their steps. A `World` is a forest together with the cursors that are open
on it. A cursor is opened once and closed once, by whoever has it, and it
keeps the owner of its collection alive. A client does one thing after
the other (`Deed`), or filters a collection, and in the calls of a
filtering it does so again.

# What a cursor has seen

Each open cursor carries its history (`Walk`): the elements when it was
opened, the same with all replacements that were made since, and how often
it was asked for the next element. Nothing that happens looks at the
history.

# In the middle of a filtering

The filterings under way are a stack of `Frame`s, one for each call that
has not ended: the owner that is filtered, and the element that is judged.
Both are kept alive until the call has ended.
-/
import InstructionTree.Proofs.Runs.Guarded
import InstructionTree.Proofs.Runs.Listed

namespace InstructionTree

open Forest Collection

-- =================================================================== worlds

/-- A cursor that is open, with the history of its collection since it was
opened. -/
structure Walk where
  cursor : Cursor
  /-- The elements when it was opened. -/
  opened : List NodeId
  /-- The same elements with all replacements since. -/
  stored : List NodeId
  /-- How often it was asked for the next element. -/
  asked : Nat
  /-- Whether it was opened while its owner was not being filtered. -/
  free : Bool
deriving DecidableEq

namespace Walk

/-- The collection that is walked. -/
abbrev collection (x : Walk) : Collection := x.cursor.collection

/-- The owner that is traversed. -/
abbrev owner (x : Walk) : NodeId := x.collection.owner

/-- The walk of a cursor that was just opened on `c` in `f`. -/
def start (c : Collection) (free : Bool) (f : Forest) : Walk :=
  ⟨(Cursor.start c f).1, c.items f, c.items f, 0, free⟩

/-- The walk after its cursor was asked for the next element in `f`. -/
def next (f : Forest) (x : Walk) : Walk :=
  { x with cursor := (x.cursor.next f).2, asked := x.asked + 1 }

/-- The walk after its cursor was asked to go back, which fails with checks on.
-/
def reset (checks : Checks) (x : Walk) : Walk :=
  { x with cursor := (x.cursor.reset checks).toOption.getD x.cursor }

/-- The walk with the replacement `r` recorded in `stored`, if it is in the
collection. -/
def replaced (r : Option Replacement) (x : Walk) : Walk :=
  { x with stored := Replacement.stored x.collection x.stored r }

end Walk

/-- A forest, and the walks of the cursors that are open on it. -/
structure World where
  forest : Forest
  walks : List Walk

/-- The owners that cursors keep alive. -/
def World.owners (w : World) : List NodeId := w.walks.map Walk.owner

/-- The world with `k` applied to the walk at index `i`, if there is one. -/
def World.move (w : World) (i : Nat) (k : Walk → Walk) : World :=
  match w.walks[i]? with
  | none => w
  | some x => { w with walks := w.walks.set i (k x) }

/-- The world after the cursor at index `i` was closed, and its owner released.
-/
def World.close (checks : Checks) (w : World) (i : Nat) : World :=
  match w.walks[i]? with
  | none => w
  | some x => ⟨(x.cursor.close checks w.forest).state.release x.owner,
      w.walks.eraseIdx i⟩

/-- The world with a new walk on `c`, whose owner is held. -/
def World.opened (w : World) (c : Collection) (free : Bool) : World :=
  ⟨(Cursor.start c w.forest).2.hold c.owner,
    w.walks ++ [Walk.start c free w.forest]⟩

/-- A call of a filtering: the owner that is filtered, and the element
under judgement. -/
structure Frame where
  owner : NodeId
  node : NodeId

/-- The owners that are being filtered. -/
def passes (stack : List Frame) : List NodeId := stack.map Frame.owner

/-- What the filterings under way keep alive. -/
def kept (stack : List Frame) : List NodeId :=
  stack.flatMap fun frame => [frame.node, frame.owner]

-- ==================================================================== deeds

/-- One step of a client outside of filterings. -/
inductive Deed : Type 1 where
  /-- An operation that calls nobody. -/
  | act (op : Operation)
  /-- Opens a cursor. -/
  | start (c : Collection)
  /-- Asks a cursor for the next element. -/
  | next (i : Nat)
  /-- Asks a cursor to go back. -/
  | reset (i : Nat)
  /-- Closes a cursor. -/
  | close (i : Nat)

namespace Deed

/-- What it does, while the owners `busy` are being filtered. -/
def run (checks : Checks) (busy : List NodeId) : Deed → World → World
  | act op, w => ⟨(op.run checks w.forest).state,
      w.walks.map (Walk.replaced (op.replacement? w.forest))⟩
  | start c, w =>
      match Cursor.opening checks c w.forest with
      | .stop _ f => ⟨f, w.walks⟩
      | .ok _ _ => w.opened c (!busy.contains c.owner)
  | next i, w => w.move i (Walk.next w.forest)
  | reset i, w => w.move i (Walk.reset checks)
  | close i, w => w.close checks i

/-- The client can do this, while `locks` are held. -/
def Ready (locks : List NodeId) (w : World) : Deed → Prop
  | act op => op.single = true ∧ op.Ready (w.owners ++ locks) w.forest
  | start c => c.Fits w.forest
  | next _ | reset _ | close _ => True

/-- A cursor is opened where the counter of its owner has room for it.
Otherwise nothing happens. -/
theorem run_start_with {checks : Checks} {busy : List NodeId}
    {c : Collection} {w : World} {P : World → Prop} (hidle : P w)
    (hopened : w.forest.isSpent checks c.owner = false →
      P (w.opened c (!busy.contains c.owner))) :
    P ((start c).run checks busy w) := by
  rw [run, Cursor.opening, Forest.unlessSpent]
  cases hspent : w.forest.isSpent checks c.owner with
  | true => exact hidle
  | false => exact hopened hspent

end Deed

-- ================================================================== listed

instance Deed.decidableReady (locks : List NodeId) (w : World) :
    ∀ deed : Deed, Decidable (deed.Ready locks w)
  | act op => inferInstanceAs (Decidable
      (op.single = true ∧ op.Ready (w.owners ++ locks) w.forest))
  | start c => c.decidableFits w.forest
  | next _ | reset _ | close _ => .isTrue trivial

/-- The world after some deeds, done outside of all filterings. -/
def World.after (checks : Checks) : List Deed → World → World
  | [], w => w
  | deed :: rest, w => World.after checks rest (deed.run checks [] w)

/-- Each of the deeds is ready in the world where its turn comes. -/
def World.Allows (checks : Checks) : List Deed → World → Prop
  | [], _ => True
  | deed :: rest, w =>
      deed.Ready [] w ∧ World.Allows checks rest (deed.run checks [] w)

instance World.decidableAllows (checks : Checks) :
    ∀ (deeds : List Deed) (w : World), Decidable (w.Allows checks deeds)
  | [], _ => .isTrue trivial
  | deed :: rest, w =>
      have := World.decidableAllows checks rest (deed.run checks [] w)
      inferInstanceAs (Decidable
        (deed.Ready [] w ∧ World.Allows checks rest (deed.run checks [] w)))

end InstructionTree
