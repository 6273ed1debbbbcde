/-
Runs of listed operations.

Whether operations can be made one after the other, and what they leave,
can be computed as long as none of them calls a judge. `Plays` is that
computation. The permits of the other modules speak of all nodes; here
they follow from checks of the identities that were handed out.
-/
import InstructionTree.Proofs.Runs.Plain

namespace InstructionTree

open Forest

variable {checks : Checks} {locks : List NodeId} {op : Operation}
  {ops : List Operation} {f g : Forest}

-- ============================================================= readiness

instance Collection.decidableFits (c : Collection) (f : Forest) :
    Decidable (c.Fits f) :=
  decidable_of_iff
    (((f.node c.owner).opcode.slot? c.slot).any Slot.isCollection = true)
    (Option.any_eq_true ..)

instance Forest.decidableReferenced (f : Forest) (ns : List NodeId) :
    Decidable (f.Referenced ns) :=
  inferInstanceAs (Decidable (∀ n ∈ ns, 0 < (f.node n).handles))

namespace Operation

instance decidableReady (locks : List NodeId) (f : Forest) :
    ∀ op : Operation, Decidable (op.Ready locks f)
  | create .. => .isTrue trivial
  | build _ _ ns =>
      inferInstanceAs (Decidable (∀ n ∈ ns, f.isAlive n = true))
  | drop n =>
      inferInstanceAs (Decidable (locks.count n < (f.node n).handles))
  | hold n | setOperand n _ | flags n | removeFromParent n =>
      inferInstanceAs (Decidable (f.isAlive n = true))
  | setSlotChild n _ child =>
      inferInstanceAs (Decidable
        (f.isAlive n = true ∧ ∀ c ∈ child, f.isAlive c = true))
  | setChild n _ m | replaceWith n m =>
      inferInstanceAs (Decidable
        (f.isAlive n = true ∧ f.isAlive m = true))
  | change c ch =>
      inferInstanceAs (Decidable
        (c.Fits f ∧ ∀ n ∈ ch.nodes, f.isAlive n = true))
  | removeAll c _ _ | openCursor c => c.decidableFits f
  | closeCursor cursor => cursor.collection.decidableFits f
  | replaceCurrent cursor n =>
      inferInstanceAs (Decidable
        (cursor.collection.Fits f ∧ f.isAlive n = true))
  | notify o r =>
      inferInstanceAs (Decidable
        (f.isAlive o = true ∧ ∀ n ∈ r.nodes, f.isAlive n = true))

/-- Whether the operation is a bare notice. -/
def notifies : Operation → Bool
  | notify .. => true
  | _ => false

end Operation

-- =============================================================== playing

/-- An operation that is ready and succeeds, and is neither a filtering nor a
bare notice. -/
structure Operation.Simple (checks : Checks) (locks : List NodeId)
    (op : Operation) (f : Forest) : Prop where
  ready : op.Ready locks f
  unfiltered : op.filters = false
  unforced : op.notifies = false
  done : op.run checks f = .ok () (op.run checks f).state

instance Operation.decidableSimple (checks : Checks) (locks : List NodeId)
    (op : Operation) (f : Forest) : Decidable (op.Simple checks locks f) :=
  decidable_of_iff
    (op.Ready locks f ∧ op.filters = false ∧ op.notifies = false
      ∧ op.run checks f = .ok () (op.run checks f).state)
    ⟨fun h => ⟨h.1, h.2.1, h.2.2.1, h.2.2.2⟩,
      fun h => ⟨h.ready, h.unfiltered, h.unforced, h.done⟩⟩

/-- The forest after the operations `ops` were run in turn, each where the one
before it ended. -/
def played (checks : Checks) : List Operation → Forest → Forest
  | [], f => f
  | op :: rest, f => played checks rest (op.run checks f).state

/-- Each operation is `Simple` in the forest where its turn comes, and passes
`check` there. -/
def Plays (checks : Checks) (check : Operation → Forest → Bool)
    (locks : List NodeId) : List Operation → Forest → Prop
  | [], _ => True
  | op :: rest, f => (op.Simple checks locks f ∧ check op f = true)
      ∧ Plays checks check locks rest (op.run checks f).state

instance decidablePlays (checks : Checks)
    (check : Operation → Forest → Bool) (locks : List NodeId) :
    ∀ (ops : List Operation) (f : Forest),
      Decidable (Plays checks check locks ops f)
  | [], _ => .isTrue trivial
  | op :: rest, f =>
      have := decidablePlays checks check locks rest (op.run checks f).state
      inferInstanceAs (Decidable
        ((op.Simple checks locks f ∧ check op f = true)
          ∧ Plays checks check locks rest (op.run checks f).state))

/-- Operations that `Plays` allows make a run of `permits`, if what passes
`check` is permitted. -/
theorem Plays.runs {permits : Permit} {check : Operation → Forest → Bool}
    (hplays : Plays checks check locks ops g)
    (hpermits : ∀ {op f}, op.Simple checks locks f → check op f = true →
      permits locks op f (op.run checks f))
    (hfg : Runs checks permits locks f g) :
    Runs checks permits locks f (played checks ops g) := by
  induction ops generalizing g with
  | nil => exact hfg
  | cons op rest ih =>
      obtain ⟨⟨hsimple, hcheck⟩, hrest⟩ := hplays
      refine ih hrest (hfg.step hsimple.ready (fun j hj => ?_)
        (hpermits hsimple hcheck))
      rw [op.calls_eq_nil hsimple.unfiltered] at hj
      cases hj

-- =============================================================== permits

theorem Operation.Simple.not_notify (hop : op.Simple checks locks f)
    (o : NodeId) (r : Notice) : op ≠ .notify o r := by
  have hforced := hop.unforced
  rintro rfl
  cases hforced

theorem Operation.Simple.plain (hop : op.Simple checks [] f) :
    Plain [] op f (op.run checks f) where
  unforced := hop.not_notify
  unbroken _ p s h := by
    rw [hop.done] at h
    cases h
  quiet h := absurd rfl h

end InstructionTree
