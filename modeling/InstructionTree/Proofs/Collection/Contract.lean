/-
When an edit breaks off on the attach check.

An edit stores before it attaches, and what it stored stays if the check
fails. But storing and placing change no link (`Stores`), so the check sees
the way up that was there before the edit. Hence an edit that puts one node
somewhere breaks off exactly if letting that node enter would have broken
the tree in the first place.
-/
import InstructionTree.Proofs.Collection.Steps
import InstructionTree.Proofs.Forest.Operands

namespace InstructionTree

variable {checks : Checks} {f g h : Forest} {n : NodeId} {i : Nat}

-- ============================================================== breaking

/-- The program ended with `notATree`. -/
def Outcome.Broke {σ α : Type} (out : Outcome σ α) : Prop :=
  ∃ op s, out = .stop (.panic (.notATree op)) s

namespace Outcome

variable {σ α : Type} {out : Outcome σ α}

@[simp] theorem not_broke_ok (a : α) (s : σ) :
    ¬ (Outcome.ok a s).Broke := nofun

@[simp] theorem not_broke_fault (e : Fault) (s : σ) :
    ¬ (Outcome.stop (.fault e) s : Outcome σ α).Broke := nofun

/-- `Outcome.next` breaks off exactly if what it follows does. -/
theorem broke_next {k : σ → σ} : (out.next k).Broke ↔ out.Broke := by
  constructor
  · rintro ⟨op, s, hout⟩
    cases out with
    | ok => cases hout
    | stop why t =>
        cases hout
        exact ⟨op, _, rfl⟩
  · rintro ⟨op, s, rfl⟩
    exact ⟨op, s, rfl⟩

theorem broke_map {β : Type} {k : α → β} : (out.map k).Broke ↔ out.Broke := by
  constructor
  · rintro ⟨op, s, hout⟩
    exact ⟨op, s, map_eq_stop hout⟩
  · rintro ⟨op, s, rfl⟩
    exact ⟨op, s, rfl⟩

/-- `Outcome.always` breaks off exactly if what it follows does. -/
theorem broke_always {k : σ → σ} : (out.always k).Broke ↔ out.Broke := by
  constructor
  · rintro ⟨op, s, hout⟩
    cases out with
    | ok => cases hout
    | stop why t =>
        cases hout
        exact ⟨op, _, rfl⟩
  · rintro ⟨op, s, rfl⟩
    exact ⟨op, k s, rfl⟩

end Outcome

namespace Forest

/-- An attach breaks off exactly if `breaksTree` says so. -/
theorem broke_attach {o : NodeId} :
    (attach checks o n f).Broke ↔ f.breaksTree checks o n = true := by
  unfold attach
  split
  case isTrue hbreaks => exact ⟨fun _ => hbreaks, fun _ => ⟨_, _, rfl⟩⟩
  case isFalse hfine =>
    refine ⟨?_, fun hbreaks => absurd hbreaks hfine⟩
    rintro ⟨op, s, hout⟩
    cases hout

/-- The two forests have the same records but for slots and positions. -/
structure Stores (f g : Forest) : Prop where
  size : g.size = f.size
  alive : ∀ n, g.isAlive n = f.isAlive n
  link : ∀ n, (g.node n).link = (f.node n).link

namespace Stores

theorem trans (hfg : Stores f g) (hgh : Stores g h) : Stores f h where
  size := hgh.size.trans hfg.size
  alive n := (hgh.alive n).trans (hfg.alive n)
  link n := (hgh.link n).trans (hfg.link n)

theorem setPosition (f : Forest) (m : NodeId) (k : Nat) :
    Stores f (f.setPosition m k) :=
  ⟨size_setPosition .., isAlive_setPosition f m k, link_setPosition f m k⟩

theorem setSlot (f : Forest) (m : NodeId) (j : Nat) (items : List NodeId) :
    Stores f (f.setSlot m j items) :=
  ⟨size_setSlot .., isAlive_setSlot f m j items, link_setSlot f m j items⟩

/-- Forests that differ by `Stores` have the same `parent?`. -/
theorem parent? (hfg : Stores f g) (m : NodeId) :
    g.parent? m = f.parent? m := by
  unfold Forest.parent?
  rw [hfg.link m, funext hfg.alive]

/-- Forests that differ by `Stores` have the same `breaksTree`. -/
theorem breaksTree (hfg : Stores f g) (o n : NodeId) :
    g.breaksTree checks o n = f.breaksTree checks o n := by
  have hways : ∀ (steps : Nat) (m : NodeId),
      g.ancestorsWithin steps m = f.ancestorsWithin steps m := by
    intro steps
    induction steps with
    | zero => exact fun _ => rfl
    | succ steps ih =>
        intro m
        unfold ancestorsWithin
        rw [hfg.parent? m]
        cases f.parent? m with
        | none => rfl
        | some p => exact congrArg (p :: ·) (ih p)
  unfold Forest.breaksTree isDescendantOf ancestors
  rw [hfg.size, hways]

end Stores

/-- `setSlotChild` to a node that the slot does not hold breaks off exactly if
`breaksTree` finds it. -/
theorem broke_setSlotChild {o : NodeId}
    (hslot : f.checkOperandSlot o i = .ok ())
    (hother : (f.slot o i).head? ≠ some n) :
    (setSlotChild checks o i (some n) f).Broke
      ↔ f.breaksTree checks o n = true := by
  unfold setSlotChild
  rw [hslot]
  dsimp only
  rw [if_neg hother, Outcome.broke_always, Outcome.broke_next]
  have hstores : Stores f (f.slotAssigned o i (some n)) :=
    (Stores.setPosition f n i).trans (.setSlot _ o i [n])
  exact broke_attach.trans (by rw [hstores.breaksTree])

end Forest

open Forest

namespace Collection

variable {c : Collection}

/-- `place` and `setItems` are `Stores`. -/
theorem stores_stored (items : List NodeId) :
    Stores f (c.setItems (c.place f i n) items) :=
  (Stores.setPosition f n _).trans (.setSlot _ _ _ _)

theorem stores_inserted : Stores f (c.inserted f i n) := by
  have hstored := stores_stored (c := c) (f := f) (n := n) (i := i)
    ((c.items f).insertIdx i n)
  generalize hg : c.setItems (c.place f i n) ((c.items f).insertIdx i n) = g
    at hstored
  have hrest : Stores g (c.renumberFrom (fun j => j - 1) (i + 1)
      ((c.items f).drop i) g) := by
    have htouches : Touches .lax c.owner g
        (c.renumberFrom (fun j => j - 1) (i + 1) ((c.items f).drop i) g) :=
      touches_renumberFrom ..
    exact ⟨htouches.size_eq, fun m => isAlive_renumberFrom ..,
      fun m => link_renumberFrom ..⟩
  rw [inserted, hg]
  exact hstored.trans hrest

section

variable (hopen : f.isGuarded checks c.owner = false)
include hopen

/-- `add` breaks off exactly if `breaksTree` finds the node. -/
theorem broke_add :
    (c.add checks n f).Broke ↔ f.breaksTree checks c.owner n = true := by
  unfold add guarded
  rw [hopen]
  simp only [Bool.false_eq_true, if_false]
  rw [Outcome.broke_next, broke_attach, pushed,
    (stores_stored _).breaksTree]

/-- `insert` at an index up to the length breaks off exactly if `breaksTree`
finds the node. -/
theorem broke_insert (hi : i ≤ c.length f) :
    (c.insert checks i n f).Broke
      ↔ f.breaksTree checks c.owner n = true := by
  unfold insert guarded
  rw [hopen]
  simp only [Bool.false_eq_true, if_false]
  rw [if_neg (Nat.not_lt.mpr hi), Outcome.broke_next, broke_attach,
    stores_inserted.breaksTree]

end

/-- `set` to another node breaks off exactly if `breaksTree` finds the node. -/
theorem broke_set {old : NodeId} (hold : (c.items f)[i]? = some old)
    (hother : old ≠ n) :
    (c.set checks i n f).Broke
      ↔ f.breaksTree checks c.owner n = true := by
  unfold set
  rw [hold]
  dsimp only
  rw [if_neg hother, Outcome.broke_always, Outcome.broke_next, broke_attach,
    overwritten, (stores_stored _).breaksTree]

end Collection

end InstructionTree
