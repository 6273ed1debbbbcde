/-
Where the cached place of a node points after the node was put somewhere,
in every state that a client sees.

The links and places of the other nodes may be as stale as they like; what
is written for the node itself is all that counts. It is the index that
was asked for, but for an insertion at an index where the node is already
(`places_written`, `places_dragged`).
-/
import InstructionTree.Proofs.Collection.Inserting
import InstructionTree.Proofs.Runs.Seen

namespace InstructionTree

open Forest

variable {checks : Checks} {locks : List NodeId} {f g : Forest} {n : NodeId}

namespace Sees

variable {permits : Permit}

/-- After a node was added, exchanged for another one, assigned or
inserted, its parent is the owner and its cached place is the index that
was written; also where it occurs in the collection already. Only an
insertion at an index that holds the node already, as a child of the same
parent, moves the place on: to the last index of the run of the node that
was there. -/
theorem places_written (hf : Sees checks permits locks f) :
    (∀ (c : Collection) n g, c.Fits f → f.Referenced [c.owner, n] →
      c.add checks n f = .ok () g →
      g.parent? n = some c.owner
      ∧ (g.node n).position = c.base + c.length f)
    ∧ (∀ (c : Collection) i n g, c.Fits f → f.Referenced [c.owner, n] →
      c.set checks i n f = .ok () g → (c.items f)[i]? ≠ some n →
      g.parent? n = some c.owner ∧ (g.node n).position = c.base + i)
    ∧ (∀ o i n g, f.Referenced [o, n] →
      setSlotChild checks o i (some n) f = .ok () g →
      (f.slot o i).head? ≠ some n →
      g.parent? n = some o ∧ (g.node n).position = i)
    ∧ ∀ (c : Collection) i n g, c.Fits f → f.Referenced [c.owner, n] →
      c.insert checks i n f = .ok () g →
      g.parent? n = some c.owner
      ∧ (g.node n).position = c.base + (i + c.dragged f i n)
      ∧ (c.items g)[i + c.dragged f i n]? = some n
      ∧ ((g.node n).position = c.base + i
        ↔ f.parent? n ≠ some c.owner ∨ (c.items f)[i]? ≠ some n) := by
  refine ⟨fun c n g hc hheld hout => ?_,
    fun c i n g hc hheld hout hother => ?_,
    fun o i n g hheld hout hother => ?_, fun c i n g hc hheld hout => ?_⟩
  · obtain ⟨hs, ho, hn⟩ := hf.lock hheld
    have hcarried : Carried checks c.owner f (c.add checks n f) :=
      Collection.carried_add hs hc (hs.alive hn)
    have hs' : g.Sound checks _ := hcarried.sound_of_ok hs hout
    have hpoints := Collection.pointsTo_add (hs.alive hn) hout
    exact ⟨hpoints.parent (hs'.alive ho), hpoints.placed⟩
  · obtain ⟨hs, ho, hn⟩ := hf.lock hheld
    have hcarried : Carried checks c.owner f (c.set checks i n f) :=
      Collection.carried_set hs hc i (hs.alive hn)
    have hs' : g.Sound checks _ := hcarried.sound_of_ok hs hout
    have hpoints := Collection.pointsTo_set (hs.alive hn) hother
      (hs'.alive hn) hout
    exact ⟨hpoints.parent (hs'.alive ho), hpoints.placed⟩
  · obtain ⟨hs, ho, hn⟩ := hf.lock hheld
    have hcarried : Carried checks o f (setSlotChild checks o i (some n) f) :=
      carried_setSlotChild i (hs.alive ho) fun c hc =>
        Option.some.inj hc ▸ hs.alive hn
    have hs' : g.Sound checks _ := hcarried.sound_of_ok hs hout
    have hpoints := pointsTo_setSlotChild (hs.alive hn) hother (hs'.alive hn)
      hout
    exact ⟨hpoints.parent (hs'.alive ho), hpoints.placed⟩
  · obtain ⟨hs, ho, hn⟩ := hf.lock hheld
    have hcarried : Carried checks c.owner f (c.insert checks i n f) :=
      Collection.carried_insert hs hc i (hs.alive hn)
    have hs' : g.Sound checks _ := hcarried.sound_of_ok hs hout
    have hpoints := Collection.pointsTo_insert (hs.alive hn) hout
    have hitems : c.items g = (c.items f).insertIdx i n :=
      (Collection.exchange_insert hs hc (hs.alive hn) hout).account.slot_self
    refine ⟨hpoints.parent (hs'.alive ho), hpoints.placed, ?_, ?_⟩
    · rw [hitems]
      exact Collection.getElem?_dragged (Collection.insert_eq_ok hout).1
    · rw [hpoints.placed, ne_eq, parent?_eq_some_iff,
        and_iff_left hc.alive, ← Collection.dragged_eq_zero]
      omega

/-- A node that a block holds already, inserted before another one: its
place is the index of the new occurrence. -/
theorem places_written_of_twice :
    let c : Collection := ⟨⟨0⟩, 0⟩
    let ops : List Operation :=
      [.create .block .none, .hold ⟨0⟩, .create .nop .none, .hold ⟨1⟩,
        .create .nop .none, .hold ⟨2⟩, .change c (.addRange [⟨1⟩, ⟨2⟩])]
    let f := played .strict ops ∅
    ∃ g, Sees .strict Plain [] f ∧ c.insert .strict 1 ⟨1⟩ f = .ok () g
      ∧ c.items g = [⟨1⟩, ⟨1⟩, ⟨2⟩] ∧ g.parent? ⟨1⟩ = some ⟨0⟩
      ∧ (g.node ⟨1⟩).position = 1 := by
  intro c ops f
  have hplays : Plays .strict (fun _ _ => true) [] ops ∅ := by decide
  have hf : Sees .strict Plain [] f :=
    .between (hplays.runs (fun hop _ => hop.plain) .refl)
  have hout : c.insert .strict 1 ⟨1⟩ f
      = .ok () (c.insert .strict 1 ⟨1⟩ f).state := by decide
  obtain ⟨-, -, -, hinsert⟩ := Sees.places_written hf
  obtain ⟨hparent, -, -, hplace⟩ :=
    hinsert c 1 ⟨1⟩ _ (by decide) (by decide) hout
  exact ⟨_, hf, hout, by decide, hparent,
    hplace.mpr (.inr (by decide))⟩

/-- A node that is inserted where it is already: the place that was written
for index 0 is moved on with the element that moves, which is the same
node. -/
theorem places_dragged :
    let c : Collection := ⟨⟨0⟩, 0⟩
    let ops : List Operation :=
      [.create .block .none, .hold ⟨0⟩, .create .nop .none, .hold ⟨1⟩,
        .change c (.add ⟨1⟩)]
    let f := played .strict ops ∅
    ∃ g, Runs .strict Plain [] ∅ f ∧ c.Fits f ∧ f.Referenced [⟨0⟩, ⟨1⟩]
      ∧ c.insert .strict 0 ⟨1⟩ f = .ok () g
      ∧ g.parent? ⟨1⟩ = some c.owner
      ∧ (g.node ⟨1⟩).position ≠ c.base + 0
      ∧ (g.node ⟨1⟩).position = 1 := by
  intro c ops f
  have hplays : Plays .strict (fun _ _ => true) [] ops ∅ := by decide
  exact ⟨(c.insert .strict 0 ⟨1⟩ f).state,
    hplays.runs (fun hop _ => hop.plain) .refl, by decide, by decide,
    by decide, by decide, by decide, by decide⟩

end Sees

end InstructionTree
