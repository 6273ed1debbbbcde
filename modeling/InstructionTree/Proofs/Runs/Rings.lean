/-
Where rings of slots can be, and where they can not.

The check that an attach makes climbs the links, and a node has one link
however many slots hold it. With checks on, every climb ends, in every
forest that any run reaches. So a ring of slots has a link that leads out
of it: some node of the ring was attached elsewhere since (`Ring.escape`).
Where every node is linked to whoever holds it, there is no ring, and
everything that walks down the slots ends.

The check can not do better. Once a node is held twice, it sees only one
of its holders, and a ring can be closed through the other one.
-/
import InstructionTree.Proofs.Forest.Answers
import InstructionTree.Proofs.Runs.Listed

namespace InstructionTree

open Forest

variable {checks : Checks} {f : Forest} {n : NodeId}

namespace Forest

-- ================================================================ climbs

/-- If the parent of every node `inside` is `inside`, then no node with a
complete way up is. -/
theorem Way.leaves {l : List NodeId} (hway : f.Way n l)
    (inside : NodeId → Prop)
    (hstay : ∀ c, inside c → ∃ p, f.parent? c = some p ∧ inside p) :
    ¬ inside n := by
  induction hway with
  | root h =>
      intro hn
      obtain ⟨p, hp, -⟩ := hstay _ hn
      cases h.symm.trans hp
  | up h _ ih =>
      intro hn
      obtain ⟨p, hp, hin⟩ := hstay _ hn
      cases h.symm.trans hp
      exact ih hin

/-- On a ring of slots some node is linked to another node than the one
before it. -/
theorem Rooted.escape (hroot : f.Rooted n)
    (hring : Relation.TransGen f.Holds n n) :
    ∃ p c, Relation.ReflTransGen f.Holds n p ∧ f.Holds p c
      ∧ Relation.ReflTransGen f.Holds c n ∧ f.parent? c ≠ some p := by
  by_contra hlinked
  push Not at hlinked
  obtain ⟨l, hway⟩ := hroot
  -- the ring through `n` is a set that links would never leave
  refine hway.leaves (fun c => Relation.TransGen f.Holds n c
    ∧ Relation.ReflTransGen f.Holds c n) (fun c ⟨hdown, hback⟩ => ?_)
    ⟨hring, .refl⟩
  obtain ⟨p, hp, hc⟩ := Relation.TransGen.tail'_iff.mp hdown
  have hup := Relation.ReflTransGen.head hc hback
  exact ⟨p, hlinked p c hp hc hback, hring.trans_left hp, hup⟩

/-- If every node below `n` has its holder as parent, and climbs end, `n` is
`Acyclic`. -/
theorem LinkedBelow.acyclic (hlinked : f.LinkedBelow n)
    (hroot : ∀ m, f.Rooted m) : f.Acyclic n := by
  intro m hm hring
  obtain ⟨p, c, hp, hc, -, hother⟩ := (hroot m).escape hring
  exact hother (hlinked (hm.trans hp) hc)

-- ================================================================= trees

/-- Where `Shallow` bounds every way down from `n`, `treeWithin` builds a tree.
-/
theorem exists_treeWithin :
    ∀ {height : Nat} {n : NodeId}, Shallow f.children height n →
      ∃ t, f.treeWithin height n = some t
  | 0, _, h => h.elim
  | height + 1, n, h => by
      have hall : ∀ ns : List NodeId, (∀ c ∈ ns, Shallow f.children height c) →
          ∃ ts, ns.mapM (f.treeWithin height) = some ts := by
        intro ns
        induction ns with
        | nil => exact fun _ => ⟨[], rfl⟩
        | cons c rest ih =>
            intro hns
            obtain ⟨t, ht⟩ := exists_treeWithin (hns c (.head _))
            obtain ⟨ts, hts⟩ := ih fun d hd => hns d (.tail _ hd)
            exact ⟨t :: ts, by simp [List.mapM_cons, ht, hts]⟩
      obtain ⟨ts, hts⟩ := hall (f.node n).children h
      exact ⟨_, by rw [treeWithin, hts]; rfl⟩

/-- A live node that is `Acyclic` has a `display?`, if no live slot holds a
freed node. -/
theorem exists_display (hclosed : f.Closed) (hn : f.isAlive n = true)
    (hacyclic : f.Acyclic n) : ∃ t, f.display? n = some t := by
  have hshallow := shallow_of_acyclic hclosed hn hacyclic
  obtain ⟨t, ht⟩ := exists_treeWithin hshallow
  refine ⟨t.display, ?_⟩
  rw [display?, tree?, if_pos ((isAcyclicBelow_iff hclosed hn).mpr hacyclic),
    ht]
  rfl

end Forest

-- ================================================================== runs

/-- With checks on, no run at all reaches a ring of slots on which every
node is linked to the one before it. So following slots down from a node
below which every node is linked to its holder never comes back, and its
flags and its printed form are answered. -/
theorem Runs.rings_unlinked {permits : Permit}
    (hf : Runs .strict permits [] ∅ f) :
    (∀ n, Relation.TransGen f.Holds n n →
      ∃ p c, Relation.ReflTransGen f.Holds n p ∧ f.Holds p c
        ∧ Relation.ReflTransGen f.Holds c n ∧ f.parent? c ≠ some p)
    ∧ ∀ n, f.isAlive n = true → f.LinkedBelow n →
      f.Acyclic n ∧ (∃ flags g, f.flags? n = some (flags, g))
        ∧ ∃ t, f.display? n = some t := by
  have hs : f.Sound .strict [] := hf.sound_of_empty
  refine ⟨fun n => (hs.rooted rfl n).escape, fun n hn hlinked => ?_⟩
  have hacyclic : f.Acyclic n := hlinked.acyclic (hs.rooted rfl)
  obtain ⟨flags, g, hflags, -⟩ := answered_flags hs.closed hn hacyclic.asks
  exact ⟨hacyclic, ⟨flags, g, hflags⟩, exists_display hs.closed hn hacyclic⟩

/-- A block that was moved from one container to another one: above it there is
no ring, and it can be printed. -/
theorem Runs.rings_unlinked_of_moved :
    let ops : List Operation :=
      [.create .container .none, .hold ⟨0⟩, .create .container .none,
        .hold ⟨1⟩, .create .block .none, .hold ⟨2⟩,
        .change ⟨⟨0⟩, 0⟩ (.add ⟨2⟩), .change ⟨⟨1⟩, 0⟩ (.add ⟨2⟩)]
    let f := played .strict ops ∅
    Runs .strict Plain [] ∅ f ∧ f.Acyclic ⟨1⟩
      ∧ ∃ t, f.display? ⟨1⟩ = some t := by
  intro ops f
  have hplays : Plays .strict (fun _ _ => true) [] ops ∅ := by decide
  have hf : Runs .strict Plain [] ∅ f :=
    hplays.runs (fun hop _ => hop.plain) .refl
  have hone : f.children ⟨1⟩ = [⟨2⟩] := by decide
  have htwo : f.children ⟨2⟩ = [] := by decide
  have hlinked : f.LinkedBelow ⟨1⟩ := by
    intro p c hp hc
    have hp' : p = ⟨1⟩ ∨ p = ⟨2⟩ := by
      rcases Relation.ReflTransGen.cases_head hp with rfl | ⟨d, hd, hp⟩
      · exact .inl rfl
      rw [Holds, hone, List.mem_singleton] at hd
      subst hd
      rcases Relation.ReflTransGen.cases_head hp with rfl | ⟨d, hd, -⟩
      · exact .inr rfl
      · rw [Holds, htwo] at hd
        cases hd
    rcases hp' with rfl | rfl
    · rw [hone, List.mem_singleton] at hc
      subst hc
      decide
    · rw [htwo] at hc
      cases hc
  obtain ⟨hacyclic, -, hdisplay⟩ :=
    (Runs.rings_unlinked hf).2 ⟨1⟩ (by decide) hlinked
  exact ⟨hf, hacyclic, hdisplay⟩

/-- A block that two others hold, and that the first of them is put into:
the check climbs to the second one only, and lets the ring be closed. -/
theorem Runs.rings_of_shared :
    ∃ f, Runs .strict Plain [] ∅ f
      ∧ Relation.TransGen f.Holds ⟨0⟩ ⟨0⟩
      ∧ f.flags? ⟨0⟩ = none ∧ f.display? ⟨0⟩ = none := by
  let ops : List Operation :=
    [.create .block .none, .hold ⟨0⟩, .create .block .none, .hold ⟨1⟩,
      .create .block .none, .hold ⟨2⟩, .change ⟨⟨0⟩, 0⟩ (.add ⟨2⟩),
      .change ⟨⟨1⟩, 0⟩ (.add ⟨2⟩), .change ⟨⟨2⟩, 0⟩ (.add ⟨0⟩)]
  have hplays : Plays .strict (fun _ _ => true) [] ops ∅ := by decide
  refine ⟨played .strict ops ∅, hplays.runs (fun hop _ => hop.plain) .refl,
    .tail (.single (?_ : Holds _ ⟨0⟩ ⟨2⟩)) ?_, ?_, ?_⟩
  all_goals decide

end InstructionTree
