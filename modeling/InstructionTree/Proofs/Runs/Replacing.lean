/-
Replacing all elements of a collection in a plain run.

Clearing a collection and adding other elements is the same as replacing
its list, for all the world to see but the version of the owner, which says
how many batches that were. It does not matter which elements are old and
new at the same time, how often they occur, and where else they are
(`Runs.replaceList_eq_clear_addRange`): the counter of a node that leaves
and enters goes through other values on either way, and its link may be
dropped and made again, but the books are the same in the end.

It does matter that nothing above the owner hangs below an element. A
commit climbs from the owner, so what it forgets would depend on what the
way up was at that moment.
-/
import InstructionTree.Proofs.Collection.Guarded
import InstructionTree.Proofs.Collection.Replacing
import InstructionTree.Proofs.Runs.Listed
import InstructionTree.Proofs.Runs.Plain

namespace InstructionTree

open Forest

variable {checks : Checks} {ns : List NodeId} {c : Collection} {f : Forest}

/-- In every forest that a plain run reached, `replaceList` leaves all nodes
in the states in which `clear` and `addRange` leave them, except that it
takes one commit and they take two. While a traversal of the owner is open
and checks are on, neither is begun. -/
theorem Runs.replaceList_eq_clear_addRange
    (hf : Runs checks Plain [] ∅ f) (hc : c.Fits f)
    (hheld : f.Referenced (c.owner :: ns))
    -- what is below an element is not the owner, nor above it
    (haway : ∀ e ∈ c.items f ++ ns, ∀ m,
      Relation.ReflTransGen f.Holds e m → ¬ f.Above c.owner m) :
    (f.isGuarded checks c.owner = true →
      ∃ g, c.replaceList checks ns f
          = .stop (.fault (.invalidDuringTraversal (f.node c.owner).opcode
            (f.node c.owner).depth.shown)) g
        ∧ c.clear checks f
          = .stop (.fault (.invalidDuringTraversal (f.node c.owner).opcode
            (f.node c.owner).depth.shown)) g
        ∧ ∀ n, g.get? n = f.get? n)
    ∧ (f.isGuarded checks c.owner = false →
      ∃ g h k, c.replaceList checks ns f = .ok () g
        ∧ c.clear checks f = .ok () h ∧ c.addRange checks ns h = .ok () k
        ∧ (g.node c.owner).version = (f.node c.owner).version + 1
        ∧ (∀ n, k.get? n = (g.get? n).map fun x => { x with
          version := if n = c.owner then x.version + 1 else x.version })
        ∧ ∀ n, k.parent? n = g.parent? n) := by
  refine ⟨fun hguard => ⟨_, guarded_of_guard _ hguard,
    guarded_of_guard _ hguard, fun n => get?_emit ..⟩, fun hopen => ?_⟩
  have hs : f.Sound checks (c.owner :: ns).dedup :=
    hf.sound_of_empty.lock hheld
  have hwf := hs.toWellFormed
  have hcov : f.Covered := hf.covered_of_empty
  have ho : c.owner ∈ (c.owner :: ns).dedup := List.mem_dedup.mpr (.head _)
  have hns : ∀ n ∈ ns, n ∈ (c.owner :: ns).dedup :=
    fun n hn => List.mem_dedup.mpr (.tail _ hn)
  obtain ⟨g, hreplace, hg⟩ :=
    Collection.renewed_replaceList hs hc ho hns haway hopen
  obtain ⟨h, k, hclear, hadd, hk⟩ :=
    Collection.renewed_clear_addRange hs hc ho hns haway hopen
  have hnew : f.Referenced ns := fun n hn => hheld n (.tail _ hn)
  have hget : ∀ n, k.get? n = (g.get? n).map fun x => { x with
      version := if n = c.owner then x.version + 1 else x.version } := by
    intro n
    rw [hg.get?_eq haway hk hwf hcov hnew n]
    cases hgn : g.isAlive n with
    | false => rw [get?_of_not_alive g hgn]; rfl
    | true =>
        rw [get?_of_alive g hgn, Option.map_some, Option.map_some,
          hg.refills.version hgn]
        split <;> rfl
  refine ⟨g, h, k, hreplace, hclear, hadd, ?_, hget, fun n => ?_⟩
  · have hversion := hg.refills.version
      (hg.refills.alive haway hc.alive .refl)
    rwa [if_pos rfl] at hversion
  · have halive : k.isAlive = g.isAlive := funext fun m => by
      rw [isAlive, isAlive, hget, Option.isSome_map]
    have hlink : (k.node n).link = (g.node n).link := by
      rw [node, node, hget]
      cases g.get? n <;> rfl
    rw [parent?, parent?, hlink, halive]

/-- A block that holds two nodes twice, among them a block that nobody else
keeps, gets one of the other nodes, twice, and a new one. The node that stays
is in a second block too, and the whole hangs in a container that has
remembered its flags. -/
theorem Runs.replaceList_eq_clear_addRange_of_overlap :
    let c : Collection := ⟨⟨1⟩, 0⟩
    let ops : List Operation :=
      [.create .container .none, .hold ⟨0⟩, .create .block .none, .hold ⟨1⟩,
        .create .nop .none, .hold ⟨2⟩, .create .nop .none, .hold ⟨3⟩,
        .create .block .none, .hold ⟨4⟩, .create .ret .none, .hold ⟨5⟩,
        .create .block .none, .hold ⟨6⟩, .change ⟨⟨0⟩, 0⟩ (.add ⟨1⟩),
        .change ⟨⟨4⟩, 0⟩ (.add ⟨5⟩),
        .change c (.addRange [⟨2⟩, ⟨4⟩, ⟨2⟩, ⟨4⟩]),
        .change ⟨⟨6⟩, 0⟩ (.add ⟨2⟩), .drop ⟨4⟩, .drop ⟨5⟩, .flags ⟨0⟩]
    let ns : List NodeId := [⟨2⟩, ⟨3⟩, ⟨2⟩]
    let f := played .strict ops ∅
    c.items f = [⟨2⟩, ⟨4⟩, ⟨2⟩, ⟨4⟩] ∧ (f.node ⟨0⟩).cached.isSome = true
      ∧ ∃ g h k, c.replaceList .strict ns f = .ok () g
        ∧ c.clear .strict f = .ok () h ∧ c.addRange .strict ns h = .ok () k
        ∧ c.items g = ns ∧ g.parent? ⟨2⟩ = some ⟨1⟩
        ∧ (g.node ⟨0⟩).cached = none ∧ g.isAlive ⟨5⟩ = false
        ∧ ∀ n, k.get? n = (g.get? n).map fun x => { x with
          version := if n = ⟨1⟩ then x.version + 1 else x.version } := by
  intro c ops ns f
  have hplays : Plays .strict (fun _ _ => true) [] ops ∅ := by
    decide +kernel
  have hf : Runs .strict Plain [] ∅ f :=
    hplays.runs (fun hop _ => hop.plain) .refl
  have hfits : c.Fits f := by decide +kernel
  have hheld : f.Referenced (c.owner :: ns) := by decide +kernel
  -- the elements and what is below them, and the owner and what is above it
  have haway : ∀ e ∈ c.items f ++ ns, ∀ m,
      Relation.ReflTransGen f.Holds e m → ¬ f.Above c.owner m :=
    not_above_of_closed [⟨2⟩, ⟨3⟩, ⟨4⟩, ⟨5⟩] [⟨1⟩, ⟨0⟩]
      (by decide +kernel) (by decide +kernel) (.head _) (by decide +kernel)
      (by decide)
  obtain ⟨g, h, k, hg, hh, hk, -, hget, -⟩ :=
    (Runs.replaceList_eq_clear_addRange hf hfits hheld haway).2
      (by decide +kernel)
  have hend : let g := (c.replaceList .strict ns f).state
      c.items g = ns ∧ g.parent? ⟨2⟩ = some ⟨1⟩
        ∧ (g.node ⟨0⟩).cached = none ∧ g.isAlive ⟨5⟩ = false := by
    decide +kernel
  rw [hg] at hend
  obtain ⟨hitems, hparent, hcached, hfreed⟩ := hend
  exact ⟨by decide +kernel, by decide +kernel, g, h, k, hg, hh, hk, hitems,
    hparent, hcached, hfreed, hget⟩

end InstructionTree
