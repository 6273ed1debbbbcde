/-
Bulk edits and loops of single edits in a plain run.

Adding a list is adding its nodes one by one (`Runs.addRange_eq_each`): the
nodes end in the same states, and only the version of the owner tells how
many edits there were. Removing a range is removing at its start, again and
again (`Runs.removeRange_eq_each`): the same elements remain, the same nodes
are freed, and counters, parents and places agree. This is said of places
that were right, and whose element remains. A stale place may be met by the
test of one shift and missed by that of another one.

Some edits are the same edit (`Runs.bulk_eq_each`): removing the whole range
and clearing, inserting at the end and adding, and removing the last element
with and without a swap.
-/
import InstructionTree.Proofs.Collection.Guarded
import InstructionTree.Proofs.Collection.Repeating
import InstructionTree.Proofs.Runs.Listed
import InstructionTree.Proofs.Runs.Plain

namespace InstructionTree

open Forest

variable {checks : Checks} {ns : List NodeId} {c : Collection} {f : Forest}
  {i count : Nat}

section

variable (hf : Runs checks Plain [] ∅ f) (hc : c.Fits f)
  (hopen : f.isGuarded checks c.owner = false)
include hf hc hopen

/-- Adding nodes at once or one by one leaves all nodes in the same states,
but that the owner counts the edits. -/
theorem Runs.addRange_eq_each (hheld : f.Referenced (c.owner :: ns))
    (haway : ∀ e ∈ c.items f ++ ns, ∀ m,
      Relation.ReflTransGen f.Holds e m → ¬ f.Above c.owner m)
    (hns : ns ≠ []) :
    ∃ g h, c.addRange checks ns f = .ok () g
      ∧ Edit.each (c.add checks) ns f = .ok () h
      ∧ (g.node c.owner).version = (f.node c.owner).version + 1
      ∧ (h.node c.owner).version = (f.node c.owner).version + ns.length
      ∧ ∀ n, h.get? n = (g.get? n).map fun x => { x with
        version :=
          if n = c.owner then (h.node n).version else x.version } := by
  have hs : f.Sound checks (c.owner :: ns).dedup :=
    hf.sound_of_empty.lock hheld
  have hlive : ∀ n ∈ ns, f.isAlive n = true := fun n hn =>
    hs.alive (List.mem_dedup.mpr (.tail _ hn))
  have hstart : c.Extended ns f [] 0 f := .start hs.toWellFormed hc
  obtain ⟨g, hg, hadded⟩ :=
    hstart.addRange haway hlive hopen fun _ hn => hn
  obtain ⟨h, hh, heach⟩ := hstart.each_add haway hlive hopen fun _ hn => hn
  rw [List.nil_append, Nat.zero_add] at hadded heach
  obtain ⟨m, hm⟩ := Nat.exists_eq_add_one.mpr (List.length_pos_iff.mpr hns)
  rw [hm] at heach
  have hversion : ∀ {m : Nat} {k : Forest}, c.Extended ns f ns m k →
      (k.node c.owner).version = (f.node c.owner).version + m := by
    intro m k hk
    have hcount := hk.refills.version ((hk.alive _).trans hc.alive)
    rwa [if_pos rfl] at hcount
  refine ⟨g, h, hg, hh, hversion hadded, hm ▸ hversion heach, fun n => ?_⟩
  rw [hadded.get?_eq haway heach hs.toWellFormed hf.covered_of_empty n]
  cases hgn : g.isAlive n with
  | false => rw [get?_of_not_alive g hgn]; rfl
  | true =>
      have hhn := ((heach.alive n).trans (hadded.alive n).symm).trans hgn
      rw [get?_of_alive g hgn, Option.map_some, Option.map_some,
        hadded.refills.version hgn, heach.refills.version hhn]
      split <;> rfl

variable (hheld : f.Referenced [c.owner])
include hheld

/-- Removing a range at once or one by one leaves the same elements, frees
the same nodes, and leaves the others with the same counters and parents,
and with the same places if they were right and remained. -/
theorem Runs.removeRange_eq_each (hcount : 0 < count)
    (hle : i + count ≤ c.length f) :
    ∃ g h, c.removeRange checks i count f = .ok () g
      ∧ Edit.each (c.removeAt checks) (List.replicate count i) f = .ok () h
      ∧ c.items g = (c.items f).take i ++ (c.items f).drop (i + count)
      ∧ c.items h = c.items g
      ∧ (∀ n, h.isAlive n = g.isAlive n
        ∧ (h.node n).slotRefs = (g.node n).slotRefs
        ∧ h.parent? n = g.parent? n)
      ∧ ∀ n p, f.Accurate n p →
        (p = c.owner → (f.node n).position < c.base + i
          ∨ c.base + (i + count) ≤ (f.node n).position) →
        (h.node n).position = (g.node n).position := by
  have hs : f.Sound checks [c.owner].dedup := hf.sound_of_empty.lock hheld
  have hwf := hs.toWellFormed
  have hcov : f.Covered := hf.covered_of_empty
  have ho : c.owner ∈ [c.owner].dedup := List.mem_dedup.mpr (.head _)
  obtain ⟨g, hg, hitemsg, -, hranged⟩ := Collection.shrinks_removeRange hs hc
    hcov ho hopen hcount hle
  obtain ⟨h, hh, hitemsh, hremoved⟩ := Collection.removes_range hs hc hcov ho
    hopen hle
  have hsame := hitemsh.trans hitemsg.symm
  have hend : ∀ n ∈ c.items g, n ∈ (c.items f).take i
      ++ (c.items f).drop (i + count) := fun n hn => hitemsg ▸ hn
  refine ⟨g, h, hg, hh, hitemsg, hsame, fun n =>
    ⟨hranged.isAlive_eq hremoved.toShrinks hsame hend n,
      hranged.slotRefs_eq hremoved.toShrinks hsame hend hwf hcov n,
      hranged.parent?_eq hremoved.toShrinks hsame hend hwf hcov n⟩,
    fun n p hn hremains => ?_⟩
  refine hranged.position_eq hremoved.toShrinks hsame hend ?_
  rcases Collection.leadsTo_or_apart hwf hc hn with ⟨hp, j, hj⟩ | hapart
  · have hplace := hremains hp
    rw [hj.place] at hplace
    obtain ⟨k, hk⟩ : ∃ k, Collection.pastRange i count j = some k := by
      unfold Collection.pastRange
      rcases hplace with hbefore | hbehind
      · exact ⟨j, if_pos (by omega)⟩
      · exact ⟨j - count, by rw [if_neg (by omega), if_neg (by omega)]⟩
    exact .inr ⟨j, k, hj, hk, hk⟩
  · exact .inl hapart

/-- `removeRange` of all elements and `clear` lead to forests with the same
records, if from no element `Holds` leads to the owner or above it. -/
theorem Runs.removeRange_eq_clear
    (haway : ∀ e ∈ c.items f, ∀ m,
      Relation.ReflTransGen f.Holds e m → ¬ f.Above c.owner m) :
    ∃ g h, c.removeRange checks 0 (c.length f) f = .ok () g
      ∧ c.clear checks f = .ok () h ∧ ∀ n, h.get? n = g.get? n := by
  have hs : f.Sound checks [c.owner].dedup := hf.sound_of_empty.lock hheld
  have ho : c.owner ∈ [c.owner].dedup := List.mem_dedup.mpr (.head _)
  obtain ⟨g, hg, hranged⟩ := Collection.renewed_removeRange hs hc ho hopen
  obtain ⟨h, hh, hcleared⟩ := Collection.renewed_clear hs hc ho hopen
  rw [← List.append_nil (c.items f)] at haway
  refine ⟨g, h, hg, hh, fun n => ?_⟩
  rw [hranged.get?_eq haway hcleared hs.toWellFormed hf.covered_of_empty
    (fun m hm => by cases hm) n]
  cases hgn : g.isAlive n with
  | false => rw [get?_of_not_alive g hgn]; rfl
  | true =>
      rw [get?_of_alive g hgn, Option.map_some, ← hranged.refills.version hgn]

end

/-- In every forest that a plain run reached, bulk edits of a collection
that nobody traverses do what single edits do, one after the other. -/
theorem Runs.bulk_eq_each
    (hf : Runs checks Plain [] ∅ f) (hc : c.Fits f)
    (hopen : f.isGuarded checks c.owner = false)
    (hheld : f.Referenced (c.owner :: ns))
    -- what is below an element is not the owner, nor above it
    (haway : ∀ e ∈ c.items f ++ ns, ∀ m,
      Relation.ReflTransGen f.Holds e m → ¬ f.Above c.owner m) :
    (ns ≠ [] → ∃ g h, c.addRange checks ns f = .ok () g
      ∧ Edit.each (c.add checks) ns f = .ok () h
      ∧ (g.node c.owner).version = (f.node c.owner).version + 1
      ∧ (h.node c.owner).version = (f.node c.owner).version + ns.length
      ∧ ∀ n, h.get? n = (g.get? n).map fun x => { x with
        version := if n = c.owner then (h.node n).version else x.version })
    ∧ (∀ i count, 0 < count → i + count ≤ c.length f →
      ∃ g h, c.removeRange checks i count f = .ok () g
        ∧ Edit.each (c.removeAt checks) (List.replicate count i) f = .ok () h
        ∧ c.items g = (c.items f).take i ++ (c.items f).drop (i + count)
        ∧ c.items h = c.items g
        ∧ (∀ n, h.isAlive n = g.isAlive n
          ∧ (h.node n).slotRefs = (g.node n).slotRefs
          ∧ h.parent? n = g.parent? n)
        ∧ ∀ n p, f.Accurate n p →
          (p = c.owner → (f.node n).position < c.base + i
            ∨ c.base + (i + count) ≤ (f.node n).position) →
          (h.node n).position = (g.node n).position)
    -- a range that does not fit is refused, and so is the loop at its end
    ∧ (∀ i count, 0 < count → c.length f < i + count →
      (∃ e, c.removeRange checks i count f = .stop (.fault e) f)
      ∧ ∃ e h, Edit.each (c.removeAt checks) (List.replicate count i) f
        = .stop (.fault e) h)
    ∧ (∃ g h, c.removeRange checks 0 (c.length f) f = .ok () g
      ∧ c.clear checks f = .ok () h ∧ ∀ n, h.get? n = g.get? n)
    ∧ (∀ n, c.insert checks (c.length f) n f = c.add checks n f)
    ∧ c.swapRemoveAt checks (c.length f - 1) f
      = c.removeAt checks (c.length f - 1) f := by
  have howner : f.Referenced [c.owner] :=
    List.forall_mem_singleton.mpr (hheld _ (.head _))
  refine ⟨hf.addRange_eq_each hc hopen hheld haway,
    fun i count => hf.removeRange_eq_each hc hopen howner,
    fun i count hcount hout => ⟨?_, ?_⟩,
    hf.removeRange_eq_clear hc hopen howner fun e he =>
      haway e (List.mem_append_left _ he),
    fun n => Collection.insert_length, Collection.swapRemoveAt_last⟩
  · unfold Collection.removeRange
    rw [guarded_of_open _ hopen]
    split
    · exact ⟨_, rfl⟩
    · exact ⟨_, rfl⟩
  · have hs : f.Sound checks [c.owner].dedup := hf.sound_of_empty.lock howner
    obtain ⟨h, hstops⟩ := Collection.each_removeAt_stops hs hc
      hf.covered_of_empty (List.mem_dedup.mpr (.head _)) hopen hcount hout
    exact ⟨_, h, hstops⟩

/-- A block that holds a node and another block twice gets the node twice
more, and a new one; or it loses the first two elements. The second block is
held by nobody else, and the whole hangs in a container that has remembered
its flags. -/
theorem Runs.bulk_eq_each_of_overlap :
    let c : Collection := ⟨⟨1⟩, 0⟩
    let ops : List Operation :=
      [.create .container .none, .hold ⟨0⟩, .create .block .none, .hold ⟨1⟩,
        .create .nop .none, .hold ⟨2⟩, .create .nop .none, .hold ⟨3⟩,
        .create .block .none, .hold ⟨4⟩, .change ⟨⟨0⟩, 0⟩ (.add ⟨1⟩),
        .change c (.addRange [⟨2⟩, ⟨4⟩, ⟨2⟩, ⟨4⟩]), .drop ⟨4⟩, .flags ⟨0⟩]
    let ns : List NodeId := [⟨2⟩, ⟨3⟩, ⟨2⟩]
    let f := played .strict ops ∅
    c.items f = [⟨2⟩, ⟨4⟩, ⟨2⟩, ⟨4⟩] ∧ (f.node ⟨0⟩).cached.isSome = true
      ∧ (∃ g h, c.addRange .strict ns f = .ok () g
        ∧ Edit.each (c.add .strict) ns f = .ok () h
        ∧ c.items g = [⟨2⟩, ⟨4⟩, ⟨2⟩, ⟨4⟩, ⟨2⟩, ⟨3⟩, ⟨2⟩]
        ∧ (g.node ⟨2⟩).position = 6 ∧ (g.node ⟨0⟩).cached = none
        ∧ ∀ n, h.get? n = (g.get? n).map fun x => { x with
          version := if n = ⟨1⟩ then (h.node n).version else x.version })
      ∧ ∃ g h, c.removeRange .strict 0 2 f = .ok () g
        ∧ Edit.each (c.removeAt .strict) [0, 0] f = .ok () h
        ∧ c.items h = [⟨2⟩, ⟨4⟩] ∧ h.isAlive ⟨4⟩ = true
        ∧ (g.node ⟨4⟩).position = 1 ∧ (h.node ⟨4⟩).position = 1 := by
  intro c ops ns f
  have hplays : Plays .strict (fun _ _ => true) [] ops ∅ := by
    decide +kernel
  have hf : Runs .strict Plain [] ∅ f :=
    hplays.runs (fun hop _ => hop.plain) .refl
  have hfits : c.Fits f := by decide +kernel
  have hheld : f.Referenced (c.owner :: ns) := by decide +kernel
  -- the elements, and the owner and what is above it
  have haway : ∀ e ∈ c.items f ++ ns, ∀ m,
      Relation.ReflTransGen f.Holds e m → ¬ f.Above c.owner m :=
    not_above_of_closed [⟨2⟩, ⟨3⟩, ⟨4⟩] [⟨1⟩, ⟨0⟩]
      (by decide +kernel) (by decide +kernel) (.head _) (by decide +kernel)
      (by decide)
  obtain ⟨hadd, hremove, -⟩ :=
    Runs.bulk_eq_each hf hfits (by decide +kernel) hheld haway
  obtain ⟨g, h, hg, hh, -, -, hget⟩ := hadd (by decide)
  obtain ⟨k, m, hk, hm, hitems, hsame, hrest, hplaces⟩ :=
    hremove 0 2 (by decide) (by decide +kernel)
  have hplace := hplaces ⟨4⟩ ⟨1⟩ ⟨by decide +kernel, by decide +kernel⟩
    fun _ => .inr (by decide +kernel)
  have hadded : let g := (c.addRange .strict ns f).state
      c.items g = [⟨2⟩, ⟨4⟩, ⟨2⟩, ⟨4⟩, ⟨2⟩, ⟨3⟩, ⟨2⟩]
        ∧ (g.node ⟨2⟩).position = 6 ∧ (g.node ⟨0⟩).cached = none := by
    decide +kernel
  have hremoved : let k := (c.removeRange .strict 0 2 f).state
      c.items k = [⟨2⟩, ⟨4⟩] ∧ k.isAlive ⟨4⟩ = true
        ∧ (k.node ⟨4⟩).position = 1 := by
    decide +kernel
  rw [hg] at hadded
  rw [hk] at hremoved
  obtain ⟨hitemsg, hlast, hcached⟩ := hadded
  obtain ⟨hitemsk, halive, hfollowed⟩ := hremoved
  exact ⟨by decide +kernel, by decide +kernel,
    ⟨g, h, hg, hh, hitemsg, hlast, hcached, hget⟩,
    k, m, hk, hm, hsame.trans hitemsk, (hrest ⟨4⟩).1.trans halive, hfollowed,
    hplace.trans hfollowed⟩

end InstructionTree
