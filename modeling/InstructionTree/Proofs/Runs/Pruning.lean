/-
Filtering by a test in a plain run.

A steady test, such as one of the opcode and the operand of a node
(`Test.steady_ofNode`), may be given to `removeAll`, or made in a loop that
removes elements one at a time. It does not matter which
(`Runs.removeAll_eq_removeEach`): as many are removed, the same elements
remain, the same nodes are freed, and counters, parents and places agree.
Elements may repeat, and may be held elsewhere.

The loop tests a place again at each shift, the pass at most twice, and so
stale places may differ. A place that was right follows its own occurrence on
either way, so nodes are found at the same index, as are those that occur but
once.

The owner is committed once by the pass, if anything was rejected, and by
each removal of the loop.
-/
import InstructionTree.Proofs.Collection.Pruning
import InstructionTree.Proofs.Runs.Listed
import InstructionTree.Proofs.Runs.Plain

namespace InstructionTree

open Forest Collection

variable {checks : Checks} {c : Collection} {f : Forest} {σ : Type}
  {judge : Judge σ} {test : Test} {count : Nat}

/-- In every forest that a plain run reached, filtering a collection that
nobody traverses does what removing the rejected elements one by one does,
if the test looks at nothing that either of them changes. -/
theorem Runs.removeAll_eq_removeEach
    (hf : Runs checks Plain [] ∅ f) (hc : c.Fits f)
    (hopen : f.isGuarded checks c.owner = false)
    (hheld : f.Referenced [c.owner])
    (hjudge : ∀ n s, judge n s = .ok (test n s.1) s)
    (htest : test.Steady c.owner) (st : σ)
    -- the loop may take more steps, but has no use for them
    (hcount : c.length f ≤ count) :
    let items := c.items f
    let rejects := fun n => test n f
    ∃ g h, (c.removeAll checks judge (f, st)).mapState Prod.fst
        = .ok (items.countP rejects) g
      ∧ c.removeEach checks test count 0 f
        = .ok (items.countP rejects) h
      ∧ c.items g = (items.filter fun n => !rejects n)
      ∧ c.items h = c.items g
      ∧ (∀ n, h.isAlive n = g.isAlive n
        ∧ (h.node n).slotRefs = (g.node n).slotRefs
        ∧ h.parent? n = g.parent? n)
      ∧ (∀ n, (∃ p, f.Accurate n p) ∨ items.count n ≤ 1 →
        c.indexOf? h n = c.indexOf? g n)
      -- elements that survive, and whoever has its place elsewhere
      ∧ (∀ n p, f.Accurate n p → (p = c.owner → rejects n = false) →
        (h.node n).position = (g.node n).position)
      ∧ (g.node c.owner).version = (f.node c.owner).version
        + (if items.any rejects = true then 1 else 0)
      ∧ (h.node c.owner).version = (f.node c.owner).version
        + items.countP rejects := by
  intro items rejects
  have hs : f.Sound checks [c.owner].dedup := hf.sound_of_empty.lock hheld
  have hwf := hs.toWellFormed
  have hcov : f.Covered := hf.covered_of_empty
  have ho : c.owner ∈ [c.owner].dedup := List.mem_dedup.mpr (.head _)
  obtain ⟨g, hpass, hitemsg, hraises, hg⟩ :=
    shrinks_removeAll ho hs hc hcov hopen hjudge htest st
  have hstart : Swept checks [c.owner].dedup c rejects f 0 f := .start hs hc
  have henough : (c.items f).length ≤ 0 + count := by
    rw [Nat.zero_add]
    exact hcount
  obtain ⟨h, hloop, hswept⟩ :=
    hstart.removeEach hwf hcov hc ho hopen htest henough
  rw [List.take_zero, List.countP_nil, List.drop_zero] at hloop
  have hitemsh := hswept.items
  have hremoves := hswept.toRemoves
  rw [List.take_length] at hitemsh hremoves
  rw [List.drop_length, List.append_nil] at hitemsh
  have hh := hremoves.toShrinks
  have hsame := hitemsh.trans hitemsg.symm
  have hend : ∀ n ∈ c.items g, n ∈ (c.items f).filter fun n => !rejects n :=
    fun n hn => hitemsg ▸ hn
  refine ⟨g, h, hpass, hloop, hitemsg, hsame, fun n =>
    ⟨hg.isAlive_eq hh hsame hend n, hg.slotRefs_eq hh hsame hend hwf hcov n,
      hg.parent?_eq hh hsame hend hwf hcov n⟩, fun n hn => ?_,
    fun n p hn hstays => ?_, ?_, ?_⟩
  · refine hg.indexOf?_eq hh hsame ?_
    rw [hitemsg]
    exact (apart_or_sieve_or_once hwf hc hn).imp_right
      (Or.imp_left fun ⟨j, k, hj, hk⟩ => ⟨j, k, hj, hk, hk⟩)
  · exact hg.position_eq hh hsame hend
      ((apart_or_sieve hwf hc hn hstays).imp_right
        fun ⟨j, k, hj, hk⟩ => ⟨j, k, hj, hk, hk⟩)
  · rw [hraises.version hc.alive hg.books.account.owner, if_pos rfl]
  · rw [hremoves.raised.version hc.alive hh.books.account.owner, if_pos rfl,
      List.countP_eq_length_filter]

/-- A block holds two constants twice and a third one behind them. The even
one is rejected, and it was not kept by anybody else. -/
theorem Runs.removeAll_eq_removeEach_of_repeated :
    let c : Collection := ⟨⟨0⟩, 0⟩
    let ops : List Operation :=
      [.create .block .none, .hold ⟨0⟩,
        .create .constInt32 (.int32 3), .hold ⟨1⟩,
        .create .constInt32 (.int32 4), .hold ⟨2⟩,
        .create .constInt32 (.int32 5), .hold ⟨3⟩,
        .change c (.addRange [⟨1⟩, ⟨2⟩, ⟨1⟩, ⟨2⟩, ⟨3⟩]), .drop ⟨2⟩]
    let test : Test := .ofNode fun _ _ x => x.isMultipleOf 2
    let judge : Judge Unit := fun n s => .ok (test n s.1) s
    let f := played .strict ops ∅
    c.items f = [⟨1⟩, ⟨2⟩, ⟨1⟩, ⟨2⟩, ⟨3⟩] ∧ (f.node ⟨0⟩).version = 1
      ∧ ∃ g h, (c.removeAll .strict judge (f, ())).mapState Prod.fst = .ok 2 g
        ∧ c.removeEach .strict test 5 0 f = .ok 2 h
        ∧ c.items g = [⟨1⟩, ⟨1⟩, ⟨3⟩] ∧ c.items h = [⟨1⟩, ⟨1⟩, ⟨3⟩]
        ∧ g.isAlive ⟨2⟩ = false ∧ h.isAlive ⟨2⟩ = false
        ∧ c.indexOf? g ⟨1⟩ = some 1 ∧ c.indexOf? h ⟨1⟩ = some 1
        ∧ (g.node ⟨3⟩).position = 2 ∧ (h.node ⟨3⟩).position = 2
        ∧ (g.node ⟨0⟩).version = 2 ∧ (h.node ⟨0⟩).version = 3 := by
  intro c ops test judge f
  have hplays : Plays .strict (fun _ _ => true) [] ops ∅ := by
    decide +kernel
  have hf : Runs .strict Plain [] ∅ f :=
    hplays.runs (fun hop _ => hop.plain) .refl
  have hfits : c.Fits f := by decide +kernel
  have hheld : f.Referenced [c.owner] := by decide +kernel
  have hversion : (f.node ⟨0⟩).version = 1 := by decide +kernel
  have hlength : c.length f ≤ 5 := by decide +kernel
  obtain ⟨g, h, hpass, hloop, hitemsg, hsame, hrest, hindex, hplace,
      hversiong, hversionh⟩ :=
    Runs.removeAll_eq_removeEach hf hfits (by decide +kernel) hheld
      (fun n s => (rfl : judge n s = .ok (test n s.1) s))
      (Test.steady_ofNode _ c.owner) () hlength
  have hitems : c.items f = [⟨1⟩, ⟨2⟩, ⟨1⟩, ⟨2⟩, ⟨3⟩] := by decide +kernel
  have hcount : (c.items f).countP (fun n => test n f) = 2 := by
    decide +kernel
  have hstays : ((c.items f).filter fun n => !test n f)
      = [⟨1⟩, ⟨1⟩, ⟨3⟩] := by
    decide +kernel
  have hany : (c.items f).any (fun n => test n f) = true := by
    decide +kernel
  rw [hcount] at hpass hloop hversionh
  rw [hstays] at hitemsg
  rw [hany, if_pos rfl] at hversiong
  rw [hversion] at hversiong hversionh
  have hshown : let g := ((c.removeAll .strict judge (f, ())).mapState
        Prod.fst).state
      g.isAlive ⟨2⟩ = false ∧ c.indexOf? g ⟨1⟩ = some 1
        ∧ (g.node ⟨3⟩).position = 2 := by
    decide +kernel
  rw [hpass] at hshown
  obtain ⟨hfreed, hfound, hfollowed⟩ := hshown
  refine ⟨hitems, hversion, g, h, hpass, hloop, hitemsg, hsame.trans hitemsg,
    hfreed, (hrest ⟨2⟩).1.trans hfreed, hfound, ?_, hfollowed, ?_, hversiong,
    hversionh⟩
  · -- its place was right, for the second time it is there
    have hplaced : f.Accurate ⟨1⟩ ⟨0⟩ :=
      ⟨by decide +kernel, by decide +kernel⟩
    exact (hindex ⟨1⟩ (.inl ⟨⟨0⟩, hplaced⟩)).trans hfound
  · have hplaced : f.Accurate ⟨3⟩ ⟨0⟩ :=
      ⟨by decide +kernel, by decide +kernel⟩
    exact (hplace ⟨3⟩ ⟨0⟩ hplaced fun _ => by decide +kernel).trans hfollowed

end InstructionTree
