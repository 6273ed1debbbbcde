/-
Passes, and what owners vouch for.

A pass takes children out and moves them about, and commits when it ends,
if it gets to that. Meanwhile its owner vouches for fewer children than
before, so nobody has to be listed: whoever looks into the forest in a call
of the judge finds that whoever remembers vouches for its children
(`Sifts.vouched_before`), and so does who looks at it when the pass is
over, however that ended (`vouched_removeAll`).
-/
import InstructionTree.Proofs.Collection.Caches
import InstructionTree.Proofs.Collection.Compaction
import InstructionTree.Proofs.Forest.Invalidation

namespace InstructionTree.Collection

open Forest

variable {checks : Checks} {c : Collection} {f g h : Forest} {n : NodeId}
  {count k : Nat} {pass last : Pass} {calls : List Judgement}
  {stopped : Option Stop}

-- =========================================================== small steps

/-- `keep` `Eases` every node: whatever is stored after it was stored before
it. -/
theorem eases_keep (n : NodeId) (pass : Pass) (p : NodeId) :
    Eases f (c.keep n pass f).2 p := by
  have hplaced : Overlooks f (c.renumber f pass.judged pass.kept n) [] :=
    overlooks_renumber pass.judged pass.kept n
  have hitems := items_renumber c f pass.judged pass.kept n
  unfold keep
  dsimp only
  generalize c.renumber f pass.judged pass.kept n = g at hplaced hitems ⊢
  have hmoved : Eases f g p := hplaced.eases List.not_mem_nil
  split
  next first second hfirst hsecond =>
    refine hmoved.trans (eases_setSlot (fun m hm => ?_) p)
    rcases List.mem_or_eq_of_mem_set hm with hm | rfl
    · rcases List.mem_or_eq_of_mem_set hm with hm | rfl
      · exact hm
      · exact List.mem_of_getElem? hsecond
    · exact List.mem_of_getElem? hfirst
  · exact hmoved

/-- `compact` `Eases` every node: whatever is stored after it was stored before
it. -/
theorem eases_compact (pass : Pass) (p : NodeId) :
    Eases f (pass.compact c f) p := by
  obtain ⟨zone, -, hcompact⟩ := compact_eq (c := c) (f := f) pass rfl rfl
  generalize hstop : min pass.judged (c.length f) = stop at hcompact
  have hstored : Eases f (c.setItems f
      ((c.items f).take (min pass.kept stop) ++ (c.items f).drop stop)) p := by
    refine eases_setSlot (fun m hm => ?_) p
    rcases List.mem_append.mp hm with hm | hm
    · exact List.mem_of_mem_take hm
    · exact List.mem_of_mem_drop hm
  have hshed : ∀ k : Forest, Eases k (k.reapAll zone) p := fun k =>
    (overlooks_sheds (sheds_reapAll k zone)).eases List.not_mem_nil
  have hplaced : ∀ old start ns (k : Forest),
      Eases k (c.renumberFrom old start ns k) p := fun old start ns k =>
    (overlooks_renumberFrom old start ns k).eases List.not_mem_nil
  rw [hcompact]
  exact (hstored.trans (hshed _)).trans (hplaced ..)

-- ================================================================ the pass

/-- A pass keeps the forest `Vouched`, if its calls do. -/
theorem Sifts.vouched (hsifts : Sifts c count pass f calls last stopped h)
    (hcalls : ∀ j ∈ calls, j.before.Vouched [] → j.after.Vouched [])
    (hf : f.Vouched []) : h.Vouched [] := by
  have hheld : ∀ {f : Forest}, f.Vouched [] → ∀ n, (f.hold n).Vouched [] :=
    fun hf n => hf.overlooks (overlooks_hold n)
  have hdone : ∀ {g k : Forest}, g.Vouched [] → (∀ p, Eases g k p) → ∀ n,
      (k.release n).Vouched [] :=
    fun hg hgk n =>
      (hg.eases fun p _ => hgk p).overlooks (overlooks_release n)
  induction hsifts with
  | full | short => exact hf
  | @failed _ _ f g n why =>
      have hanswer : g.Vouched [] :=
        hcalls ⟨n, f.hold n, .stop why g⟩ (.head _) (hheld hf n)
      exact hanswer.overlooks (overlooks_release n)
  | @rejected _ _ _ f g _ n _ _ _ _ ih =>
      have hanswer : g.Vouched [] :=
        hcalls ⟨n, f.hold n, .ok true g⟩ (.head _) (hheld hf n)
      exact ih (fun j hj => hcalls j (.tail _ hj))
        (hdone hanswer (fun p => eases_detach c.owner n p) n)
  | @kept _ pass _ _ f g _ _ n _ _ _ hkeep _ ih =>
      have hanswer : g.Vouched [] :=
        hcalls ⟨n, f.hold n, .ok false g⟩ (.head _) (hheld hf n)
      have hkept : ∀ p, Eases g (c.keep n pass g).2 p := eases_keep n pass
      rw [hkeep] at hkept
      exact ih (fun j hj => hcalls j (.tail _ hj)) (hdone hanswer hkept n)
  | @lost _ pass f g _ n _ hkeep =>
      have hanswer : g.Vouched [] :=
        hcalls ⟨n, f.hold n, .ok false g⟩ (.head _) (hheld hf n)
      have hkept : ∀ p, Eases g (c.keep n pass g).2 p := eases_keep n pass
      rw [hkeep] at hkept
      exact hdone hanswer hkept n

/-- So all nodes vouch when call `k` begins, if the calls before it keep
this. -/
theorem Sifts.vouched_before
    (hsifts : Sifts c count pass f calls last stopped h) {j : Judgement}
    (hj : calls[k]? = some j)
    (hcalls : ∀ (i : Nat) (e : Judgement), calls[i]? = some e → i < k →
      e.before.Vouched [] → e.after.Vouched [])
    (hf : f.Vouched []) : j.before.Vouched [] := by
  obtain ⟨mid, g, hbefore, -, hheld⟩ := hsifts.cut hj
  have hearlier : ∀ e ∈ calls.take k,
      e.before.Vouched [] → e.after.Vouched [] := by
    intro e he
    obtain ⟨i, hi⟩ := List.mem_iff_getElem?.mp he
    rw [List.getElem?_take] at hi
    split at hi
    case isTrue hlt => exact hcalls i e hi hlt
    case isFalse => cases hi
  rw [hheld]
  exact (hbefore.vouched hearlier hf).overlooks (overlooks_hold j.node)

/-- `finish` keeps the forest `Vouched`, whether it gets to its commit or not.
-/
theorem vouched_finish (hf : f.Vouched []) (pass : Pass) :
    (pass.finish checks c f).state.Vouched [] := by
  have hcompact : (pass.compact c f).Vouched [] :=
    hf.eases fun p _ => eases_compact pass p
  cases hfinish : pass.finish checks c f with
  | stop why k =>
      rw [Outcome.state, (finish_stop hfinish).1]
      exact hcompact
  | ok u k =>
      obtain ⟨g, hend, rfl⟩ := Outcome.next_eq_ok hfinish
      have hended : (endTraversal checks c.owner
          (pass.compact c f)).state.Vouched [] :=
        hcompact.overlooks (overlooks_endTraversal c.owner)
      rw [hend] at hended
      show (if pass.rejected = 0 then g else g.commit c.owner).Vouched []
      split
      · exact hended
      · exact hended.commit_any c.owner

/-- `removeAll` keeps the forest `Vouched`, if its calls do. -/
theorem vouched_removeAll {σ : Type} {judge : Judge σ} {st : σ}
    (hcalls : ∀ j ∈ c.removalCalls checks judge (f, st),
      j.before.Vouched [] → j.after.Vouched [])
    (hf : f.Vouched []) :
    ((c.removeAll checks judge (f, st)).mapState Prod.fst).state.Vouched
      [] := by
  rcases (filtered_removeAll checks c judge f st).ends with
    ⟨e, ev, hout⟩ | ⟨pass, stopped, g, hsifts, hstate⟩
  · rw [hout]
    exact hf.overlooks (overlooks_emit ev)
  · rw [hstate]
    exact vouched_finish (hsifts.vouched hcalls
      (hf.overlooks (overlooks_beginTraversal c.owner))) pass

end InstructionTree.Collection
