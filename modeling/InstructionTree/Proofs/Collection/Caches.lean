/-
Filtering and the promises of cached flags.

A pass detaches what it rejects at once, but commits only when it ends. So
the owner is dirty from the first rejection on, through all the calls that
follow (`Pass.dirt`). If nothing was rejected there is no commit, and then
there was nothing to commit: a pass that keeps everything stores every
element where it was.
-/
import InstructionTree.Proofs.Collection.Sifting
import InstructionTree.Proofs.Forest.Caches

namespace InstructionTree

open Forest

variable {checks : Checks} {locks dirty : List NodeId} {f g h : Forest}

namespace Forest

/-- What no step breaks that is about dirty owners only, and a commit
mends: of the forest and the owners that are dirty now. A commit may have to
leave a forest of which `Q` holds. -/
structure Promise (Q : Forest → Prop) (P : Forest → List NodeId → Prop) :
    Prop where
  mono : ∀ {f dirty more}, P f dirty → (∀ n ∈ dirty, n ∈ more) → P f more
  overlooks : ∀ {f g dirty}, P f dirty → Overlooks f g dirty → P g dirty
  commit : ∀ {f o dirty}, P f (o :: dirty) → Q (f.commit o) →
    P (f.commit o) dirty

theorem promise_trusts : Promise (fun _ => True) Trusts where
  mono htrusts hmore := htrusts.mono hmore
  overlooks htrusts hfg := htrusts.overlooks hfg
  commit htrusts _ := htrusts.commit

theorem overlooks_hold (n : NodeId) : Overlooks f (f.hold n) dirty :=
  overlooks_update n (fun _ => rfl) (fun _ => rfl) (fun _ => rfl)
    fun _ => rfl

theorem overlooks_release (n : NodeId) :
    Overlooks f (f.release n) dirty := by
  have hgiven : Overlooks f
      (f.update n fun x => { x with handles := x.handles - 1 }) dirty :=
    overlooks_update n (fun _ => rfl) (fun _ => rfl) (fun _ => rfl)
      fun _ => rfl
  exact hgiven.trans (overlooks_sheds (sheds_reap _ n))

theorem overlooks_beginTraversal (n : NodeId) :
    Overlooks f (f.beginTraversal n) dirty :=
  overlooks_update n (fun _ => rfl) (fun _ => rfl) (fun _ => rfl)
    fun _ => rfl

theorem overlooks_endTraversal (n : NodeId) :
    Overlooks f (endTraversal checks n f).state dirty := by
  unfold Forest.endTraversal
  split
  · exact .refl f dirty
  · exact overlooks_update n (fun _ => rfl) (fun _ => rfl) (fun _ => rfl)
      fun _ => rfl

/-- An edit that was `Carried` out and did not break off is `Batched`. -/
theorem Carried.batched {o : NodeId} {α : Type} {out : Outcome Forest α}
    (hout : Carried checks o f out)
    (hunbroken : ∀ op s, out ≠ .stop (.panic (.notATree op)) s) :
    Batched f out.state := by
  cases hout with
  | idle | refused => exact .refl
  | guarded e ev => exact Batched.refl.unseen (overlooks_emit ev)
  | done a hfg hgh =>
      exact (Batched.refl.commit (overlooks_touches (.head _) hfg)).unseen
        (overlooks_sheds hgh)
  | broken op => exact absurd rfl (hunbroken op _)

end Forest

namespace Collection

variable {c : Collection} {Q : Forest → Prop}
  {P : Forest → List NodeId → Prop}

theorem overlooks_renumber (old new : Nat) (n : NodeId) :
    Overlooks f (c.renumber f old new n) dirty := by
  unfold renumber
  split
  · exact overlooks_setPosition n _
  · exact .refl f dirty

theorem overlooks_renumberFrom (old : Nat → Nat) :
    ∀ (i : Nat) (ns : List NodeId) (f : Forest),
      Overlooks f (c.renumberFrom old i ns f) dirty
  | _, [], f => .refl f dirty
  | i, n :: rest, _ =>
      (overlooks_renumber (old i) i n).trans
        (overlooks_renumberFrom old (i + 1) rest _)

-- =============================================================== the pass

/-- The dirty owners during a pass: those of `dirty`, and `c.owner` once
something was rejected. -/
def Pass.dirt (pass : Pass) (c : Collection) (dirty : List NodeId) :
    List NodeId :=
  if pass.rejected = 0 then dirty else c.owner :: dirty

/-- If nothing was rejected, `kept` and `judged` are equal: no element has
moved. -/
def Pass.Level (pass : Pass) : Prop :=
  pass.rejected = 0 → pass.kept = pass.judged

theorem Pass.mem_dirt {pass : Pass} (hsome : pass.rejected ≠ 0) :
    c.owner ∈ pass.dirt c dirty := by
  rw [dirt, if_neg hsome]
  exact .head _

theorem overlooks_keep {pass : Pass} (n : NodeId) (hlevel : pass.Level) :
    Overlooks f (c.keep n pass f).2 (pass.dirt c dirty) := by
  have hplaced : Overlooks f (c.renumber f pass.judged pass.kept n)
      (pass.dirt c dirty) := overlooks_renumber pass.judged pass.kept n
  unfold keep
  dsimp only
  generalize c.renumber f pass.judged pass.kept n = g at hplaced ⊢
  split
  next first second hfirst hsecond =>
    refine hplaced.trans ?_
    by_cases hnone : pass.rejected = 0
    · -- the element changes places with itself
      rw [hlevel hnone] at hfirst ⊢
      cases hfirst.symm.trans hsecond
      obtain ⟨hj, hget⟩ := List.getElem?_eq_some_iff.mp hsecond
      dsimp only
      rw [List.set_set, ← hget, List.set_getElem_self]
      exact overlooks_setSlot_self c.owner c.slot
    · exact overlooks_setSlot (Pass.mem_dirt hnone) _ _
  · exact hplaced

theorem overlooks_compact {pass : Pass} (hlevel : pass.Level) :
    Overlooks f (pass.compact c f) (pass.dirt c dirty) := by
  obtain ⟨zone, -, hcompact⟩ := compact_eq (c := c) (f := f) pass rfl rfl
  generalize hstop : min pass.judged (c.length f) = stop at hcompact
  have hstored : Overlooks f
      (c.setItems f ((c.items f).take (min pass.kept stop)
        ++ (c.items f).drop stop)) (pass.dirt c dirty) := by
    by_cases hnone : pass.rejected = 0
    · have hwhole : min pass.kept stop = stop := by
        rw [hlevel hnone, ← hstop]
        exact Nat.min_eq_right (Nat.min_le_left _ _)
      rw [hwhole, List.take_append_drop]
      exact overlooks_setSlot_self c.owner c.slot
    · exact overlooks_setSlot (Pass.mem_dirt hnone) _ _
  rw [hcompact]
  exact (hstored.trans (overlooks_sheds (sheds_reapAll _ zone))).trans
    (overlooks_renumberFrom _ _ _ _)

/-- A promise that holds with the pass's `dirt` holds with `dirty` after
`finish` succeeded: the commit of the owner mends it. -/
theorem Pass.kept_finish {pass : Pass} {u : Unit} (hP : Promise Q P)
    (hlevel : pass.Level) (hf : P f (pass.dirt c dirty))
    (hfinish : pass.finish checks c f = .ok u g) (hQ : Q g) :
    P g dirty := by
  have hended : P (endTraversal checks c.owner (pass.compact c f)).state
      (pass.dirt c dirty) :=
    hP.overlooks hf ((overlooks_compact hlevel).trans
      (overlooks_endTraversal c.owner))
  obtain ⟨h, hend, rfl⟩ := Outcome.next_eq_ok hfinish
  rw [hend] at hended
  by_cases hnone : pass.rejected = 0
  · rw [if_pos hnone]
    rwa [Pass.dirt, if_pos hnone] at hended
  · rw [if_neg hnone] at hQ ⊢
    rw [Pass.dirt, if_neg hnone] at hended
    exact hP.commit hended hQ

/-- After a pass that rejected nothing a promise holds with `dirty`, whether
`finish` succeeded or not. -/
theorem Pass.kept_finish_of_level {pass : Pass} (hP : Promise Q P)
    (hlevel : pass.Level) (hnone : pass.rejected = 0)
    (hf : P f (pass.dirt c dirty))
    (hQ : Q (pass.finish checks c f).state) :
    P (pass.finish checks c f).state dirty := by
  cases hfinish : pass.finish checks c f with
  | ok u h =>
      rw [hfinish] at hQ
      exact Pass.kept_finish hP hlevel hf hfinish hQ
  | stop why h =>
      have hcompact := hP.overlooks hf (overlooks_compact hlevel)
      rw [Pass.dirt, if_pos hnone] at hcompact
      rw [(finish_stop hfinish).1]
      exact hcompact

-- ============================================================== the calls

/-- A call is `Honest` about `P` if `P` holds after it with the same dirty
owners as before it. -/
def Judgement.Honest (checks : Checks) (locks : List NodeId)
    (P : Forest → List NodeId → Prop) (j : Judgement) : Prop :=
  j.before.Sound checks (j.node :: locks) → ∀ {dirty},
    P j.before dirty → P j.after dirty

theorem Sifts.promised {count : Nat} {pass last : Pass}
    {calls : List Judgement} {stopped : Option Stop}
    (hP : Promise Q P)
    (hsifts : Sifts c count pass f calls last stopped h)
    (ho : c.owner ∈ locks) (hs : f.Sound checks locks) (hc : c.Fits f)
    (hkeeps : ∀ j ∈ calls, j.Keeps checks locks)
    (hhonest : ∀ j ∈ calls, j.Honest checks locks P)
    (hlevel : pass.Level) (hf : P f (pass.dirt c dirty)) :
    last.Level ∧ P h (last.dirt c dirty) := by
  have hcall : ∀ {n : NodeId} {f : Forest} {dirty : List NodeId}
      {out : Outcome Forest Bool},
      f.Sound checks locks → n ∈ c.items f →
      Judgement.Honest checks locks P ⟨n, f.hold n, out⟩ →
      P f dirty → P out.state dirty := by
    intro n f dirty out hs hn hj hf
    exact hj (hs.hold (alive_of_mem_items hs.toWellFormed hn))
      (hP.overlooks hf (overlooks_hold n))
  induction hsifts with
  | full | short => exact ⟨hlevel, hf⟩
  | failed hn =>
      have hanswer := hcall hs (List.mem_of_getElem? hn)
        (hhonest _ (.head _)) hf
      exact ⟨hlevel, hP.overlooks hanswer (overlooks_release _)⟩
  | @rejected _ pass _ f g _ n _ _ hn _ ih =>
      have hmem := List.mem_of_getElem? hn
      obtain ⟨hg, hages⟩ := (hkeeps _ (.head _)).run hs hmem
      obtain ⟨hk, hages'⟩ := after_call hg (touches_reject n pass) hages
      have hdirty : P g (c.owner :: dirty) :=
        hP.mono (hcall hs hmem (hhonest _ (.head _)) hf) fun m hm => by
          unfold Pass.dirt at hm
          split at hm
          · exact .tail _ hm
          · exact hm
      refine ih hk (hc.ages hages' (hk.alive ho))
        (fun j hj => hkeeps j (.tail _ hj))
        (fun j hj => hhonest j (.tail _ hj))
        (fun hnone => absurd hnone (Nat.succ_ne_zero _)) ?_
      exact hP.overlooks hdirty
        ((overlooks_detach (.head _) n).trans (overlooks_release n))
  | @kept _ pass next _ f g k _ n _ _ hn hkeep _ ih =>
      have hmem := List.mem_of_getElem? hn
      have hanswer : P g (pass.dirt c dirty) :=
        hcall hs hmem (hhonest _ (.head _)) hf
      obtain ⟨hg, hages⟩ := (hkeeps _ (.head _)).run hs hmem
      have htouches : Touches checks c.owner g k :=
        touches_kept hg.toWellFormed
          (hc.ages hages (hg.alive (.tail _ ho))) hkeep
      have hkept := hP.overlooks hanswer (overlooks_keep n hlevel)
      rw [hkeep] at hkept
      obtain ⟨hk, hages'⟩ := after_call hg htouches hages
      have hnext := keep_eq_some hkeep
      refine ih hk (hc.ages hages' (hk.alive ho))
        (fun j hj => hkeeps j (.tail _ hj))
        (fun j hj => hhonest j (.tail _ hj)) ?_ ?_
      · rw [hnext]
        exact fun hnone => congrArg (· + 1) (hlevel hnone)
      · rw [hnext]
        exact hP.overlooks hkept (overlooks_release n)
  | @lost _ pass f g k n hn hkeep =>
      have hanswer : P g (pass.dirt c dirty) :=
        hcall hs (List.mem_of_getElem? hn) (hhonest _ (.head _)) hf
      have hkept := hP.overlooks hanswer (overlooks_keep n hlevel)
      rw [hkeep] at hkept
      exact ⟨hlevel, hP.overlooks hkept (overlooks_release n)⟩

/-- `removeAll` keeps a promise if its pass could be ended, or had rejected
nothing. -/
theorem promised_removeAll {σ : Type} {judge : Judge σ} {st : σ}
    (hP : Promise Q P)
    (ho : c.owner ∈ locks) (hs : f.Sound checks locks) (hc : c.Fits f)
    (hkeeps : ∀ j ∈ c.removalCalls checks judge (f, st),
      j.Keeps checks locks)
    (hhonest : ∀ j ∈ c.removalCalls checks judge (f, st),
      j.Honest checks locks P)
    (hend : (∃ g, c.removalEnd checks judge (f, st) = .ok () g)
      ∨ ∀ j ∈ c.removalCalls checks judge (f, st), j.rejects = false)
    (hQ : Q ((c.removeAll checks judge (f, st)).mapState Prod.fst).state)
    (hf : P f dirty) :
    P ((c.removeAll checks judge (f, st)).mapState Prod.fst).state
      dirty := by
  have hbegin := alike_beginTraversal (f := f) c.owner
  have hs' := hs.alike hbegin
  have hsifted : ∀ {pass stopped g}, Sifts c (c.length f) ⟨0, 0, 0⟩
      (f.beginTraversal c.owner) (c.removalCalls checks judge (f, st))
      pass stopped g → pass.Level ∧ P g (pass.dirt c dirty) :=
    fun hsifts => hsifts.promised hP ho hs'
      (hc.alike hbegin) hkeeps hhonest (fun _ => rfl)
      (hP.overlooks hf (overlooks_beginTraversal c.owner))
  rcases hend with ⟨g, hend⟩ | hnone
  · rcases state_removeAll checks c hend with
      ⟨e, hstate⟩ | ⟨hstate, pass, stopped, h, hsifts, hfinish⟩
    · rw [hstate]
      exact hP.overlooks hf (overlooks_emit e)
    · rw [hstate] at hQ ⊢
      obtain ⟨hlevel, hpass⟩ := hsifted hsifts
      exact Pass.kept_finish hP hlevel hpass hfinish hQ
  · have hkept : ∀ {pass stopped g}, Sifts c (c.length f) ⟨0, 0, 0⟩
        (f.beginTraversal c.owner) (c.removalCalls checks judge (f, st))
        pass stopped g → Q (pass.finish checks c g).state →
        P (pass.finish checks c g).state dirty := by
      intro pass stopped g hsifts
      obtain ⟨hlevel, hpass⟩ := hsifted hsifts
      refine Pass.kept_finish_of_level hP hlevel ?_ hpass
      rw [hsifts.rejected_eq, List.countP_eq_zero.mpr fun j hj => by
        rw [hnone j hj]
        exact nofun]
    have hfiltered := filtered_removeAll checks c judge f st
    generalize c.removalCalls checks judge (f, st) = calls
      at hfiltered hkept
    generalize (c.removeAll checks judge (f, st)).mapState Prod.fst = out
      at hfiltered hQ ⊢
    rcases hfiltered.ends with
      ⟨e, ev, rfl⟩ | ⟨pass, stopped, g, hsifts, hstate⟩
    · exact hP.overlooks hf (overlooks_emit ev)
    · rw [hstate] at hQ ⊢
      exact hkept hsifts hQ

end Collection

end InstructionTree
