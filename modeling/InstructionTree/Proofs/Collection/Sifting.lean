/-
A filtering pass without its judge.

The judge of a pass is any program, so a proof about a pass can only speak
of what the judge's calls did. A `Judgement` is one call as seen from
outside: the node it was about, the forest it was shown, and how it ended.
`judgements` lists the calls of a pass, and `Sifts` says how a pass runs
if its calls ended like that. `Sifts` mentions no judge and no state of
one; an induction over it has one case for every way a step of the pass
can go.

# The whole

`Filtered` adds what happens around the pass: a guard that refuses it, or
the traversal that is opened, the compaction, and the commit.
-/
import InstructionTree.Proofs.Collection.Steps

namespace InstructionTree

namespace Collection

open Forest

-- ============================================================ judgements

/-- One call of a judge: about which node, in which forest, and how it ended.
-/
structure Judgement where
  /-- The node under judgement. -/
  node : NodeId
  /-- The forest that the judge was shown. -/
  before : Forest
  /-- How the call ended. -/
  verdict : Outcome Forest Bool

namespace Judgement

/-- The forest that the call left. -/
def after (j : Judgement) : Forest := j.verdict.state

/-- Whether the call rejected the node. -/
def rejects (j : Judgement) : Bool :=
  match j.verdict with
  | .ok answer _ => answer
  | .stop _ _ => false

end Judgement

variable {σ : Type} (checks : Checks) (c : Collection)

/-- The calls that `sift` makes, in order. -/
def judgements (judge : Judge σ) :
    Nat → Pass → Forest × σ → List Judgement
  | 0, _, _ => []
  | count + 1, pass, (f, st) =>
      match (c.items f)[pass.judged]? with
      | none => []
      | some n =>
          let verdict := judge n (f.hold n, st)
          ⟨n, f.hold n, verdict.mapState Prod.fst⟩ ::
            match verdict with
            | .stop _ _ => []
            | .ok true (g, st) =>
                let (pass, g) := c.reject n pass g
                judgements judge count pass (g.release n, st)
            | .ok false (g, st) =>
                match c.keep n pass g with
                | (some pass, g) =>
                    judgements judge count pass (g.release n, st)
                | (none, _) => []

/-- The calls that `removeAll` makes, in order. -/
def removalCalls (judge : Judge σ) (s : Forest × σ) : List Judgement :=
  if s.1.isGuarded checks c.owner then []
  else c.judgements judge (c.length s.1) ⟨0, 0, 0⟩
    (s.1.beginTraversal c.owner, s.2)

/-- How the pass of `removeAll` is brought to its end, whether it was
stopped or not. -/
def removalEnd (judge : Judge σ) (s : Forest × σ) : Outcome Forest Unit :=
  if s.1.isGuarded checks c.owner then .ok () s.1
  else
    let ((pass, _), (f, _)) := c.sift judge (c.length s.1) ⟨0, 0, 0⟩
      (s.1.beginTraversal c.owner, s.2)
    pass.finish checks c f

-- =============================================================== sifting

/-- A run of at most `count` steps of a pass: the calls, how far the pass
came, what stopped it, and the forest it left. -/
inductive Sifts (c : Collection) : Nat → Pass → Forest → List Judgement →
    Pass → Option Stop → Forest → Prop where
  /-- There were no more steps. -/
  | full {pass : Pass} {f : Forest} : Sifts c 0 pass f [] pass none f
  /-- There were no more elements. -/
  | short {count : Nat} {pass : Pass} {f : Forest}
      (hnone : (c.items f)[pass.judged]? = none) :
      Sifts c (count + 1) pass f [] pass none f
  /-- The judge stopped the pass. -/
  | failed {count : Nat} {pass : Pass} {f g : Forest} {n : NodeId}
      {why : Stop} (hn : (c.items f)[pass.judged]? = some n) :
      Sifts c (count + 1) pass f [⟨n, f.hold n, .stop why g⟩]
        pass (some why) (g.release n)
  /-- The element was rejected. -/
  | rejected {count : Nat} {pass last : Pass} {f g h : Forest} {n : NodeId}
      {calls : List Judgement} {stopped : Option Stop}
      (hn : (c.items f)[pass.judged]? = some n)
      (hrest : Sifts c count (c.reject n pass g).1
        ((c.reject n pass g).2.release n) calls last stopped h) :
      Sifts c (count + 1) pass f (⟨n, f.hold n, .ok true g⟩ :: calls)
        last stopped h
  /-- The element was kept. -/
  | kept {count : Nat} {pass next last : Pass} {f g k h : Forest}
      {n : NodeId} {calls : List Judgement} {stopped : Option Stop}
      (hn : (c.items f)[pass.judged]? = some n)
      (hkeep : c.keep n pass g = (some next, k))
      (hrest : Sifts c count next (k.release n) calls last stopped h) :
      Sifts c (count + 1) pass f (⟨n, f.hold n, .ok false g⟩ :: calls)
        last stopped h
  /-- The element was to be kept, but an index was gone. -/
  | lost {count : Nat} {pass : Pass} {f g k : Forest} {n : NodeId}
      (hn : (c.items f)[pass.judged]? = some n)
      (hkeep : c.keep n pass g = (none, k)) :
      Sifts c (count + 1) pass f [⟨n, f.hold n, .ok false g⟩]
        pass (some (.panic .noSuchElement)) (k.release n)

/-- `Sifts` of no steps makes no calls, and leaves pass and forest as they are.
-/
theorem Sifts.eq_of_zero {pass last : Pass} {f g : Forest}
    {calls : List Judgement} {stopped : Option Stop}
    (hsifts : Sifts c 0 pass f calls last stopped g) :
    calls = [] ∧ last = pass ∧ stopped = none ∧ g = f := by
  cases hsifts with
  | full => exact ⟨rfl, rfl, rfl, rfl⟩

/-- `sift` runs like its calls ended. -/
theorem sifts_sift (judge : Judge σ) :
    ∀ (count : Nat) (pass : Pass) (f : Forest) (st : σ),
      Sifts c count pass f (c.judgements judge count pass (f, st))
        (c.sift judge count pass (f, st)).1.1
        (c.sift judge count pass (f, st)).1.2
        (c.sift judge count pass (f, st)).2.1
  | 0, pass, f, st => .full
  | count + 1, pass, f, st => by
      unfold sift judgements
      cases hn : (c.items f)[pass.judged]? with
      | none => exact .short hn
      | some n =>
        dsimp only
        cases hverdict : judge n (f.hold n, st) with
        | stop why s => exact .failed hn
        | ok answer s =>
            obtain ⟨g, st'⟩ := s
            cases answer with
            | true =>
                exact .rejected hn (sifts_sift judge count _ _ st')
            | false =>
                dsimp only [Outcome.mapState]
                cases hkeep : c.keep n pass g with
                | mk next k =>
                    cases next with
                    | some next =>
                        exact .kept hn hkeep
                          (sifts_sift judge count next _ st')
                    | none => exact .lost hn hkeep

-- ============================================================= the whole

/-- How a filtering of `c` in `f` with these calls can end. -/
inductive Filtered (f : Forest) (calls : List Judgement) :
    Outcome Forest Nat → Prop where
  /-- A traversal forbids it. -/
  | refused (e : Fault) (ev : Event) (hnone : calls = []) :
      Filtered f calls (.stop (.fault e) (f.emit ev))
  /-- It was done. -/
  | finished {pass : Pass} {g h : Forest}
      (hsifts : Sifts c (c.length f) ⟨0, 0, 0⟩ (f.beginTraversal c.owner)
        calls pass none g)
      (hfinish : pass.finish checks c g = .ok () h) :
      Filtered f calls (.ok pass.rejected h)
  /-- The traversal of the pass could not be closed. -/
  | unbalanced {pass : Pass} {g h : Forest} {why : Stop}
      (hsifts : Sifts c (c.length f) ⟨0, 0, 0⟩ (f.beginTraversal c.owner)
        calls pass none g)
      (hfinish : pass.finish checks c g = .stop why h) :
      Filtered f calls (.stop why h)
  /-- The pass was stopped early, and finished what it had begun. -/
  | stopped {pass : Pass} {g : Forest} {why : Stop}
      (hsifts : Sifts c (c.length f) ⟨0, 0, 0⟩ (f.beginTraversal c.owner)
        calls pass (some why) g) :
      Filtered f calls (.stop why (pass.finish checks c g).state)

/-- A filtering answered a fault and changed nothing, or left what `finish` of
its pass left. -/
theorem Filtered.ends {f : Forest} {calls : List Judgement}
    {out : Outcome Forest Nat} (hout : Filtered checks c f calls out) :
    (∃ e ev, out = .stop (.fault e) (f.emit ev))
      ∨ ∃ pass stopped g,
        Sifts c (c.length f) ⟨0, 0, 0⟩ (f.beginTraversal c.owner) calls pass
          stopped g
        ∧ out.state = (pass.finish checks c g).state := by
  cases hout with
  | refused e ev => exact .inl ⟨e, ev, rfl⟩
  | finished hsifts hfinish | unbalanced hsifts hfinish =>
      refine .inr ⟨_, _, _, hsifts, ?_⟩
      rw [hfinish, Outcome.state, Outcome.state]
  | stopped hsifts => exact .inr ⟨_, _, _, hsifts, rfl⟩

theorem filtered_removeAll (judge : Judge σ) (f : Forest) (st : σ) :
    Filtered checks c f (c.removalCalls checks judge (f, st))
      ((c.removeAll checks judge (f, st)).mapState Prod.fst) := by
  unfold removeAll removalCalls requireUntraversed guarded
  cases hguard : f.isGuarded checks c.owner with
  | true => exact .refused _ _ rfl
  | false =>
      simp only [Bool.false_eq_true, if_false]
      have hsifts := sifts_sift c judge (c.length f) ⟨0, 0, 0⟩
        (f.beginTraversal c.owner) st
      generalize c.judgements judge (c.length f) ⟨0, 0, 0⟩
        (f.beginTraversal c.owner, st) = calls at hsifts ⊢
      generalize c.sift judge (c.length f) ⟨0, 0, 0⟩
        (f.beginTraversal c.owner, st) = result at hsifts ⊢
      obtain ⟨⟨pass, stopped⟩, g, st'⟩ := result
      dsimp only at hsifts ⊢
      cases stopped with
      | some why => exact .stopped hsifts
      | none =>
          cases hfinish : pass.finish checks c g with
          | ok a h => exact .finished hsifts hfinish
          | stop why h => exact .unbalanced hsifts hfinish

/-- A filtering that no traversal forbids leaves what the end of its pass
left, however that ended. -/
theorem removeAll_unguarded (judge : Judge σ) {f : Forest} (st : σ)
    (hguard : f.isGuarded checks c.owner = false) :
    ∃ pass stopped g,
      Sifts c (c.length f) ⟨0, 0, 0⟩ (f.beginTraversal c.owner)
        (c.removalCalls checks judge (f, st)) pass stopped g
      ∧ c.removalEnd checks judge (f, st) = pass.finish checks c g
      ∧ ((c.removeAll checks judge (f, st)).mapState Prod.fst).state
        = (pass.finish checks c g).state := by
  unfold removeAll removalCalls removalEnd requireUntraversed guarded
  simp only [hguard, Bool.false_eq_true, if_false]
  have hsifts := sifts_sift c judge (c.length f) ⟨0, 0, 0⟩
    (f.beginTraversal c.owner) st
  generalize c.judgements judge (c.length f) ⟨0, 0, 0⟩
    (f.beginTraversal c.owner, st) = calls at hsifts ⊢
  generalize c.sift judge (c.length f) ⟨0, 0, 0⟩
    (f.beginTraversal c.owner, st) = result at hsifts ⊢
  obtain ⟨⟨pass, stopped⟩, g, st'⟩ := result
  refine ⟨pass, stopped, g, hsifts, rfl, ?_⟩
  dsimp only
  cases stopped with
  | some why => rfl
  | none => cases pass.finish checks c g <;> rfl

/-- A filtering whose pass could be ended was refused, or left what the
end of the pass left. -/
theorem state_removeAll {judge : Judge σ} {f g : Forest} {st : σ}
    (hend : c.removalEnd checks judge (f, st) = .ok () g) :
    (∃ e, ((c.removeAll checks judge (f, st)).mapState Prod.fst).state
        = f.emit e)
      ∨ ((c.removeAll checks judge (f, st)).mapState Prod.fst).state = g
        ∧ ∃ pass stopped h,
          Sifts c (c.length f) ⟨0, 0, 0⟩ (f.beginTraversal c.owner)
            (c.removalCalls checks judge (f, st)) pass stopped h
          ∧ pass.finish checks c h = .ok () g := by
  cases hguard : f.isGuarded checks c.owner with
  | true =>
      unfold removeAll requireUntraversed guarded
      simp only [hguard, if_true]
      exact .inl ⟨_, rfl⟩
  | false =>
      obtain ⟨pass, stopped, h, hsifts, hfinish, hstate⟩ :=
        removeAll_unguarded checks c judge st hguard
      rw [hend] at hfinish
      rw [← hfinish] at hstate
      exact .inr ⟨hstate, pass, stopped, h, hsifts, hfinish.symm⟩

/-- With the guard down, and a pass whose `removalEnd` succeeds: the pass
`Sifts`, and the filtering ends with what `finish` left. -/
theorem removeAll_ended (judge : Judge σ) {f g : Forest} (st : σ)
    (hguard : f.isGuarded checks c.owner = false)
    (hend : c.removalEnd checks judge (f, st) = .ok () g) :
    ∃ pass stopped h,
      Sifts c (c.length f) ⟨0, 0, 0⟩ (f.beginTraversal c.owner)
        (c.removalCalls checks judge (f, st)) pass stopped h
      ∧ pass.finish checks c h = .ok () g
      ∧ (c.removeAll checks judge (f, st)).mapState Prod.fst
        = match stopped with
          | none => .ok pass.rejected g
          | some why => .stop why g := by
  unfold removalEnd at hend
  unfold removeAll removalCalls requireUntraversed guarded
  simp only [hguard, Bool.false_eq_true, if_false] at hend ⊢
  have hsifts := sifts_sift c judge (c.length f) ⟨0, 0, 0⟩
    (f.beginTraversal c.owner) st
  generalize c.judgements judge (c.length f) ⟨0, 0, 0⟩
    (f.beginTraversal c.owner, st) = calls at hsifts ⊢
  generalize c.sift judge (c.length f) ⟨0, 0, 0⟩
    (f.beginTraversal c.owner, st) = result at hsifts hend ⊢
  obtain ⟨⟨pass, stopped⟩, h, st'⟩ := result
  dsimp only at hsifts hend ⊢
  refine ⟨pass, stopped, h, hsifts, hend, ?_⟩
  rw [hend]
  cases stopped <;> rfl

-- =========================================================== small steps

variable {checks c} {f g : Forest} {locks : List NodeId}

theorem touches_reject (n : NodeId) (pass : Pass) :
    Touches checks c.owner f (c.reject n pass f).2 :=
  .single (.leave n)

theorem touches_keep (hwf : f.WellFormed) (hc : c.Fits f) (n : NodeId)
    (pass : Pass) : Touches checks c.owner f (c.keep n pass f).2 := by
  have hplaced : Touches checks c.owner f
      (c.renumber f pass.judged pass.kept n) := touches_renumber _ _ n
  unfold keep
  dsimp only
  split
  next first second hfirst hsecond =>
    rw [items_renumber] at hfirst hsecond ⊢
    refine hplaced.trans (touches_setItems ?_ fun m hm => ?_)
    · exact hc.touches hplaced ((isAlive_renumber ..).trans hc.alive)
    · rw [isAlive_renumber]
      refine alive_of_mem_items (c := c) hwf ?_
      rcases List.mem_or_eq_of_mem_set hm with hm | rfl
      · rcases List.mem_or_eq_of_mem_set hm with hm | rfl
        · exact hm
        · exact List.mem_of_getElem? hsecond
      · exact List.mem_of_getElem? hfirst
  · exact hplaced

/-- `keep`, whether it succeeded or not, is small steps of the owner. -/
theorem touches_kept {n : NodeId} {pass : Pass} {next : Option Pass}
    (hwf : f.WellFormed) (hc : c.Fits f)
    (hkeep : c.keep n pass f = (next, g)) : Touches checks c.owner f g := by
  have htouches : Touches checks c.owner f (c.keep n pass f).2 :=
    touches_keep hwf hc n pass
  rwa [hkeep] at htouches

/-- `keep` with elements at `kept` and at `judged` exchanges them, and tests
the place of the node. -/
theorem keep_eq {n first second : NodeId} {pass : Pass}
    (hfirst : (c.items f)[pass.kept]? = some first)
    (hsecond : (c.items f)[pass.judged]? = some second) :
    c.keep n pass f
      = (some { pass with kept := pass.kept + 1, judged := pass.judged + 1 },
        c.setItems (c.renumber f pass.judged pass.kept n)
          (((c.items f).set pass.kept second).set pass.judged first)) := by
  unfold keep
  simp only [items_renumber, hfirst, hsecond]

/-- `keep` that succeeded has stored some elements after `renumber`. -/
theorem keep_stores {n : NodeId} {pass next : Pass}
    (hkeep : c.keep n pass f = (some next, g)) :
    next = { pass with kept := pass.kept + 1, judged := pass.judged + 1 }
      ∧ ∃ items,
        g = c.setItems (c.renumber f pass.judged pass.kept n) items := by
  unfold keep at hkeep
  dsimp only at hkeep
  split at hkeep
  · cases hkeep
    exact ⟨rfl, _, rfl⟩
  · cases hkeep

/-- `keep` that succeeded adds one to `kept` and one to `judged`. -/
theorem keep_eq_some {n : NodeId} {pass next : Pass}
    (hkeep : c.keep n pass f = (some next, g)) :
    next = { pass with kept := pass.kept + 1, judged := pass.judged + 1 } :=
  (keep_stores hkeep).1

/-- Compaction stores what comes before the zone from `start` to `stop` and
what comes after it, lets go of the zone, and renumbers the rest. The
bounds of the pass are cut to the elements that there are. -/
theorem compact_eq (pass : Pass) {start stop : Nat}
    (hstop : min pass.judged (c.length f) = stop)
    (hstart : min pass.kept stop = start) :
    ∃ zone, c.items f
        = (c.items f).take start ++ zone ++ (c.items f).drop stop
      ∧ pass.compact c f
        = c.renumberFrom (fun j => j + (stop - start)) start
          (if stop = start then [] else (c.items f).drop stop)
          ((c.setItems f ((c.items f).take start
            ++ (c.items f).drop stop)).reapAll zone) := by
  refine ⟨((c.items f).drop start).take (stop - start), ?_, ?_⟩
  · have hrest : (c.items f).drop stop
        = ((c.items f).drop start).drop (stop - start) := by
      rw [List.drop_drop]
      congr 1
      omega
    rw [hrest, List.append_assoc, List.take_append_drop,
      List.take_append_drop]
  unfold length at hstop
  unfold Pass.compact
  dsimp only
  rw [hstop, hstart]
  by_cases hempty : stop = start
  · rw [if_pos (by omega), if_pos hempty]
    rfl
  · rw [if_neg (by omega), if_neg hempty]

theorem touches_compact (hwf : f.WellFormed) (hc : c.Fits f) (pass : Pass) :
    Touches checks c.owner f (pass.compact c f) := by
  obtain ⟨zone, -, hcompact⟩ := compact_eq (c := c) (f := f) pass rfl rfl
  rw [hcompact]
  refine ((touches_setItems hc fun m hm => ?_).trans
    (sheds_reapAll _ zone).touches).trans (touches_renumberFrom _ _ _)
  rcases List.mem_append.mp hm with hm | hm
  · exact alive_of_mem_items hwf (List.mem_of_mem_take hm)
  · exact alive_of_mem_items hwf (List.mem_of_mem_drop hm)

/-- Without a broken contract, a pass ends with its compaction, and a
commit if it rejected anything; the traversal count shows in no shape. -/
theorem finish_ok {pass : Pass} {h : Forest} {u : Unit}
    (hfinish : pass.finish checks c f = .ok u h) :
    ∃ g, Alike (pass.compact c f) g
      ∧ h = if pass.rejected = 0 then g else g.commit c.owner := by
  obtain ⟨g, hend, rfl⟩ := Outcome.next_eq_ok hfinish
  have halike := alike_endTraversal (f := pass.compact c f) checks c.owner
  rw [hend] at halike
  exact ⟨g, halike, rfl⟩

/-- `finish` stops only with `unbalancedTraversal`, after `compact`. -/
theorem finish_stop {pass : Pass} {h : Forest} {why : Stop}
    (hfinish : pass.finish checks c f = .stop why h) :
    h = pass.compact c f
      ∧ ∃ op, why = .panic (.unbalancedTraversal op) := by
  unfold Pass.finish at hfinish
  cases hend : endTraversal checks c.owner (pass.compact c f) with
  | ok a g =>
      rw [hend] at hfinish
      cases hfinish
  | stop why' g =>
      rw [hend] at hfinish
      cases hfinish
      unfold endTraversal at hend
      split at hend
      · cases hend
        exact ⟨rfl, _, rfl⟩
      · cases hend

/-- `rejected` grows by the number of calls that rejected. -/
theorem Sifts.rejected_eq {count : Nat} {pass last : Pass} {h : Forest}
    {calls : List Judgement} {stopped : Option Stop}
    (hsifts : Sifts c count pass f calls last stopped h) :
    last.rejected = pass.rejected + calls.countP Judgement.rejects := by
  induction hsifts with
  | full | short | failed | lost => rfl
  | @rejected _ pass _ f g _ n _ _ _ _ ih =>
      rw [ih, List.countP_cons_of_pos rfl]
      show pass.rejected + 1 + _ = _
      omega
  | @kept _ pass next _ _ _ _ _ n _ _ _ hkeep _ ih =>
      rw [ih, keep_eq_some hkeep,
        List.countP_cons_of_neg Bool.false_ne_true]

/-- A pass that was stopped for another reason than `noSuchElement` was stopped
by a call with that reason. -/
theorem Sifts.call_of_stop {count : Nat} {pass last : Pass} {h : Forest}
    {calls : List Judgement} {stopped : Option Stop} {why : Stop}
    (hsifts : Sifts c count pass f calls last stopped h)
    (hstopped : stopped = some why) (hwhy : why ≠ .panic .noSuchElement) :
    ∃ j ∈ calls, ∃ g, j.verdict = .stop why g := by
  induction hsifts with
  | full | short => cases hstopped
  | failed =>
      cases hstopped
      exact ⟨_, .head _, _, rfl⟩
  | rejected _ _ ih | kept _ _ _ ih =>
      obtain ⟨j, hj, hverdict⟩ := ih hstopped
      exact ⟨j, .tail _ hj, hverdict⟩
  | lost =>
      cases hstopped
      exact absurd rfl hwhy

section

variable {between : Nat → Forest → Prop}
  {during : Nat → NodeId → Forest → Prop} {first last : Nat}

/-- What holds `during` the first call and those after it holds during all of
them. -/
private theorem carry_cons {h : Forest} {j : Judgement}
    {calls : List Judgement} (hj : during first j.node j.before)
    (hrest : first < last →
      (∀ k i, calls[k]? = some i → first + 1 + k ≤ last →
        during (first + 1 + k) i.node i.before)
      ∧ (first + 1 + calls.length ≤ last →
        between (first + 1 + calls.length) h)) :
    (∀ k i, (j :: calls)[k]? = some i → first + k ≤ last →
        during (first + k) i.node i.before)
      ∧ (first + (j :: calls).length ≤ last →
        between (first + (j :: calls).length) h) := by
  constructor
  · intro k i hk hle
    cases k with
    | zero =>
        cases hk
        exact hj
    | succ k =>
        have hle' : first + 1 + k ≤ last := by omega
        have hinside := (hrest (by omega)).1 k i hk hle'
        rwa [Nat.add_assoc, Nat.add_comm 1] at hinside
  · intro hle
    rw [List.length_cons, Nat.add_comm calls.length, ← Nat.add_assoc]
      at hle ⊢
    exact (hrest (by omega)).2 hle

/-- What all calls keep is kept by the calls after the first one. -/
private theorem carry_tail {j : Judgement} {calls : List Judgement}
    (hall : ∀ k i, (j :: calls)[k]? = some i → first + k < last →
      during (first + k) i.node i.before →
      during (first + k + 1) i.node i.after) (k : Nat) (i : Judgement)
    (hk : calls[k]? = some i) (hlt : first + 1 + k < last)
    (hi : during (first + 1 + k) i.node i.before) :
    during (first + 1 + k + 1) i.node i.after := by
  rw [Nat.add_assoc first, Nat.add_comm 1] at hlt hi ⊢
  exact hall (k + 1) i hk hlt hi

variable (hopen : ∀ {k n f}, between k f → n ∈ c.items f →
    during k n (f.hold n))
  (hfits : ∀ {k n f}, during k n f → f.WellFormed ∧ c.Fits f)
  (hdone : ∀ {k n f g}, during k n f → Touches checks c.owner f g →
    between k (g.release n))
  {count : Nat} {pass final : Pass} {h : Forest} {calls : List Judgement}
  {stopped : Option Stop}
include hopen hfits hdone

variable (between during) in
/-- A run that begins with call `first`. -/
private theorem carry_from
    (hsifts : Sifts c count pass f calls final stopped h)
    (hcalls : ∀ k j, calls[k]? = some j → first + k < last →
      during (first + k) j.node j.before →
      during (first + k + 1) j.node j.after)
    (hf : between first f) :
    (∀ k j, calls[k]? = some j → first + k ≤ last →
        during (first + k) j.node j.before)
      ∧ (first + calls.length ≤ last → between (first + calls.length) h) := by
  induction hsifts generalizing first with
  | full | short =>
      refine ⟨fun k j hk => ?_, fun _ => hf⟩
      rw [List.getElem?_nil] at hk
      cases hk
  | @failed _ pass f g n why hn =>
      have hstart := hopen hf (List.mem_of_getElem? hn)
      refine carry_cons hstart fun hlt => ⟨fun k j hk => ?_, fun _ => ?_⟩
      · rw [List.getElem?_nil] at hk
        cases hk
      · exact hdone (hcalls 0 _ rfl hlt hstart) .refl
  | @rejected _ pass _ f g _ n calls _ hn hrest ih =>
      have hstart := hopen hf (List.mem_of_getElem? hn)
      refine carry_cons hstart fun hlt => ?_
      have hcall := hcalls 0 _ rfl hlt hstart
      exact ih (carry_tail hcalls) (hdone hcall (touches_reject n pass))
  | @kept _ pass next _ f g k _ n calls _ hn hkeep hrest ih =>
      have hstart := hopen hf (List.mem_of_getElem? hn)
      refine carry_cons hstart fun hlt => ?_
      have hcall := hcalls 0 _ rfl hlt hstart
      obtain ⟨hwf, hc⟩ := hfits hcall
      exact ih (carry_tail hcalls) (hdone hcall (touches_kept hwf hc hkeep))
  | @lost _ pass f g k n hn hkeep =>
      have hstart := hopen hf (List.mem_of_getElem? hn)
      refine carry_cons hstart fun hlt => ⟨fun k j hk => ?_, fun _ => ?_⟩
      · rw [List.getElem?_nil] at hk
        cases hk
      · have hcall := hcalls 0 _ rfl hlt hstart
        obtain ⟨hwf, hc⟩ := hfits hcall
        exact hdone hcall (touches_kept hwf hc hkeep)

variable (between during) in
/-- What holds between the calls of a pass, and during them. If it is
carried into every call (`hopen`), through the calls before `last`
(`hcalls`) and out of them again (`hdone`), it holds at the start of call
`last`, or at the end if there is no such call. -/
theorem Sifts.carry (hsifts : Sifts c count pass f calls final stopped h)
    (hcalls : ∀ k j, calls[k]? = some j → k < last →
      during k j.node j.before → during (k + 1) j.node j.after)
    (hf : between 0 f) :
    (∀ k j, calls[k]? = some j → k ≤ last → during k j.node j.before)
      ∧ (calls.length ≤ last → between calls.length h) := by
  have hinside : ∀ k j, calls[k]? = some j → 0 + k < last →
      during (0 + k) j.node j.before →
      during (0 + k + 1) j.node j.after := by
    simpa only [Nat.zero_add] using hcalls
  have hcarried := carry_from between during hopen hfits hdone hsifts hinside
    hf
  simpa only [Nat.zero_add] using hcarried

end

-- ============================================================== soundness

/-- A call of a judge leaves a sound forest. The node under judgement is
locked while it runs. -/
def Judgement.Keeps (checks : Checks) (locks : List NodeId)
    (j : Judgement) : Prop :=
  j.before.Sound checks (j.node :: locks) →
    j.after.Sound checks (j.node :: locks) ∧ Ages j.before j.after

/-- A call that `Keeps` leaves a sound forest that is older than the one before
the element was held. -/
theorem Judgement.Keeps.run {n : NodeId} {out : Outcome Forest Bool}
    (hkeeps : Judgement.Keeps checks locks ⟨n, f.hold n, out⟩)
    (hs : f.Sound checks locks) (hn : n ∈ c.items f) :
    out.state.Sound checks (n :: locks) ∧ Ages f out.state := by
  obtain ⟨hs', hages⟩ :=
    hkeeps (hs.hold (alive_of_mem_items hs.toWellFormed hn))
  exact ⟨hs', (alike_hold n).ages.trans hages⟩

/-- After a call, small steps and the `release` of its element leave the forest
sound. -/
theorem after_call {n : NodeId} {k : Forest} {o : NodeId}
    (hg : g.Sound checks (n :: locks)) (hgk : Touches checks o g k)
    (hfg : Ages f g) :
    (k.release n).Sound checks locks ∧ Ages f (k.release n) :=
  ⟨(hgk.sound hg).unlock, (hfg.trans hgk.ages).trans (ages_release k n)⟩

section

variable {count : Nat} {pass final : Pass} {h : Forest}
  {calls : List Judgement} {stopped : Option Stop}
  (hsifts : Sifts c count pass f calls final stopped h)
  (ho : c.owner ∈ locks) (hs : f.Sound checks locks) (hc : c.Fits f)
include hsifts ho hs hc

/-- A run of a pass keeps the forest sound and related to what it was, if
its calls do, and all that happens around them. So are the forests that the
calls are shown. -/
theorem Sifts.sound_with {R : Forest → Forest → Prop}
    (hages : ∀ {f g}, R f g → Ages f g)
    (htrans : ∀ {f g h}, R f g → R g h → R f h)
    (hhold : ∀ f n, R f (f.hold n)) (hrelease : ∀ f n, R f (f.release n))
    (htouches : ∀ {f g}, Touches checks c.owner f g → R f g)
    (hcalls : ∀ j ∈ calls, j.before.Sound checks (j.node :: locks) →
      j.after.Sound checks (j.node :: locks) ∧ R j.before j.after) :
    (∀ j ∈ calls, j.before.Sound checks (j.node :: locks) ∧ R f j.before)
      ∧ h.Sound checks locks ∧ R f h := by
  have hopen : ∀ {g : Forest} {n : NodeId},
      g.Sound checks locks ∧ R f g → n ∈ c.items g →
      (g.hold n).Sound checks (n :: locks) ∧ R f (g.hold n) := by
    intro g n hg hn
    exact ⟨hg.1.hold (alive_of_mem_items hg.1.toWellFormed hn),
      htrans hg.2 (hhold g n)⟩
  have hfits : ∀ {g : Forest} {n : NodeId},
      g.Sound checks (n :: locks) ∧ R f g → g.WellFormed ∧ c.Fits g := by
    intro g n hg
    exact ⟨hg.1.toWellFormed,
      hc.ages (hages hg.2) (hg.1.alive (.tail _ ho))⟩
  have hdone : ∀ {g k : Forest} {n : NodeId},
      g.Sound checks (n :: locks) ∧ R f g → Touches checks c.owner g k →
      (k.release n).Sound checks locks ∧ R f (k.release n) := by
    intro g k n hg hgk
    exact ⟨(hgk.sound hg.1).unlock,
      htrans (htrans hg.2 (htouches hgk)) (hrelease k n)⟩
  have hinside : ∀ k j, calls[k]? = some j → k < calls.length →
      j.before.Sound checks (j.node :: locks) ∧ R f j.before →
      j.after.Sound checks (j.node :: locks) ∧ R f j.after := by
    intro k j hk _ hj
    obtain ⟨hs', hrelated⟩ := hcalls j (List.mem_of_getElem? hk) hj.1
    exact ⟨hs', htrans hj.2 hrelated⟩
  have hcarried := Sifts.carry (fun _ g => g.Sound checks locks ∧ R f g)
    (fun _ n g => g.Sound checks (n :: locks) ∧ R f g)
    hopen hfits hdone hsifts hinside ⟨hs, htouches .refl⟩
  refine ⟨fun j hj => ?_, hcarried.2 (Nat.le_refl _)⟩
  obtain ⟨k, hlt, rfl⟩ := List.mem_iff_getElem.mp hj
  exact hcarried.1 k _ (List.getElem?_eq_getElem hlt) (Nat.le_of_lt hlt)

theorem Sifts.sound (hkeeps : ∀ j ∈ calls, j.Keeps checks locks) :
    h.Sound checks locks ∧ Ages f h :=
  (hsifts.sound_with ho hs hc id Ages.trans (fun _ n => (alike_hold n).ages)
    ages_release Touches.ages hkeeps).2

end

/-- `finish` leaves a forest `Alike` to what `compact` leaves. -/
theorem alike_finish (pass : Pass) :
    Alike (pass.compact c f) (pass.finish checks c f).state := by
  cases hfinish : pass.finish checks c f with
  | ok u h =>
      obtain ⟨g, hend, rfl⟩ := finish_ok hfinish
      rw [Outcome.state]
      split
      · exact hend
      · exact hend.trans (alike_commit c.owner)
  | stop why h =>
      rw [Outcome.state, (finish_stop hfinish).1]
      exact .refl _

/-- `finish` keeps the forest sound. -/
theorem finish_sound {pass : Pass} (hs : f.Sound checks locks)
    (hc : c.Fits f) :
    (pass.finish checks c f).state.Sound checks locks
      ∧ Ages f (pass.finish checks c f).state := by
  have htouches : Touches checks c.owner f (pass.compact c f) :=
    touches_compact hs.toWellFormed hc pass
  have hend : Alike (pass.compact c f) (pass.finish checks c f).state :=
    alike_finish pass
  exact ⟨(htouches.sound hs).alike hend, htouches.ages.trans hend.ages⟩

section

variable {calls : List Judgement} (ho : c.owner ∈ locks)
  (hs : f.Sound checks locks) (hc : c.Fits f)
  (hkeeps : ∀ j ∈ calls, j.Keeps checks locks)
include ho hs hc hkeeps

/-- A pass and its `finish` keep the forest sound, if its calls do. -/
theorem Sifts.ended_sound {count : Nat} {pass : Pass}
    {stopped : Option Stop}
    (hsifts : Sifts c count ⟨0, 0, 0⟩ (f.beginTraversal c.owner) calls pass
      stopped g) :
    (pass.finish checks c g).state.Sound checks locks
      ∧ Ages f (pass.finish checks c g).state := by
  have hbegin := alike_beginTraversal (f := f) c.owner
  obtain ⟨hg, hages⟩ :=
    hsifts.sound ho (hs.alike hbegin) (hc.alike hbegin) hkeeps
  have hfg := hbegin.ages.trans hages
  have hfinish : (pass.finish checks c g).state.Sound checks locks
      ∧ Ages g (pass.finish checks c g).state :=
    finish_sound hg (hc.ages hfg (hg.alive ho))
  exact ⟨hfinish.1, hfg.trans hfinish.2⟩

/-- A filtering keeps the forest sound, if its calls do. -/
theorem Filtered.sound {out : Outcome Forest Nat}
    (hout : Filtered checks c f calls out) :
    out.state.Sound checks locks ∧ Ages f out.state := by
  rcases hout.ends with ⟨e, ev, rfl⟩ | ⟨pass, stopped, g, hsifts, hstate⟩
  · exact ⟨hs.alike (alike_emit ev), (alike_emit ev).ages⟩
  · rw [hstate]
    exact hsifts.ended_sound ho hs hc hkeeps

end

end Collection

end InstructionTree
