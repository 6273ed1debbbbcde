/-
Filtering while the judge exchanges elements.

A traversal of an owner forbids every edit of it but one: the exchange of
a single child. So a judge may exchange elements of the collection that is
being filtered, wherever they are. Those it kept, and those that were not
judged yet, are safe to exchange. Those it rejected are not, and neither
is the one under judgement if it is rejected afterwards.

`InPlace` is a run of a judge's call that respects this: operations that
are about no slot, that exchange single children, or that are refused, and
that leave the window of the call as it was. After such a pass all
counters are right again (`Runs.counted_removeAll`). A single exchange in
the window is enough to make two of them wrong for good.
-/
import InstructionTree.Proofs.Collection.Debts
import InstructionTree.Proofs.Runs.Counts

namespace InstructionTree

open Forest Collection

variable {checks : Checks} {locks : List NodeId} {c : Collection}
  {f g : Forest} {lo hi : Nat} {zone : List NodeId} {op : Operation}

-- ============================================================ operations

/-- The operation answered an error, and called nobody before. -/
structure Operation.Refused (checks : Checks) (op : Operation) (f : Forest)
    (out : Outcome Forest Unit) : Prop where
  edit : op.isEdit = true ∨ op.filters = true
  uncalled : op.calls checks (f.holdAll op.keeps) = []
  failed : ∃ e s, out = .stop (.fault e) s

/-- An operation of a judge that leaves the window from `lo` to `hi` of
the collection, and lets nobody go. -/
structure InPlace (checks : Checks) (c : Collection) (lo hi : Nat)
    (_locks : List NodeId) (op : Operation) (f : Forest)
    (out : Outcome Forest Unit) : Prop where
  allowed : op.edits = true → op.inPlace = true ∨ op.Refused checks f out
  unbroken : ∀ p s, out ≠ .stop (.panic p) s
  lasts : Lasts f out.state
  window : c.window out.state lo hi = c.window f lo hi

/-- A filtering without calls that ended with a fault changed nothing but the
report. -/
theorem Collection.Filtered.refused_of_nil {e : Fault}
    (hout : Filtered checks c f [] (.stop (.fault e) g)) :
    ∃ ev, g = f.emit ev := by
  generalize hcalls : ([] : List Judgement) = calls at hout
  generalize hstop : Outcome.stop (.fault e) g = out at hout
  cases hout with
  | refused e' ev =>
      cases hstop
      exact ⟨ev, rfl⟩
  | finished => cases hstop
  | unbalanced _ hfinish =>
      cases hstop
      obtain ⟨-, _, hpanic⟩ := finish_stop hfinish
      cases hpanic
  | stopped hsifts =>
      -- what stops a pass early is a call, or comes after one
      generalize c.length f = count at hsifts
      cases hsifts <;> cases hcalls

namespace Operation

/-- The `body` of a refused operation leaves a forest `Alike` to the one it
found. -/
theorem Refused.alike (hrefused : op.Refused checks g (op.run checks g))
    (hready : op.Ready locks g) (hs : g.Sound checks locks) :
    Alike (g.holdAll op.keeps)
      (op.body checks (g.holdAll op.keeps)).state := by
  have hheld := alike_holdAll (f := g) op.keeps
  have hready' := hready.alike hheld
  have hs' := hs.holdAll hready.keeps
  have hfault : ∃ e s, op.body checks (g.holdAll op.keeps)
      = .stop (.fault e) s := by
    obtain ⟨e, s, hrun⟩ := hrefused.failed
    cases hbody : op.body checks (g.holdAll op.keeps) with
    | ok u k =>
        rw [run, hbody] at hrun
        cases hrun
    | stop why k =>
        rw [run_of_body hbody] at hrun
        cases hrun
        exact ⟨e, k, rfl⟩
  obtain ⟨e, s, hbody⟩ := hfault
  cases hedit : op.isEdit with
  | true =>
      obtain ⟨o, hcarried⟩ := carried_body hready' hs' hedit
      rw [hbody] at hcarried ⊢
      exact hcarried.alike_of_stop fun p hpanic => by cases hpanic
  | false =>
      have hfilters := hrefused.edit.resolve_left
        (Bool.eq_false_iff.mp hedit)
      cases op with
      | removeAll c judge st =>
          have hfiltered := filtered_removeAll checks c judge
            (g.holdAll [c.owner]) st
          have hcalls : c.removalCalls checks judge
              (g.holdAll [c.owner], st) = [] := hrefused.uncalled
          have hfault : ((c.removeAll checks judge
              (g.holdAll [c.owner], st)).mapState Prod.fst).map
                (fun _ => ()) = .stop (.fault e) s := hbody
          have hstop := Outcome.map_eq_stop hfault
          rw [hcalls, hstop] at hfiltered
          obtain ⟨ev, rfl⟩ := hfiltered.refused_of_nil
          rw [hbody]
          exact alike_emit ev
      | _ => cases hfilters

/-- The `body` of an `InPlace` operation is `Calm`, or exchanges single
children of its owner (`SwapsSlot`). -/
theorem body_inPlace (hready : op.Ready locks g) (hs : g.Sound checks locks)
    (hop : InPlace checks c lo hi locks op g (op.run checks g)) :
    Calm (g.holdAll op.keeps) (op.body checks (g.holdAll op.keeps)).state
      ∨ SwapsSlot (op.owner (g.holdAll op.keeps)) (g.holdAll op.keeps)
        (op.body checks (g.holdAll op.keeps)).state := by
  have hheld := alike_holdAll (f := g) op.keeps
  have hready' := hready.alike hheld
  have hs' := hs.holdAll hready.keeps
  have hunbroken : ∀ p s,
      op.body checks (g.holdAll op.keeps) ≠ .stop (.panic p) s :=
    fun p s hstop => hop.unbroken p _ (run_of_body hstop)
  cases hedits : op.edits with
  | false => exact .inl (body_calm hready' hs' hedits hunbroken)
  | true =>
      rcases hop.allowed hedits with hin | hrefused
      · exact (body_swaps hready' hs' hin hunbroken).imp_left Alike.calm
      · exact .inl (hrefused.alike hready hs).calm

/-- Who holds somebody after such a step was alive before it. -/
private theorem holder_alive {p n : NodeId} {o : NodeId}
    (hfg : Calm f g ∨ SwapsSlot o f g) (hp : n ∈ g.children p) :
    f.isAlive p = true := by
  have halive := alive_of_mem_children _ hp
  cases hf : f.isAlive p with
  | true => rfl
  | false =>
      have hsame : g.children p = f.children p := by
        rcases hfg with hcalm | ⟨-, i, _, _, _, _, hedited, -⟩
        · exact hcalm.children halive
        · have hacc := hedited.exchange.account
          have hne : p ≠ o := by
            rintro rfl
            rw [hacc.source] at hf
            cases hf
          exact (hacc.others hne halive).2
      rw [hsame, children_of_not_alive f hf] at hp
      cases hp

/-- An `InPlace` operation keeps what the owner still `Owes` to elements of the
window. -/
theorem run_owes (hready : op.Ready locks g) (hs : g.Sound checks locks)
    (ho : c.owner ∈ locks)
    (hcalls : ∀ j ∈ op.calls checks (g.holdAll op.keeps),
      j.Keeps checks (op.keeps ++ locks))
    (hop : InPlace checks c lo hi locks op g (op.run checks g))
    (hzone : zone.Sublist (c.window g lo hi)) (howes : g.Owes zone) :
    (op.run checks g).state.Owes zone := by
  have hheld := alike_holdAll (f := g) op.keeps
  have hs' := hs.holdAll hready.keeps
  obtain ⟨hbody, hages⟩ := body_sound (hready.alike hheld) hs' hcalls
  have hrun := (run_sound hready hs hcalls).1
  have hinPlace := body_inPlace hready hs hop
  have hlasts := hop.lasts
  have hwindow := hop.window
  rw [run, Outcome.state_always] at hrun hlasts hwindow ⊢
  generalize (op.body checks (g.holdAll op.keeps)).state = k
    at hbody hages hrun hinPlace hlasts hwindow ⊢
  have hgave := calm_releaseAll (f := k) op.keeps
  have hfree : Lasts (g.holdAll op.keeps) (k.releaseAll op.keeps) :=
    fun m hm => hlasts m ((hheld.alive m).symm.trans hm)
  -- giving the references back moves nothing
  have hitems : c.items (k.releaseAll op.keeps) = c.items k :=
    items_of_calm hgave (hbody.alive (List.mem_append_right _ ho))
      (hrun.alive ho)
  have hstored : zone.Sublist (c.window k lo hi) := by
    rw [← window_congr hitems, hwindow]
    exact hzone
  have howes' : (g.holdAll op.keeps).Owes zone :=
    howes.calm hheld.calm hs'.toWellFormed hheld.lasts.kept
  have howes'' : k.Owes zone := by
    have hlast := hfree.of_ages hages hgave.ages
    rcases hinPlace with hcalm | ⟨-, i, _, _, _, _, hedited, hother⟩
    · exact howes'.calm hcalm hbody.toWellFormed hlast.kept
    · exact howes'.exchange hedited.exchange hbody.toWellFormed hlast hother
        fun n => Nat.le_trans (hstored.count_le n) (count_window_le n)
  exact howes''.calm hgave hrun.toWellFormed fun n p hp =>
    hfree p (holder_alive hinPlace hp)

end Operation

-- ================================================================== runs

theorem Runs.window_eq
    (hfg : Runs checks (InPlace checks c lo hi) locks f g) :
    c.window g lo hi = c.window f lo hi := by
  induction hfg with
  | refl => rfl
  | step _ _ _ hop ih _ => exact hop.window.trans ih

theorem Runs.owes (hfg : Runs checks (InPlace checks c lo hi) locks f g)
    (hs : f.Sound checks locks) (ho : c.owner ∈ locks)
    (hzone : zone.Sublist (c.window f lo hi)) (howes : f.Owes zone) :
    g.Owes zone := by
  induction hfg with
  | refl => exact howes
  | step hfg hready hcalls hop ih _ =>
      refine Operation.run_owes hready (hfg.sound hs).1 ho
        (fun j hj => (hcalls j hj).sound) hop ?_ (ih hs ho hzone howes)
      rw [hfg.window_eq]
      exact hzone

/-- A call that is a run of `InPlace` operations `Pays`: it keeps what is owed
to the window. -/
theorem Runs.pays {j : Judgement}
    (hrun : Runs checks (InPlace checks c lo hi) (j.node :: locks) j.before
      j.after) (ho : c.owner ∈ locks) :
    j.Pays checks locks c lo hi where
  keeps := hrun.sound
  owes hs _ _ hzone howes := hrun.owes hs (.tail _ ho) hzone howes
  window := hrun.window_eq

-- =============================================================== checking

instance decidableLasts (f g : Forest) : Decidable (Lasts f g) :=
  decidable_of_iff
    (∀ i < f.size, f.isAlive ⟨i⟩ = true → g.isAlive ⟨i⟩ = true)
    ⟨fun h n hn => h n.index (f.index_lt_of_alive hn) hn,
      fun h i _ => h ⟨i⟩⟩

/-- Whether the operation exchanges single children, leaves the window `[lo,
hi)` of `c` alone, and frees nobody. -/
def Operation.sparesWindow (checks : Checks) (c : Collection) (lo hi : Nat)
    (op : Operation) (f : Forest) : Bool :=
  op.inPlace && decide (Lasts f (op.run checks f).state
    ∧ c.window (op.run checks f).state lo hi = c.window f lo hi)

theorem Operation.Simple.inPlace (hop : op.Simple checks locks f)
    (hspares : op.sparesWindow checks c lo hi f = true) :
    InPlace checks c lo hi locks op f (op.run checks f) := by
  rw [sparesWindow, Bool.and_eq_true, decide_eq_true_eq] at hspares
  obtain ⟨hin, hlasts, hwindow⟩ := hspares
  refine ⟨fun _ => .inl hin, fun p s h => ?_, hlasts, hwindow⟩
  rw [hop.done] at h
  cases h

/-- If all nodes below `f.size` are `Counted`, all nodes are. -/
theorem Forest.counted_of_lt (hwf : f.WellFormed)
    (hall : ∀ i < f.size, f.Counted ⟨i⟩) (n : NodeId) : f.Counted n := by
  cases hn : f.isAlive n with
  | true => exact hall n.index (f.index_lt_of_alive hn)
  | false => exact .of_not_alive hwf hn

instance decidableCounted (f : Forest) (n : NodeId) :
    Decidable (f.Counted n) :=
  inferInstanceAs (Decidable ((f.node n).slotRefs = f.holdCount n))

/-- A judge that makes operations in its calls, and rejects in some. -/
def Collection.meddlingJudge (checks : Checks) (ops : Nat → List Operation)
    (rejects : Nat → Bool) : Judge Nat := fun _ s =>
  .ok (rejects s.2) (played checks (ops s.2) s.1, s.2 + 1)

-- ================================================================ squared

/-- The counters are right after filtering, if they were right before it
and every call of the judge leaves what it has rejected where it is. -/
theorem Runs.counted_removeAll {permits : Permit} {σ : Type}
    {judge : Judge σ} {st : σ} (hf : Runs checks permits [] ∅ f)
    (hcounted : ∀ n, f.Counted n)
    (hready : (Operation.removeAll c judge st).Ready [] f) :
    let op : Operation := .removeAll c judge st
    let calls := op.calls checks (f.holdAll op.keeps)
    (∀ (k : Nat) (j : Judgement), calls[k]? = some j →
      Runs checks (InPlace checks c (keptNodes (calls.take k)).length
          (k + if j.rejects then 1 else 0))
        (j.node :: (op.keeps ++ [])) j.before j.after) →
    Lasts f (op.run checks f).state →
    (∀ j ∈ calls, Lasts j.after (op.run checks f).state) →
    ∀ n, (op.run checks f).state.Counted n := by
  intro op calls hruns hstart hlasts
  have hs : f.Sound checks [] := hf.sound_of_empty
  have hheld := alike_holdAll (f := f) op.keeps
  have hs' : (f.holdAll op.keeps).Sound checks (op.keeps ++ []) :=
    hs.holdAll hready.keeps
  have hready' := hready.alike hheld
  have hpays : PaysAll checks (op.keeps ++ []) c ⟨0, 0, 0⟩ calls := by
    intro k j hk
    simp only [Nat.zero_add]
    exact (hruns k j hk).pays (.head _)
  obtain ⟨hbody, hages⟩ := Operation.body_sound hready' hs' fun j hj =>
    hpays.keeps hj
  have hrun := (Operation.run_sound hready hs fun j hj => hpays.keeps hj).1
  have howes : (f.holdAll op.keeps).Owes [] :=
    Owes.calm (fun n => hcounted n) hheld.calm hs'.toWellFormed
      hheld.lasts.kept
  have hfiltered := filtered_removeAll checks c judge (f.holdAll op.keeps) st
  have hgave : Calm (op.body checks (f.holdAll op.keeps)).state
      (op.run checks f).state := by
    rw [Operation.run, Outcome.state_always]
    exact calm_releaseAll op.keeps
  have hstate : (op.body checks (f.holdAll op.keeps)).state
      = ((c.removeAll checks judge (f.holdAll op.keeps, st)).mapState
          Prod.fst).state := Outcome.state_map ..
  rw [hstate] at hgave
  obtain ⟨hdebts, hlast⟩ := hfiltered.owes (.head _) hs' hready' hpays
    (fun m hm => hstart m ((hheld.alive m).symm.trans hm)) hlasts hgave.ages
    howes
  exact hdebts.calm hgave hrun.toWellFormed hlast.kept

/-- A judge that keeps the first of three elements, exchanges it in its
second call together with the last one, which was not judged yet, and
rejects the second. -/
theorem Runs.counted_removeAll_of_kept :
    let c : Collection := ⟨⟨0⟩, 0⟩
    let ops : List Operation :=
      [.create .block .none, .hold ⟨0⟩, .create .nop .none, .hold ⟨1⟩,
        .create .nop .none, .hold ⟨2⟩, .create .nop .none, .hold ⟨3⟩,
        .change c (.addRange [⟨1⟩, ⟨2⟩, ⟨1⟩])]
    let meddling : Nat → List Operation := fun k =>
      if k = 1 then [.change c (.set 0 ⟨3⟩), .replaceWith ⟨1⟩ ⟨2⟩] else []
    let f := played .strict ops ∅
    let op : Operation := .removeAll c
      (Collection.meddlingJudge .strict meddling (· == 1)) 0
    let g := (op.run .strict f).state
    f.children ⟨0⟩ = [⟨1⟩, ⟨2⟩, ⟨1⟩] ∧ g.children ⟨0⟩ = [⟨3⟩, ⟨2⟩]
      ∧ ∀ n, g.Counted n := by
  intro c ops meddling f op g
  have hplays : Plays .strict (fun _ _ => true) [] ops ∅ := by
    decide +kernel
  have hf : Runs .strict Plain [] ∅ f :=
    hplays.runs (fun hop _ => hop.plain) .refl
  have hwf : f.WellFormed := hf.sound_of_empty.toWellFormed
  have hall : ∀ i < f.size, f.Counted ⟨i⟩ := by decide +kernel
  have hcalls : ∀ k : Fin (op.calls .strict (f.holdAll op.keeps)).length,
      Plays .strict (Operation.sparesWindow .strict c
          (keptNodes ((op.calls .strict (f.holdAll op.keeps)).take k)).length
          (k + if ((op.calls .strict (f.holdAll op.keeps))[k]).rejects
            then 1 else 0))
        (((op.calls .strict (f.holdAll op.keeps))[k]).node
          :: (op.keeps ++ []))
        (meddling k) ((op.calls .strict (f.holdAll op.keeps))[k]).before
      ∧ ((op.calls .strict (f.holdAll op.keeps))[k]).after
        = played .strict (meddling k)
          ((op.calls .strict (f.holdAll op.keeps))[k]).before := by
    decide +kernel
  refine ⟨by decide +kernel, by decide +kernel,
    Runs.counted_removeAll hf (counted_of_lt hwf hall) (by decide +kernel)
      (fun k j hk => ?_) (by decide +kernel) (by decide +kernel)⟩
  obtain ⟨hlt, rfl⟩ := List.getElem?_eq_some_iff.mp hk
  obtain ⟨hmeddles, hafter⟩ := hcalls ⟨k, hlt⟩
  exact hafter ▸ hmeddles.runs (fun hop hspares => hop.inPlace hspares) .refl

/-- A judge that exchanges the element under judgement, and then rejects
it: whoever came is counted, and stored nowhere. -/
theorem Runs.miscounted_removeAll :
    let c : Collection := ⟨⟨0⟩, 0⟩
    let ops : List Operation :=
      [.create .block .none, .hold ⟨0⟩, .create .nop .none, .hold ⟨1⟩,
        .create .nop .none, .hold ⟨2⟩, .change c (.add ⟨1⟩)]
    let meddling : List Operation := [.change c (.set 0 ⟨2⟩)]
    let f := played .strict ops ∅
    let op : Operation := .removeAll c
      (Collection.meddlingJudge .strict (fun _ => meddling) fun _ => true) 0
    let calls := op.calls .strict (f.holdAll op.keeps)
    let g := (op.run .strict f).state
    Runs .strict Plain [] ∅ f ∧ (∀ n, f.Counted n)
      ∧ op.run .strict f = .ok () g
      ∧ (∀ j ∈ calls, Runs .strict (InPlace .strict c 0 0)
        (j.node :: (op.keeps ++ [])) j.before j.after)
      ∧ Lasts f g ∧ (∀ j ∈ calls, Lasts j.after g)
      ∧ g.isAlive ⟨2⟩ = true ∧ g.holdCount ⟨2⟩ = 0
      ∧ (g.node ⟨2⟩).slotRefs = 1 := by
  intro c ops meddling f op calls g
  have hplays : Plays .strict (fun _ _ => true) [] ops ∅ := by
    decide +kernel
  have hf : Runs .strict Plain [] ∅ f :=
    hplays.runs (fun hop _ => hop.plain) .refl
  have hwf : f.WellFormed := hf.sound_of_empty.toWellFormed
  have hall : ∀ i < f.size, f.Counted ⟨i⟩ := by decide +kernel
  have hcalls : ∀ j ∈ calls,
      Plays .strict (Operation.sparesWindow .strict c 0 0)
          (j.node :: (op.keeps ++ [])) meddling j.before
        ∧ j.after = played .strict meddling j.before := by
    decide +kernel
  refine ⟨hf, counted_of_lt hwf hall, by decide +kernel, fun j hj => ?_,
    by decide +kernel, by decide +kernel, by decide +kernel,
    by decide +kernel, by decide +kernel⟩
  obtain ⟨hmeddles, hafter⟩ := hcalls j hj
  exact hafter ▸ hmeddles.runs (fun hop hspares => hop.inPlace hspares) .refl

end InstructionTree
