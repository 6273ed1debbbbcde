/-
Filtering while the judge brings in new elements.

`Refits` is a run of a call that replaces the element under judgement, or
some that were not judged yet, by nodes that the collection lacks. After a
pass with such calls every element is linked to the owner, and its place
is right, with one exception (`Runs.places_exchanged`): a call that keeps
its element, after others were rejected, but has put another node in its
place. The pass renumbers the node that it asked about, and that is gone.

This is about places only. Whether counters are right is another question,
and it has another answer (`Runs.counted_removeAll`).
-/
import InstructionTree.Proofs.Collection.Refitting
import InstructionTree.Proofs.Runs.InPlace
import InstructionTree.Proofs.Runs.Guarded

namespace InstructionTree

open Forest Collection

variable {checks : Checks} {locks : List NodeId} {c : Collection}
  {f g : Forest} {op : Operation} {done : List Judgement} {len i : Nat}
  {n x : NodeId}

-- ============================================================ operations

/-- An operation in a call about `x` that puts a node which the collection
lacks in the place of one of its elements, none before index `lo`. Other
operations are not about slots, or they are refused. -/
structure Refits (checks : Checks) (c : Collection) (lo : Nat) (x : NodeId)
    (_locks : List NodeId) (op : Operation) (f : Forest)
    (out : Outcome Forest Unit) : Prop where
  allowed : op.edits = true → op.Refused checks f out
    ∨ ∃ i n, op.replacement? f = some ⟨c, i, n⟩ ∧ lo ≤ i ∧ n ∉ c.items f
      ∧ n ≠ x
  unbroken : ∀ p s, out ≠ .stop (.panic p) s

/-- Where `replacement?` finds the child in the collection `c`, `setChild` is
`c.set`. -/
theorem Forest.setChild_of_replacement {p : NodeId} {j : Nat} (hc : c.Fits f)
    (hplace : f.replacement? p j n = some ⟨c, i, n⟩) :
    setChild checks p j n f = c.set checks i n f := by
  unfold replacement? at hplace
  obtain ⟨place, hlocate, hsame⟩ := Option.map_eq_some_iff.mp hplace
  obtain ⟨slot, inner⟩ := place
  simp only [Replacement.mk.injEq, and_true] at hsame
  obtain ⟨rfl, rfl⟩ := hsame
  unfold setChild
  rw [hlocate]
  dsimp only
  rw [at?_of_fits hc]

namespace Operation

/-- If `op.replacement?` is in the collection `c`, the `body` of `op` is
`c.set`. -/
theorem body_of_replacement (hc : c.Fits f)
    (hop : op.replacement? f = some ⟨c, i, n⟩) :
    op.body checks f = c.set checks i n f := by
  cases op with
  | change d ch =>
      cases ch with
      | set k m =>
          cases hop
          unfold body Collection.apply
          dsimp only
          cases c.set checks i n f <;> rfl
      | _ => cases hop
  | setChild p j m =>
      obtain rfl : m = n := by
        obtain ⟨place, -, hsame⟩ := Option.map_eq_some_iff.mp hop
        exact congrArg Replacement.node hsame
      exact setChild_of_replacement hc hop
  | replaceWith p m =>
      obtain ⟨place, hplace, hat⟩ := Option.bind_eq_some_iff.mp hop
      obtain rfl : m = n := by
        obtain ⟨where', -, hsame⟩ := Option.map_eq_some_iff.mp hat
        exact congrArg Replacement.node hsame
      rw [body, Forest.replaceWith, hplace]
      exact setChild_of_replacement hc hat
  | replaceCurrent cursor m =>
      obtain ⟨k, hindex, hsame⟩ := Option.map_eq_some_iff.mp hop
      cases hsame
      rw [body, Cursor.replaceCurrent, hindex]
  | _ => cases hop

/-- The node that `op.replacement?` puts in is alive, if the operation is
ready. -/
theorem alive_of_replacement (hready : op.Ready locks f)
    (hop : op.replacement? f = some ⟨c, i, n⟩) : f.isAlive n = true := by
  cases op with
  | change d ch =>
      cases ch with
      | set k m =>
          cases hop
          exact hready.2 n (.head _)
      | _ => cases hop
  | setChild p j m =>
      obtain ⟨place, -, hsame⟩ := Option.map_eq_some_iff.mp hop
      cases hsame
      exact hready.2
  | replaceWith p m =>
      obtain ⟨place, -, hat⟩ := Option.bind_eq_some_iff.mp hop
      obtain ⟨inner, -, hsame⟩ := Option.map_eq_some_iff.mp hat
      cases hsame
      exact hready.2
  | replaceCurrent cursor m =>
      obtain ⟨k, -, hsame⟩ := Option.map_eq_some_iff.mp hop
      cases hsame
      exact hready.2
  | _ => cases hop

/-- An operation that `Refits` keeps the elements `Fitted`, and `x` at no index
but that of the call. -/
theorem run_fitted (hready : op.Ready locks f) (hs : f.Sound checks locks)
    (ho : c.owner ∈ locks) (hc : c.Fits f)
    (hcalls : ∀ j ∈ op.calls checks (f.holdAll op.keeps),
      j.Keeps checks (op.keeps ++ locks))
    (hop : Refits checks c done.length x locks op f (op.run checks f))
    (hp : Fitted c len done f) (hlone : Lone c done.length x f) :
    Fitted c len done (op.run checks f).state
      ∧ Lone c done.length x (op.run checks f).state := by
  have hheld := alike_holdAll (f := f) op.keeps
  have hready' := hready.alike hheld
  have hs' := hs.holdAll hready.keeps
  have hrun := (run_sound hready hs hcalls).1
  have hgave : Calm (op.body checks (f.holdAll op.keeps)).state
      (op.run checks f).state := by
    rw [run, Outcome.state_always]
    exact calm_releaseAll op.keeps
  have hcalm : Calm f (op.run checks f).state →
      Fitted c len done (op.run checks f).state
        ∧ Lone c done.length x (op.run checks f).state := fun hcalm =>
    ⟨hp.calm hcalm hc.alive hrun.toWellFormed (hrun.alive ho),
      hlone.calm hcalm hc.alive (hrun.alive ho)⟩
  cases hedits : op.edits with
  | false => exact hcalm (run_calm hready hs hedits hop.unbroken)
  | true =>
      rcases hop.allowed hedits with
        hrefused | ⟨i, n, hreplaces, hle, hn, hne⟩
      · exact hcalm ((hheld.calm.trans (hrefused.alike hready hs).calm).trans
          hgave)
      · rw [← op.replacement?_alike hheld] at hreplaces
        have hc' := hc.alike hheld
        have hbody : op.body checks (f.holdAll op.keeps) = _ :=
          body_of_replacement hc' hreplaces
        have hitems : c.items (f.holdAll op.keeps) = c.items f :=
          slot_congr (hheld.slots c.owner) c.slot
        have hunbroken : ∀ p s, op.body checks (f.holdAll op.keeps)
            ≠ .stop (.panic p) s :=
          fun p s hstop => hop.unbroken p _ (run_of_body hstop)
        have hsound := (body_sound hready' hs' hcalls).1
        rw [hbody] at hgave hsound hunbroken
        have howner := hsound.alive (List.mem_append_right _ ho)
        obtain ⟨hfitted, hlone'⟩ := Fitted.set
          (hp.calm hheld.calm hc.alive hs'.toWellFormed hc'.alive)
          (hlone.calm hheld.calm hc.alive hc'.alive) hs'
          (List.mem_append_right _ ho) hc' hle
          (alive_of_replacement hready' hreplaces) (hitems ▸ hn) hne
          hunbroken
        exact ⟨hfitted.calm hgave howner hrun.toWellFormed (hrun.alive ho),
          hlone'.calm hgave howner (hrun.alive ho)⟩

end Operation

-- ================================================================== runs

/-- A run of operations that `Refits` allows keeps the elements `Fitted`. -/
theorem Runs.fitted
    (hfg : Runs checks (Refits checks c done.length x) locks f g)
    (hs : f.Sound checks locks) (ho : c.owner ∈ locks) (hc : c.Fits f)
    (hp : Fitted c len done f) (hlone : Lone c done.length x f) :
    Fitted c len done g ∧ Lone c done.length x g := by
  induction hfg with
  | refl => exact ⟨hp, hlone⟩
  | step hfg hready hcalls hop ih _ =>
      obtain ⟨hs', hages⟩ := hfg.sound hs
      obtain ⟨hp', hlone'⟩ := ih hs ho hc hp hlone
      exact Operation.run_fitted hready hs' ho (hc.ages hages (hs'.alive ho))
        (fun j hj => (hcalls j hj).sound) hop hp' hlone'

/-- A call that is a run of such operations `Refits`. -/
theorem Runs.refits {j : Judgement}
    (hrun : Runs checks (Refits checks c done.length j.node)
      (j.node :: locks) j.before j.after) (ho : c.owner ∈ locks) :
    j.Refits checks locks c len done where
  keeps := hrun.sound
  fitted hs hc hp hlone := hrun.fitted hs (.tail _ ho) hc hp hlone

-- =============================================================== checking

/-- Whether the operation puts a new node in the place of an element, not
before index `lo`. -/
def Operation.refits (c : Collection) (lo : Nat) (x : NodeId)
    (op : Operation) (f : Forest) : Bool :=
  !op.edits || (op.replacement? f).any fun r => decide
    (r.collection = c ∧ lo ≤ r.index ∧ r.node ∉ c.items f ∧ r.node ≠ x)

theorem Operation.Simple.refits {lo : Nat} (hop : op.Simple checks locks f)
    (hrefits : op.refits c lo x f = true) :
    Refits checks c lo x locks op f (op.run checks f) := by
  refine ⟨fun hedits => .inr ?_, fun p s h => ?_⟩
  · rw [Operation.refits, hedits, Bool.not_true, Bool.false_or] at hrefits
    obtain ⟨⟨d, i, n⟩, hreplaces, hall⟩ := (Option.any_eq_true ..).mp hrefits
    obtain ⟨rfl, hle, hn, hne⟩ := of_decide_eq_true hall
    exact ⟨i, n, hreplaces, hle, hn, hne⟩
  · rw [hop.done] at h
    cases h

-- ============================================================= the theorem

/-- After a pass whose calls bring in new elements, everybody is linked to
the owner; whoever was put in the place of the node under judgement, and
kept there, caches the index at which that was judged, and everybody else
the right one. -/
theorem Runs.places_exchanged {permits : Permit} {σ : Type} {judge : Judge σ}
    {st : σ} (hf : Runs checks permits [] ∅ f) (hc : c.Fits f)
    (honce : (c.items f).Nodup)
    (hplaces : ∀ i e, (c.items f)[i]? = some e →
      f.parent? e = some c.owner ∧ (f.node e).position = c.base + i) :
    let op : Operation := .removeAll c judge st
    let calls := op.calls checks (f.holdAll op.keeps)
    let g := (op.run checks f).state
    (∀ (k : Nat) (j : Judgement), calls[k]? = some j →
      Runs checks (Refits checks c k j.node) (j.node :: (op.keeps ++ []))
        j.before j.after) →
    ∀ i e, (c.items g)[i]? = some e →
      g.parent? e = some c.owner
      ∧ (∃ m, i = newIndex calls m
        ∧ (∀ j, calls[m]? = some j → j.rejects = false
          ∧ (j.keeps = true → (c.items j.after)[m]? = some e))
        ∧ (g.node e).position = c.base + cachedIndex calls m i e)
      -- who is judged and then kept behind rejected ones must stay
      ∧ ((∀ k j, calls[k]? = some j → displaces calls k = true →
          (c.items j.after)[k]? = some j.node) →
        (g.node e).position = c.base + i) := by
  intro op calls g hruns i e he
  have hs : f.Sound checks [] := hf.sound_of_empty
  have hready : op.Ready [] f := hc
  have hheld := alike_holdAll (f := f) op.keeps
  have hs' : (f.holdAll op.keeps).Sound checks (op.keeps ++ []) :=
    hs.holdAll hready.keeps
  have hc' : c.Fits (f.holdAll op.keeps) := hready.alike hheld
  have hrefits : ∀ (k : Nat) (j : Judgement), calls[k]? = some j →
      j.Refits checks (op.keeps ++ []) c (c.items f).length
        (calls.take k) := by
    intro k j hj
    have hlength : (calls.take k).length = k := by
      have hlt := (List.getElem?_eq_some_iff.mp hj).1
      rw [List.length_take]
      omega
    have hrun := hruns k j hj
    rw [← hlength] at hrun
    exact hrun.refits (.head _)
  have hkeeps : ∀ j ∈ calls, j.Keeps checks (op.keeps ++ []) := by
    intro j hj
    obtain ⟨k, hk⟩ := List.mem_iff_getElem?.mp hj
    exact (hrefits k j hk).keeps
  have hbody :=
    (Operation.body_sound (show op.Ready [] _ from hc') hs' hkeeps).1
  have hrun := (Operation.run_sound hready hs hkeeps).1
  -- giving the owner back moves nothing
  have hgave : Calm (op.body checks (f.holdAll op.keeps)).state g := by
    show Calm _ (op.run checks f).state
    rw [Operation.run, Outcome.state_always]
    exact calm_releaseAll op.keeps
  have hmem := List.mem_of_getElem? he
  have howner : g.isAlive c.owner = true :=
    alive_of_mem_children _ (g.mem_children_of_mem_slot hmem)
  have hspared : g.Spared e := .inl (alive_of_mem_items hrun.toWellFormed hmem)
  rw [items_of_calm hgave (hbody.alive (.head _)) howner] at he
  have hfitted : Fitted c (c.items f).length [] (f.holdAll op.keeps) :=
    (Fitted.start honce fun i e hi => by
      obtain ⟨hparent, hposition⟩ := hplaces i e hi
      exact ⟨(parent?_eq_some_iff.mp hparent).1, hposition⟩).calm hheld.calm
        hc.alive hs'.toWellFormed hc'.alive
  have hstate : (op.body checks (f.holdAll op.keeps)).state
      = ((c.removeAll checks judge (f.holdAll op.keeps, st)).mapState
          Prod.fst).state := Outcome.state_map ..
  have hsettled : _ ∧ Settled c calls i e _ := settled_removeAll hs' (.head _)
    hc' hfitted hrefits hstate.symm he
  obtain ⟨hlink, m, hi, hcall, hposition⟩ := hsettled
  rw [← hgave.link hspared] at hlink
  rw [← hgave.position hspared] at hposition
  refine ⟨parent?_eq_some_iff.mpr ⟨hlink, howner⟩, ⟨m, hi, hcall, hposition⟩,
    fun hstays => ?_⟩
  rw [hposition, Nat.add_left_cancel_iff, cachedIndex]
  split
  next hexchanged =>
    obtain ⟨j, hj, hboth⟩ := (Option.any_eq_true ..).mp hexchanged
    rw [Bool.and_eq_true] at hboth
    have hstored := (hcall j hj).2 hboth.1
    cases hrejected : (calls.take m).any Judgement.rejects with
    | false => exact (hi.trans (newIndex_of_none hrejected)).symm
    | true =>
        have hdisplaces : displaces calls m = true := by
          rw [displaces, hj, Option.any_some, hboth.1, hrejected]
          rfl
        rw [hstays m j hj hdisplaces] at hstored
        cases hstored
        exact absurd hboth.2 (by simp)
  next => rfl

/-- Before it rejects the second of three elements, the judge puts another
node in the place of the third one. It is asked about that node next, and
keeps it: the place is right. -/
theorem Runs.places_exchanged_of_ahead :
    let c : Collection := ⟨⟨0⟩, 0⟩
    let ops : List Operation :=
      [.create .block .none, .hold ⟨0⟩, .create .nop .none, .hold ⟨1⟩,
        .create .nop .none, .hold ⟨2⟩, .create .nop .none, .hold ⟨3⟩,
        .create .nop .none, .hold ⟨4⟩, .change c (.addRange [⟨1⟩, ⟨2⟩, ⟨3⟩])]
    let meddling : Nat → List Operation := fun k =>
      if k = 1 then [.replaceWith ⟨3⟩ ⟨4⟩] else []
    let f := played .strict ops ∅
    let op : Operation := .removeAll c
      (meddlingJudge .strict meddling (· == 1)) 0
    let g := (op.run .strict f).state
    c.items f = [⟨1⟩, ⟨2⟩, ⟨3⟩] ∧ c.items g = [⟨1⟩, ⟨4⟩]
      ∧ g.parent? ⟨4⟩ = some ⟨0⟩ ∧ (g.node ⟨4⟩).position = 1 := by
  intro c ops meddling f op g
  have hstays : ∀ k : Fin (op.calls .strict (f.holdAll op.keeps)).length,
      displaces (op.calls .strict (f.holdAll op.keeps)) k.val = true →
      (c.items ((op.calls .strict (f.holdAll op.keeps))[k]).after)[k.val]?
        = some ((op.calls .strict (f.holdAll op.keeps))[k]).node := by
    decide +kernel
  have hplays : Plays .strict (fun _ _ => true) [] ops ∅ := by
    decide +kernel
  have hf : Runs .strict Plain [] ∅ f :=
    hplays.runs (fun hop _ => hop.plain) .refl
  have hcalls : ∀ k : Fin (op.calls .strict (f.holdAll op.keeps)).length,
      Plays .strict (Operation.refits c k
          ((op.calls .strict (f.holdAll op.keeps))[k]).node)
        (((op.calls .strict (f.holdAll op.keeps))[k]).node
          :: (op.keeps ++ []))
        (meddling k) ((op.calls .strict (f.holdAll op.keeps))[k]).before
      ∧ ((op.calls .strict (f.holdAll op.keeps))[k]).after
        = played .strict (meddling k)
          ((op.calls .strict (f.holdAll op.keeps))[k]).before := by
    decide +kernel
  have hplaces : ∀ i : Fin (c.items f).length,
      f.parent? (c.items f)[i] = some ⟨0⟩
        ∧ (f.node (c.items f)[i]).position = c.base + i := by
    decide +kernel
  have hsettled := Runs.places_exchanged hf (c := c) (by decide +kernel)
    (by decide +kernel) (fun i e hi => by
      obtain ⟨hlt, rfl⟩ := List.getElem?_eq_some_iff.mp hi
      exact hplaces ⟨i, hlt⟩) (fun k j hk => by
      obtain ⟨hlt, rfl⟩ := List.getElem?_eq_some_iff.mp hk
      obtain ⟨hmeddles, hafter⟩ := hcalls ⟨k, hlt⟩
      exact hafter ▸ hmeddles.runs (fun hop h => hop.refits h) .refl)
    1 ⟨4⟩ (by decide +kernel)
  refine ⟨by decide +kernel, by decide +kernel, hsettled.1,
    hsettled.2.2 fun k j hk => ?_⟩
  obtain ⟨hlt, rfl⟩ := List.getElem?_eq_some_iff.mp hk
  exact hstays ⟨k, hlt⟩

/-- After a rejection a judge puts another node in the place of the element
that it is asked about, and keeps it: the new element caches the index that
it had before the pass moved it. -/
theorem Runs.places_outrun :
    let c : Collection := ⟨⟨0⟩, 0⟩
    let ops : List Operation :=
      [.create .block .none, .hold ⟨0⟩, .create .nop .none, .hold ⟨1⟩,
        .create .nop .none, .hold ⟨2⟩, .create .nop .none, .hold ⟨3⟩,
        .change c (.addRange [⟨1⟩, ⟨2⟩])]
    let meddling : Nat → List Operation := fun k =>
      if k = 1 then [.replaceWith ⟨2⟩ ⟨3⟩] else []
    let f := played .strict ops ∅
    let op : Operation := .removeAll c
      (meddlingJudge .strict meddling (· == 0)) 0
    let calls := op.calls .strict (f.holdAll op.keeps)
    let g := (op.run .strict f).state
    Runs .strict Plain [] ∅ f ∧ c.Fits f ∧ (c.items f).Nodup
      ∧ (∀ i e, (c.items f)[i]? = some e →
        f.parent? e = some ⟨0⟩ ∧ (f.node e).position = c.base + i
          ∧ f.holdCount e = 1)
      ∧ f.holdCount ⟨3⟩ = 0 ∧ f.parent? ⟨3⟩ = none
      ∧ (∀ (k : Nat) (j : Judgement), calls[k]? = some j →
        Runs .strict (Refits .strict c k j.node) (j.node :: (op.keeps ++ []))
          j.before j.after)
      ∧ op.run .strict f = .ok () g
      ∧ c.items g = [⟨3⟩] ∧ g.parent? ⟨3⟩ = some ⟨0⟩
      ∧ (g.node ⟨3⟩).position = 1 := by
  intro c ops meddling f op calls g
  have hplays : Plays .strict (fun _ _ => true) [] ops ∅ := by
    decide +kernel
  have hf : Runs .strict Plain [] ∅ f :=
    hplays.runs (fun hop _ => hop.plain) .refl
  have hplaces : ∀ i : Fin (c.items f).length,
      f.parent? (c.items f)[i] = some ⟨0⟩
        ∧ (f.node (c.items f)[i]).position = c.base + i
        ∧ f.holdCount (c.items f)[i] = 1 := by
    decide +kernel
  have hcalls : ∀ k : Fin calls.length,
      Plays .strict (Operation.refits c k calls[k].node)
        (calls[k].node :: (op.keeps ++ [])) (meddling k) calls[k].before
      ∧ calls[k].after = played .strict (meddling k) calls[k].before := by
    decide +kernel
  refine ⟨hf, by decide +kernel, by decide +kernel, fun i e hi => ?_,
    by decide +kernel, by decide +kernel, fun k j hk => ?_,
    by decide +kernel, by decide +kernel, by decide +kernel,
    by decide +kernel⟩
  · obtain ⟨hlt, rfl⟩ := List.getElem?_eq_some_iff.mp hi
    exact hplaces ⟨i, hlt⟩
  · obtain ⟨hlt, rfl⟩ := List.getElem?_eq_some_iff.mp hk
    obtain ⟨hmeddles, hafter⟩ := hcalls ⟨k, hlt⟩
    exact hafter ▸ hmeddles.runs (fun hop h => hop.refits h) .refl

end InstructionTree
