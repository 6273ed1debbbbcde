/-
Flags after aliasing.

A node that is held twice reports a change below it to one holder only, and
goes on to do so when the other one is the only holder left. So flags can
be out of date although nothing is held twice any more
(`Runs.flags_unreported`). It takes a change that a holder has missed:
until then a node that once remembered nothing is informed, whoever else
holds its children and wherever these are linked (`Runs.informed`), and
where all nodes below are informed, flags describe what is there
(`Runs.flags_informed`).
-/
import InstructionTree.Proofs.Forest.Informed
import InstructionTree.Proofs.Runs.Caches

namespace InstructionTree

open Forest

variable {checks : Checks} {locks dirty : List NodeId} {f g h : Forest}
  {n : NodeId}

namespace Forest

-- ================================================================== aware

/-- All are trusted who are not dirty, and `n` is informed unless it is
dirty. -/
def Aware (n : NodeId) (f : Forest) (dirty : List NodeId) : Prop :=
  f.Trusts dirty ∧ (n ∉ dirty → f.Informed n)

theorem promise_aware (n : NodeId) :
    Promise (fun g => ¬ g.Missed n) (Aware n) where
  mono haware hmore :=
    ⟨haware.1.mono hmore, fun hn => haware.2 (mt (hmore n) hn)⟩
  overlooks haware hfg :=
    ⟨haware.1.overlooks hfg, fun hn =>
      (hfg n hn).elim .of_uncached (haware.2 hn).unseen⟩
  commit {f o dirty} haware hmissed := by
    have htrusts := haware.1.commit
    refine ⟨htrusts, fun hn => ?_⟩
    obtain ⟨hfades, hnone⟩ := fades_commit f o n
    by_cases hno : n = o
    · exact .of_uncached (hno ▸ hnone)
    · exact (haware.2 fun h => (List.mem_cons.mp h).elim hno hn).fades
        hfades (htrusts n hn) hmissed

/-- A node that is `Unseen` by a step and had `Missed` something has missed it
after the step. -/
theorem Missed.unseen (hmissed : f.Missed n) (hfg : Unseen f g n) :
    g.Missed n := by
  obtain ⟨hsome, c, hc, hparent, hnone⟩ := hmissed
  refine ⟨hfg.cached ▸ hsome, c, hfg.children ▸ hc, fun hlinked => ?_,
    (hfg.told c hc).trans hnone⟩
  have hlink := (parent?_eq_some_iff.mp hlinked).1
  exact hparent (parent?_eq_some_iff.mpr
    ⟨hfg.link c hc hlink, f.alive_of_mem_children hc⟩)

/-- `Aware` nodes stay so when flags are asked for. -/
theorem Aware.asked (haware : Aware n f dirty) (hfg : Asked f g) :
    Aware n g dirty :=
  ⟨fun m hm => hfg.trusted (haware.1 m hm),
    fun hn => hfg.informed (haware.2 hn)⟩

end Forest

-- ================================================================== runs

/-- An operation of a regular run that leaves `n` without a change it has
missed. -/
structure Attentive (checks : Checks) (n : NodeId) (locks : List NodeId)
    (op : Operation) (f : Forest) (out : Outcome Forest Unit) : Prop
    extends Regular checks locks op f out where
  heard : ¬ out.state.Missed n

namespace Operation

variable {op : Operation}

/-- An operation keeps `n` informed that has missed nothing after it, if the
calls of its judge do. -/
theorem run_informed (hready : op.Ready locks f) (hs : f.Sound checks locks)
    (hcalls : ∀ j ∈ op.calls checks (f.holdAll op.keeps),
      j.Keeps checks (op.keeps ++ locks)
        ∧ j.Honest checks (op.keeps ++ locks) (Aware n))
    (hpermit : Attentive checks n locks op f (op.run checks f))
    (haware : Aware n f dirty) (hn : n ∉ dirty)
    (htrusts : (op.run checks f).state.Trusts dirty) :
    (op.run checks f).state.Informed n := by
  have hheld := alike_holdAll (f := f) op.keeps
  have hready' := hready.alike hheld
  have hs' := hs.holdAll hready.keeps
  have hmissed := hpermit.heard
  have haware' : Aware n (f.holdAll op.keeps) dirty :=
    (promise_aware n).overlooks haware (overlooks_holdAll op.keeps)
  have hunbroken : ∀ a s, op.body checks (f.holdAll op.keeps)
      ≠ .stop (.panic (.notATree a)) s :=
    fun a s hstop => hpermit.unbroken a _ (run_of_body hstop)
  rw [run, Outcome.state_always] at hmissed htrusts ⊢
  have hgave : Overlooks (op.body checks (f.holdAll op.keeps)).state
      ((op.body checks (f.holdAll op.keeps)).state.releaseAll op.keeps) [] :=
    overlooks_releaseAll op.keeps
  rcases hgave n List.not_mem_nil with hnone | hunseen
  · exact .of_uncached hnone
  cases op with
  | flags m =>
      have hasked := asked_flags hs'.closed hready'
      exact ((haware'.asked hasked).2 hn).unseen hunseen
  | removeAll c judge st =>
      rw [body, Outcome.state_map] at hunseen hmissed ⊢
      have hbody := Collection.promised_removeAll (promise_aware n)
        (.head _) hs' hready' (fun j hj => (hcalls j hj).1)
        (fun j hj => (hcalls j hj).2) hpermit.ends
        (fun hm => hmissed (hm.unseen hunseen)) haware'
      exact (hbody.2 hn).unseen hunseen
  | _ =>
      have hbatched := body_batched hready' hs' rfl
        (fun _ h => by cases h) hpermit.unforged hunbroken
      exact (haware'.2 hn).fades
        ((hbatched.fades n).trans (.inr hunseen.unheard)) (htrusts n hn)
        hmissed

end Operation

/-- On a run after whose operations `n` has missed nothing, `n` stays
informed unless it is dirty. -/
theorem Runs.informed (hfg : Runs checks (Attentive checks n) locks f g)
    (hs : f.Sound checks locks) :
    ∀ {dirty}, Aware n f dirty → Aware n g dirty := by
  induction hfg with
  | refl => exact fun haware => haware
  | @step locks f g op hfg hready hcalls hpermit ih ihcalls =>
      intro dirty haware
      have hs' := (hfg.sound hs).1
      have hregular : ∀ {locks f g},
          Runs checks (Attentive checks n) locks f g →
          Runs checks (Regular checks) locks f g :=
        fun hruns => hruns.mono fun hop => hop.toRegular
      have htrusts : (op.run checks g).state.Trusts dirty :=
        (Runs.step (hregular hfg) hready
          (fun j hj => hregular (hcalls j hj)) hpermit.toRegular).trusts hs
          haware.1
      exact ⟨htrusts, fun hn => Operation.run_informed hready hs'
        (fun j hj => ⟨(hcalls j hj).sound, ihcalls j hj⟩) hpermit
        (ih hs haware) hn htrusts⟩

-- ============================================================= the theorem

/-- Since some moment at which it remembered no flags, no operation has left
`n` with a change it has missed, also none of a judge. -/
def Forest.Heard (checks : Checks) (f : Forest) (n : NodeId) : Prop :=
  ∃ k, Runs checks (Regular checks) [] ∅ k ∧ (k.node n).cached = none
    ∧ Runs checks (Attentive checks n) [] k f

/-- After a regular run, asking a node for its flags answers what describes
it, if no ring is below it, and if whoever below it holds a node that is
linked elsewhere has missed nothing since it last remembered nothing. -/
theorem Runs.flags_informed (hf : Runs checks (Regular checks) [] ∅ f) :
    ∀ n, f.isAlive n = true → f.Acyclic n →
      (∀ p, Relation.ReflTransGen f.Holds n p →
        (∀ c ∈ f.children p, f.parent? c = some p) ∨ f.Heard checks p) →
      ∃ flags g, f.flags? n = some (flags, g) ∧ f.Describes n flags := by
  intro n hn hacyclic hheard
  have hs := hf.sound_of_empty
  have hempty : ∀ m, Forest.Trusted ∅ m := fun m => .of_uncached (by
    rw [node_of_not_alive _ (by simp [isAlive])]
    rfl)
  have htrusts : ∀ {k}, Runs checks (Regular checks) [] ∅ k → k.Trusts [] :=
    fun hk => hk.trusts (sound_empty checks) fun m _ => hempty m
  obtain ⟨flags, g, hflags, hanswer⟩ :=
    answered_flags hs.closed hn hacyclic.asks
  have hfg := hanswer.asked.alike
  refine ⟨flags, g, hflags, Describes.alike ?_ hfg⟩
  refine describes_of_informed
    ((shallow_of_acyclic hs.closed hn hacyclic).mono fun m =>
      (hfg.children m).symm ▸ List.Subset.refl _)
    (fun {p} hreach => hanswer.asked.informed ?_) hanswer.cached
  rw [holds_alike hfg] at hreach
  rcases hheard p hreach with hlinked | ⟨k, hk, hnone, hkf⟩
  · exact (htrusts hf p List.not_mem_nil).informed fun c hc =>
      (parent?_eq_some_iff.mp (hlinked c hc)).1
  · exact (hkf.informed hk.sound_of_empty
      ⟨htrusts hk, fun _ => .of_uncached hnone⟩).2 List.not_mem_nil

/-- A block that is held by two blocks, and last attached to the one that
gives it up. The other one misses that the block gets a call; after its own
next commit it knows. -/
theorem Runs.flags_informed_of_committed :
    let before : List Operation :=
      [.create .block .none, .hold ⟨0⟩, .create .block .none, .hold ⟨1⟩,
        .create .block .none, .hold ⟨2⟩, .change ⟨⟨0⟩, 0⟩ (.add ⟨2⟩),
        .change ⟨⟨1⟩, 0⟩ (.add ⟨2⟩), .flags ⟨0⟩,
        .change ⟨⟨1⟩, 0⟩ (.removeAt 0), .create .call .none, .hold ⟨3⟩,
        .change ⟨⟨2⟩, 0⟩ (.add ⟨3⟩), .create .ret .none, .hold ⟨4⟩,
        .change ⟨⟨0⟩, 0⟩ (.add ⟨4⟩)]
    let after : List Operation :=
      [.flags ⟨0⟩, .change ⟨⟨0⟩, 0⟩ (.removeAt 1), .flags ⟨0⟩]
    let f := played .strict after (played .strict before ∅)
    Runs .strict (Regular .strict) [] ∅ f
      ∧ f.parent? ⟨2⟩ = some ⟨1⟩ ∧ f.children ⟨0⟩ = [⟨2⟩]
      ∧ ∃ flags g, f.flags? ⟨0⟩ = some (flags, g)
        ∧ f.Describes ⟨0⟩ flags := by
  intro before after f
  have hbefore : Plays .strict (fun _ _ => true) [] before ∅ := by
    decide +kernel
  have hk : Runs .strict (Regular .strict) [] ∅ (played .strict before ∅) :=
    hbefore.runs (fun hop _ => hop.regular) .refl
  have hafter : Plays .strict
      (fun op f => !decide ((op.run .strict f).state.Missed ⟨0⟩)) [] after
      (played .strict before ∅) := by
    decide +kernel
  have hkf : Runs .strict (Attentive .strict ⟨0⟩) []
      (played .strict before ∅) f :=
    hafter.runs (fun hop hheard =>
      { hop.regular with heard := by simpa using hheard }) .refl
  have hf : Runs .strict (Regular .strict) [] ∅ f :=
    hafter.runs (fun hop _ => hop.regular) hk
  have hends : descentEndsWithin f.children 3 [⟨0⟩] = true := by decide +kernel
  have hacyclic : f.Acyclic ⟨0⟩ :=
    ringless_of_shallow (shallow_of_descentEndsWithin hends _ (.head _))
  refine ⟨hf, by decide +kernel, by decide +kernel, Runs.flags_informed hf
    ⟨0⟩ (by decide +kernel) hacyclic fun p _ => ?_⟩
  by_cases hp : p = ⟨0⟩
  · exact .inr (hp ▸ ⟨_, hk, by decide +kernel, hkf⟩)
  · have hall : ∀ i < f.size, i ≠ 0 →
        ∀ c ∈ f.children ⟨i⟩, f.parent? c = some ⟨i⟩ := by
      decide +kernel
    refine .inl fun c hc => hall p.index ?_ ?_ c hc
    · exact f.index_lt_of_alive (f.alive_of_mem_children hc)
    · exact fun hzero => hp (congrArg NodeId.mk hzero)

/-- A block that two blocks hold is removed from the one that attached it
last: the `link` is stale then, and the cached flags of the only holder that
is left miss what happens below. -/
theorem Runs.flags_unreported :
    ∃ f, Runs .strict Plain [] ∅ f
      ∧ f.isAlive ⟨0⟩ = true ∧ f.Acyclic ⟨0⟩
      ∧ (∀ n, Relation.ReflTransGen f.Holds ⟨0⟩ n → n ≠ ⟨0⟩ →
        f.holdCount n = 1)
      ∧ ∃ flags g, f.flags? ⟨0⟩ = some (flags, g)
        ∧ ¬ f.Describes ⟨0⟩ flags := by
  let ops : List Operation :=
    [.create .block .none, .hold ⟨0⟩, .create .block .none, .hold ⟨1⟩,
      .create .block .none, .hold ⟨2⟩, .change ⟨⟨0⟩, 0⟩ (.add ⟨2⟩),
      .change ⟨⟨1⟩, 0⟩ (.add ⟨2⟩), .flags ⟨0⟩,
      .change ⟨⟨1⟩, 0⟩ (.removeAt 0), .create .call .none, .hold ⟨3⟩,
      .change ⟨⟨2⟩, 0⟩ (.add ⟨3⟩)]
  let f := played .strict ops ∅
  have hplays : Plays .strict (fun _ _ => true) [] ops ∅ := by
    decide +kernel
  have hends : descentEndsWithin f.children 3 [⟨0⟩] = true := by decide +kernel
  have hacyclic : f.Acyclic ⟨0⟩ :=
    ringless_of_shallow (shallow_of_descentEndsWithin hends _ (.head _))
  have hcount : ∀ i < f.size, ∀ c ∈ f.children ⟨i⟩,
      f.holdCount c = 1 := by
    decide +kernel
  have hcall : Relation.ReflTransGen f.Holds ⟨0⟩ ⟨3⟩ :=
    .head (show (⟨2⟩ : NodeId) ∈ f.children ⟨0⟩ by decide +kernel)
      (.single (show (⟨3⟩ : NodeId) ∈ f.children ⟨2⟩ by decide +kernel))
  refine ⟨f, hplays.runs (fun hop _ => hop.plain) .refl, by decide +kernel,
    hacyclic, fun n hreach hn => ?_,
    (f.node ⟨0⟩).cached.getD ∅, f, by decide +kernel, fun hdescribes => ?_⟩
  · rcases Relation.ReflTransGen.cases_tail hreach with rfl | ⟨p, -, hp⟩
    · exact absurd rfl hn
    · exact hcount p.index
        (f.index_lt_of_alive (f.alive_of_mem_children hp)) n hp
  · -- the call can be reached, and is not announced
    have hbit : ((f.node ⟨0⟩).cached.getD ∅).has 3 = true :=
      (hdescribes.union (by decide)).mpr ⟨⟨3⟩, hcall, by decide +kernel⟩
    exact absurd hbit (by decide +kernel)

end InstructionTree
