/-
Flags are right wherever the tree is.

A regular run forges no books: nobody is given notice of an attach or
detach that did not happen, no edit breaks off between its steps, and every
filtering pass gets to its commit. Judges may edit what they like. Then
between operations nobody is dirty, all promises hold, and flags describe
what is below a node wherever everything below is linked to whoever holds
it. Elsewhere the same nodes may be held by others, and the flags of those
may be out of date.
-/
import InstructionTree.Proofs.Collection.Caches
import InstructionTree.Proofs.Forest.Answers
import InstructionTree.Proofs.Runs.Listed

namespace InstructionTree

open Forest

variable {checks : Checks} {locks dirty : List NodeId} {f g h : Forest}

namespace Forest

theorem overlooks_holdAll (ns : List NodeId) :
    Overlooks f (f.holdAll ns) dirty := by
  induction ns generalizing f with
  | nil => exact .refl f dirty
  | cons n rest ih => exact (overlooks_hold n).trans ih

theorem overlooks_releaseAll (ns : List NodeId) :
    Overlooks f (f.releaseAll ns) dirty := by
  induction ns generalizing f with
  | nil => exact .refl f dirty
  | cons n rest ih => exact (overlooks_release n).trans ih

-- ============================================================== building

theorem Fill.batched {n : NodeId} {ns : List NodeId}
    (hfg : Fill checks n f ns g) (hs : f.Sound checks locks)
    (hn : f.isAlive n = true) : Batched f g := by
  cases hfg with
  | operand i c hc _ hout =>
      have hcarried : Carried checks n f
          (setSlotChild checks n i (some c) f) :=
        carried_setSlotChild i hn fun m hm => by cases hm; exact hc
      rw [hout] at hcarried
      exact hcarried.batched fun _ _ => nofun
  | range i ns hns hc hout =>
      have hcarried : Carried checks n f
          (Collection.addRange checks ⟨n, i⟩ ns f) :=
        Collection.carried_addRange hs hc hns
      rw [hout] at hcarried
      exact hcarried.batched fun _ _ => nofun

theorem Filled.batched {n : NodeId} {placed : List NodeId}
    (hfg : Filled checks n f placed g) (hs : f.Sound checks locks)
    (hn : f.isAlive n = true) : Batched f g := by
  induction hfg with
  | none => exact .refl
  | more hstep _ ih =>
      obtain ⟨hs', -, halive⟩ := hstep.keeps hs hn
      exact (hstep.batched hs hn).trans (ih hs' ((halive n).trans hn))

theorem Builds.batched {n : NodeId} {slots : List Slot}
    {children : List NodeId} {out : Outcome Forest NodeId}
    (hout : Builds checks n f slots children out)
    (hs : f.Sound checks locks) (hn : f.isAlive n = true)
    (hunbroken : ∀ op s, out ≠ .stop (.panic (.notATree op)) s) :
    Batched f out.state := by
  cases hout with
  | ok hfg => exact hfg.batched hs hn
  | refused e hfg =>
      exact (hfg.batched hs hn).unseen (overlooks_sheds (sheds_reap _ n))
  | stop placed rest why hfg hall hfew hgh =>
      refine ((hfg.batched hs hn).trans (hgh.batched fun op s hstop => ?_))
        |>.unseen (overlooks_sheds (sheds_reap _ n))
      cases hstop
      exact hunbroken op _ rfl

end Forest

-- ========================================================== regular runs

/-- `op.Ends checks f`: a `removeAll` whose pass rejected something gets to the
commit of the owner. Any other operation fulfils it. -/
def Operation.Ends (checks : Checks) (f : Forest) : Operation → Prop
  | .removeAll c judge st =>
      (∃ g, c.removalEnd checks judge (f, st) = .ok () g)
        ∨ ∀ j ∈ c.removalCalls checks judge (f, st), j.rejects = false
  | _ => True

/-- An operation that is not a bare `attach` or `detach` notice, and is not
stopped by the check of an attach. -/
structure Unforged (op : Operation) (out : Outcome Forest Unit) :
    Prop where
  unforged : ∀ o n, op ≠ .notify o (.attach n) ∧ op ≠ .notify o (.detach n)
  unbroken : ∀ a s, out ≠ .stop (.panic (.notATree a)) s

/-- The permit of runs that keep cached flags right: `Unforged`, and every pass
gets to its commit (`Ends`). -/
structure Regular (checks : Checks) (_ : List NodeId) (op : Operation)
    (f : Forest) (out : Outcome Forest Unit) : Prop
    extends Unforged op out where
  ends : op.Ends checks (f.holdAll op.keeps)

/-- A `Simple` operation ends without a stop and makes no calls, so it is
`Regular`. -/
theorem Operation.Simple.regular {op : Operation}
    (hop : op.Simple checks locks f) :
    Regular checks locks op f (op.run checks f) where
  unforged o n := ⟨hop.not_notify o _, hop.not_notify o _⟩
  unbroken a s := by
    rw [hop.done]
    exact nofun
  ends := by
    have hfilters := hop.unfiltered
    cases op with
    | removeAll => cases hfilters
    | _ => trivial

/-- A notice other than `attach` and `detach` comes in batches: what it does to
the forest is `Batched`. -/
theorem Notice.deliver_batched {o : NodeId} {r : Notice}
    (hattach : ∀ n, r ≠ .attach n) (hdetach : ∀ n, r ≠ .detach n) :
    Batched f (r.deliver checks o f).state := by
  cases r with
  | attach n => exact absurd rfl (hattach n)
  | detach n => exact absurd rfl (hdetach n)
  | commit => exact Batched.refl.commit (.refl f _)
  | beginTraversal =>
      have hidle : Batched f f := .refl
      have hbegun : Batched f (f.beginTraversal o) :=
        hidle.unseen (overlooks_beginTraversal o)
      exact openTraversal_with hidle hbegun
  | endTraversal => exact Batched.refl.unseen (overlooks_endTraversal o)
  | requireUntraversed =>
      show Batched f (guarded checks o (fun f => .ok () f) f).state
      unfold guarded
      split
      · exact Batched.refl.unseen (overlooks_emit _)
      · exact .refl

theorem overlooks_close {cursor : Cursor} :
    Overlooks f (cursor.close checks f).state dirty :=
  cursor.close_with (R := fun g => Overlooks f g dirty)
    (fun _ hfg => hfg.trans (overlooks_emit _)) (overlooks_endTraversal _)

namespace Operation

variable {op : Operation}

/-- The `body` of an operation that neither filters nor asks for flags is
`Batched`: every edit in it is followed by the commit of its owner. -/
theorem body_batched (hready : op.Ready locks f)
    (hs : f.Sound checks (op.keeps ++ locks))
    (hfilters : op.filters = false) (hasks : ∀ n, op ≠ .flags n)
    (hunforged : ∀ o n,
      op ≠ .notify o (.attach n) ∧ op ≠ .notify o (.detach n))
    (hunbroken : ∀ a s,
      op.body checks f ≠ .stop (.panic (.notATree a)) s) :
    Batched f (op.body checks f).state := by
  cases hedit : op.isEdit with
  | true =>
      obtain ⟨o, hout⟩ := carried_body hready hs hedit
      exact hout.batched hunbroken
  | false =>
      cases op with
      | create op x => exact Batched.refl.unseen (overlooks_alloc op x)
      | build op x ns =>
          have hbuilds : Builds checks (f.alloc (Node.fresh op x)).1
              (f.alloc (Node.fresh op x)).2 op.layout ns
              (Forest.build checks op x ns f) := builds_build hs hready
          rw [body, Outcome.state_map]
          refine (Batched.refl.unseen (overlooks_alloc op x)).trans
            (hbuilds.batched (hs.alloc op x) (isAlive_alloc_self ..)
              fun a s hstop => ?_)
          exact hunbroken a s (by dsimp only [body]; rw [hstop]; rfl)
      | hold n => exact Batched.refl.unseen (overlooks_hold n)
      | drop n => exact Batched.refl.unseen (overlooks_release n)
      | setOperand n x =>
          exact Batched.refl.unseen (overlooks_update n (fun _ => rfl)
            (fun _ => rfl) (fun _ => rfl) fun _ => rfl)
      | openCursor c =>
          have hidle : Batched f f := .refl
          have hstart : Batched f (Cursor.start c f).2 := hidle.unseen
            ((overlooks_beginTraversal c.owner).trans (overlooks_emit _))
          exact Cursor.opening_with hidle hstart
      | closeCursor cursor => exact Batched.refl.unseen overlooks_close
      | notify o r =>
          exact Notice.deliver_batched
            (fun n h => (hunforged o n).1 (h ▸ rfl))
            (fun n h => (hunforged o n).2 (h ▸ rfl))
      | flags n => exact absurd rfl (hasks n)
      | removeAll => cases hfilters
      | setSlotChild | setChild | replaceWith | removeFromParent | change
      | replaceCurrent => cases hedit

/-- The `body` of a regular operation keeps every node trusted (`Trusts`), if
its calls back do. -/
theorem body_trusts (hready : op.Ready locks f)
    (hs : f.Sound checks (op.keeps ++ locks))
    (hkeeps : ∀ j ∈ op.calls checks f, j.Keeps checks (op.keeps ++ locks))
    (hhonest : ∀ j ∈ op.calls checks f,
      j.Honest checks (op.keeps ++ locks) Trusts)
    (hunforged : ∀ o n,
      op ≠ .notify o (.attach n) ∧ op ≠ .notify o (.detach n))
    (hunbroken : ∀ a s, op.body checks f ≠ .stop (.panic (.notATree a)) s)
    (hends : op.Ends checks f) (htrusts : f.Trusts dirty) :
    (op.body checks f).state.Trusts dirty := by
  cases op with
  | flags n =>
      exact fun m hm =>
        (asked_flags hs.closed hready).trusted (htrusts m hm)
  | removeAll c judge st =>
      rw [body, Outcome.state_map]
      exact Collection.promised_removeAll promise_trusts (.head _) hs
        hready hkeeps hhonest hends trivial htrusts
  | _ =>
      exact htrusts.batched (body_batched hready hs rfl
        (fun _ h => by cases h) hunforged hunbroken)

end Operation

/-- A regular run from a forest that trusts all but `dirty` leads to one that
trusts all but `dirty`. -/
theorem Runs.trusts (hfg : Runs checks (Regular checks) locks f g)
    (hs : f.Sound checks locks) :
    ∀ {dirty}, f.Trusts dirty → g.Trusts dirty := by
  induction hfg with
  | refl => exact fun htrusts => htrusts
  | @step locks f g op hfg hready hcalls hpermit ih ihcalls =>
      intro dirty htrusts
      have hs' := (hfg.sound hs).1
      have hheld := alike_holdAll (f := g) op.keeps
      have hunbroken : ∀ a s, op.body checks (g.holdAll op.keeps)
          ≠ .stop (.panic (.notATree a)) s :=
        fun a s hstop => hpermit.unbroken a _ (Operation.run_of_body hstop)
      rw [Operation.run, Outcome.state_always]
      exact (Operation.body_trusts (hready.alike hheld)
        (hs'.holdAll hready.keeps) (fun j hj => (hcalls j hj).sound)
        (fun j hj => ihcalls j hj) hpermit.unforged hunbroken hpermit.ends
        ((ih hs htrusts).overlooks (overlooks_holdAll op.keeps))).overlooks
        (overlooks_releaseAll op.keeps)

/-- After a regular run, asking a node for its flags answers what describes
it, if no ring is below it and everything below it is linked to whoever
holds it. -/
theorem Runs.flags_describe (hf : Runs checks (Regular checks) [] ∅ f) :
    ∀ n, f.isAlive n = true → f.Acyclic n → f.LinkedBelow n →
      ∃ flags g, f.flags? n = some (flags, g) ∧ f.Describes n flags := by
  intro n hn hacyclic hlinked
  have hs := hf.sound_of_empty
  have htrusts : f.Trusts [] := hf.trusts (sound_empty checks) fun m _ =>
    .of_uncached (by rw [node_of_not_alive _ (by simp [isAlive])]; rfl)
  obtain ⟨flags, g, hflags, hanswer⟩ :=
    answered_flags hs.closed hn hacyclic.asks
  have hfg := hanswer.asked.alike
  refine ⟨flags, g, hflags, Describes.alike ?_ hfg⟩
  refine describes_of_trusted
    (fun m hm => hanswer.asked.trusted (htrusts m hm))
    ((shallow_of_acyclic hs.closed hn hacyclic).mono fun m =>
      (hfg.children m).symm ▸ List.Subset.refl _)
    (fun {p c} hreach hc => ?_) hanswer.cached
  rw [holds_alike hfg] at hreach
  rw [hfg.children] at hc
  rw [hfg.parent?]
  exact hlinked hreach hc

/-- A block that was asked for its flags, and then got a call for its last
instruction. -/
theorem Runs.flags_describe_of_block :
    let ops : List Operation :=
      [.create .block .none, .hold ⟨0⟩, .create .ret .none, .hold ⟨1⟩,
        .change ⟨⟨0⟩, 0⟩ (.add ⟨1⟩), .flags ⟨0⟩, .create .call .none,
        .hold ⟨2⟩, .change ⟨⟨0⟩, 0⟩ (.add ⟨2⟩)]
    let f := played .strict ops ∅
    Runs .strict (Regular .strict) [] ∅ f
      ∧ ∃ flags g, f.flags? ⟨0⟩ = some (flags, g)
        ∧ f.Describes ⟨0⟩ flags := by
  intro ops f
  have hplays : Plays .strict (fun _ _ => true) [] ops ∅ := by decide
  have hf : Runs .strict (Regular .strict) [] ∅ f :=
    hplays.runs (fun hop _ => hop.regular) .refl
  have hholds : ∀ {p c}, f.Holds p c → p = ⟨0⟩ ∧ c ∈ f.children ⟨0⟩ := by
    intro p c hc
    have hp : p.index < f.size :=
      f.index_lt_of_alive (f.alive_of_mem_children hc)
    have hall : ∀ i < f.size, ∀ c ∈ f.children ⟨i⟩, i = 0 := by decide
    obtain rfl : p = ⟨0⟩ := congrArg NodeId.mk (hall _ hp c hc)
    exact ⟨rfl, hc⟩
  have hleaf : ∀ c ∈ f.children ⟨0⟩, c ≠ ⟨0⟩ := by decide
  refine ⟨hf, Runs.flags_describe hf ⟨0⟩ (by decide) (fun {m} _ hring => ?_)
    fun {p c} _ hc => ?_⟩
  · obtain ⟨c, hhead, -⟩ := Relation.TransGen.head'_iff.mp hring
    obtain ⟨p, -, htail⟩ := Relation.TransGen.tail'_iff.mp hring
    exact hleaf m (hholds htail).2 (hholds hhead).1
  · have hparents : ∀ c ∈ f.children ⟨0⟩, f.parent? c = some ⟨0⟩ := by
      decide
    obtain ⟨rfl, hc⟩ := hholds hc
    exact hparents c hc

/-- A judge that rejects everything, and ends a traversal of `o` first. -/
def Collection.endingJudge (checks : Checks) (o : NodeId) :
    Collection.Judge Unit := fun _ s =>
  match Forest.endTraversal checks o s.1 with
  | .ok _ f => .ok true (f, s.2)
  | .stop why f => .stop why (f, s.2)

/-- If a judge ends the traversal of its own pass, the pass can not get to
its commit, and the flags of the owner stay what they were. -/
theorem Runs.flags_outdated :
    ∃ f, Runs .strict (fun _ op _ out => Unforged op out) [] ∅ f
      ∧ f.isAlive ⟨0⟩ = true ∧ f.Acyclic ⟨0⟩ ∧ f.LinkedBelow ⟨0⟩
      ∧ ∃ flags g, f.flags? ⟨0⟩ = some (flags, g)
        ∧ ¬ f.Describes ⟨0⟩ flags := by
  let ops : List Operation :=
    [.create .block .none, .hold ⟨0⟩, .create .ret .none, .hold ⟨1⟩,
      .change ⟨⟨0⟩, 0⟩ (.add ⟨1⟩), .flags ⟨0⟩]
  let k := played .strict ops ∅
  let filter : Operation :=
    .removeAll ⟨⟨0⟩, 0⟩ (Collection.endingJudge .strict ⟨0⟩) ()
  let f := (filter.run .strict k).state
  let tell : Operation := .notify ⟨0⟩ .endTraversal
  have hplays : Plays .strict (fun _ _ => true) [] ops ∅ := by decide
  have hk : Runs .strict (fun _ op _ out => Unforged op out) [] ∅ k :=
    hplays.runs (fun hop _ => hop.regular.toUnforged) .refl
  have hcalls : ∀ j ∈ filter.calls .strict (k.holdAll filter.keeps),
      tell.Ready (j.node :: (filter.keeps ++ [])) j.before
        ∧ tell.run .strict j.before = .ok () j.after := by decide
  have hout : filter.run .strict k
      = .stop (.panic (.unbalancedTraversal .block)) f := by decide
  have hleaf : f.children ⟨0⟩ = [] := by decide
  have hreach : ∀ {m}, Relation.ReflTransGen f.Holds ⟨0⟩ m → m = ⟨0⟩ := by
    intro m hm
    rcases Relation.ReflTransGen.cases_head hm with rfl | ⟨c, hc, -⟩
    · rfl
    · rw [Holds, hleaf] at hc
      cases hc
  have hforged : ∀ o n, filter ≠ .notify o (.attach n)
      ∧ filter ≠ .notify o (.detach n) := by
    intro o n
    simp [filter]
  have htold : ∀ o n, tell ≠ .notify o (.attach n)
      ∧ tell ≠ .notify o (.detach n) := by
    intro o n
    simp [tell]
  have hf : Runs .strict (fun _ op _ out => Unforged op out) [] ∅ f := by
    refine Runs.step hk (by decide) ?_ ?_
    · intro j hj
      obtain ⟨hready, hdone⟩ := hcalls j hj
      have htell : Unforged tell (tell.run .strict j.before) := by
        refine ⟨htold, ?_⟩
        intro a s h
        rw [hdone] at h
        cases h
      have hrun : Runs .strict (fun _ op _ out => Unforged op out)
          (j.node :: (filter.keeps ++ [])) j.before
          (tell.run .strict j.before).state :=
        .step .refl hready (fun _ hj => by cases hj) htell
      rwa [hdone] at hrun
    · refine ⟨hforged, ?_⟩
      intro a s h
      rw [hout] at h
      cases h
  refine ⟨f, hf, by decide, ?_, ?_, (f.node ⟨0⟩).cached.getD ∅, f,
    by decide, ?_⟩
  · intro m hm hring
    obtain ⟨c, hc, -⟩ := Relation.TransGen.head'_iff.mp hring
    rw [hreach hm, Leads, hleaf] at hc
    cases hc
  · intro p c hp hc
    rw [hreach hp, hleaf] at hc
    cases hc
  · intro hdesc
    have hends := hdesc.endPoint.mp (by decide)
    cases hends with
    | direct h => exact absurd h (by decide)
    | last _ hlast _ =>
        rw [hleaf] at hlast
        cases hlast

end InstructionTree
