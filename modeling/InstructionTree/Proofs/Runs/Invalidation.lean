/-
Nobody is left out by a climb that stops early.

At every forest that a client sees, whoever remembers its flags vouches for
its children (`Sees.vouched`). So when a climb stops at a node without
cached flags, nobody who is joined above it has any. This is so also where
no checks are made and links lead into a ring, in the middle of a
filtering, and after operations that were refused or broke off. Left out
are only notices of attaching and detaching, and attaches that broke off:
they change links, and nobody commits it.

A commit tells by the version that it happened. So what a client can
observe is that whoever has another version than before remembers nothing,
nor does anybody who is joined above it (`Sees.commits_invalidate`).
-/
import InstructionTree.Proofs.Collection.Invalidation
import InstructionTree.Proofs.Forest.Informed
import InstructionTree.Proofs.Runs.Caches
import InstructionTree.Proofs.Runs.Seen
import InstructionTree.Proofs.Runs.Versions

namespace InstructionTree

open Forest Collection

variable {checks : Checks} {locks : List NodeId} {f g h : Forest}
  {n o p : NodeId} {op : Operation} {c : Collection} {σ : Type}
  {judge : Judge σ} {st : σ}

-- =============================================================== vouching

namespace Operation

/-- The `body` of an operation keeps the forest `Vouched`, if its calls back
do. -/
theorem body_vouched (hready : op.Ready locks f)
    (hs : f.Sound checks (op.keeps ++ locks))
    (hcalls : ∀ j ∈ op.calls checks f,
      j.before.Vouched [] → j.after.Vouched [])
    (hunforged : ∀ o n,
      op ≠ .notify o (.attach n) ∧ op ≠ .notify o (.detach n))
    (hunbroken : ∀ a s, op.body checks f ≠ .stop (.panic (.notATree a)) s)
    (hf : f.Vouched []) : (op.body checks f).state.Vouched [] := by
  cases op with
  | flags n => exact fun p hp => (hf p hp).asked (asked_flags hs.closed hready)
  | removeAll c judge st =>
      rw [body, Outcome.state_map]
      exact vouched_removeAll hcalls hf
  | _ =>
      exact hf.batched (body_batched hready hs rfl (fun _ h => by cases h)
        hunforged hunbroken)

/-- An operation as a whole keeps the forest `Vouched`, if its calls back do.
-/
theorem run_vouched (hready : op.Ready locks f) (hs : f.Sound checks locks)
    (hcalls : ∀ j ∈ op.calls checks (f.holdAll op.keeps),
      j.before.Vouched [] → j.after.Vouched [])
    (hpermit : Unforged op (op.run checks f)) (hf : f.Vouched []) :
    (op.run checks f).state.Vouched [] := by
  have hunbroken : ∀ a s, op.body checks (f.holdAll op.keeps)
      ≠ .stop (.panic (.notATree a)) s :=
    fun a s hstop => hpermit.unbroken a _ (run_of_body hstop)
  rw [run, Outcome.state_always]
  exact (body_vouched (hready.alike (alike_holdAll op.keeps))
    (hs.holdAll hready.keeps) hcalls hpermit.unforged hunbroken
    (hf.overlooks (overlooks_holdAll op.keeps))).overlooks
    (overlooks_releaseAll op.keeps)

end Operation

/-- The permit of runs without bare `attach` or `detach` notices, and without
an attach that breaks off. -/
abbrev Candid : Permit := fun _ op _ out => Unforged op out

/-- A `Candid` run leads from a `Vouched` forest to a `Vouched` one. -/
theorem Runs.vouched (hfg : Runs checks Candid locks f g)
    (hs : f.Sound checks locks) (hf : f.Vouched []) : g.Vouched [] := by
  induction hfg with
  | refl => exact hf
  | @step locks f g op hfg hready hcalls hpermit ih ihcalls =>
      have hs' := (hfg.sound hs).1
      refine Operation.run_vouched hready hs' (fun j hj => ?_) hpermit
        (ih hs hf)
      obtain ⟨k, hk⟩ := List.mem_iff_getElem?.mp hj
      obtain ⟨c, count, pass, stopped, last, hsifts, ho, hbegun, hc⟩ :=
        op.calls_sifts hready hs' hk
      have hbefore := (hsifts.reached k ho hbegun hc
        fun i e hi _ hsound =>
          (hcalls e (List.mem_of_getElem? hi)).reached hsound).1 k j hk
        (Nat.le_refl k)
      exact ihcalls j hj hbefore.sound

namespace Sees

/-- Wherever a client looks in a `Candid` run, nodes with cached flags vouch
for the children that are linked to them. -/
theorem vouched (hf : Sees checks Candid locks f) : f.Vouched [] := by
  induction hf with
  | between hf =>
      refine hf.vouched (sound_empty checks) fun p _ => .of_uncached ?_
      rw [node_of_not_alive _ (by simp [isAlive])]
      rfl
  | @inside locks f g op k j hf hready hj hearlier hg ih =>
      obtain ⟨c, count, pass, stopped, last, hsifts, ho, hs, hc⟩ :=
        op.calls_sifts hready hf.sound hj
      have hbefore : ∀ i e,
          (op.calls checks (f.holdAll op.keeps))[i]? = some e → i ≤ k →
          Reached checks (e.node :: (op.keeps ++ locks)) _ e.before :=
        (hsifts.reached k ho hs hc fun i e hi hlt hsound =>
          (hearlier i e hi hlt).reached hsound).1
      refine hg.vouched (hbefore k j hj (Nat.le_refl k)).sound ?_
      refine hsifts.vouched_before hj (fun i e hi hlt => ?_) ?_
      · exact (hearlier i e hi hlt).vouched
          (hbefore i e hi (Nat.le_of_lt hlt)).sound
      · exact (ih.overlooks (overlooks_holdAll op.keeps)).overlooks
          (overlooks_beginTraversal c.owner)

end Sees

-- ================================================================ commits

namespace Forest

/-- Every node alive in `f` and `g` whose version differs between them has no
cached flags in `g`. -/
def Marks (f g : Forest) : Prop :=
  ∀ n, f.isAlive n = true → g.isAlive n = true →
    (g.node n).version ≠ (f.node n).version → (g.node n).cached = none

theorem Raises.marks (hfg : Raises p 0 f g) : Marks f g :=
  fun _ hf hg hother => absurd (hfg.version_eq hf hg) hother

/-- `Marks` from `g` to `h` with steps before it that raise no version is
`Marks` from `f`. -/
theorem Marks.after (hgh : Marks g h) (hfg : Raises p 0 f g)
    (hages : Ages g h) : Marks f h := by
  intro n hf hh hother
  have hg := hfg.ages.alive_between hages hf hh
  exact hgh n hg hh (hfg.version_eq hf hg ▸ hother)

/-- `Marks` from `f` to `g` with steps after it that raise no version and cache
nothing is `Marks` to `h`. -/
theorem Marks.followed (hfg : Marks f g) (hages : Ages f g)
    (hgh : Raises p 0 g h) (hunseen : Overlooks g h []) : Marks f h := by
  intro n hf hh hother
  have hg := hages.alive_between hgh.ages hf hh
  rw [hgh.version_eq hg hh] at hother
  exact (hunseen.fades List.not_mem_nil).uncached (hfg n hf hg hother)

theorem marks_commit (f : Forest) (o : NodeId) : Marks f (f.commit o) := by
  intro n hf hg hother
  by_cases hn : n = o
  · exact hn ▸ (fades_commit f o o).2
  · rw [(raises_commit o).version hf hg, if_neg hn] at hother
    exact absurd rfl hother

/-- An edit `Carried` out at `o` marks: `o` has another version only if its
flags were forgotten. -/
theorem Carried.marks {α : Type} {out : Outcome Forest α}
    (hout : Carried checks o f out) : Marks f out.state := by
  cases hout with
  | idle | refused => exact (Raises.refl o f).marks
  | guarded e ev => exact (raises_emit ev o).marks
  | broken _ hfg => exact (hfg.raises o).marks
  | @done _ g h hfg hgh =>
      have hages := (alike_commit (f := g) o).ages
      exact ((marks_commit g o).after (hfg.raises o) hages).followed
        (hfg.ages.trans hages) (hgh.raises o) (overlooks_sheds hgh)

end Forest

/-- A notice marks: the one of a commit forgets the flags, the others raise no
version. -/
theorem Notice.deliver_marks {r : Notice} (ho : f.isAlive o = true)
    (hr : ∀ n ∈ r.nodes, f.isAlive n = true) :
    Marks f (r.deliver checks o f).state := by
  cases r with
  | attach n =>
      have htried : Tried checks o f (Forest.attach checks o n f) :=
        tried_attach ho (hr n (.head _))
      exact (htried.touches.raises o).marks
  | detach n => exact (raises_detach o n o).marks
  | commit => exact marks_commit f o
  | beginTraversal =>
      have hbegin : Raises o 0 f (openTraversal checks o f).state :=
        openTraversal_with (.refl o f) (raises_beginTraversal o o)
      exact hbegin.marks
  | endTraversal => exact (raises_endTraversal o o).marks
  | requireUntraversed =>
      have hcarried : Carried checks o f
          (Forest.requireUntraversed checks o f) := carried_requireUntraversed
      exact hcarried.marks

namespace Operation

/-- An operation without calls marks. -/
theorem run_marks (hready : op.Ready locks f) (hs : f.Sound checks locks)
    (hfilters : op.filters = false) : Marks f (op.run checks f).state := by
  have hother : op.single = true → op.isEdit = false →
      Marks f (op.run checks f).state := fun hsingle hedit =>
    (raises_other hready hs hsingle hedit default).marks
  have hheld := alike_holdAll (f := f) op.keeps
  have hready' := hready.alike hheld
  have hs' := hs.holdAll hready.keeps
  cases op with
  | setSlotChild | setChild | replaceWith | removeFromParent | change
  | replaceCurrent =>
      obtain ⟨o, hcarried⟩ := carried_body hready' hs' rfl
      rw [run, Outcome.state_always]
      exact (hcarried.marks.after (raises_holdAll _ o) hcarried.ages).followed
        (hheld.ages.trans hcarried.ages) (raises_releaseAll _ o)
        (overlooks_releaseAll _)
  | openCursor c =>
      have hopened : Raises c.owner 0 f
          ((Operation.openCursor c).body checks f).state :=
        Cursor.opening_with (.refl c.owner f)
          ((raises_beginTraversal c.owner c.owner).trans
            (raises_emit _ c.owner))
      rw [run, Outcome.state_always]
      exact hopened.marks
  | closeCursor cursor =>
      have hclosed : Raises default 0 f (cursor.close checks f).state :=
        cursor.raises_close default
      rw [run, Outcome.state_always]
      exact hclosed.marks
  | notify o r =>
      rw [run, Outcome.state_always]
      exact Notice.deliver_marks hready.1 hready.2
  | removeAll => cases hfilters
  | create | build | hold | drop | setOperand | flags => exact hother rfl rfl

/-- A filtering that has rejected somebody, and gets to its end, commits
its collection's owner last. -/
theorem uncached_run_removeAll {j : Judgement}
    (hj : j ∈ (removeAll c judge st).calls checks (f.hold c.owner))
    (hrejects : j.rejects = true)
    (hend : c.removalEnd checks judge (f.hold c.owner, st) = .ok () g) :
    (((removeAll c judge st).run checks f).state.node c.owner).cached
      = none := by
  change j ∈ c.removalCalls checks judge (f.hold c.owner, st) at hj
  cases hguard : (f.hold c.owner).isGuarded checks c.owner with
  | true =>
      rw [(removeAll_guarded hguard judge st).2] at hj
      cases hj
  | false =>
      obtain ⟨pass, stopped, k, hsifts, hfinish, hstate⟩ :=
        removeAll_unguarded checks c judge st hguard
      have hsome : pass.rejected ≠ 0 := by
        rw [hsifts.rejected_eq, Nat.zero_add]
        exact Nat.ne_of_gt (List.countP_pos_iff.mpr ⟨j, hj, hrejects⟩)
      rw [hend] at hfinish
      obtain ⟨m, -, hg⟩ := Outcome.next_eq_ok hfinish.symm
      rw [if_neg hsome] at hg
      rw [← hfinish] at hstate
      have hleft : ((c.removeAll checks judge
          (f.hold c.owner, st)).mapState Prod.fst).state
          = m.commit c.owner := hstate.trans hg
      have hgave : Overlooks (m.commit c.owner)
          ((m.commit c.owner).release c.owner) [] := overlooks_release _
      rw [run, Outcome.state_always, body, Outcome.state_map]
      change ((((c.removeAll checks judge
        (f.hold c.owner, st)).mapState Prod.fst).state.release
          c.owner).node c.owner).cached = none
      rw [hleft]
      exact (hgave.fades List.not_mem_nil).uncached
        (fades_commit m c.owner c.owner).2

end Operation

-- ============================================================= the theorem

namespace Sees

/-- Wherever a client looks in a `Candid` run: nodes with cached flags vouch
for the children linked to them, and a commit (of a node, of an operation, of a
filtering that rejected) leaves none of the nodes with flags from which `Joins`
leads to the committed owner. -/
theorem commits_invalidate (hf : Sees checks Candid locks f) :
    -- in any forest, forgetting ends, and goes up the parents at most
    (∀ (h : Forest) n, h.Invalidates n (h.invalidate n))
    -- whoever remembers flags vouches for its children
    ∧ (∀ p c, (f.node p).cached ≠ none → c ∈ f.children p →
      f.parent? c = some p → (f.node c).cached ≠ none)
    -- a commit leaves nobody above with flags
    ∧ (∀ n p, Relation.ReflTransGen (f.commit n).Joins p n →
      ((f.commit n).node p).cached = none)
    -- nor does an operation that has committed
    ∧ (∀ op : Operation, op.Ready locks f → op.filters = false →
      let g := (op.run checks f).state
      Unforged op (op.run checks f) →
      ∀ n p, f.isAlive n = true → g.isAlive n = true →
        (g.node n).version ≠ (f.node n).version →
        Relation.ReflTransGen g.Joins p n → (g.node p).cached = none)
    -- nor a filtering that has rejected, and gets to its commit
    ∧ (∀ (σ : Type) c (judge : Judge σ) st,
      let op : Operation := .removeAll c judge st
      let calls := op.calls checks (f.hold c.owner)
      let g := (op.run checks f).state
      c.Fits f → Unforged op (op.run checks f) →
      (∀ j ∈ calls, Runs checks Candid (j.node :: c.owner :: locks)
        j.before j.after) →
      (∃ j ∈ calls, j.rejects = true) →
      (∃ k, c.removalEnd checks judge (f.hold c.owner, st) = .ok () k) →
      ∀ p, Relation.ReflTransGen g.Joins p c.owner →
        (g.node p).cached = none) := by
  have hs := hf.sound
  have hvouched := hf.vouched
  refine ⟨fun h n => invalidates_invalidate h n,
    fun p c hsome hc hparent =>
      hvouched p List.not_mem_nil hsome c hc hparent,
    fun n p hjoined => ?_, fun op hready hfilters => ?_,
    fun σ c judge st => ?_⟩
  · exact (hvouched.commit_any n).uncached_of_joined hjoined
      (fades_commit f n n).2
  · intro g hpermit n p hf hg hother hjoined
    have hrun : Runs checks Candid locks f g :=
      .step .refl hready (fun j hj => by
        rw [op.calls_eq_nil hfilters] at hj
        cases hj) hpermit
    exact (hrun.vouched hs hvouched).uncached_of_joined hjoined
      (Operation.run_marks hready hs hfilters n hf hg hother)
  · rintro op calls g hc hpermit hcalls ⟨j, hj, hrejects⟩ ⟨k, hend⟩ p hjoined
    have hrun : Runs checks Candid locks f g :=
      .step .refl hc hcalls hpermit
    exact (hrun.vouched hs hvouched).uncached_of_joined hjoined
      (Operation.uncached_run_removeAll hj hrejects hend)

/-- Two blocks, the first of which holds the second and was asked for its
flags. The second is given the first, and then links lead into a ring:
nobody remembers flags any more. A judge that rejects the second instead
makes the first forget its own. -/
theorem commits_invalidate_of_ring :
    let ops : List Operation :=
      [.create .block .none, .hold ⟨0⟩, .create .block .none, .hold ⟨1⟩,
        .change ⟨⟨0⟩, 0⟩ (.add ⟨1⟩), .flags ⟨0⟩]
    let f := played .lax ops ∅
    let last : Operation := .change ⟨⟨1⟩, 0⟩ (.add ⟨0⟩)
    let g := (last.run .lax f).state
    let filter : Operation := .removeAll ⟨⟨0⟩, 0⟩ (fun _ s => .ok true s) ()
    let h := (filter.run .lax f).state
    Sees .lax Candid [] f
      ∧ (f.node ⟨0⟩).cached ≠ none ∧ (f.node ⟨1⟩).cached ≠ none
      ∧ g.Joins ⟨0⟩ ⟨1⟩ ∧ g.Joins ⟨1⟩ ⟨0⟩
      ∧ (g.node ⟨0⟩).cached = none ∧ (g.node ⟨1⟩).cached = none
      ∧ (h.node ⟨0⟩).cached = none ∧ (h.node ⟨1⟩).cached ≠ none := by
  intro ops f last g filter h
  have hplays : Plays .lax (fun _ _ => true) [] ops ∅ := by decide
  have hf : Sees .lax Candid [] f :=
    .between (hplays.runs (fun hop _ => hop.regular.toUnforged) .refl)
  obtain ⟨-, hvouches, -, hedited, hfiltered⟩ := commits_invalidate hf
  have hfirst : (f.node ⟨0⟩).cached ≠ none := by decide
  have hring : g.Joins ⟨0⟩ ⟨1⟩ ∧ g.Joins ⟨1⟩ ⟨0⟩ :=
    ⟨⟨by decide, by decide⟩, by decide, by decide⟩
  have hlast : last.run .lax f = .ok () g := by decide
  have hdone : filter.run .lax f = .ok () h := by decide
  have hgone : ∀ p, Relation.ReflTransGen g.Joins p ⟨1⟩ →
      (g.node p).cached = none :=
    fun p => hedited last (by decide) rfl
      ⟨fun o n => ⟨nofun, nofun⟩, fun a s hstop => by
        rw [hlast] at hstop
        cases hstop⟩ ⟨1⟩ p (by decide) (by decide) (by decide)
  refine ⟨hf, hfirst, hvouches ⟨0⟩ ⟨1⟩ hfirst (by decide) (by decide),
    hring.1, hring.2, hgone _ (.single hring.1), hgone _ .refl, ?_,
    by decide⟩
  have hjudged : ∀ j ∈ filter.calls .lax (f.hold ⟨0⟩), j.after = j.before := by
    decide
  let ended := removalEnd .lax ⟨⟨0⟩, 0⟩ (fun _ s => .ok true s)
    (f.hold ⟨0⟩, ())
  have hended : ended = .ok () ended.state := by decide
  refine hfiltered Unit ⟨⟨0⟩, 0⟩ _ () (by decide)
    ⟨fun o n => ⟨nofun, nofun⟩, fun a s hstop => ?_⟩ (fun j hj => ?_)
    (by decide) ⟨_, hended⟩ ⟨0⟩ .refl
  · rw [hdone] at hstop
    cases hstop
  · rw [hjudged j hj]
    exact .refl

end Sees

end InstructionTree
