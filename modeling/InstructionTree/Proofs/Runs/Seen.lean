/-
What a client sees of a forest, and what it does not.

Between two operations a client sees the forest that the first one left.
In a call of a judge it sees the forest in the middle of a filtering, and
what the operations made in that call left so far; such an operation may
filter in turn. `Sees` are all these forests.

What no client sees are the moments inside of an operation. Every
operation is made of moves (`Operation.run_reached`), so whatever holds of
all that moves can lead to from a seen forest holds at every moment of
what is done next to it. With checks on, that all climbs end is such a
property.
-/
import InstructionTree.Proofs.Forest.Climbs
import InstructionTree.Proofs.Runs.Listed

namespace InstructionTree

open Forest Collection

variable {checks : Checks} {locks : List NodeId} {f g h : Forest}

-- ================================================================ reached

/-- A sound forest that moves from `f` lead to. -/
structure Forest.Reached (checks : Checks) (locks : List NodeId)
    (f g : Forest) : Prop where
  sound : g.Sound checks locks
  ages : Ages f g
  moves : Moves checks f g

namespace Forest.Reached

theorem refl (hs : f.Sound checks locks) : Reached checks locks f f :=
  ⟨hs, .refl f, .refl⟩

/-- What is `Reached` from `g` is reached from `f`, if `g` is; the locks may be
others then. -/
theorem trans {more : List NodeId} (hfg : Reached checks locks f g)
    (hgh : Reached checks more g h) : Reached checks more f h :=
  ⟨hgh.sound, hfg.ages.trans hgh.ages, hfg.moves.trans hgh.moves⟩

theorem hold (hs : f.Sound checks locks) {n : NodeId}
    (hn : f.isAlive n = true) :
    Reached checks (n :: locks) f (f.hold n) :=
  ⟨hs.hold hn, (alike_hold n).ages, .hold n⟩

theorem unlock {n : NodeId} (hs : f.Sound checks (n :: locks)) :
    Reached checks locks f (f.release n) :=
  ⟨hs.unlock, ages_release f n, .release n⟩

theorem touches {o : NodeId} (hfg : Touches checks o f g)
    (hs : f.Sound checks locks) : Reached checks locks f g :=
  ⟨hfg.sound hs, hfg.ages, .of_touches hfg⟩

theorem holdAll {ns : List NodeId} (hs : f.Sound checks locks)
    (hns : ∀ n ∈ ns, f.isAlive n = true) :
    Reached checks (ns ++ locks) f (f.holdAll ns) :=
  ⟨hs.holdAll hns, (alike_holdAll ns).ages, .holdAll ns⟩

theorem releaseAll {ns : List NodeId} (hs : f.Sound checks (ns ++ locks)) :
    Reached checks locks f (f.releaseAll ns) :=
  ⟨hs.releaseAll, ages_releaseAll ns, .releaseAll ns⟩

end Forest.Reached

-- ============================================================== filtering

namespace Collection

variable {c : Collection}

/-- The calls of a pass and what is between them are reached from its
start, up to call `last`, if the calls before it are made of moves. -/
theorem Sifts.reached (last : Nat) {count : Nat} {pass final : Pass}
    {calls : List Judgement} {stopped : Option Stop}
    (hsifts : Sifts c count pass f calls final stopped h)
    (ho : c.owner ∈ locks) (hs : f.Sound checks locks) (hc : c.Fits f)
    (hcalls : ∀ k j, calls[k]? = some j → k < last →
      j.before.Sound checks (j.node :: locks) →
      Reached checks (j.node :: locks) j.before j.after) :
    (∀ k j, calls[k]? = some j → k ≤ last →
        Reached checks (j.node :: locks) f j.before)
      ∧ (calls.length ≤ last → Reached checks locks f h) := by
  have hfits : ∀ {g : Forest} {n : NodeId},
      Reached checks (n :: locks) f g → g.WellFormed ∧ c.Fits g := by
    intro g n hg
    exact ⟨hg.sound.toWellFormed,
      hc.ages hg.ages (hg.sound.alive (.tail _ ho))⟩
  have hopen : ∀ {g : Forest} {n : NodeId}, Reached checks locks f g →
      n ∈ c.items g → Reached checks (n :: locks) f (g.hold n) := by
    intro g n hg hn
    exact hg.trans (.hold hg.sound
      (alive_of_mem_items hg.sound.toWellFormed hn))
  have hdone : ∀ {g k : Forest} {n : NodeId},
      Reached checks (n :: locks) f g → Touches checks c.owner g k →
      Reached checks locks f (k.release n) := by
    intro g k n hg hgk
    exact (hg.trans (.touches hgk hg.sound)).trans
      (.unlock (hgk.sound hg.sound))
  have hinside : ∀ k j, calls[k]? = some j → k < last →
      Reached checks (j.node :: locks) f j.before →
      Reached checks (j.node :: locks) f j.after := by
    intro k j hk hlt hj
    exact hj.trans (hcalls k j hk hlt hj.sound)
  exact Sifts.carry (fun _ g => Reached checks locks f g)
    (fun _ n g => Reached checks (n :: locks) f g)
    hopen hfits hdone hsifts hinside (.refl hs)

/-- `finish` of a pass is made of `Moves`. -/
theorem moves_finish (hwf : f.WellFormed) (hc : c.Fits f) (pass : Pass) :
    Moves checks f (pass.finish checks c f).state := by
  have hcompact : Moves checks f (pass.compact c f) :=
    .of_touches (touches_compact hwf hc pass)
  have hend : Moves checks (pass.compact c f)
      (endTraversal checks c.owner (pass.compact c f)).state :=
    .endTraversal c.owner
  have hclosed := hcompact.trans hend
  unfold Pass.finish
  cases hout : endTraversal checks c.owner (pass.compact c f) with
  | stop why g =>
      rw [hout] at hclosed
      exact hclosed
  | ok u g =>
      rw [hout] at hclosed
      show Moves checks f (if pass.rejected = 0 then g else g.commit c.owner)
      split
      · exact hclosed
      · exact hclosed.tail (.commit c.owner)

/-- A filtering is made of `Moves`, if each of its calls reaches its end by
moves. -/
theorem Filtered.moves {calls : List Judgement} {out : Outcome Forest Nat}
    (hout : Filtered checks c f calls out) (ho : c.owner ∈ locks)
    (hs : f.Sound checks locks) (hc : c.Fits f)
    (hcalls : ∀ j ∈ calls, j.before.Sound checks (j.node :: locks) →
      Reached checks (j.node :: locks) j.before j.after) :
    Moves checks f out.state := by
  rcases hout.ends with ⟨e, ev, rfl⟩ | ⟨pass, stopped, g, hsifts, hstate⟩
  · exact .single (.report ev)
  · have hbegin := alike_beginTraversal (f := f) c.owner
    have hg : Reached checks locks (f.beginTraversal c.owner) g :=
      (hsifts.reached calls.length ho (hs.alike hbegin) (hc.alike hbegin)
        fun k j hk _ => hcalls j (List.mem_of_getElem? hk)).2 (Nat.le_refl _)
    have hfits := hc.ages (hbegin.ages.trans hg.ages) (hg.sound.alive ho)
    have hstart : Moves checks f (f.beginTraversal c.owner) :=
      .beginTraversal c.owner
    rw [hstate]
    exact (hstart.trans hg.moves).trans
      (moves_finish hg.sound.toWellFormed hfits pass)

end Collection

-- ============================================================= operations

theorem Notice.deliver_moves {o : NodeId} {r : Notice}
    (ho : f.isAlive o = true) (hr : ∀ n ∈ r.nodes, f.isAlive n = true) :
    Moves checks f (r.deliver checks o f).state := by
  cases r with
  | attach n =>
      have htried : Tried checks o f (Forest.attach checks o n f) :=
        tried_attach ho (hr n (.head _))
      exact Moves.of_tried htried
  | detach n => exact .single (.touch (o := o) (.leave n))
  | commit => exact .single (.commit o)
  | beginTraversal =>
      have hidle : Moves checks f f := .refl
      exact openTraversal_with hidle (Moves.beginTraversal o)
  | endTraversal => exact Moves.endTraversal o
  | requireUntraversed =>
      have hcarried : Carried checks o f
          (Forest.requireUntraversed checks o f) := carried_requireUntraversed
      exact Moves.of_carried hcarried

theorem Cursor.moves_close (cursor : Cursor) :
    Moves checks f (cursor.close checks f).state :=
  cursor.close_with (fun _ hfg => hfg.tail (.report _)) (.endTraversal _)

/-- Asking for flags is made of `Moves`: it writes caches, one after the other.
-/
theorem Forest.moves_flags (n : NodeId) :
    Moves checks f (((f.flags? n).map Prod.snd).getD f) := by
  unfold flags?
  split
  · exact remembers_flagsWithin (fun _ => .refl)
      (fun hfg hgh => hfg.trans hgh)
      (fun _ _ _ => .single (.note _ _ (fun _ => rfl) fun _ => rfl)) f.size n f
  · exact .refl

namespace Operation

variable {op : Operation}

/-- The `body` of an operation is made of `Moves`, if its calls back are. -/
theorem body_moves (hready : op.Ready locks f)
    (hs : f.Sound checks (op.keeps ++ locks))
    (hcalls : ∀ j ∈ op.calls checks f,
      j.before.Sound checks (j.node :: (op.keeps ++ locks)) →
      Reached checks (j.node :: (op.keeps ++ locks)) j.before j.after) :
    Moves checks f (op.body checks f).state := by
  cases hedit : op.isEdit with
  | true =>
      obtain ⟨o, hout⟩ := carried_body hready hs hedit
      exact Moves.of_carried hout
  | false =>
      cases op with
      | create op x => exact .single (.birth op x)
      | build op x ns =>
          have hbuilds : Builds checks (f.alloc (Node.fresh op x)).1
              (f.alloc (Node.fresh op x)).2 op.layout ns
              (Forest.build checks op x ns f) := builds_build hs hready
          have hborn : Moves checks f (f.alloc (Node.fresh op x)).2 :=
            .single (.birth op x)
          rw [body, Outcome.state_map]
          exact hborn.trans (hbuilds.moves (hs.alloc op x)
            (isAlive_alloc_self ..))
      | hold n => exact Moves.hold n
      | drop n => exact Moves.release n
      | setOperand n x =>
          exact .single (.note n _ (fun _ => rfl) fun _ => rfl)
      | flags n => exact moves_flags n
      | removeAll c judge st =>
          rw [body, Outcome.state_map]
          have hfiltered := Collection.filtered_removeAll checks c judge f st
          exact hfiltered.moves (.head _) hs hready hcalls
      | openCursor c =>
          have hbegin : Moves checks f (f.beginTraversal c.owner) :=
            .beginTraversal c.owner
          have hidle : Moves checks f f := .refl
          exact Cursor.opening_with hidle (hbegin.tail (.report _))
      | closeCursor cursor => exact cursor.moves_close
      | notify o r => exact Notice.deliver_moves hready.1 hready.2
      | setSlotChild | setChild | replaceWith | removeFromParent | change
      | replaceCurrent => cases hedit

/-- An operation that makes a call is a filtering, and the call is one of its
pass (`Sifts`). -/
theorem calls_sifts {k : Nat} {j : Judgement} (hready : op.Ready locks f)
    (hs : f.Sound checks locks)
    (hj : (op.calls checks (f.holdAll op.keeps))[k]? = some j) :
    ∃ (c : Collection) (count : Nat) (pass : Pass) (stopped : Option Stop)
      (g : Forest),
      Sifts c count ⟨0, 0, 0⟩ ((f.holdAll op.keeps).beginTraversal c.owner)
        (op.calls checks (f.holdAll op.keeps)) pass stopped g
      ∧ c.owner ∈ op.keeps ++ locks
      ∧ ((f.holdAll op.keeps).beginTraversal c.owner).Sound checks
        (op.keeps ++ locks)
      ∧ c.Fits ((f.holdAll op.keeps).beginTraversal c.owner) := by
  cases op with
  | removeAll c judge st =>
      have hheld := hs.holdAll hready.keeps
      have hfits : c.Fits f := hready
      have hbegin := alike_beginTraversal (f := f.holdAll [c.owner]) c.owner
      cases hguard : (f.holdAll [c.owner]).isGuarded checks c.owner with
      | true =>
          have hnone : c.removalCalls checks judge (f.holdAll [c.owner], st)
              = [] := by
            unfold removalCalls
            rw [if_pos hguard]
          change (c.removalCalls checks judge
            (f.holdAll [c.owner], st))[k]? = some j at hj
          rw [hnone, List.getElem?_nil] at hj
          cases hj
      | false =>
          obtain ⟨pass, stopped, g, hsifts, -⟩ :=
            removeAll_unguarded checks c judge st hguard
          exact ⟨c, _, pass, stopped, g, hsifts, .head _,
            hheld.alike hbegin,
            hfits.alike ((alike_holdAll [c.owner]).trans hbegin)⟩
  | create | build | hold | drop | setOperand | flags | setSlotChild
  | setChild | replaceWith | removeFromParent | change | openCursor
  | closeCursor | replaceCurrent | notify => cases hj

/-- An operation as a whole is made of moves, with what is taken and given
back around it. -/
theorem run_reached (hready : op.Ready locks f) (hs : f.Sound checks locks)
    (hcalls : ∀ j ∈ op.calls checks (f.holdAll op.keeps),
      j.before.Sound checks (j.node :: (op.keeps ++ locks)) →
      Reached checks (j.node :: (op.keeps ++ locks)) j.before j.after) :
    Reached checks locks f (op.run checks f).state := by
  have hheld : Reached checks (op.keeps ++ locks) f (f.holdAll op.keeps) :=
    .holdAll hs hready.keeps
  have hready' := hready.alike (alike_holdAll op.keeps)
  obtain ⟨hs', hages⟩ := body_sound hready' hheld.sound fun j hj hsound =>
    ⟨(hcalls j hj hsound).sound, (hcalls j hj hsound).ages⟩
  have hbody : Reached checks (op.keeps ++ locks) (f.holdAll op.keeps)
      (op.body checks (f.holdAll op.keeps)).state :=
    ⟨hs', hages, body_moves hready' hheld.sound hcalls⟩
  rw [run, Outcome.state_always]
  exact (hheld.trans hbody).trans (.releaseAll hs')

end Operation

/-- A run from a sound forest has `Reached` its end. -/
theorem Runs.reached {permits : Permit} (hfg : Runs checks permits locks f g)
    (hs : f.Sound checks locks) : Reached checks locks f g := by
  induction hfg with
  | refl => exact .refl hs
  | step _ hready _ _ ih ihcalls =>
      have hg := ih hs
      exact hg.trans (Operation.run_reached hready hg.sound ihcalls)

-- =================================================================== seen

/-- The forests in which a client can look: between operations, and in the
calls of a filtering. -/
inductive Sees (checks : Checks) (permits : Permit) :
    List NodeId → Forest → Prop where
  /-- Between operations. -/
  | between {f : Forest} (hf : Runs checks permits [] ∅ f) :
      Sees checks permits [] f
  /-- In a call of a judge, after the calls before it and some operations
  of its own. -/
  | inside {locks : List NodeId} {f g : Forest} {op : Operation} {k : Nat}
      {j : Judgement} (hf : Sees checks permits locks f)
      (hready : op.Ready locks f)
      (hj : (op.calls checks (f.holdAll op.keeps))[k]? = some j)
      (hearlier : ∀ i e, (op.calls checks (f.holdAll op.keeps))[i]? = some e →
        i < k →
        Runs checks permits (e.node :: (op.keeps ++ locks)) e.before e.after)
      (hg : Runs checks permits (j.node :: (op.keeps ++ locks)) j.before g) :
      Sees checks permits (j.node :: (op.keeps ++ locks)) g

namespace Sees

variable {permits : Permit}

/-- Every forest that a client sees is `Sound`, with the locks of the calls
under way. -/
theorem sound (hf : Sees checks permits locks f) : f.Sound checks locks := by
  induction hf with
  | between hf => exact hf.sound_of_empty
  | @inside locks f g op k j _ hready hj hearlier hg ih =>
      obtain ⟨c, count, pass, stopped, last, hsifts, ho, hs, hc⟩ :=
        op.calls_sifts hready ih hj
      -- the calls before this one kept the forest sound
      have hbefore := (hsifts.reached k ho hs hc
        fun i e hi hlt hsound => (hearlier i e hi hlt).reached hsound).1 k j
        hj (Nat.le_refl k)
      exact (hg.sound hbefore.sound).1

/-- Two nodes that are `Referenced` may count as locked in a forest that the
client sees. -/
theorem lock (hf : Sees checks permits locks f) {o n : NodeId}
    (hheld : f.Referenced [o, n]) :
    f.Sound checks [o, n].dedup
      ∧ o ∈ [o, n].dedup ∧ n ∈ [o, n].dedup := by
  have hunlocked : f.Sound checks [] := hf.sound.mono fun n => Nat.zero_le _
  exact ⟨hunlocked.lock hheld, List.mem_dedup.mpr (.head _),
    List.mem_dedup.mpr (.tail _ (.head _))⟩

/-- With checks on, all climbs end, wherever a client looks and at every
moment of whatever it does next: also after notices of attaching and
detaching, with nodes in several places, with owners freed, in the calls
of a judge, and after operations that broke off. Slots may form rings.
-/
theorem climbs_end (hf : Sees .strict permits locks f) :
    f.ClimbsEnd
    ∧ (∀ g, Moves .strict f g → g.ClimbsEnd)
    ∧ ∀ op : Operation, op.Ready locks f →
      (∀ j ∈ op.calls .strict (f.holdAll op.keeps),
        Runs .strict permits (j.node :: (op.keeps ++ locks))
          j.before j.after) →
      Moves .strict f (op.run .strict f).state := by
  have hs : f.Sound .strict locks := hf.sound
  have hunlocked : f.Sound .strict [] := hs.mono fun n => Nat.zero_le _
  refine ⟨climbsEnd_of_rooted (hs.rooted rfl),
    fun g hfg => hfg.climbsEnd hunlocked, fun op hready hcalls => ?_⟩
  exact (Operation.run_reached hready hs fun j hj hsound =>
    (hcalls j hj).reached hsound).moves

/-- A block that two others hold, and that the first of them is put into:
a ring of slots. Then the second block is put into it, too, which breaks
the tree, and the forest stays as the broken edit left it. -/
theorem climbs_end_of_ring :
    let ops : List Operation :=
      [.create .block .none, .hold ⟨0⟩, .create .block .none, .hold ⟨1⟩,
        .create .block .none, .hold ⟨2⟩, .change ⟨⟨0⟩, 0⟩ (.add ⟨2⟩),
        .change ⟨⟨1⟩, 0⟩ (.add ⟨2⟩), .change ⟨⟨2⟩, 0⟩ (.add ⟨0⟩)]
    let f := played .strict ops ∅
    let last : Operation := .change ⟨⟨2⟩, 0⟩ (.add ⟨1⟩)
    Sees .strict Plain [] f
    ∧ f.Holds ⟨0⟩ ⟨2⟩ ∧ f.Holds ⟨2⟩ ⟨0⟩ ∧ f.ClimbsEnd
    ∧ last.run .strict f
      = .stop (.panic (.notATree .block)) (last.run .strict f).state
    ∧ (last.run .strict f).state.children ⟨2⟩ = [⟨0⟩, ⟨1⟩]
    ∧ (last.run .strict f).state.ClimbsEnd := by
  intro ops f last
  have hplays : Plays .strict (fun _ _ => true) [] ops ∅ := by decide
  have hf : Sees .strict Plain [] f :=
    .between (hplays.runs (fun hop _ => hop.plain) .refl)
  obtain ⟨hends, hmoments, hmoves⟩ := climbs_end hf
  have hlast : Moves .strict f (last.run .strict f).state :=
    hmoves last (by decide) fun j hj => by cases hj
  exact ⟨hf, by decide, by decide, hends, by decide, by decide,
    hmoments _ hlast⟩

end Sees

end InstructionTree
