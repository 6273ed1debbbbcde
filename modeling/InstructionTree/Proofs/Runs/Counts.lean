/-
What the counters of a plain run count.

A node counts its attaches and detaches, and nobody detaches a child when
its owner is freed. So the counter of a node is never too small, but it
stays too large for ever once an owner was freed while the node, which it
held, lived on. As long as this does not happen, the counter says how many
positions hold the node (`Counted`), through every edit and every freeing.

# Who was held

Owners may be freed in the middle of an operation, and when it gives back
its references. What an owner held last (`lastChildren`) is what it held
before the operation, or after it if it lived that long: only the owner
that is edited changes its children, and it lives. A node that could not
be built is an owner, too, though nobody ever gets to see it.
-/
import InstructionTree.Proofs.Forest.Settled
import InstructionTree.Proofs.Runs.Listed

namespace InstructionTree

open Forest

variable {checks : Checks} {locks : List NodeId} {f g h : Forest}
  {n m : NodeId}

-- ============================================================== building

namespace Forest

section

variable {placed : List NodeId} (hfg : Filled checks n f placed g)
  (hs : f.Sound checks locks) (hn : f.isAlive n = true)
include hfg hs hn

/-- After `Filled` every node has as many more positions as it occurs among
those placed. -/
theorem Filled.holdCount_eq (m : NodeId) :
    g.holdCount m = f.holdCount m + placed.count m := by
  induction hfg with
  | none => rfl
  | more hstep _ ih =>
      obtain ⟨hs', -, halive⟩ := hstep.keeps hs hn
      obtain ⟨i, new, removed, hedited⟩ := hstep.edited hs hn
      have hholds := hedited.exchange.holdCount_eq (n := m) fun hp =>
        (halive _).trans (alive_of_mem_children _ hp)
      rw [List.count_nil] at hholds
      rw [ih hs' ((halive n).trans hn), List.count_append]
      omega

/-- A node that `Filled` did not place has no new holder. -/
theorem Filled.mem_children_before {p : NodeId} (hm : m ∉ placed)
    (hp : m ∈ g.children p) : m ∈ f.children p := by
  induction hfg with
  | none => exact hp
  | more hstep _ ih =>
      rw [List.mem_append, not_or] at hm
      obtain ⟨hs', -, halive⟩ := hstep.keeps hs hn
      obtain ⟨i, new, removed, hedited⟩ := hstep.edited hs hn
      exact hedited.exchange.mem_children_before hm.1
        (ih hs' ((halive n).trans hn) hm.2 hp)

/-- After `Filled` the `slotRefs` of every node not freed has grown by how
often it was placed. -/
theorem Filled.slotRefs_eq (hcov : f.Covered) (hm : g.Spared m) :
    (g.node m).slotRefs = (f.node m).slotRefs + placed.count m := by
  induction hfg with
  | none => rfl
  | more hstep hgh ih =>
      obtain ⟨hs', -, halive⟩ := hstep.keeps hs hn
      have hn' := (halive n).trans hn
      obtain ⟨i, new, removed, hedited⟩ := hstep.edited hs hn
      have hcov' := hedited.exchange.covered hs.toWellFormed hcov
      have hcount := hedited.exchange.account.count hs.toWellFormed hcov
        ((hgh.keeps hs' hn').2.1.spared hm)
      rw [List.count_nil] at hcount
      rw [ih hs' hn' hcov' hm, List.count_append]
      omega

end

/-- The holders of a node that was given to none that could not be built
live on. -/
theorem Builds.filled {slots : List Slot} {children : List NodeId}
    {out : Outcome Forest NodeId}
    (hout : Builds checks n f slots children out)
    (hs : f.Sound checks locks) (hn : f.isAlive n = true)
    (hunbroken : ∀ p s, out ≠ .stop (.panic p) s)
    (hkept : Kept f out.state m)
    (hunplaced : ∀ why s, out = .stop why s →
      m ∉ children.take slots.length) :
    ∃ placed g, Filled checks n f placed g ∧ Calm g out.state
      ∧ Kept g out.state m := by
  obtain ⟨placed, g, hfg, hgh, hend⟩ := hout.ends hunbroken
  refine ⟨placed, g, hfg, hgh, fun {p} hp => ?_⟩
  rcases hend with ⟨a, rfl, -⟩ | ⟨⟨why, h, rfl⟩, hfew⟩
  · exact g.alive_of_mem_children hp
  · exact hkept (hfg.mem_children_before hs hn
      (hfew (hunplaced why h rfl)) hp)

-- ============================================================== counting

/-- The counter of `n` says how many positions hold it. -/
def Counted (f : Forest) (n : NodeId) : Prop :=
  (f.node n).slotRefs = f.holdCount n

/-- A node that is not alive is `Counted`: nobody holds it, and its record says
0. -/
theorem Counted.of_not_alive (hwf : f.WellFormed)
    (hdead : f.isAlive n = false) : f.Counted n := by
  rw [Counted, node_of_not_alive f hdead, hwf.holdCount_eq_zero hdead]
  rfl

theorem Counted.calm (hcounted : f.Counted n) (hfg : Calm f g)
    (hn : g.Spared n) (hkept : Kept f g n) : g.Counted n := by
  rw [Counted, hfg.slotRefs hn, hfg.holdCount_eq hkept]
  exact hcounted

theorem Counted.exchange {o : NodeId} {i : Nat}
    {entered left new : List NodeId} (hcounted : f.Counted n)
    (hx : Exchange o i entered left new f g) (hwf : f.WellFormed)
    (hcov : f.Covered) (hn : g.Spared n) (hkept : Kept f g n) :
    g.Counted n := by
  have hcount := hx.account.count hwf hcov hn
  have hholds := hx.holdCount_eq hkept
  unfold Counted at hcounted ⊢
  omega

theorem Counted.filled {placed : List NodeId} (hcounted : f.Counted m)
    (hfg : Filled checks n f placed g) (hs : f.Sound checks locks)
    (hn : f.isAlive n = true) (hcov : f.Covered) (hm : g.Spared m) :
    g.Counted m := by
  rw [Counted, hfg.slotRefs_eq hs hn hcov hm, hfg.holdCount_eq hs hn,
    hcounted]

/-- `build`, whether it succeeds or not, keeps `m` counted if `m` is not among
the children of an attempt that failed. -/
theorem Counted.build {a : Opcode} {x : Operand} {children : List NodeId}
    (hcounted : f.Counted m) (hs : f.Sound checks locks)
    (hlive : ∀ c ∈ children, f.isAlive c = true) (hcov : f.Covered)
    (hunbroken : ∀ p s, Forest.build checks a x children f
      ≠ .stop (.panic p) s)
    (hm : (Forest.build checks a x children f).state.isAlive m = true)
    (hkept : Kept f (Forest.build checks a x children f).state m)
    (hunplaced : ∀ why s, Forest.build checks a x children f = .stop why s →
      m ∉ children.take a.layout.length) :
    (Forest.build checks a x children f).state.Counted m := by
  have hs' := hs.alloc a x
  have hn : (f.alloc (Node.fresh a x)).2.isAlive
      (f.alloc (Node.fresh a x)).1 = true := isAlive_alloc_self ..
  have hcalm := calm_alloc f a x
  have hbuilds : Builds checks (f.alloc (Node.fresh a x)).1
      (f.alloc (Node.fresh a x)).2 a.layout children
      (Forest.build checks a x children f) := builds_build hs hlive
  have hborn : Kept f (f.alloc (Node.fresh a x)).2 m := fun hp => by
    rw [isAlive_alloc]
    split
    · rfl
    · exact f.alive_of_mem_children hp
  obtain ⟨placed, g, hfilled, hend, hkept'⟩ := hbuilds.filled hs' hn
    hunbroken (fun hp => hkept (hcalm.mem_children hp)) hunplaced
  have hmg : g.Spared m := hend.ages.spared (.inl hm)
  have hmf := (hfilled.keeps hs' hn).2.1.spared hmg
  have hcounted' := hcounted.calm hcalm hmf hborn
  refine Counted.calm ?_ hend (.inl hm) hkept'
  exact hcounted'.filled hfilled hs' hn
    (hcalm.covered hs.toWellFormed hcov) hmg

end Forest

-- ======================================================= who is let go of

/-- What `p` held last on the way from `f` to `g`, before it was freed. -/
def lastChildren (f g : Forest) (p : NodeId) : List NodeId :=
  if g.isAlive p then g.children p else f.children p

/-- No owner of `n` is freed by the operation while `n` lives on, and
neither is a node that the operation could not finish building. -/
structure Operation.Tidy (checks : Checks) (op : Operation) (f : Forest)
    (n : NodeId) : Prop where
  freed : ∀ {p}, n ∈ lastChildren f
      (op.body checks (f.holdAll op.keeps)).state p →
    (op.run checks f).state.isAlive p = false →
    (op.run checks f).state.isAlive n = false
  unbuilt : ∀ {a x ns why g}, op = .build a x ns →
    op.run checks f = .stop why g → n ∈ ns.take a.layout.length →
    g.isAlive n = false

/-- An operation of a plain run that frees no owner of `n` while `n` lives
on. What happens while others are under way is judged with them. -/
structure Tended (checks : Checks) (n : NodeId) (locks : List NodeId)
    (op : Operation) (f : Forest) (out : Outcome Forest Unit) : Prop
    extends Plain locks op f out where
  tidy : locks = [] → op.Tidy checks f n

namespace Operation

variable {op : Operation}

/-- The holders of a node that lives on live as long as the operation needs
its references, and longer. -/
theorem Tidy.kept (htidy : op.Tidy checks f n)
    (hages : Ages f (op.body checks (f.holdAll op.keeps)).state)
    (hn : (op.run checks f).state.isAlive n = true) :
    Kept f (op.body checks (f.holdAll op.keeps)).state n
      ∧ Kept (op.body checks (f.holdAll op.keeps)).state
        (op.run checks f).state n := by
  have hlive : ∀ {p}, n ∈ lastChildren f
      (op.body checks (f.holdAll op.keeps)).state p →
      (op.run checks f).state.isAlive p = true := by
    intro p hp
    cases halive : (op.run checks f).state.isAlive p with
    | true => rfl
    | false =>
        rw [htidy.freed hp halive] at hn
        cases hn
  have hgave : Ages (op.body checks (f.holdAll op.keeps)).state
      (op.run checks f).state := by
    rw [run, Outcome.state_always]
    exact ages_releaseAll _
  constructor
  · intro p hp
    cases halive : (op.body checks (f.holdAll op.keeps)).state.isAlive p with
    | true => rfl
    | false =>
        have hrun := hlive (p := p) (by
          rw [lastChildren, halive]
          exact hp)
        have hold := f.index_lt_of_alive (f.alive_of_mem_children hp)
        rw [hgave.alive (Nat.lt_of_lt_of_le hold hages.size) hrun] at halive
        cases halive
  · intro p hp
    refine hlive ?_
    rw [lastChildren, alive_of_mem_children _ hp]
    exact hp

/-- A node that was given to one that could not be built does not live
on. -/
theorem Tidy.unplaced (htidy : op.Tidy checks f n)
    (hn : (op.run checks f).state.isAlive n = true) {a : Opcode}
    {x : Operand} {ns : List NodeId} {why : Stop} {s : Forest}
    (hop : op = .build a x ns)
    (hstop : op.body checks (f.holdAll op.keeps) = .stop why s) :
    n ∉ ns.take a.layout.length := by
  intro hmem
  have hrun := run_of_body hstop
  have hdead := htidy.unbuilt hop hrun hmem
  rw [hrun] at hn
  exact absurd (hn.symm.trans hdead) nofun

/-- The part of an operation that works keeps a node counted, if it was not
given to a node that could not be built. -/
theorem body_counted (hready : op.Ready locks f)
    (hs : f.Sound checks (op.keeps ++ locks)) (hcov : f.Covered)
    (hidle : ∀ j ∈ op.calls checks f, j.Idle checks (op.keeps ++ locks))
    (hnotify : ∀ o r, op ≠ .notify o r)
    (hunbroken : op.filters = false →
      ∀ p s, op.body checks f ≠ .stop (.panic p) s)
    (hunplaced : ∀ {a x ns why s}, op = .build a x ns →
      op.body checks f = .stop why s → n ∉ ns.take a.layout.length)
    (hn : (op.body checks f).state.isAlive n = true)
    (hkept : Kept f (op.body checks f).state n)
    (hcounted : f.Counted n) : (op.body checks f).state.Counted n := by
  rcases body_cases hready hs hcov hidle hnotify hunbroken
    with ⟨hcalm, -⟩ | ⟨a, x, ns, rfl, hwhole⟩ | ⟨left, -, i, _, _, hedited, -⟩
  · exact hcounted.calm hcalm (.inl hn) hkept
  · rw [body, Outcome.state_map] at hn hkept ⊢
    exact hcounted.build hs hready hcov hwhole hn hkept
      fun why s hout => hunplaced rfl (body_of_build hout)
  · exact hcounted.exchange hedited.exchange hs.toWellFormed hcov (.inl hn)
      hkept

end Operation

/-- An operation that is `Tended` for `n` keeps `n` counted, from the `hold`s
of what it mentions to their release. -/
theorem Tended.counted {op : Operation}
    (htended : Tended checks n [] op f (op.run checks f))
    (hready : op.Ready [] f)
    (hidle : ∀ j ∈ op.calls checks (f.holdAll op.keeps),
      j.Idle checks (op.keeps ++ []))
    (hs : f.Sound checks []) (hcov : f.Covered) (hcounted : f.Counted n) :
    (op.run checks f).state.Counted n := by
  have hs' := Operation.run_sound hready hs fun j hj => (hidle j hj).1
  cases hn : (op.run checks f).state.isAlive n with
  | false => exact .of_not_alive hs'.1.toWellFormed hn
  | true =>
      have hheld := alike_holdAll (f := f) op.keeps
      have hready' := hready.alike hheld
      have hbody := Operation.body_sound hready' (hs.holdAll hready.keeps)
        fun j hj => (hidle j hj).1
      have htidy := htended.tidy rfl
      obtain ⟨hlive, hlive'⟩ := htidy.kept (hheld.ages.trans hbody.2) hn
      have hunplaced : ∀ {a x ns why s}, op = .build a x ns →
          op.body checks (f.holdAll op.keeps) = .stop why s →
          n ∉ ns.take a.layout.length := htidy.unplaced hn
      have hgave := calm_releaseAll
        (f := (op.body checks (f.holdAll op.keeps)).state) op.keeps
      have hunbroken : op.filters = false → ∀ p s,
          op.body checks (f.holdAll op.keeps) ≠ .stop (.panic p) s :=
        fun hfilters p s hstop =>
          htended.unbroken hfilters p _ (Operation.run_of_body hstop)
      rw [Operation.run, Outcome.state_always] at hn hlive' ⊢
      refine Counted.calm ?_ hgave (.inl hn) hlive'
      cases hk : (op.body checks (f.holdAll op.keeps)).state.isAlive n with
      | false => exact .of_not_alive hbody.1.toWellFormed hk
      | true =>
          have hkept : Kept f (f.holdAll op.keeps) n :=
            fun hp => (hheld.alive _).trans (f.alive_of_mem_children hp)
          refine Operation.body_counted hready' (hs.holdAll hready.keeps)
            (hheld.calm.covered hs.toWellFormed hcov) hidle
            htended.unforced hunbroken hunplaced hk (fun hp => hlive ?_)
            (hcounted.calm hheld.calm (hbody.2.spared (.inl hk)) hkept)
          rwa [hheld.children] at hp

/-- A run that frees no owner of `n` before `n` keeps `n` counted. -/
theorem Runs.counted (hfg : Runs checks (Tended checks n) locks f g)
    (hlocks : locks = []) (hs : f.Sound checks locks) (hcov : f.Covered)
    (hcounted : f.Counted n) : g.Counted n := by
  induction hfg with
  | refl => exact hcounted
  | step hfg hready hcalls hpermit ih _ =>
      subst hlocks
      have hplain := hfg.mono Tended.toPlain
      refine hpermit.counted hready (fun j hj => ?_) (hfg.sound hs).1
        (hplain.covered hs hcov) (ih rfl hs hcov hcounted)
      exact ((hcalls j hj).mono Tended.toPlain).idle

-- =============================================================== checking

/-- Whether every owner that `op` frees takes along all the children it held
last (`lastChildren`). -/
def Operation.takesAlong (checks : Checks) (op : Operation) (f : Forest) :
    Bool :=
  let g := (op.body checks (f.holdAll op.keeps)).state
  let h := (op.run checks f).state
  (List.range (f.size + g.size)).all fun i =>
    h.isAlive ⟨i⟩ || (lastChildren f g ⟨i⟩).all fun n => !h.isAlive n

theorem Operation.Simple.tidy {op : Operation}
    (hop : op.Simple checks [] f)
    (halong : op.takesAlong checks f = true) (n : NodeId) :
    op.Tidy checks f n where
  freed {p} hn hdead := by
    have hindex : p.index < f.size
        + (op.body checks (f.holdAll op.keeps)).state.size := by
      unfold lastChildren at hn
      split at hn
      next halive => exact Nat.lt_add_left _ (index_lt_of_alive _ halive)
      next =>
        have halive := f.alive_of_mem_children hn
        exact Nat.lt_add_right _ (index_lt_of_alive _ halive)
    have hall := List.all_eq_true.mp halong p.index
      (List.mem_range.mpr hindex)
    rw [Bool.or_eq_true, List.all_eq_true] at hall
    rcases hall with halive | hall
    · rw [hdead] at halive
      cases halive
    · simpa using hall n hn
  unbuilt _ hstop _ := by
    rw [hop.done] at hstop
    cases hstop

theorem Operation.Simple.tended {op : Operation}
    (hop : op.Simple checks [] f)
    (halong : op.takesAlong checks f = true) (n : NodeId) :
    Tended checks n [] op f (op.run checks f) where
  toPlain := hop.plain
  tidy _ := hop.tidy halong n

-- ============================================================ connections

/-- The counter of a node is never smaller than the number of positions
that hold it, so a node that some slot holds is connected. As long as no
owner of the node is freed before the node, the counter is that number, and
only such a node is connected. -/
theorem Runs.counts (hf : Runs checks Plain [] ∅ f) (n : NodeId) :
    f.holdCount n ≤ (f.node n).slotRefs
      ∧ ((∃ p, n ∈ f.children p) → f.isConnected n = true)
      ∧ (Runs checks (Tended checks n) [] ∅ f →
        (f.node n).slotRefs = f.holdCount n
          ∧ (f.isConnected n = true ↔ ∃ p, n ∈ f.children p)) := by
  have hwf : f.WellFormed := hf.sound_of_empty.toWellFormed
  have hle : f.holdCount n ≤ (f.node n).slotRefs :=
    hf.covered_of_empty.le hwf n
  refine ⟨hle, fun hheld => ?_, fun htended => ?_⟩
  · exact decide_eq_true
      (Nat.lt_of_lt_of_le (holdCount_pos_iff.mpr hheld) hle)
  · have hcounted : f.Counted n :=
      htended.counted rfl (sound_empty checks) covered_empty
        (.of_not_alive wellFormed_empty (by simp [isAlive]))
    refine ⟨hcounted, ?_⟩
    rw [← holdCount_pos_iff, ← hcounted]
    exact decide_eq_true_iff

/-- Three positions in two blocks, and one of the blocks is freed together
with a node that only it held. -/
theorem Runs.counts_of_shared :
    let ops : List Operation :=
      [.create .block .none, .hold ⟨0⟩, .create .nop .none, .hold ⟨1⟩,
        .create .block .none, .hold ⟨2⟩, .create .nop .none, .hold ⟨3⟩,
        .change ⟨⟨0⟩, 0⟩ (.addRange [⟨1⟩, ⟨1⟩]),
        .change ⟨⟨2⟩, 0⟩ (.add ⟨3⟩), .drop ⟨3⟩, .drop ⟨2⟩]
    let f := played .strict ops ∅
    Runs .strict Plain [] ∅ f ∧ Runs .strict (Tended .strict ⟨1⟩) [] ∅ f
      ∧ f.isAlive ⟨2⟩ = false ∧ f.isAlive ⟨3⟩ = false
      ∧ f.isConnected ⟨1⟩ = true ∧ (f.node ⟨1⟩).slotRefs = f.holdCount ⟨1⟩
      ∧ f.holdCount ⟨1⟩ = 2 := by
  intro ops f
  have hplays : Plays .strict (fun op f => op.takesAlong .strict f) [] ops
      ∅ := by decide
  have hf : Runs .strict Plain [] ∅ f :=
    hplays.runs (fun hop _ => hop.plain) .refl
  have htended : Runs .strict (Tended .strict ⟨1⟩) [] ∅ f :=
    hplays.runs (fun hop halong => hop.tended halong ⟨1⟩) .refl
  obtain ⟨-, hconnected, hexact⟩ := Runs.counts hf ⟨1⟩
  refine ⟨hf, htended, by decide, by decide, hconnected ⟨⟨0⟩, by decide⟩,
    (hexact htended).1, ?_⟩
  rw [← (hexact htended).1]
  decide

/-- A return that was replaced by its own value, and then freed: the value
sits in one position and counts two. -/
theorem Runs.counts_of_freed :
    ∃ f, Runs .strict Plain [] ∅ f ∧ f.isAlive ⟨2⟩ = true
      ∧ f.holdCount ⟨2⟩ = 1 ∧ (f.node ⟨2⟩).slotRefs = 2 := by
  let ops : List Operation :=
    [.create .block .none, .hold ⟨0⟩, .create .ret .none, .hold ⟨1⟩,
      .create .constInt32 .none, .hold ⟨2⟩,
      .setSlotChild ⟨1⟩ 0 (some ⟨2⟩), .change ⟨⟨0⟩, 0⟩ (.add ⟨1⟩),
      .replaceWith ⟨1⟩ ⟨2⟩, .drop ⟨1⟩]
  have hplays : Plays .strict (fun _ _ => true) [] ops ∅ := by decide
  exact ⟨played .strict ops ∅, hplays.runs (fun hop _ => hop.plain) .refl,
    by decide, by decide, by decide⟩

end InstructionTree
