/-
Runs in which every parent holds its children.

A link outlives the position that it tells of if the owner lets go of a
node that counts other positions, or positions in nodes that were freed. In
every other case the link is dropped with the position. So if a run takes
nodes off their parents only with the last position that they count
(`Upright`), then at its end every parent still holds the nodes that name
it (`Upheld`): after edits of all kinds, with nodes in several places, and
whoever was freed.
-/
import InstructionTree.Proofs.Runs.Counts

namespace InstructionTree

open Forest

variable {checks : Checks} {locks : List NodeId} {f g : Forest}
  {n o p : NodeId} {i : Nat} {entered left new : List NodeId}
  {removed : Nat → Prop}

namespace Forest

/-- Whoever has `p` for a parent is among the children of `p`. -/
def Upheld (f : Forest) : Prop :=
  ∀ n p, f.parent? n = some p → n ∈ f.children p

/-- A node with a parent is alive. -/
theorem alive_of_parent? (hp : f.parent? n = some p) :
    f.isAlive n = true := by
  cases halive : f.isAlive n with
  | true => rfl
  | false =>
      rw [parent?_eq_some_iff, node_of_not_alive f halive] at hp
      cases hp.1

/-- If a link is the same in `f` and `g`, then a parent that it names in `g`
was named in `f`. -/
theorem Ages.parent? (hfg : Ages f g) (hwf : f.WellFormed)
    (hlink : (g.node n).link = (f.node n).link)
    (hp : g.parent? n = some p) : f.parent? n = some p := by
  obtain ⟨hsome, halive⟩ := parent?_eq_some_iff.mp hp
  rw [hlink] at hsome
  exact parent?_eq_some_iff.mpr ⟨hsome, hfg.alive (hwf.known hsome) halive⟩

theorem Calm.parent?_eq_some (hfg : Calm f g) (hwf : f.WellFormed)
    (hp : g.parent? n = some p) : f.parent? n = some p :=
  hfg.ages.parent? hwf (hfg.link (.inl (alive_of_parent? hp))) hp

theorem Upheld.calm (hup : f.Upheld) (hfg : Calm f g)
    (hwf : f.WellFormed) : g.Upheld := by
  intro n p hp
  rw [hfg.children (parent?_eq_some_iff.mp hp).2]
  exact hup n p (hfg.parent?_eq_some hwf hp)

/-- In an `Exchange`, a child of `o` that is none any more is among those who
left. -/
theorem Exchange.mem_left (hx : Exchange o i entered left new f g)
    (hn : n ∈ f.children o) (hgone : n ∉ g.children o) : n ∈ left := by
  have hcount := hx.account.count_children n
  have hbalance := hx.balance n
  have hheld := List.count_pos_iff.mpr hn
  rw [List.count_eq_zero.mpr hgone] at hcount
  exact List.count_pos_iff.mp (by omega)

end Forest

/-- Where an edit leaves a node with a parent, that holds the node, unless
it has let go of it while the node counts other positions. -/
theorem Edited.mem_children_of_parent?
    (hfg : Edited o i entered left new removed f g) (hwf : f.WellFormed)
    (hcov : f.Covered) (hclosed : g.Closed) (hup : f.Upheld)
    (hp : g.parent? n = some p)
    (hlast : p = o → f.parent? n = some p → n ∉ g.children p →
      (g.node n).slotRefs = 0) : n ∈ g.children p := by
  have hn : g.Spared n := .inl (alive_of_parent? hp)
  obtain ⟨hlink, halive⟩ := parent?_eq_some_iff.mp hp
  by_cases hentered : n ∈ entered
  case pos =>
    have hplaces := hfg.keepsPlaces hwf hcov hclosed
    obtain ⟨hparent, hplace⟩ := hplaces.attached hentered
    cases hp.symm.trans hparent
    exact mem_children_of_child? hplace
  have hsame : (g.node n).link = (f.node n).link := by
    rcases hfg.exchange.account.stayed hn hentered
      with hsame | ⟨-, hnone, -⟩
    · exact hsame
    · rw [hlink] at hnone
      cases hnone
  have hbefore := hfg.exchange.account.ages.parent? hwf hsame hp
  by_cases hpo : p = o
  case neg =>
    rw [(hfg.exchange.account.others hpo halive).2]
    exact hup n p hbefore
  subst hpo
  by_contra hgone
  -- the owner would have cut the link with the last position
  have hleft := hfg.exchange.mem_left (hup n p hbefore) hgone
  exact hfg.exchange.account.cleared hn (.inr hleft)
    (hlast rfl hbefore hgone) hlink

namespace Forest

/-- `Filled` keeps the forest `Upheld`. -/
theorem Filled.upheld {placed : List NodeId}
    (hfg : Filled checks n f placed g) (hs : f.Sound checks locks)
    (hn : f.isAlive n = true) (hcov : f.Covered) (hup : f.Upheld) :
    g.Upheld := by
  induction hfg with
  | none => exact hup
  | more hstep _ ih =>
      obtain ⟨hs', -, halive⟩ := hstep.keeps hs hn
      obtain ⟨i, new, removed, hedited⟩ := hstep.edited hs hn
      refine ih hs' ((halive n).trans hn)
        (hedited.exchange.covered hs.toWellFormed hcov) fun m p hp => ?_
      refine hedited.mem_children_of_parent? hs.toWellFormed hcov hs'.closed
        hup hp fun hpn hbefore hgone => ?_
      subst hpn
      cases hedited.exchange.mem_left (hup m p hbefore) hgone

theorem upheld_build {a : Opcode} {x : Operand} {children : List NodeId}
    (hs : f.Sound checks locks)
    (hlive : ∀ c ∈ children, f.isAlive c = true) (hcov : f.Covered)
    (hunbroken : ∀ p s, Forest.build checks a x children f
      ≠ .stop (.panic p) s) (hup : f.Upheld) :
    (Forest.build checks a x children f).state.Upheld := by
  have hs' := hs.alloc a x
  have hn : (f.alloc (Node.fresh a x)).2.isAlive
      (f.alloc (Node.fresh a x)).1 = true := isAlive_alloc_self ..
  have hcalm := calm_alloc f a x
  have hbuilds : Builds checks (f.alloc (Node.fresh a x)).1
      (f.alloc (Node.fresh a x)).2 a.layout children
      (Forest.build checks a x children f) := builds_build hs hlive
  obtain ⟨placed, g, hfilled, hend, -⟩ := hbuilds.ends hunbroken
  have hborn := hup.calm hcalm hs.toWellFormed
  have hfull := hfilled.upheld hs' hn
    (hcalm.covered hs.toWellFormed hcov) hborn
  exact hfull.calm hend (hfilled.keeps hs' hn).1.toWellFormed

theorem upheld_empty : Upheld ∅ := fun n p hp => by
  have halive := alive_of_parent? hp
  rw [isAlive, get?_empty] at halive
  cases halive

end Forest

-- ================================================================== runs

/-- An operation of a plain run that takes nodes off their parents only with
the last position that they count. -/
structure Upright (locks : List NodeId) (op : Operation) (f : Forest)
    (out : Outcome Forest Unit) : Prop
    extends Plain locks op f out where
  last : locks = [] → ∀ {n p}, f.parent? n = some p →
    out.state.isAlive p = true → n ∉ out.state.children p →
    (out.state.node n).slotRefs = 0

/-- An `Upright` operation keeps the forest `Upheld`. -/
theorem Upright.upheld {op : Operation}
    (hupright : Upright [] op f (op.run checks f)) (hready : op.Ready [] f)
    (hidle : ∀ j ∈ op.calls checks (f.holdAll op.keeps),
      j.Idle checks (op.keeps ++ []))
    (hs : f.Sound checks []) (hcov : f.Covered) (hup : f.Upheld) :
    (op.run checks f).state.Upheld := by
  intro n p hp
  have hheld := alike_holdAll (f := f) op.keeps
  have hready' := hready.alike hheld
  have hs' := hs.holdAll hready.keeps
  have hcov' := hheld.calm.covered hs.toWellFormed hcov
  have hup' := hup.calm hheld.calm hs.toWellFormed
  have hbody := (Operation.body_sound hready' hs'
    fun j hj => (hidle j hj).1).1
  have hgave := calm_releaseAll
    (f := (op.body checks (f.holdAll op.keeps)).state) op.keeps
  have hunbroken : op.filters = false → ∀ p s,
      op.body checks (f.holdAll op.keeps) ≠ .stop (.panic p) s :=
    fun hfilters p s hstop =>
      hupright.unbroken hfilters p _ (Operation.run_of_body hstop)
  have hlast := hupright.last rfl (n := n) (p := p)
  rw [Operation.run, Outcome.state_always] at hp hlast ⊢
  have halive := (parent?_eq_some_iff.mp hp).2
  have hn : Spared _ n := .inl (alive_of_parent? hp)
  rw [hgave.slotRefs hn, hgave.children halive, ← hheld.parent?] at hlast
  have hp := hgave.parent?_eq_some hbody.toWellFormed hp
  rw [hgave.children halive]
  rcases Operation.body_cases hready' hs' hcov' hidle hupright.unforced
    hunbroken with ⟨hcalm, -⟩ | ⟨a, x, ns, rfl, hwhole⟩
      | ⟨left, -, i, new, removed, hedited, -⟩
  · exact hup'.calm hcalm hs'.toWellFormed n p hp
  · rw [Operation.body, Outcome.state_map] at hp ⊢
    exact upheld_build hs' hready' hcov' hwhole hup' n p hp
  · exact hedited.mem_children_of_parent? hs'.toWellFormed hcov'
      hbody.closed hup' hp fun _ hbefore => hlast hbefore halive

/-- A run of `Upright` operations keeps the forest `Upheld`. -/
theorem Runs.upheld (hfg : Runs checks Upright locks f g)
    (hlocks : locks = []) (hs : f.Sound checks locks) (hcov : f.Covered)
    (hup : f.Upheld) : g.Upheld := by
  induction hfg with
  | refl => exact hup
  | step hfg hready hcalls hpermit ih _ =>
      subst hlocks
      have hplain := hfg.mono Upright.toPlain
      refine hpermit.upheld hready (fun j hj => ?_) (hfg.sound hs).1
        (hplain.covered hs hcov) (ih rfl hs hcov hup)
      exact ((hcalls j hj).mono Upright.toPlain).idle

-- =============================================================== checking

/-- Whether `slotRefs` is 0 after `op` for every node whose live parent does
not hold it any more. -/
def Operation.partsLast (checks : Checks) (op : Operation) (f : Forest) :
    Bool :=
  let g := (op.run checks f).state
  (List.range f.size).all fun i => (f.parent? ⟨i⟩).all fun p =>
    !g.isAlive p || (g.children p).contains ⟨i⟩ || (g.node ⟨i⟩).slotRefs == 0

theorem Operation.Simple.upright {op : Operation}
    (hop : op.Simple checks [] f) (hparts : op.partsLast checks f = true) :
    Upright [] op f (op.run checks f) where
  toPlain := hop.plain
  last _ n p hp halive hgone := by
    have hn := List.mem_range.mpr (f.index_lt_of_alive (alive_of_parent? hp))
    have hall := List.all_eq_true.mp hparts n.index hn
    rw [hp] at hall
    simpa [halive, hgone] using hall

end InstructionTree
