/-
Nodes whose cached place can be trusted.

A cached place follows the last attach, and nobody repairs it when the
position that it names goes away while another one holds on to the node.
But this is the only way for it to go wrong. A node is `Tracked` if nobody
holds it or its cached place is right. Whoever attaches a node makes it
tracked, whatever happened before, and it stays tracked as long as every
operation spares the position that its place names or leaves it nowhere
(`Faithful`). In what order other holders come and go does not matter.

# One operation

`Follows` is what an operation means for one node. If the node was
attached, its place is right, unless its new owner was freed at once. If
not, it has no more positions than before, and a place that was right and
is neither emptied nor freed stays right, wherever the element moved.
-/
import InstructionTree.Proofs.Runs.Counts
import InstructionTree.Proofs.Runs.Faults
import InstructionTree.Proofs.Runs.Lists
import InstructionTree.Proofs.Runs.Places

namespace InstructionTree

open Forest

variable {checks : Checks} {locks : List NodeId} {f g h : Forest}
  {n o p : NodeId} {entered left more : List NodeId} {gone : Nat → Prop}

namespace Forest

-- ============================================================== tracked

/-- `n` has no position, or some live parent has it at its cached place. -/
def Tracked (f : Forest) (n : NodeId) : Prop :=
  f.holdCount n = 0 ∨ ∃ p, f.Accurate n p

theorem Accurate.mem_children (hplace : f.Accurate n p) :
    n ∈ f.children p := mem_children_of_child? hplace.2

theorem Accurate.parent_alive (hplace : f.Accurate n p) :
    f.isAlive p = true := (parent?_eq_some_iff.mp hplace.1).2

/-- `Calm` steps keep the place of `n` accurate, if the parent is alive after
them. -/
theorem Accurate.calm (hplace : f.Accurate n p) (hfg : Calm f g)
    (hclosed : g.Closed) (hp : g.isAlive p = true) : g.Accurate n p := by
  have hn : g.isAlive n = true := by
    refine hclosed (p := p) ?_
    rw [hfg.children hp]
    exact hplace.mem_children
  refine ⟨parent?_eq_some_iff.mpr ⟨?_, hp⟩, ?_⟩
  · rw [hfg.link (.inl hn)]
    exact (parent?_eq_some_iff.mp hplace.1).1
  · rw [hfg.position (.inl hn), hfg.child?_eq hplace.parent_alive hp]
    exact hplace.2

/-- What an operation means for the place of `n`: `entered` were attached
to `o`, and its elements at the global child indices `gone` left or were
overwritten. -/
structure Follows (n o : NodeId) (entered : List NodeId)
    (gone : Nat → Prop) (f g : Forest) : Prop where
  ages : Ages f g
  attached : n ∈ entered →
    o.index < g.size ∧ (g.isAlive o = true → g.Accurate n o)
  fewer : n ∉ entered → g.holdCount n ≤ f.holdCount n
  stays : n ∉ entered → ∀ {p}, f.Accurate n p → g.isAlive p = true →
    (p = o → ¬ gone (f.node n).position) → g.Accurate n p

namespace Follows

theorem of_calm (hfg : Calm f g) (hclosed : g.Closed) :
    Follows n o [] gone f g where
  ages := hfg.ages
  attached hn := by cases hn
  fewer _ := hfg.holdCount_le n
  stays _ _ hplace hp _ := hplace.calm hfg hclosed hp

/-- An edit of `o` (`EditsAt`) is followed, with the indices `gone` that it
removed. -/
theorem of_edits (hfg : EditsAt o entered left gone f g)
    (hwf : f.WellFormed) (hcov : f.Covered) (hclosed : g.Closed) :
    Follows n o entered gone f g := by
  obtain ⟨ho, i, new, removed, hedited, hgone⟩ := hfg
  have hx := hedited.exchange
  have hplaces : KeepsPlaces o entered gone f g := by
    refine (hedited.keepsPlaces hwf hcov hclosed).mono ?_
    rintro j ⟨k, hloc, hk⟩
    exact hgone j k hloc hk
  refine ⟨hx.account.ages,
    fun hn => ⟨g.index_lt_of_alive ho, fun _ => hplaces.attached hn⟩,
    fun hn => ?_, fun hn p hplace hp hkept => ?_⟩
  · have hholds := hx.account.holdCount_le n
    have hbalance := hx.balance n
    rw [List.count_eq_zero.mpr hn] at hbalance
    omega
  · by_cases hpo : p = o
    · subst hpo
      exact (hplaces.remaining hn hplace (hkept rfl)).1
    · -- the place is in an owner that was not edited
      obtain ⟨hlink, hpf⟩ := parent?_eq_some_iff.mp hplace.1
      have hng : g.isAlive n = true := by
        refine hclosed (p := p) ?_
        rw [(hx.account.others hpo hp).2]
        exact hplace.mem_children
      have hother : (f.node n).link ≠ some o := by
        rw [hlink]
        exact fun h => hpo (Option.some.inj h)
      obtain ⟨hsame, hposition, -⟩ := hplaces.elsewhere hn hng hother
      refine ⟨parent?_eq_some_iff.mpr ⟨hsame.trans hlink, hp⟩, ?_⟩
      rw [hposition, hx.account.child?_eq hpo hpf hp]
      exact hplace.2

/-- What `Follows`, with `Calm` steps behind it, `Follows`. -/
theorem calm (hfg : Follows n o entered gone f g) (hgh : Calm g h)
    (hclosed : h.Closed) : Follows n o entered gone f h where
  ages := hfg.ages.trans hgh.ages
  attached hn := by
    obtain ⟨hsize, hplace⟩ := hfg.attached hn
    exact ⟨Nat.lt_of_lt_of_le hsize hgh.ages.size, fun ho =>
      (hplace (hgh.ages.alive hsize ho)).calm hgh hclosed ho⟩
  fewer hn := Nat.le_trans (hgh.holdCount_le n) (hfg.fewer hn)
  stays hn p hplace hp hkept := by
    have hsize := Nat.lt_of_lt_of_le (f.index_lt_of_alive
      hplace.parent_alive) hfg.ages.size
    exact (hfg.stays hn hplace (hgh.ages.alive hsize hp) hkept).calm hgh
      hclosed hp

/-- What `Follows`, with `Calm` steps before it, `Follows`. -/
theorem after_calm (hfg : Calm f g) (hclosed : g.Closed)
    (hgh : Follows n o entered gone g h) : Follows n o entered gone f h where
  ages := hfg.ages.trans hgh.ages
  attached := hgh.attached
  fewer hn := Nat.le_trans (hgh.fewer hn) (hfg.holdCount_le n)
  stays hn p hplace hp hkept := by
    have hsize := f.index_lt_of_alive hplace.parent_alive
    have hpg := hgh.ages.alive (Nat.lt_of_lt_of_le hsize hfg.ages.size) hp
    have hplace' := hplace.calm hfg hclosed hpg
    refine hgh.stays hn hplace' hp fun hpo => ?_
    rw [hfg.position (.inl (hclosed hplace'.mem_children))]
    exact hkept hpo

/-- Two edits of `o` that remove nothing follow as one. -/
theorem trans (hfg : Follows n o entered (fun _ => False) f g)
    (hgh : Follows n o more (fun _ => False) g h) :
    Follows n o (entered ++ more) (fun _ => False) f h where
  ages := hfg.ages.trans hgh.ages
  attached hn := by
    by_cases hmore : n ∈ more
    · exact hgh.attached hmore
    · have hentered := (List.mem_append.mp hn).resolve_right hmore
      obtain ⟨hsize, hplace⟩ := hfg.attached hentered
      exact ⟨Nat.lt_of_lt_of_le hsize hgh.ages.size, fun ho =>
        hgh.stays hmore (hplace (hgh.ages.alive hsize ho)) ho fun _ => id⟩
  fewer hn := by
    rw [List.mem_append, not_or] at hn
    exact Nat.le_trans (hgh.fewer hn.2) (hfg.fewer hn.1)
  stays hn p hplace hp _ := by
    rw [List.mem_append, not_or] at hn
    have hsize := Nat.lt_of_lt_of_le (f.index_lt_of_alive
      hplace.parent_alive) hfg.ages.size
    exact hgh.stays hn.2 (hfg.stays hn.1 hplace (hgh.ages.alive hsize hp)
      fun _ => id) hp fun _ => id

/-- Of the nodes that entered only `n` counts. -/
theorem congr (hfg : Follows n o entered gone f g)
    (hsame : n ∈ entered ↔ n ∈ more) : Follows n o more gone f g where
  ages := hfg.ages
  attached hn := hfg.attached (hsame.mpr hn)
  fewer hn := hfg.fewer (mt hsame.mp hn)
  stays hn := hfg.stays (mt hsame.mp hn)

/-- `Follows` says less if more indices count as gone. -/
theorem mono {fewer : Nat → Prop} (hfg : Follows n o entered fewer f g)
    (hgone : ∀ j, f.Accurate n o → (f.node n).position = j → fewer j →
      gone j) : Follows n o entered gone f g where
  ages := hfg.ages
  attached := hfg.attached
  fewer := hfg.fewer
  stays hn p hplace hp hkept := by
    refine hfg.stays hn hplace hp fun hpo hgone' => hkept hpo ?_
    exact hgone _ (hpo ▸ hplace) rfl hgone'

end Follows

-- ============================================================= building

/-- A `Fill` is followed, with nothing gone. -/
theorem Fill.follows {ns : List NodeId} (hfg : Fill checks o f ns g)
    (hs : f.Sound checks locks) (ho : f.isAlive o = true)
    (hcov : f.Covered) : Follows n o ns (fun _ => False) f g := by
  obtain ⟨i, new, removed, hedited⟩ := hfg.edited hs ho
  obtain ⟨hs', -, halive⟩ := hfg.keeps hs ho
  have hedits : EditsAt o ns [] (fun j => f.child? o j = none) f g := by
    refine ⟨(halive o).trans ho, i, new, removed, hedited,
      fun j k hloc hk => ?_⟩
    cases hchild : f.child? o j with
    | none => rfl
    | some m =>
        obtain ⟨i', k', hloc', hm⟩ := child?_eq_some.mp hchild
        cases hloc.symm.trans hloc'
        cases hedited.emptied hk hm
  refine (Follows.of_edits hedits hs.toWellFormed hcov hs'.closed).mono ?_
  rintro j hplace rfl hnone
  rw [hplace.2] at hnone
  cases hnone

theorem Filled.follows {placed : List NodeId}
    (hfg : Filled checks o f placed g) (hs : f.Sound checks locks)
    (ho : f.isAlive o = true) (hcov : f.Covered) :
    Follows n o placed (fun _ => False) f g := by
  induction hfg with
  | none => exact .of_calm (.refl _) hs.closed
  | more hstep _ ih =>
      obtain ⟨hs', -, halive⟩ := hstep.keeps hs ho
      obtain ⟨i, new, removed, hedited⟩ := hstep.edited hs ho
      exact (hstep.follows hs ho hcov).trans (ih hs' ((halive o).trans ho)
        (hedited.exchange.covered hs.toWellFormed hcov))

end Forest

-- ============================================================ operations

namespace Operation

variable {op : Operation}

/-- The children that `build` attached before it failed, and freed the new
node. -/
def unbuilt (checks : Checks) (f : Forest) : Operation → List NodeId
  | build a x ns =>
      match Forest.build checks a x ns f with
      | .ok .. => []
      | .stop .. => ns.take a.layout.length
  | _ => []

/-- If the operation attached `n`, then it left nobody `unbuilt`. -/
theorem unbuilt_of_attached (hn : n ∈ op.attached checks f) :
    op.unbuilt checks f = [] := by
  cases op with
  | build a x ns =>
      have hbody : (build a x ns).body checks f
          = (Forest.build checks a x ns f).map fun _ => () := rfl
      rw [attached, hbody] at hn
      rw [unbuilt]
      cases hout : Forest.build checks a x ns f with
      | ok b g => rfl
      | stop why g =>
          rw [hout] at hn
          cases hn
  | _ => rfl

/-- `build` is followed, whether it succeeds or not, by whoever is not left
`unbuilt`. -/
theorem build_follows {a : Opcode} {x : Operand} {ns : List NodeId}
    (hs : f.Sound checks locks) (hlive : ∀ c ∈ ns, f.isAlive c = true)
    (hcov : f.Covered)
    (hunbroken : ∀ p s, Forest.build checks a x ns f ≠ .stop (.panic p) s)
    (hunbuilt : n ∉ (build a x ns).unbuilt checks f)
    (hclosed : (Forest.build checks a x ns f).state.Closed) :
    Follows n ((build a x ns).owner f) ((build a x ns).attached checks f)
      gone f (Forest.build checks a x ns f).state := by
  have hs' := hs.alloc a x
  have ho : (f.alloc (Node.fresh a x)).2.isAlive
      (f.alloc (Node.fresh a x)).1 = true := isAlive_alloc_self ..
  have hcalm := calm_alloc f a x
  have hbuilds : Builds checks (f.alloc (Node.fresh a x)).1
      (f.alloc (Node.fresh a x)).2 a.layout ns
      (Forest.build checks a x ns f) := builds_build hs hlive
  obtain ⟨placed, g, hfilled, hend, hout⟩ := hbuilds.ends hunbroken
  have hfollows : Follows n (f.alloc (Node.fresh a x)).1 placed
      (fun _ => False) (f.alloc (Node.fresh a x)).2 g :=
    hfilled.follows hs' ho (hcalm.covered hs.toWellFormed hcov)
  have hbody : (build a x ns).body checks f
      = (Forest.build checks a x ns f).map fun _ => () := rfl
  have hplaced : n ∈ placed ↔ n ∈ (build a x ns).attached checks f := by
    rcases hout with ⟨b, hok, rfl⟩ | ⟨⟨why, k, hstop⟩, hfew⟩
    · rw [attached, hbody, hok]
      rfl
    · rw [unbuilt, hstop] at hunbuilt
      rw [attached, hbody, hstop]
      exact iff_of_false (hfew hunbuilt) List.not_mem_nil
  exact (((hfollows.mono fun _ _ _ => False.elim).after_calm hcalm
    hs'.closed).congr hplaced).calm hend hclosed

/-- The `body` of an operation is followed, however it ends. -/
theorem body_follows (hready : op.Ready locks f)
    (hs : f.Sound checks (op.keeps ++ locks)) (hcov : f.Covered)
    (hidle : ∀ j ∈ op.calls checks f, j.Idle checks (op.keeps ++ locks))
    (hnotify : ∀ o r, op ≠ .notify o r)
    (hunbroken : op.filters = false →
      ∀ p s, op.body checks f ≠ .stop (.panic p) s)
    (hunbuilt : n ∉ op.unbuilt checks f) :
    Follows n (op.owner f) (op.attached checks f) (op.vacated checks f) f
      (op.body checks f).state := by
  have hclosed : (op.body checks f).state.Closed :=
    (body_sound hready hs fun j hj => (hidle j hj).1).1.closed
  rcases body_cases hready hs hcov hidle hnotify hunbroken
    with ⟨hcalm, hnone⟩ | ⟨a, x, ns, rfl, hwhole⟩ | ⟨left, hedited⟩
  · rw [hnone]
    exact .of_calm hcalm hclosed
  · rw [body, Outcome.state_map] at hclosed ⊢
    exact build_follows hs hready hcov hwhole hunbuilt hclosed
  · exact .of_edits hedited hs.toWellFormed hcov hclosed

/-- An operation of a plain run is followed as a whole, from its `hold`s to
their release. -/
theorem run_follows (hready : op.Ready locks f) (hs : f.Sound checks locks)
    (hcov : f.Covered)
    (hidle : ∀ j ∈ op.calls checks (f.holdAll op.keeps),
      j.Idle checks (op.keeps ++ locks))
    (hplain : Plain locks op f (op.run checks f))
    (hunbuilt : n ∉ op.unbuilt checks (f.holdAll op.keeps)) :
    Follows n (op.owner (f.holdAll op.keeps))
      (op.attached checks (f.holdAll op.keeps))
      (op.vacated checks (f.holdAll op.keeps)) (f.holdAll op.keeps)
      (op.run checks f).state := by
  have hheld := alike_holdAll (f := f) op.keeps
  have hend : (op.run checks f).state.Closed :=
    (run_sound hready hs fun j hj => (hidle j hj).1).1.closed
  have hbody := body_follows (hready.alike hheld)
    (hs.holdAll hready.keeps) (hheld.calm.covered hs.toWellFormed hcov) hidle
    hplain.unforced (fun hfilters p s hstop =>
      hplain.unbroken hfilters p _ (run_of_body hstop)) hunbuilt
  rw [run, Outcome.state_always] at hend ⊢
  exact hbody.calm (calm_releaseAll op.keeps) hend

/-- The operation spares the position that the place of `n` names: the one
at which it attached `n`, or, if it attached `n` nowhere, the one that the
place named before. It neither empties nor overwrites that position, and
it does not free its owner. -/
structure Spares (checks : Checks) (op : Operation) (f g : Forest)
    (n : NodeId) : Prop where
  built : n ∉ op.unbuilt checks f
  attached : n ∈ op.attached checks f → g.isAlive (op.owner f) = true
  stays : n ∉ op.attached checks f → ∀ {p}, f.Accurate n p →
    g.isAlive p = true
      ∧ (p = op.owner f → ¬ op.vacated checks f (f.node n).position)

end Operation

-- ======================================================= faithful runs

/-- An operation of a plain run that spares the position that the place of
`n` names, as long as there is a position of `n` at all. What happens while
others are under way is judged with them. -/
structure Faithful (checks : Checks) (n : NodeId) (locks : List NodeId)
    (op : Operation) (f : Forest) (out : Outcome Forest Unit) : Prop
    extends Plain locks op f out where
  spares : locks = [] → out.state.holdCount n ≠ 0 →
    op.Spares checks (f.holdAll op.keeps) out.state n

/-- A node that is attached to an owner that lives on has a right place,
whatever happened before. -/
theorem Operation.accurate_of_attached {op : Operation}
    (hready : op.Ready locks f) (hs : f.Sound checks locks)
    (hcov : f.Covered)
    (hidle : ∀ j ∈ op.calls checks (f.holdAll op.keeps),
      j.Idle checks (op.keeps ++ locks))
    (hplain : Plain locks op f (op.run checks f))
    (hn : n ∈ op.attached checks (f.holdAll op.keeps))
    (ho : (op.run checks f).state.isAlive (op.owner (f.holdAll op.keeps))
      = true) :
    (op.run checks f).state.Accurate n (op.owner (f.holdAll op.keeps)) := by
  refine ((op.run_follows hready hs hcov hidle hplain ?_).attached hn).2 ho
  rw [unbuilt_of_attached hn]
  exact List.not_mem_nil

/-- A `Faithful` operation keeps `n` tracked. -/
theorem Operation.run_tracked {op : Operation} (hready : op.Ready [] f)
    (hs : f.Sound checks []) (hcov : f.Covered)
    (hidle : ∀ j ∈ op.calls checks (f.holdAll op.keeps),
      j.Idle checks (op.keeps ++ []))
    (hfaithful : Faithful checks n [] op f (op.run checks f))
    (htracked : f.Tracked n) : (op.run checks f).state.Tracked n := by
  by_cases hnone : (op.run checks f).state.holdCount n = 0
  · exact .inl hnone
  have hspares := hfaithful.spares rfl hnone
  have hfollows := op.run_follows hready hs hcov hidle hfaithful.toPlain
    hspares.built
  by_cases hn : n ∈ op.attached checks (f.holdAll op.keeps)
  · exact .inr ⟨_, (hfollows.attached hn).2 (hspares.attached hn)⟩
  · have hheld := alike_holdAll (f := f) op.keeps
    have hle := Nat.le_trans (hfollows.fewer hn) (hheld.calm.holdCount_le n)
    obtain ⟨p, hplace⟩ := htracked.resolve_left (by omega)
    have hplace' : (f.holdAll op.keeps).Accurate n p :=
      hplace.calm hheld.calm (hs.holdAll hready.keeps).closed
        ((hheld.alive p).trans hplace.parent_alive)
    obtain ⟨hp, hkept⟩ := hspares.stays hn hplace'
    exact .inr ⟨p, hfollows.stays hn hplace' hp hkept⟩

/-- A `Faithful` run keeps `n` tracked. -/
theorem Runs.tracked (hfg : Runs checks (Faithful checks n) [] f g)
    (hs : f.Sound checks []) (hcov : f.Covered) (htracked : f.Tracked n) :
    g.Tracked n := by
  have hplain : ∀ {locks f g}, Runs checks (Faithful checks n) locks f g →
      Runs checks Plain locks f g :=
    fun hrun => hrun.mono Faithful.toPlain
  generalize hlocks : ([] : List NodeId) = locks at hfg
  induction hfg with
  | refl => exact htracked
  | step hfg hready hcalls hpermit ih _ =>
      subst hlocks
      have hs' := (hfg.sound hs).1
      exact Operation.run_tracked hready hs' ((hplain hfg).covered hs hcov)
        (fun j hj => (hplain (hcalls j hj)).idle) hpermit
        (ih hs hcov htracked rfl)

-- ========================================================== membership

namespace Forest

variable {c : Collection}

/-- If the collection has `n` at its cached position, `contains` answers
`true`. -/
theorem contains_of_place
    (hplace : (c.items f)[(f.node n).position - c.base]? = some n) :
    c.contains f n = true :=
  Collection.contains_iff.mpr (List.mem_of_getElem? hplace)

/-- If there is no other position, whoever is an element is found where
its place says. -/
theorem Tracked.place_of_contains (htracked : f.Tracked n)
    (hwf : f.WellFormed) (honce : f.holdCount n ≤ 1) (hc : c.Fits f)
    (hn : c.contains f n = true) :
    f.parent? n = some c.owner ∧ c.base ≤ (f.node n).position
      ∧ (c.items f)[(f.node n).position - c.base]? = some n := by
  have hmem := Collection.contains_iff.mp hn
  have hchild := f.mem_children_of_mem_slot hmem
  have hpos := holdCount_pos_iff.mpr ⟨_, hchild⟩
  obtain ⟨p, hplace⟩ := htracked.resolve_left (Nat.ne_of_gt hpos)
  obtain rfl := holder_unique honce hplace.mem_children hchild
  obtain ⟨k, hk, hget⟩ := List.mem_iff_getElem.mp hmem
  have hget : (c.items f)[k]? = some n :=
    List.getElem?_eq_some_iff.mpr ⟨hk, hget⟩
  have hlast := hc.last hwf
  have hbound := hc.bound hwf
  obtain ⟨s, hs, hcoll⟩ := hc
  have hat : f.child? c.owner (c.slot + k) = some n :=
    child?_eq_some.mpr ⟨c.slot, k, locate?_add hbound
      (.inr ⟨s, hlast, hs, hcoll⟩), hget⟩
  have hcount := List.count_pos_iff.mpr hchild
  have hle := f.count_le_holdCount c.owner n
  have hposition := child?_unique (by omega) hplace.2 hat
  rw [hposition]
  refine ⟨hplace.1, Nat.le_add_right .., ?_⟩
  rw [Collection.base, Nat.add_sub_cancel_left]
  exact hget

theorem Accurate.isStored (hplace : f.Accurate n p) :
    f.isStored n = true := by
  rw [Forest.isStored, hplace.1]
  exact List.contains_iff_mem.mpr hplace.mem_children

/-- A node that is stored is not answered `detached` by `removeFromParent`. -/
theorem removalFault?_ne_detached (hstored : f.isStored n = true) :
    f.removalFault? checks n ≠ some .detached := by
  rw [removalFault?, if_pos hstored]
  cases f.placeInParent? n with
  | none => exact nofun
  | some place =>
      rw [Option.bind_some]
      split
      · unfold traversalFault?
        split <;> exact nofun
      · exact nofun

end Forest

/-- A node whose place is accurate is answered `detached` neither by
`replaceWith` nor by `removeFromParent`. -/
theorem Operation.run_ne_detached (hplace : f.Accurate n p)
    (hwf : f.WellFormed) (m : NodeId) :
    ((replaceWith n m).run checks f).fault? ≠ some .detached
      ∧ ((removeFromParent n).run checks f).fault? ≠ some .detached := by
  have hstored := hplace.isStored
  constructor
  · rw [fault?_run hwf rfl (fun j hj => by cases hj), fault?, if_pos hstored]
    exact nofun
  · rw [fault?_run hwf rfl (fun j hj => by cases hj), fault?]
    exact removalFault?_ne_detached hstored

/-- In every plain run, whoever attaches a node to an owner that lives on
gives it a right place. From there on, as long as every operation spares
the position that the place names or leaves the node nowhere, the parent
and the place of a node with one position at most say whether a collection
has it, and no request on an element finds it detached. -/
theorem Runs.contains_iff_placed {n : NodeId} :
    (∀ {f : Forest} {op : Operation}, Runs checks Plain [] ∅ f →
      op.Ready [] f →
      (∀ j ∈ op.calls checks (f.holdAll op.keeps),
        Runs checks Plain (j.node :: (op.keeps ++ [])) j.before j.after) →
      Plain [] op f (op.run checks f) →
      n ∈ op.attached checks (f.holdAll op.keeps) →
      (op.run checks f).state.isAlive (op.owner (f.holdAll op.keeps))
        = true →
      (op.run checks f).state.Accurate n (op.owner (f.holdAll op.keeps)))
    ∧ ∀ {f g : Forest}, Runs checks Plain [] ∅ f → f.Tracked n →
      Runs checks (Faithful checks n) [] f g → g.holdCount n ≤ 1 →
      ∀ {c : Collection}, c.Fits g →
        (c.contains g n = true ↔ g.parent? n = some c.owner
          ∧ c.base ≤ (g.node n).position
          ∧ (c.items g)[(g.node n).position - c.base]? = some n)
        ∧ (g.parent? n = none → c.contains g n = false)
        ∧ (c.contains g n = true → ∀ m,
          ((Operation.replaceWith n m).run checks g).fault? ≠ some .detached
          ∧ ((Operation.removeFromParent n).run checks g).fault?
            ≠ some .detached) := by
  refine ⟨fun hf hready hcalls hplain hn ho => ?_,
    fun {f g} hf htracked hfg honce c hc => ?_⟩
  · exact Operation.accurate_of_attached hready hf.sound_of_empty
      hf.covered_of_empty (fun j hj => (hcalls j hj).idle) hplain hn ho
  have hs := hf.sound_of_empty
  have hwf := (hfg.sound hs).1.toWellFormed
  have htracked' := hfg.tracked hs hf.covered_of_empty htracked
  have hplace := htracked'.place_of_contains hwf honce hc
  refine ⟨⟨hplace, fun h => contains_of_place h.2.2⟩, fun hnone => ?_,
    fun hn m => ?_⟩
  · refine Bool.eq_false_iff.mpr fun hn => ?_
    rw [(hplace hn).1] at hnone
    cases hnone
  · have hmem := g.mem_children_of_mem_slot (Collection.contains_iff.mp hn)
    have hpos := holdCount_pos_iff.mpr ⟨_, hmem⟩
    obtain ⟨p, haccurate⟩ := htracked'.resolve_left (Nat.ne_of_gt hpos)
    exact Operation.run_ne_detached haccurate hwf m

/-- Two blocks that hold a return, and let go of it by turns: the second one
removes it first, so its place is out of date until the second block gets
it again. Then the first one lets go of it, and the place stays right. -/
theorem Runs.contains_iff_placed_of_returned :
    let ops : List Operation :=
      [.create .block .none, .hold ⟨0⟩, .create .block .none, .hold ⟨1⟩,
        .create .ret .none, .hold ⟨2⟩, .change ⟨⟨0⟩, 0⟩ (.add ⟨2⟩),
        .change ⟨⟨1⟩, 0⟩ (.add ⟨2⟩), .change ⟨⟨1⟩, 0⟩ (.removeAt 0)]
    let again : Operation := .change ⟨⟨1⟩, 0⟩ (.add ⟨2⟩)
    let letGo : Operation := .change ⟨⟨0⟩, 0⟩ (.removeAt 0)
    let k := played .strict ops ∅
    let f := (again.run .strict k).state
    let g := (letGo.run .strict f).state
    ¬ k.Tracked ⟨2⟩ ∧ f.Accurate ⟨2⟩ ⟨1⟩
      ∧ (⟨⟨1⟩, 0⟩ : Collection).contains g ⟨2⟩ = true
      ∧ g.parent? ⟨2⟩ = some ⟨1⟩
      ∧ ((Operation.replaceWith ⟨2⟩ ⟨0⟩).run .strict g).fault?
        ≠ some .detached := by
  intro ops again letGo k f g
  have hplays : Plays .strict (fun _ _ => true) [] ops ∅ := by decide
  have hk : Runs .strict Plain [] ∅ k :=
    hplays.runs (fun hop _ => hop.plain) .refl
  have hagain : again.Simple .strict [] k := by decide
  have hletGo : letGo.Simple .strict [] f := by decide
  have hf : Runs .strict Plain [] ∅ f :=
    hk.step hagain.ready (fun _ hj => by cases hj) hagain.plain
  have hplace : f.Accurate ⟨2⟩ ⟨1⟩ :=
    Runs.contains_iff_placed.1 hk hagain.ready (fun _ hj => by cases hj)
      hagain.plain (by decide) (by decide)
  have hspares : letGo.Spares .strict (f.holdAll letGo.keeps) g ⟨2⟩ := by
    refine ⟨by decide, fun hn => absurd hn (by decide), fun _ p hp => ?_⟩
    have hparent : (f.holdAll letGo.keeps).parent? ⟨2⟩ = some ⟨1⟩ := by decide
    cases hp.1.symm.trans hparent
    exact ⟨by decide, fun ho => absurd ho (by decide)⟩
  have hfg : Runs .strict (Faithful .strict ⟨2⟩) [] f g :=
    Runs.refl.step hletGo.ready (fun _ hj => by cases hj)
      ⟨hletGo.plain, fun _ _ => hspares⟩
  have hmember := Runs.contains_iff_placed.2 hf (.inr ⟨⟨1⟩, hplace⟩) hfg
    (by decide) (c := ⟨⟨1⟩, 0⟩) (by decide)
  have hcontains := hmember.1.mpr (by decide)
  refine ⟨?_, hplace, hcontains, (hmember.1.mp hcontains).1,
    (hmember.2.2 hcontains ⟨0⟩).1⟩
  rintro (hnone | ⟨p, hp⟩)
  · exact absurd hnone (by decide)
  · have hparent : k.parent? ⟨2⟩ = some ⟨1⟩ := by decide
    have hempty : k.children ⟨1⟩ = [] := by decide
    cases hp.1.symm.trans hparent
    have hmem := hp.mem_children
    rw [hempty] at hmem
    cases hmem

/-- If the block that attached a node last removes it while another block
holds on to it, the place stays out of date, though there is one position
left: the other block has the node, but its parent does not say so, and a
replacement finds it detached. -/
theorem Runs.contains_outdated :
    ∃ f, Runs .strict Plain [] ∅ f ∧ f.holdCount ⟨2⟩ = 1
      ∧ (⟨⟨0⟩, 0⟩ : Collection).Fits f
      ∧ (⟨⟨0⟩, 0⟩ : Collection).contains f ⟨2⟩ = true
      ∧ f.parent? ⟨2⟩ = some ⟨1⟩
      ∧ ((Operation.replaceWith ⟨2⟩ ⟨3⟩).run .strict f).fault?
        = some .detached := by
  let ops : List Operation :=
    [.create .block .none, .hold ⟨0⟩, .create .block .none, .hold ⟨1⟩,
      .create .ret .none, .hold ⟨2⟩, .create .nop .none, .hold ⟨3⟩,
      .change ⟨⟨0⟩, 0⟩ (.add ⟨2⟩), .change ⟨⟨1⟩, 0⟩ (.add ⟨2⟩),
      .change ⟨⟨1⟩, 0⟩ (.removeAt 0)]
  have hplays : Plays .strict (fun _ _ => true) [] ops ∅ := by decide
  exact ⟨played .strict ops ∅,
    hplays.runs (fun hop _ => hop.plain) .refl, by decide⟩

end InstructionTree
