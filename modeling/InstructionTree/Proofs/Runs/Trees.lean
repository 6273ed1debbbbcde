/-
Runs in which the forest stays a forest.

A run is in tree mode if, after every operation, every node sits in one
slot at most, and if no owner is freed while a child that it still holds
lives on. In tree mode all nodes are `Settled` after every operation, so
everything a node has cached says where it is, and the attach check is
exact: it stops an edit that would put a node below itself, and no other.
-/
import InstructionTree.Proofs.Collection.Contract
import InstructionTree.Proofs.Runs.Counts

namespace InstructionTree

open Forest

variable {checks : Checks} {locks : List NodeId} {f g k : Forest}
  {o n m : NodeId} {entered left new : List NodeId} {i : Nat}
  {removed : Nat → Prop}

theorem Edited.settled (hfg : Edited o i entered left new removed f g)
    (hwf : f.WellFormed) (hcov : f.Covered) (hclosed : g.Closed)
    (hn : g.isAlive n = true) (hkept : Kept f g n)
    (honce : f.holdCount n ≤ 1) (honce' : g.holdCount n ≤ 1)
    (hset : f.Settled n) : g.Settled n := by
  refine hset.exchange hfg.exchange (hfg.keepsPlaces hwf hcov hclosed)
    (fun {j} hremoved hchild => ?_) hwf hcov hn hkept honce honce'
  obtain ⟨k, hlocate, hk⟩ := hremoved
  obtain ⟨i', k', hlocate', hget⟩ := child?_eq_some.mp hchild
  cases hlocate.symm.trans hlocate'
  exact hfg.emptied hk hget

-- ============================================================== building

namespace Forest

section

variable {placed : List NodeId} (hfg : Filled checks n f placed g)
  (hs : f.Sound checks locks) (hn : f.isAlive n = true)
include hfg hs hn

theorem Filled.settled (hcov : f.Covered) (hm : g.isAlive m = true)
    (honce : g.holdCount m ≤ 1) (hset : f.Settled m) : g.Settled m := by
  induction hfg with
  | none => exact hset
  | @more f g h ns rest hstep hgh ih =>
      obtain ⟨hs', -, halive⟩ := hstep.keeps hs hn
      have hn' := (halive n).trans hn
      obtain ⟨i, new, removed, hedited⟩ := hstep.edited hs hn
      have hkept : Kept f g m := fun hp =>
        (halive _).trans (alive_of_mem_children _ hp)
      -- positions only get more, so there was one at most all along
      have hbefore := hedited.exchange.holdCount_eq hkept
      have hafter := hgh.holdCount_eq hs' hn' m
      rw [List.count_nil] at hbefore
      have hmg : g.isAlive m = true :=
        ((hgh.keeps hs' hn').2.2 m).symm.trans hm
      refine ih hs' hn' (hedited.exchange.covered hs.toWellFormed hcov) hm
        honce ?_
      exact hedited.settled hs.toWellFormed hcov hs'.closed hmg hkept
        (by omega) (by omega) hset

end

/-- Building keeps a node settled that nobody else lets go of. If it
fails, this is about the nodes that were not given to the new one. -/
theorem Builds.settled {slots : List Slot} {children : List NodeId}
    {out : Outcome Forest NodeId}
    (hout : Builds checks n f slots children out)
    (hs : f.Sound checks locks) (hn : f.isAlive n = true)
    (hcov : f.Covered) (hunbroken : ∀ p s, out ≠ .stop (.panic p) s)
    (hm : out.state.isAlive m = true) (hkept : Kept f out.state m)
    (honce : out.state.holdCount m ≤ 1)
    (hunplaced : ∀ why s, out = .stop why s →
      m ∉ children.take slots.length)
    (hset : f.Settled m) : out.state.Settled m := by
  obtain ⟨placed, g, hfg, hend, hkept'⟩ :=
    hout.filled hs hn hunbroken hkept hunplaced
  refine Settled.calm ?_ hend (.inl hm) hkept'
  cases hmg : g.isAlive m with
  | false => exact .of_not_alive (hfg.keeps hs hn).1.toWellFormed hmg
  | true =>
      refine hfg.settled hs hn hcov hmg ?_ hset
      rwa [← hend.holdCount_eq hkept']

theorem settled_build {a : Opcode} {x : Operand} {children : List NodeId}
    (hs : f.Sound checks locks)
    (hlive : ∀ c ∈ children, f.isAlive c = true) (hcov : f.Covered)
    (hunbroken : ∀ p s, Forest.build checks a x children f
      ≠ .stop (.panic p) s)
    (hm : (Forest.build checks a x children f).state.isAlive m = true)
    (hkept : Kept f (Forest.build checks a x children f).state m)
    (honce : (Forest.build checks a x children f).state.holdCount m ≤ 1)
    (hunplaced : ∀ why s, Forest.build checks a x children f = .stop why s →
      m ∉ children.take a.layout.length)
    (hset : f.Settled m) :
    (Forest.build checks a x children f).state.Settled m := by
  have hs' := hs.alloc a x
  have hn : (f.alloc (Node.fresh a x)).2.isAlive
      (f.alloc (Node.fresh a x)).1 = true := isAlive_alloc_self ..
  have hcalm := calm_alloc f a x
  have hbuilds : Builds checks (f.alloc (Node.fresh a x)).1
      (f.alloc (Node.fresh a x)).2 a.layout children
      (Forest.build checks a x children f) := builds_build hs hlive
  have hborn : Kept f (f.alloc (Node.fresh a x)).2 m := fun hp => by
    rw [isAlive_alloc]
    split
    · rfl
    · exact f.alive_of_mem_children hp
  refine hbuilds.settled hs' hn (hcalm.covered hs.toWellFormed hcov)
    hunbroken hm (fun hp => hkept (hcalm.mem_children hp)) honce
    hunplaced ?_
  exact hset.calm hcalm ((hbuilds.keeps hs' hn).2.spared (.inl hm)) hborn

end Forest

-- ============================================================= tree mode

/-- An operation of a run in tree mode. What happens while others are under
way is not about slots, and judged with them. -/
structure TreeMode (checks : Checks) (locks : List NodeId)
    (op : Operation) (f : Forest) (out : Outcome Forest Unit) : Prop
    extends Plain locks op f out where
  single : locks = [] → ∀ n, out.state.holdCount n ≤ 1
  tidy : locks = [] → ∀ c, op.Tidy checks f c

namespace Operation

variable {op : Operation}

/-- The part of an operation that works keeps a node settled, if it was not
given to a node that could not be built. -/
theorem body_settled (hready : op.Ready locks f)
    (hs : f.Sound checks (op.keeps ++ locks)) (hcov : f.Covered)
    (hidle : ∀ j ∈ op.calls checks f, j.Idle checks (op.keeps ++ locks))
    (hnotify : ∀ o r, op ≠ .notify o r)
    (hunbroken : op.filters = false →
      ∀ p s, op.body checks f ≠ .stop (.panic p) s)
    (hunbuilt : ∀ {a x ns why s}, op = .build a x ns →
      op.body checks f = .stop why s → n ∉ ns.take a.layout.length)
    (hn : (op.body checks f).state.isAlive n = true)
    (hkept : Kept f (op.body checks f).state n)
    (honce : f.holdCount n ≤ 1)
    (honce' : (op.body checks f).state.holdCount n ≤ 1)
    (hset : f.Settled n) : (op.body checks f).state.Settled n := by
  rcases body_cases hready hs hcov hidle hnotify hunbroken
    with ⟨hcalm, -⟩ | ⟨a, x, ns, rfl, hwhole⟩ | ⟨left, -, i, _, _, hedited, -⟩
  · exact hset.calm hcalm (.inl hn) hkept
  · rw [body, Outcome.state_map] at hn hkept honce' ⊢
    exact settled_build hs hready hcov hwhole hn hkept honce'
      (fun why s hout => hunbuilt rfl (body_of_build hout)) hset
  · have hs' := (body_sound hready hs fun j hj => (hidle j hj).1).1
    exact hedited.settled hs.toWellFormed hcov hs'.closed hn hkept honce
      honce' hset

end Operation

/-- An operation in `TreeMode` keeps every node `Settled`. -/
theorem TreeMode.settled {op : Operation}
    (hmode : TreeMode checks [] op f (op.run checks f))
    (hready : op.Ready [] f)
    (hidle : ∀ j ∈ op.calls checks (f.holdAll op.keeps),
      j.Idle checks (op.keeps ++ []))
    (hs : f.Sound checks []) (hcov : f.Covered)
    (honce : ∀ n, f.holdCount n ≤ 1) (hall : ∀ n, f.Settled n)
    (n : NodeId) : (op.run checks f).state.Settled n := by
  have hs' := Operation.run_sound hready hs fun j hj => (hidle j hj).1
  cases hn : (op.run checks f).state.isAlive n with
  | false => exact .of_not_alive hs'.1.toWellFormed hn
  | true =>
      have hheld := alike_holdAll (f := f) op.keeps
      have hready' := hready.alike hheld
      have hbody := Operation.body_sound hready' (hs.holdAll hready.keeps)
        fun j hj => (hidle j hj).1
      obtain ⟨hlive, hlive'⟩ := (hmode.tidy rfl n).kept
        (hheld.ages.trans hbody.2) hn
      have hgave := calm_releaseAll
        (f := (op.body checks (f.holdAll op.keeps)).state) op.keeps
      have honce' := hmode.single rfl n
      have hunbroken : op.filters = false → ∀ p s,
          op.body checks (f.holdAll op.keeps) ≠ .stop (.panic p) s :=
        fun hfilters p s hstop =>
          hmode.unbroken hfilters p _ (Operation.run_of_body hstop)
      have hunbuilt : ∀ {a x ns why s}, op = .build a x ns →
          op.body checks (f.holdAll op.keeps) = .stop why s →
          n ∉ ns.take a.layout.length := (hmode.tidy rfl n).unplaced hn
      rw [Operation.run, Outcome.state_always] at hn hlive' honce' ⊢
      rw [hgave.holdCount_eq hlive'] at honce'
      refine Settled.calm ?_ hgave (.inl hn) hlive'
      cases hk : (op.body checks (f.holdAll op.keeps)).state.isAlive n with
      | false => exact .of_not_alive hbody.1.toWellFormed hk
      | true =>
          have hkept : Kept f (f.holdAll op.keeps) n :=
            fun hp => (hheld.alive _).trans (f.alive_of_mem_children hp)
          have honce'' := honce n
          rw [← hheld.calm.holdCount_eq hkept] at honce''
          refine Operation.body_settled hready'
            (hs.holdAll hready.keeps)
            (hheld.calm.covered hs.toWellFormed hcov) hidle hmode.unforced
            hunbroken hunbuilt hk (fun hp => hlive ?_) honce'' honce'
            ((hall n).calm hheld.calm (hbody.2.spared (.inl hk)) hkept)
          rwa [hheld.children] at hp

/-- A run in `TreeMode` from a forest where every node has one position at
most, and is `Settled`, leads to such a forest. -/
theorem Runs.settled (hfg : Runs checks (TreeMode checks) locks f g)
    (hlocks : locks = []) (hs : f.Sound checks locks) (hcov : f.Covered)
    (honce : ∀ n, f.holdCount n ≤ 1) (hall : ∀ n, f.Settled n) :
    (∀ n, g.holdCount n ≤ 1) ∧ ∀ n, g.Settled n := by
  induction hfg with
  | refl => exact ⟨honce, hall⟩
  | step hfg hready hcalls hpermit ih _ =>
      subst hlocks
      obtain ⟨honce', hall'⟩ := ih rfl hs hcov honce hall
      have hplain := hfg.mono TreeMode.toPlain
      refine ⟨hpermit.single rfl, hpermit.settled hready
        (fun j hj => ?_) (hfg.sound hs).1 (hplain.covered hs hcov) honce'
        hall'⟩
      exact ((hcalls j hj).mono TreeMode.toPlain).idle

/-- Whether no node occurs twice in the slots of `f`. -/
def Forest.isScattered (f : Forest) : Bool :=
  decide ((List.range f.size).flatMap fun i => f.children ⟨i⟩).Nodup

theorem Forest.holdCount_le_one (hf : f.isScattered = true) (n : NodeId) :
    f.holdCount n ≤ 1 := by
  have hcount := List.nodup_iff_count_le_one.mp (of_decide_eq_true hf) n
  rwa [List.count_flatMap] at hcount

theorem Operation.Simple.treeMode (hop : op.Simple checks [] f)
    (hcheck : (op.takesAlong checks f
      && (op.run checks f).state.isScattered) = true) :
    TreeMode checks [] op f (op.run checks f) := by
  rw [Bool.and_eq_true] at hcheck
  exact ⟨hop.plain, fun _ => holdCount_le_one hcheck.2,
    fun _ => hop.tidy hcheck.1⟩

-- ================================================================= trees

/-- An edit puts a node into a slot where it is not, and nothing but the
attach check can be in its way. -/
inductive PutsInto (f : Forest) (n : NodeId) : NodeId → Edit Unit → Prop where
  | add (c : Collection)
      (hopen : f.isGuarded .strict c.owner = false) :
      PutsInto f n c.owner (c.add .strict n)
  | insert (c : Collection) (i : Nat) (hi : i ≤ c.length f)
      (hopen : f.isGuarded .strict c.owner = false) :
      PutsInto f n c.owner (c.insert .strict i n)
  | set (c : Collection) (i : Nat) (hi : i < c.length f) :
      PutsInto f n c.owner (c.set .strict i n)
  | setSlotChild (o : NodeId) (i : Nat)
      (hslot : f.checkOperandSlot o i = .ok ()) :
      PutsInto f n o (Forest.setSlotChild .strict o i (some n))

/-- An edit that puts `n`, which no slot holds, into a slot of `o` breaks off
exactly if `o` is a descendant of `n`. -/
theorem PutsInto.broke_iff {edit : Edit Unit} (hedit : PutsInto f n o edit)
    (hloose : ∀ p, n ∉ f.children p) :
    (edit f).Broke ↔ f.isDescendantOf o n = true := by
  have hcheck : f.breaksTree .strict o n = f.isDescendantOf o n := rfl
  rw [← hcheck]
  cases hedit with
  | add c hopen => exact Collection.broke_add hopen
  | insert c i hi hopen => exact Collection.broke_insert hopen hi
  | set c i hi =>
      have hold : (c.items f)[i]? = some (c.items f)[i] :=
        List.getElem?_eq_getElem hi
      refine Collection.broke_set hold fun hsame => hloose c.owner ?_
      refine f.mem_children_of_mem_slot (i := c.slot) ?_
      exact List.mem_of_getElem? (hsame ▸ hold)
  | setSlotChild _ i hslot =>
      refine broke_setSlotChild hslot fun hsame => hloose o ?_
      exact f.mem_children_of_mem_slot (List.mem_of_head? hsame)

/-- In tree mode, what a live node has cached is what the slots say, the
way up from it is the path of its holders, and the attach check stops an
edit exactly if a node would be put below itself. -/
theorem Runs.parent_iff_holds (hf : Runs .strict (TreeMode .strict) [] ∅ f) :
    ∀ n, f.isAlive n = true →
      (∀ p, n ∈ f.children p → (f.node n).slotRefs = 1)
      ∧ ((∀ p, n ∉ f.children p) → (f.node n).slotRefs = 0)
      ∧ (∀ p, f.parent? n = some p ↔ n ∈ f.children p)
      ∧ (∀ p, n ∈ f.children p → f.child? p (f.node n).position = some n)
      ∧ List.IsChain (fun a b => a ∈ f.children b) (n :: f.ancestors n)
      ∧ (∀ p, (n :: f.ancestors n).getLast (List.cons_ne_nil n _)
        ∉ f.children p)
      ∧ (∀ a, f.isDescendantOf n a = true
        ↔ Relation.ReflTransGen f.Holds a n)
      ∧ ((∀ p, n ∉ f.children p) → ∀ o edit, PutsInto f n o edit →
        ((edit f).Broke
          ↔ Relation.ReflTransGen f.Holds n o)) := by
  have hs : f.Sound .strict [] := hf.sound_of_empty
  have hdead : ∀ n, (∅ : Forest).isAlive n = false := fun n => by
    simp [isAlive]
  have hnowhere : ∀ n, (∅ : Forest).holdCount n ≤ 1 := fun n => by
    rw [wellFormed_empty.holdCount_eq_zero (hdead n)]
    exact Nat.zero_le _
  obtain ⟨honce, hall⟩ := hf.settled rfl (sound_empty .strict)
    covered_empty hnowhere fun n => .of_not_alive wellFormed_empty (hdead n)
  intro n _
  have hset := hall n
  obtain ⟨l, hway⟩ := hs.rooted rfl n
  have hpath := hway.holders hall
  rw [← hway.ancestors_eq] at hpath
  refine ⟨fun p hp => ?_, fun hloose => ?_, fun p =>
    parent?_eq_some_iff_mem_children hall, fun p => hset.placed, hpath.1,
    hpath.2, fun a => isDescendantOf_iff_reaches hall (hs.rooted rfl n),
    fun hloose o edit hedit => ?_⟩
  · have hpos := holdCount_pos_iff.mpr ⟨p, hp⟩
    have hone := honce n
    rw [hset.counted]
    omega
  · rw [hset.counted]
    refine Nat.eq_zero_of_not_pos fun hpos => ?_
    obtain ⟨p, hp⟩ := holdCount_pos_iff.mp hpos
    exact hloose p hp
  · rw [hedit.broke_iff hloose]
    exact isDescendantOf_iff_reaches hall (hs.rooted rfl o)

/-- A block with a return of a constant: the constant, which is kept by its
slot alone, knows where it is, and the block can not be put in its place. -/
theorem Runs.parent_iff_holds_of_block :
    let ops : List Operation :=
      [.create .block .none, .hold ⟨0⟩, .create .ret .none, .hold ⟨1⟩,
        .create .constInt32 .none, .hold ⟨2⟩,
        .setSlotChild ⟨1⟩ 0 (some ⟨2⟩), .change ⟨⟨0⟩, 0⟩ (.add ⟨1⟩),
        .drop ⟨2⟩, .drop ⟨1⟩]
    let f := played .strict ops ∅
    Runs .strict (TreeMode .strict) [] ∅ f
      ∧ (f.node ⟨2⟩).slotRefs = 1 ∧ f.parent? ⟨2⟩ = some ⟨1⟩
      ∧ f.child? ⟨1⟩ (f.node ⟨2⟩).position = some ⟨2⟩
      ∧ Relation.ReflTransGen f.Holds ⟨0⟩ ⟨2⟩
      ∧ (Forest.setSlotChild .strict ⟨1⟩ 0 (some ⟨0⟩) f).Broke := by
  intro ops f
  have hplays : Plays .strict (fun op f => op.takesAlong .strict f
      && (op.run .strict f).state.isScattered) [] ops ∅ := by decide
  have hf : Runs .strict (TreeMode .strict) [] ∅ f :=
    hplays.runs (fun hop hcheck => hop.treeMode hcheck) .refl
  have hmem : ⟨2⟩ ∈ f.children ⟨1⟩ := by decide
  obtain ⟨hone, -, hparent, hplace, -, -, hbelow, -⟩ :=
    Runs.parent_iff_holds hf ⟨2⟩ (by decide)
  obtain ⟨-, -, -, -, -, -, -, hbroke⟩ :=
    Runs.parent_iff_holds hf ⟨0⟩ (by decide)
  refine ⟨hf, hone _ hmem, (hparent _).mpr hmem, hplace _ hmem,
    (hbelow _).mp (by decide), ?_⟩
  refine (hbroke (fun p hp => ?_) ⟨1⟩ _
    (.setSlotChild ⟨1⟩ 0 (by decide))).mpr ?_
  · have hlow : p.index < f.size :=
      f.index_lt_of_alive (f.alive_of_mem_children hp)
    have hnone : ∀ i < f.size, ⟨0⟩ ∉ f.children ⟨i⟩ := by decide
    exact hnone _ hlow hp
  · exact .single (show ⟨1⟩ ∈ f.children ⟨0⟩ by decide)

end InstructionTree
