/-
Steps that leave other owners, and all traversals, alone.

Whoever edits the slots of one owner changes no slot of another one, and
counts no traversal of anybody (`Works`). That is all an open traversal
has to fear from edits elsewhere. It holds of every edit, however it
ended, because it holds of the small steps that an edit is made of.

A node that is being created is an owner nobody else knew, so creating it,
with children or without, is work on that node alone.

Edits of one owner also leave all opcodes and operands as they are
(`Retains`). So a program that looks at these, or at the slots of other
nodes, sees no difference.
-/
import InstructionTree.Proofs.Forest.Steps
import InstructionTree.Proofs.Forest.Calm

namespace InstructionTree

/-- No identity is the only one there is. -/
instance : Nontrivial NodeId := ⟨⟨0⟩, ⟨1⟩, by decide⟩

namespace Forest

variable {checks : Checks} {locks : List NodeId} {f g h : Forest}
  {n o p : NodeId}

/-- No traversal begins or ends, and only `p` gets other slots. -/
structure Works (p : NodeId) (f g : Forest) : Prop where
  ages : Ages f g
  depth : ∀ {n}, g.Spared n → (g.node n).depth = (f.node n).depth
  slots : ∀ {n}, g.Spared n → n ≠ p → (g.node n).slots = (f.node n).slots

namespace Works

theorem refl (p : NodeId) (f : Forest) : Works p f f where
  ages := .refl f
  depth _ := rfl
  slots _ _ := rfl

theorem trans (hfg : Works p f g) (hgh : Works p g h) : Works p f h where
  ages := hfg.ages.trans hgh.ages
  depth hn := (hgh.depth hn).trans (hfg.depth (hgh.ages.spared hn))
  slots hn hne :=
    (hgh.slots hn hne).trans (hfg.slots (hgh.ages.spared hn) hne)

/-- `Works p` keeps the slots of every node but `p` that lives on. -/
theorem slot_eq (hfg : Works p f g) (hn : g.isAlive n = true) (hne : n ≠ p)
    (i : Nat) : g.slot n i = f.slot n i :=
  slot_congr (hfg.slots (.inl hn) hne) i

end Works

-- ============================================================ small steps

/-- An update that keeps opcode, slots and depth `Works` on anybody. -/
theorem works_update {k : Node → Node} (m : NodeId)
    (hop : ∀ x, (k x).opcode = x.opcode)
    (hslots : ∀ x, (k x).slots = x.slots)
    (hdepth : ∀ x, (k x).depth = x.depth) (p : NodeId) :
    Works p f (f.update m k) where
  ages := ages_update m hop
  depth _ := f.field_update (F := Node.depth) hdepth m _
  slots _ _ := f.field_update (F := Node.slots) hslots m _

theorem Touches.works (hfg : Touches checks p f g) : Works p f g := by
  have hunborn : ∀ {n : NodeId}, g.isAlive n = false → g.Spared n →
      g.node n = f.node n := by
    intro n hdead hn
    have hsize := hn.unborn hdead
    rw [hfg.size_eq] at hsize
    rw [node_of_not_alive g hdead,
      node_of_not_alive f (f.not_alive_of_size_le hsize)]
  refine ⟨hfg.ages, fun {n} hn => ?_, fun {n} hn hne => ?_⟩
  · cases hg : g.isAlive n with
    | true => exact hfg.field (F := Node.depth) (fun _ _ _ _ _ => rfl) hg
    | false => rw [hunborn hg hn]
  · cases hg : g.isAlive n with
    | true => exact hfg.slots_ne hg hne
    | false => rw [hunborn hg hn]

theorem Sheds.works (hfg : Sheds f g) (p : NodeId) : Works p f g := by
  have htouches : Touches .lax p f g := hfg.touches
  exact htouches.works

theorem works_emit (e : Event) (p : NodeId) : Works p f (f.emit e) where
  ages := (alike_emit e).ages
  depth _ := rfl
  slots _ _ := rfl

theorem works_commit (m p : NodeId) : Works p f (f.commit m) where
  ages := (alike_commit m).ages
  depth _ := f.field_commit (F := Node.depth) (fun _ _ _ => rfl) m _
  slots _ _ := slots_commit f m _

theorem works_hold (m p : NodeId) : Works p f (f.hold m) := by
  refine works_update m ?_ ?_ ?_ p
  all_goals exact fun _ => rfl

theorem works_release (m p : NodeId) : Works p f (f.release m) := by
  refine (works_update m ?_ ?_ ?_ p).trans ((sheds_reap _ m).works p)
  all_goals exact fun _ => rfl

/-- `alloc` of a fresh node `Works` on that node. -/
theorem works_alloc (f : Forest) (op : Opcode) (x : Operand) :
    Works ⟨f.size⟩ f (f.alloc (Node.fresh op x)).2 where
  ages := ages_alloc f _
  depth _ := by
    rw [node_alloc]
    split
    case isTrue hn =>
      rw [hn, node_of_not_alive f (f.not_alive_alloc _)]
      rfl
    case isFalse => rfl
  slots _ hne := by
    rw [node_alloc, if_neg]
    exact hne

-- ============================================================= operands

/-- Every node of `g` was a node of `f`, with the same opcode, the same
operand and, unless it is `p`, the same slots. -/
structure Retains (p : NodeId) (f g : Forest) : Prop extends Ages f g where
  survivor : ∀ {n}, g.isAlive n = true → f.isAlive n = true
  operand : ∀ {n}, g.isAlive n = true →
    (g.node n).operand = (f.node n).operand
  slots : ∀ {n}, g.isAlive n = true → n ≠ p →
    (g.node n).slots = (f.node n).slots

namespace Retains

theorem refl (p : NodeId) (f : Forest) : Retains p f f :=
  { Ages.refl f with
    survivor := id
    operand := fun _ => rfl
    slots := fun _ _ => rfl }

theorem trans (hfg : Retains p f g) (hgh : Retains p g h) : Retains p f h :=
  { hfg.toAges.trans hgh.toAges with
    survivor := fun hn => hfg.survivor (hgh.survivor hn)
    operand := fun hn =>
      (hgh.operand hn).trans (hfg.operand (hgh.survivor hn))
    slots := fun hn hne =>
      (hgh.slots hn hne).trans (hfg.slots (hgh.survivor hn) hne) }

/-- `Retains` keeps the opcode of a node that lives on. -/
theorem opcode_eq (hfg : Retains p f g) (hn : g.isAlive n = true) :
    (g.node n).opcode = (f.node n).opcode :=
  hfg.opcode (f.index_lt_of_alive (hfg.survivor hn)) hn

end Retains

/-- An update that keeps opcode, operand and slots `Retains` them. -/
theorem retains_update {k : Node → Node} (m : NodeId)
    (hop : ∀ x, (k x).opcode = x.opcode)
    (hoperand : ∀ x, (k x).operand = x.operand)
    (hslots : ∀ x, (k x).slots = x.slots) (p : NodeId) :
    Retains p f (f.update m k) :=
  { ages_update m hop with
    survivor := fun hn => by rwa [isAlive_update] at hn
    operand := fun _ => f.field_update (F := Node.operand) hoperand m _
    slots := fun _ _ => f.field_update (F := Node.slots) hslots m _ }

theorem Touches.retains (hfg : Touches checks p f g) : Retains p f g :=
  { hfg.ages with
    survivor := hfg.survivor
    operand := hfg.field (F := Node.operand) fun _ _ _ _ _ => rfl
    slots := hfg.slots_ne }

theorem Sheds.retains (hfg : Sheds f g) (p : NodeId) : Retains p f g := by
  have htouches : Touches .lax p f g := hfg.touches
  exact htouches.retains

theorem retains_emit (e : Event) (p : NodeId) : Retains p f (f.emit e) :=
  { (alike_emit e).ages with
    survivor := id
    operand := fun _ => rfl
    slots := fun _ _ => rfl }

theorem retains_commit (m p : NodeId) : Retains p f (f.commit m) :=
  { (alike_commit m).ages with
    survivor := fun hn => by rwa [isAlive_commit] at hn
    operand := fun _ =>
      f.field_commit (F := Node.operand) (fun _ _ _ => rfl) m _
    slots := fun _ _ => slots_commit f m _ }

theorem retains_hold (m p : NodeId) : Retains p f (f.hold m) := by
  refine retains_update m ?_ ?_ ?_ p
  all_goals exact fun _ => rfl

theorem retains_release (m p : NodeId) : Retains p f (f.release m) := by
  refine (retains_update m ?_ ?_ ?_ p).trans ((sheds_reap _ m).retains p)
  all_goals exact fun _ => rfl

theorem retains_beginTraversal (m p : NodeId) :
    Retains p f (f.beginTraversal m) := by
  refine retains_update m ?_ ?_ ?_ p
  all_goals exact fun _ => rfl

theorem Carried.retains {α : Type} {out : Outcome Forest α}
    (hout : Carried checks p f out) : Retains p f out.state := by
  cases hout with
  | idle | refused => exact .refl p f
  | guarded e ev => exact retains_emit ev p
  | done a hfg hgh =>
      exact (hfg.retains.trans (retains_commit p p)).trans (hgh.retains p)
  | broken op hfg => exact hfg.retains

-- ============================================================= traversals

theorem depth_beginTraversal (ho : f.isAlive o = true) (n : NodeId) :
    ((f.beginTraversal o).node n).depth
      = if n = o then (f.node n).depth.next else (f.node n).depth := by
  split
  next hn =>
    subst hn
    rw [beginTraversal, node_update_self f ho]
  next hn => rw [beginTraversal, node_update_ne f hn]

/-- With checks on, an owner whose guard is down has a `depth` that shows 0. -/
theorem shown_of_unguarded (hchecks : checks.enforced = true)
    (hguard : f.isGuarded checks o = false) : (f.node o).depth.shown = 0 := by
  rw [isGuarded, hchecks, Bool.true_and] at hguard
  exact bne_eq_false_iff_eq.mp hguard

/-- An owner whose guard is down has room for one more traversal. -/
theorem isSpent_of_unguarded (hguard : f.isGuarded checks o = false) :
    f.isSpent checks o = false := by
  cases hchecks : checks.enforced with
  | false => rw [isSpent, hchecks, Bool.false_and]
  | true =>
      have hzero := shown_of_unguarded hchecks hguard
      rw [isSpent, Counter.isFull_of_shown_zero hzero, Bool.and_false]

/-- `endTraversal` succeeds if the counter shows more than 0, or checks are
off; it lowers that counter and is otherwise `Alike`. -/
theorem endTraversal_counted (ho : f.isAlive o = true)
    (hopen : checks.enforced = true → 0 < (f.node o).depth.shown) :
    ∃ g, endTraversal checks o f = .ok () g ∧ Alike f g
      ∧ ∀ n, (g.node n).depth
        = if n = o then (f.node n).depth.prev else (f.node n).depth := by
  refine ⟨f.update o fun x => { x with depth := x.depth.prev }, ?_, ?_,
    fun n => ?_⟩
  · unfold endTraversal
    refine if_neg fun hunbalanced => ?_
    rw [Bool.and_eq_true, beq_iff_eq] at hunbalanced
    exact Nat.ne_of_gt (hopen hunbalanced.1) hunbalanced.2
  · exact alike_update o (fun _ => rfl) fun _ => Nat.le_refl _
  · split
    next hn =>
      subst hn
      rw [node_update_self f ho]
    next hn => rw [node_update_ne f hn]

/-- The counter of a node of which `k` traversals are open: it shows `k`, if
it never started over, and with checks on it never did. -/
structure Tells (checks : Checks) (k : Nat) (c : Counter) : Prop where
  counts : c.Counts k
  unwrapped : checks.enforced = true → c.wraps = 0

namespace Tells

variable {k : Nat} {c : Counter}

theorem zero : Tells checks 0 .zero := ⟨.zero, fun _ => rfl⟩

theorem shown_eq (hc : Tells checks k c) (hchecks : checks.enforced = true) :
    c.shown = k :=
  hc.counts (hc.unwrapped hchecks)

theorem of_eq {m : Nat} (hc : Tells checks k c) (hkm : k = m) :
    Tells checks m c :=
  hkm ▸ hc

/-- It tells of one more traversal of `o`, if that was begun where there was
room. -/
theorem begun (hn : Tells checks k (f.node n).depth)
    (ho : f.isAlive o = true) (hroom : f.isSpent checks o = false) :
    Tells checks (k + [o].count n) ((f.beginTraversal o).node n).depth := by
  rw [depth_beginTraversal ho]
  split
  next hsame =>
    subst hsame
    rw [List.count_singleton_self]
    refine ⟨hn.counts.next, fun hchecks => ?_⟩
    rw [isSpent, hchecks, Bool.true_and] at hroom
    exact Counter.wraps_next_eq_zero_iff.mpr ⟨hn.unwrapped hchecks, hroom⟩
  next hne =>
    rw [List.count_singleton, beq_false_of_ne (Ne.symm hne)]
    exact hn

/-- It tells of one less, if it was lowered for `o`. -/
theorem lowered (hn : Tells checks k (f.node n).depth)
    (hless : (g.node n).depth
      = if n = o then (f.node n).depth.prev else (f.node n).depth) :
    Tells checks (k - [o].count n) (g.node n).depth := by
  rw [hless]
  split
  next hsame =>
    subst hsame
    rw [List.count_singleton_self]
    refine ⟨hn.counts.prev, fun hchecks => ?_⟩
    rw [Counter.wraps_prev]
    exact hn.unwrapped hchecks
  next hne =>
    rw [List.count_singleton, beq_false_of_ne (Ne.symm hne)]
    exact hn

end Tells

-- ================================================================== edits

theorem Carried.works {α : Type} {out : Outcome Forest α}
    (hout : Carried checks p f out) : Works p f out.state := by
  cases hout with
  | idle | refused => exact .refl p f
  | guarded e ev => exact works_emit ev p
  | done a hfg hgh =>
      exact (hfg.works.trans (works_commit p p)).trans (hgh.works p)
  | broken op hfg => exact hfg.works

theorem Filled.works {placed : List NodeId}
    (hfg : Filled checks n f placed g) (hs : f.Sound checks locks)
    (hn : f.isAlive n = true) : Works n f g := by
  induction hfg with
  | none => exact .refl n _
  | @more f g h ns rest hstep _ ih =>
      obtain ⟨hs', -, halive⟩ := hstep.keeps hs hn
      refine Works.trans ?_ (ih hs' ((halive n).trans hn))
      cases hstep with
      | operand i c hc _ hout =>
          have hcarried : Carried checks n f
              (setSlotChild checks n i (some c) f) :=
            carried_setSlotChild i hn fun m hm => by cases hm; exact hc
          rw [hout] at hcarried
          exact hcarried.works
      | range i _ hns hc hout =>
          have hcarried : Carried checks n f
              (Collection.addRange checks ⟨n, i⟩ ns f) :=
            Collection.carried_addRange hs hc hns
          rw [hout] at hcarried
          exact hcarried.works

/-- `build` `Works` on the new node. -/
theorem works_build {op : Opcode} {x : Operand} {children : List NodeId}
    (hs : f.Sound checks locks)
    (hlive : ∀ c ∈ children, f.isAlive c = true) :
    Works ⟨f.size⟩ f (build checks op x children f).state := by
  have hs' := hs.alloc op x
  have hborn : (f.alloc (Node.fresh op x)).2.isAlive
      (f.alloc (Node.fresh op x)).1 = true := isAlive_alloc_self ..
  have hbuilds : Builds checks (f.alloc (Node.fresh op x)).1
      (f.alloc (Node.fresh op x)).2 op.layout children
      (build checks op x children f) := builds_build hs hlive
  refine (works_alloc f op x).trans ?_
  generalize build checks op x children f = out at hbuilds ⊢
  cases hbuilds with
  | ok hfg => exact hfg.works hs' hborn
  | refused e hfg =>
      exact (hfg.works hs' hborn).trans ((sheds_reap _ _).works _)
  | stop placed rest why hfg hall hfew hgh =>
      exact ((hfg.works hs' hborn).trans hgh.works).trans
        ((sheds_reap _ _).works _)

end Forest

end InstructionTree
