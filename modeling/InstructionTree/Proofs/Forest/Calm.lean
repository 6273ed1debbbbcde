/-
Steps between which `slots`, `link`, `position` and `slotRefs` stay, and
steps that attach and detach.

Between the attaches and detaches of an edit anything may happen that
leaves these fields alone in every node that is not freed (`Calm`,
`Spared`): a commit, the freeing of loose nodes, the creation of others.

# Overdrafts

`enter` counts `slotRefs` up, and `detach` counts it down, but not below
zero: at zero it stays there, and the forest counts an overdraft. Calm
steps are no overdrafts. Steps are `Solvent` if every node that is detached
counts at least one slot at that moment. Then there is no overdraft
(`Solvent.overdrafts_eq`), and `slotRefs` changes by attaches less detaches
(`Solvent.count`).
-/
import InstructionTree.Proofs.Forest.Holding

namespace InstructionTree.Forest

variable {f g h : Forest}

-- ============================================================== spared

/-- The node has not been freed: it is alive, or not created yet. -/
def Spared (f : Forest) (n : NodeId) : Prop :=
  f.isAlive n = true ∨ f.size ≤ n.index

theorem Ages.spared (hfg : Ages f g) {n : NodeId} (hn : g.Spared n) :
    f.Spared n := by
  rcases Nat.lt_or_ge n.index f.size with hold | hnew
  · rcases hn with halive | hunborn
    · exact .inl (hfg.alive hold halive)
    · have hsize := hfg.size
      omega
  · exact .inr hnew

/-- `update` frees nobody. -/
theorem spared_update {m n : NodeId} {k : Node → Node} :
    (f.update m k).Spared n ↔ f.Spared n := by
  unfold Spared
  rw [isAlive_update, size_update]

theorem spared_detach {o c n : NodeId} :
    (f.detach o c).Spared n ↔ f.Spared n := by
  unfold Spared
  rw [isAlive_detach, size_detach]

/-- A node that is `Spared` and not alive has an identity that was not handed
out yet. -/
theorem Spared.unborn {n : NodeId} (hn : f.Spared n)
    (hdead : f.isAlive n = false) : f.size ≤ n.index := by
  rcases hn with halive | hunborn
  · rw [hdead] at halive
    cases halive
  · exact hunborn

-- ================================================================ calm

/-- `slots`, `link`, `position` and `slotRefs` of a node that is not freed
stay, nodes are created without children, and there is no overdraft. -/
structure Calm (f g : Forest) : Prop where
  ages : Ages f g
  slots : ∀ {n}, f.isAlive n = true → g.isAlive n = true →
    (g.node n).slots = (f.node n).slots
  born : ∀ {n}, f.isAlive n = false → g.isAlive n = true →
    g.children n = []
  link : ∀ {n}, g.Spared n → (g.node n).link = (f.node n).link
  position : ∀ {n}, g.Spared n → (g.node n).position = (f.node n).position
  slotRefs : ∀ {n}, g.Spared n → (g.node n).slotRefs = (f.node n).slotRefs
  overdrafts : g.overdrafts = f.overdrafts

namespace Calm

theorem refl (f : Forest) : Calm f f where
  ages := .refl f
  slots _ _ := rfl
  born hdead halive := by
    rw [hdead] at halive
    cases halive
  link _ := rfl
  position _ := rfl
  slotRefs _ := rfl
  overdrafts := rfl

/-- After `Calm` steps a live node has the children it had. -/
theorem children (hfg : Calm f g) {n : NodeId} (halive : g.isAlive n = true) :
    g.children n = f.children n := by
  cases hf : f.isAlive n with
  | true => rw [children_eq, children_eq, hfg.slots hf halive]
  | false => rw [hfg.born hf halive, children_of_not_alive f hf]

/-- `Calm` steps add no position of any node. -/
theorem holdCount_le (hfg : Calm f g) (n : NodeId) :
    g.holdCount n ≤ f.holdCount n :=
  holdCount_le_of_children hfg.ages.size fun p => by
    cases hp : g.isAlive p with
    | true => rw [hfg.children hp]
    | false =>
        rw [children_of_not_alive g hp]
        exact Nat.zero_le _

theorem trans (hfg : Calm f g) (hgh : Calm g h) : Calm f h where
  ages := hfg.ages.trans hgh.ages
  slots {n} hf hh := by
    have hold := f.index_lt_of_alive hf
    have hg := hgh.ages.alive (Nat.lt_of_lt_of_le hold hfg.ages.size) hh
    exact (hgh.slots hg hh).trans (hfg.slots hf hg)
  born {n} hf hh := by
    rw [hgh.children hh]
    cases hg : g.isAlive n with
    | true => exact hfg.born hf hg
    | false => exact children_of_not_alive g hg
  link hn := (hgh.link hn).trans (hfg.link (hgh.ages.spared hn))
  position hn := (hgh.position hn).trans (hfg.position (hgh.ages.spared hn))
  slotRefs hn := (hgh.slotRefs hn).trans (hfg.slotRefs (hgh.ages.spared hn))
  overdrafts := hgh.overdrafts.trans hfg.overdrafts

end Calm

theorem Alike.calm (hfg : Alike f g) : Calm f g where
  ages := hfg.ages
  slots _ _ := hfg.slots _
  born hdead halive := by
    rw [hfg.alive, hdead] at halive
    cases halive
  link _ := hfg.link _
  position _ := hfg.position _
  slotRefs _ := hfg.slotRefs _
  overdrafts := hfg.overdrafts

theorem Sheds.calm (hfg : Sheds f g) : Calm f g := by
  -- what is not freed reads as before, alive or not
  have hnode : ∀ {n}, g.Spared n → g.node n = f.node n := by
    intro n hn
    rcases hn with halive | hunborn
    · exact hfg.node_eq halive
    · have hsize := hfg.size_eq
      rw [node_of_not_alive g (g.not_alive_of_size_le hunborn),
        node_of_not_alive f (f.not_alive_of_size_le (by omega))]
  refine ⟨hfg.ages, fun _ hg => ?_, fun hf hg => ?_, fun hn => ?_,
    fun hn => ?_, fun hn => ?_, hfg.overdrafts_eq⟩
  · rw [hfg.node_eq hg]
  · rw [hfg.survivor hg] at hf
    cases hf
  · rw [hnode hn]
  · rw [hnode hn]
  · rw [hnode hn]

theorem calm_release (f : Forest) (n : NodeId) : Calm f (f.release n) := by
  refine Calm.trans (g := f.update n fun x =>
    { x with handles := x.handles - 1 }) ?_ (sheds_reap _ n).calm
  have hfield : ∀ {α : Type} {F : Node → α}
      (_ : ∀ x k, F { x with handles := k } = F x) (m : NodeId),
      F ((f.update n fun x => { x with handles := x.handles - 1 }).node m)
        = F (f.node m) :=
    fun hF m => f.field_update (fun x => hF x _) n m
  refine ⟨⟨?_, fun _ h => ?_, fun _ _ => ?_⟩, fun _ _ => ?_,
    fun hf hg => ?_, fun _ => ?_, fun _ => ?_, fun _ => ?_,
    overdrafts_update ..⟩
  · exact Nat.le_of_eq (size_update ..).symm
  · rwa [isAlive_update] at h
  · exact hfield (F := Node.opcode) (fun _ _ => rfl) _
  · exact hfield (F := Node.slots) (fun _ _ => rfl) _
  · rw [isAlive_update, hf] at hg
    cases hg
  · exact hfield (F := Node.link) (fun _ _ => rfl) _
  · exact hfield (F := Node.position) (fun _ _ => rfl) _
  · exact hfield (F := Node.slotRefs) (fun _ _ => rfl) _

theorem calm_releaseAll (ns : List NodeId) : Calm f (f.releaseAll ns) := by
  induction ns generalizing f with
  | nil => exact .refl f
  | cons n rest ih => exact (calm_release f n).trans ih

/-- `alloc` of a fresh node is `Calm`. -/
theorem calm_alloc (f : Forest) (op : Opcode) (x : Operand) :
    Calm f (f.alloc (Node.fresh op x)).2 := by
  have hborn : f.node (f.alloc (Node.fresh op x)).1 = default :=
    node_of_not_alive f (f.not_alive_alloc _)
  refine ⟨ages_alloc f _, fun hf _ => ?_, fun hf hg => ?_, fun _ => ?_,
    fun _ => ?_, fun _ => ?_, rfl⟩
  · rw [node_alloc, if_neg]
    rintro rfl
    rw [f.not_alive_alloc] at hf
    cases hf
  · rw [isAlive_alloc] at hg
    split at hg
    case isTrue hn =>
      rw [Forest.children, node_alloc, if_pos hn, Node.children_fresh]
    case isFalse =>
      rw [hf] at hg
      cases hg
  all_goals
    rw [node_alloc]
    split
    case isTrue hn => rw [hn, hborn]; rfl
    case isFalse => rfl

-- ============================================================= solvent

/-- Steps from `f` on, in which slots of `o` were stored, `entered` were
attached to it and `left` detached from it, each while its `slotRefs` was
not zero. -/
inductive Solvent (o : NodeId) (f : Forest) :
    List NodeId → List NodeId → Forest → Prop where
  | start : Solvent o f [] [] f
  | calm {entered left : List NodeId} {g h : Forest}
      (hg : Solvent o f entered left g) (hgh : Calm g h) :
      Solvent o f entered left h
  | place {entered left : List NodeId} {g : Forest}
      (hg : Solvent o f entered left g) (n : NodeId) (k : Nat) :
      Solvent o f entered left (g.setPosition n k)
  | store {entered left : List NodeId} {g : Forest}
      (hg : Solvent o f entered left g) (i : Nat) (items : List NodeId) :
      Solvent o f entered left (g.setSlot o i items)
  | enter {entered left : List NodeId} {g : Forest}
      (hg : Solvent o f entered left g) {c : NodeId}
      (hc : g.isAlive c = true) :
      Solvent o f (entered ++ [c]) left (g.enter o c)
  | leave {entered left : List NodeId} {g : Forest}
      (hg : Solvent o f entered left g) {c : NodeId}
      (hc : g.isAlive c = true) (hpos : 0 < (g.node c).slotRefs) :
      Solvent o f entered (left ++ [c]) (g.detach o c)

namespace Solvent

variable {o : NodeId} {entered left more fewer : List NodeId}

theorem trans (hfg : Solvent o f entered left g)
    (hgh : Solvent o g more fewer h) :
    Solvent o f (entered ++ more) (left ++ fewer) h := by
  induction hgh with
  | start =>
      rw [List.append_nil, List.append_nil]
      exact hfg
  | calm _ hcalm ih => exact ih.calm hcalm
  | place _ n k ih => exact ih.place n k
  | store _ i items ih => exact ih.store i items
  | enter _ hc ih =>
      rw [← List.append_assoc]
      exact ih.enter hc
  | leave _ hc hpos ih =>
      rw [← List.append_assoc]
      exact ih.leave hc hpos

/-- A `Solvent` way leaves `overdrafts` as they are. -/
theorem overdrafts_eq (hfg : Solvent o f entered left g) :
    g.overdrafts = f.overdrafts := by
  induction hfg with
  | start => rfl
  | calm _ hgh ih => exact hgh.overdrafts.trans ih
  | place _ _ _ ih | store _ _ _ ih | enter _ _ ih =>
      exact (overdrafts_update ..).trans ih
  | leave _ _ hpos ih => exact ((overdrafts_detach ..).mpr hpos).trans ih

/-- `slotRefs` changes by attaches less detaches. -/
theorem count (hfg : Solvent o f entered left g) {n : NodeId}
    (hn : g.Spared n) :
    (g.node n).slotRefs + left.count n
      = (f.node n).slotRefs + entered.count n := by
  induction hfg with
  | start => rfl
  | calm _ hgh ih =>
      rw [hgh.slotRefs hn]
      exact ih (hgh.ages.spared hn)
  | place _ _ _ ih =>
      rw [slotRefs_setPosition]
      exact ih (spared_update.mp hn)
  | store _ _ _ ih =>
      rw [slotRefs_setSlot]
      exact ih (spared_update.mp hn)
  | @enter _ _ g _ c hc ih =>
      have ih := ih (spared_update.mp hn)
      rw [slotRefs_enter g o hc, List.count_append]
      omega
  | @leave _ _ g _ c hc hpos ih =>
      have ih := ih (spared_detach.mp hn)
      rw [slotRefs_detach g o hc, List.count_append]
      have henough : [c].count n ≤ (g.node n).slotRefs := by
        by_cases hnc : n = c
        · subst hnc
          rw [List.count_singleton_self]
          exact hpos
        · rw [List.count_singleton, beq_false_of_ne (Ne.symm hnc)]
          exact Nat.zero_le _
      omega

end Solvent

end InstructionTree.Forest
