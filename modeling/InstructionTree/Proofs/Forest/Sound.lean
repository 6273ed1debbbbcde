/-
What holds of a forest whatever was done to it.

`WellFormed` says that records fit their opcodes, that live slots hold
live nodes, and that links name identities that were handed out. `Sound`
adds what the references of a client are good for: a node on the list of
`locks` has at least that many handles, so nobody else can free it. With
checks on, `Sound` adds that every way up ends.

No edit, hook or panic takes `Sound` away. This file proves it for the
small edits; `Runs.sound` is about whole runs.

# Shapes

The shape of a node is its record without what only observers and caches
look at. Committing, opening and closing traversals, asking for flags and
holding keep every shape (`Alike`), so all of them are dealt with at once.
-/
import InstructionTree.Proofs.Forest.Lineage
import Mathlib.Data.List.Dedup

namespace InstructionTree

/-- A record without its operand, counters of batches and traversals,
cached flags and handles. -/
structure Shape where
  opcode : Opcode
  slots : List (List NodeId)
  link : Option NodeId
  position : Nat
  slotRefs : Nat
deriving DecidableEq

/-- The `Shape` of a record. -/
def Node.shape (x : Node) : Shape :=
  ⟨x.opcode, x.slots, x.link, x.position, x.slotRefs⟩

namespace Forest

variable {f g h : Forest}

-- ============================================================== alike

/-- The same nodes with the same shapes, no handle given back, and no
overdraft. -/
structure Alike (f g : Forest) : Prop where
  size : g.size = f.size
  alive : ∀ n, g.isAlive n = f.isAlive n
  shape : ∀ n, (g.node n).shape = (f.node n).shape
  handles : ∀ n, (f.node n).handles ≤ (g.node n).handles
  overdrafts : g.overdrafts = f.overdrafts

namespace Alike

theorem refl (f : Forest) : Alike f f :=
  ⟨rfl, fun _ => rfl, fun _ => rfl, fun _ => Nat.le_refl _, rfl⟩

theorem trans (hfg : Alike f g) (hgh : Alike g h) : Alike f h where
  size := hgh.size.trans hfg.size
  alive n := (hgh.alive n).trans (hfg.alive n)
  shape n := (hgh.shape n).trans (hfg.shape n)
  handles n := Nat.le_trans (hfg.handles n) (hgh.handles n)
  overdrafts := hgh.overdrafts.trans hfg.overdrafts

variable (hfg : Alike f g) (n : NodeId)
include hfg

theorem opcode : (g.node n).opcode = (f.node n).opcode :=
  congrArg Shape.opcode (hfg.shape n)

theorem slots : (g.node n).slots = (f.node n).slots :=
  congrArg Shape.slots (hfg.shape n)

theorem link : (g.node n).link = (f.node n).link :=
  congrArg Shape.link (hfg.shape n)

theorem position : (g.node n).position = (f.node n).position :=
  congrArg Shape.position (hfg.shape n)

theorem slotRefs : (g.node n).slotRefs = (f.node n).slotRefs :=
  congrArg Shape.slotRefs (hfg.shape n)

theorem children : g.children n = f.children n := by
  rw [children_eq, children_eq, hfg.slots]

theorem parent? : g.parent? n = f.parent? n := by
  unfold Forest.parent?
  rw [hfg.link]
  congr 1
  exact funext hfg.alive

end Alike

/-- An update that keeps the shape and does not lower `handles` is `Alike`. -/
theorem alike_update (m : NodeId) {k : Node → Node}
    (hshape : ∀ x, (k x).shape = x.shape)
    (hhandles : ∀ x, x.handles ≤ (k x).handles) :
    Alike f (f.update m k) where
  size := size_update ..
  alive n := isAlive_update ..
  shape n := f.field_update hshape m n
  handles n := by
    rw [node_update]
    split
    · exact hhandles _
    · exact Nat.le_refl _
  overdrafts := overdrafts_update ..

theorem alike_emit (e : Event) : Alike f (f.emit e) :=
  ⟨rfl, fun _ => rfl, fun _ => rfl, fun _ => Nat.le_refl _, rfl⟩

theorem alike_hold (n : NodeId) : Alike f (f.hold n) :=
  alike_update n (fun _ => rfl) fun _ => Nat.le_succ _

theorem alike_beginTraversal (n : NodeId) : Alike f (f.beginTraversal n) :=
  alike_update n (fun _ => rfl) fun _ => Nat.le_refl _

theorem alike_setOperand (n : NodeId) (x : Operand) :
    Alike f (f.setOperand n x) :=
  alike_update n (fun _ => rfl) fun _ => Nat.le_refl _

theorem alike_endTraversal (checks : Checks) (n : NodeId) :
    Alike f (endTraversal checks n f).state := by
  unfold endTraversal
  split
  · exact .refl f
  · exact alike_update n (fun _ => rfl) fun _ => Nat.le_refl _

theorem alike_commit (n : NodeId) : Alike f (f.commit n) where
  size := size_commit ..
  alive _ := isAlive_commit ..
  shape m := f.field_commit (fun _ _ _ => rfl) n m
  handles m := Nat.le_of_eq
    (f.field_commit (F := Node.handles) (fun _ _ _ => rfl) n m).symm
  overdrafts := overdrafts_commit ..

-- ========================================================= well-formed

/-- Records fit their opcodes, slots hold live nodes, and links name
identities that were handed out. -/
structure WellFormed (f : Forest) : Prop where
  /-- Every slot of the layout is there, and no other. -/
  layout : ∀ n, (f.node n).slots.length = (f.node n).opcode.layout.length
  /-- An operand slot holds one node or none. -/
  arity : ∀ {n i s}, (f.node n).opcode.slot? i = some s →
    s.isCollection = false → (f.slot n i).length ≤ 1
  closed : f.Closed
  known : ∀ {n p}, (f.node n).link = some p → p.index < f.size

namespace WellFormed

theorem alike (hwf : f.WellFormed) (hfg : Alike f g) : g.WellFormed where
  layout n := by
    rw [hfg.slots, hfg.opcode]
    exact hwf.layout n
  arity {n i s} hs hone := by
    rw [hfg.opcode] at hs
    rw [slot_congr (hfg.slots n)]
    exact hwf.arity hs hone
  closed {p c} hc := by
    rw [hfg.children] at hc
    rw [hfg.alive]
    exact hwf.closed hc
  known {n p} hp := by
    rw [hfg.link] at hp
    rw [hfg.size]
    exact hwf.known hp

/-- An update that keeps opcode and slots, and links to known identities, keeps
a forest well-formed. -/
theorem update (hwf : f.WellFormed) (m : NodeId) {k : Node → Node}
    (hop : ∀ x, (k x).opcode = x.opcode) (hslots : ∀ x, (k x).slots = x.slots)
    (hlink : ∀ p, (k (f.node m)).link = some p → p.index < f.size) :
    (f.update m k).WellFormed where
  layout n := by
    rw [f.field_update hop, f.field_update hslots]
    exact hwf.layout n
  arity {n i s} hs hone := by
    rw [f.field_update hop] at hs
    rw [slot_congr (f.field_update hslots m n)]
    exact hwf.arity hs hone
  closed {p c} hc := by
    rw [children_eq, f.field_update hslots] at hc
    rw [isAlive_update]
    exact hwf.closed hc
  known {n p} hp := by
    rw [size_update]
    rw [node_update] at hp
    split at hp
    case isTrue hn =>
      rw [hn.1] at hp
      exact hlink p hp
    case isFalse => exact hwf.known hp

/-- `setSlot` of live nodes that fit into the slot keeps a forest well-formed.
-/
theorem setSlot (hwf : f.WellFormed) (m : NodeId) (i : Nat)
    {items : List NodeId} (hlive : ∀ c ∈ items, f.isAlive c = true)
    (hfit : ∀ s, (f.node m).opcode.slot? i = some s →
      s.isCollection = false → items.length ≤ 1) :
    (f.setSlot m i items).WellFormed := by
  have hop : ∀ n, ((f.setSlot m i items).node n).opcode = (f.node n).opcode :=
    f.field_setSlot (fun _ _ => rfl) m i items
  by_cases hm : f.isAlive m = true
  case neg =>
    have hsame : f.setSlot m i items = f := by
      have hnone := f.get?_of_not_alive (Bool.eq_false_iff.mpr hm)
      simp [Forest.setSlot, Forest.update, hnone]
    rw [hsame]
    exact hwf
  case pos =>
    refine ⟨fun n => ?_, fun {n j s} hs hone => ?_, fun {p c} hc => ?_,
      fun {n p} hp => ?_⟩
    · rw [hop]
      by_cases hn : n = m
      · rw [hn, slots_setSlot_self f i items hm, List.length_set]
        exact hwf.layout m
      · rw [slots_setSlot_ne f i items hn]
        exact hwf.layout n
    · rw [hop] at hs
      by_cases hn : n = m
      · subst hn
        by_cases hij : i = j
        · subst hij
          unfold slot Node.slot
          rw [slots_setSlot_self f i items hm, List.getElem?_set_self']
          cases hgot : (f.node n).slots[i]? with
          | none => simp
          | some _ => exact hfit s hs hone
        · unfold slot Node.slot
          rw [slots_setSlot_self f i items hm, List.getElem?_set_ne hij]
          exact hwf.arity hs hone
      · unfold slot Node.slot
        rw [slots_setSlot_ne f i items hn]
        exact hwf.arity hs hone
    · rw [isAlive_setSlot]
      rw [children_eq] at hc
      by_cases hp : p = m
      · rw [hp, slots_setSlot_self f i items hm] at hc
        obtain ⟨l, hl, hcl⟩ := List.mem_flatten.mp hc
        rcases List.mem_or_eq_of_mem_set hl with hl | rfl
        · exact hwf.closed (List.mem_flatten.mpr ⟨l, hl, hcl⟩)
        · exact hlive c hcl
      · rw [slots_setSlot_ne f i items hp] at hc
        exact hwf.closed hc
    · rw [link_setSlot] at hp
      rw [size_setSlot]
      exact hwf.known hp

theorem sheds (hwf : f.WellFormed) (hfg : Sheds f g) : g.WellFormed := by
  have hnode : ∀ n, g.node n = f.node n ∨ g.node n = default := by
    intro n
    by_cases hn : g.isAlive n = true
    · exact .inl (hfg.node_eq hn)
    · exact .inr (node_of_not_alive g (by simpa using hn))
  refine ⟨fun n => ?_, fun {n i s} hs hone => ?_,
    fun {p c} => hfg.closed hwf.closed, fun {n p} hp => ?_⟩
  · rcases hnode n with hn | hn <;> rw [hn]
    · exact hwf.layout n
    · rfl
  · unfold slot
    rcases hnode n with hn | hn <;> rw [hn] at hs ⊢
    · exact hwf.arity hs hone
    · cases hs
  · rw [hfg.size_eq]
    rcases hnode n with hn | hn <;> rw [hn] at hp
    · exact hwf.known hp
    · cases hp

/-- `alloc` of a fresh node keeps a forest well-formed. -/
theorem alloc (hwf : f.WellFormed) (op : Opcode) (x : Operand) :
    (f.alloc (Node.fresh op x)).2.WellFormed := by
  have hnode := node_alloc f (Node.fresh op x)
  refine ⟨fun n => ?_, fun {n i s} hs hone => ?_, fun {p c} hc => ?_,
    fun {n p} hp => ?_⟩
  · rw [hnode]
    split
    · exact Node.length_slots_fresh
    · exact hwf.layout n
  · rw [hnode] at hs
    unfold slot
    rw [hnode]
    split
    · have hempty : (Node.fresh op x).slot i = [] := by
        unfold Node.slot Node.fresh
        simp only [List.getElem?_map]
        cases op.layout[i]? <;> rfl
      rw [hempty]
      exact Nat.zero_le _
    case isFalse hn =>
      rw [if_neg hn] at hs
      exact hwf.arity hs hone
  · rw [isAlive_alloc]
    split
    · rfl
    case isFalse =>
      rw [children, hnode] at hc
      split at hc
      · rw [Node.children_fresh] at hc
        cases hc
      · exact hwf.closed hc
  · rw [size_alloc]
    rw [hnode] at hp
    split at hp
    · cases hp
    · exact Nat.lt_succ_of_lt (hwf.known hp)

end WellFormed

/-- The forest without any node is well-formed. -/
theorem wellFormed_empty : WellFormed ∅ where
  layout _ := by
    rw [node_of_not_alive _ (by simp [isAlive])]
    rfl
  arity {n i s} hs _ := by
    rw [node_of_not_alive _ (by simp [isAlive])] at hs
    cases hs
  closed {p c} hc := by
    rw [children_of_not_alive _ (by simp [isAlive])] at hc
    cases hc
  known {n p} hp := by
    rw [node_of_not_alive _ (by simp [isAlive])] at hp
    cases hp

-- ========================================================= references

/-- Each of the nodes has a handle. -/
def Referenced (f : Forest) (ns : List NodeId) : Prop :=
  ∀ n ∈ ns, 0 < (f.node n).handles

/-- A node with a handle is alive. -/
theorem alive_of_handles {n : NodeId} (hn : 0 < (f.node n).handles) :
    f.isAlive n = true := by
  cases halive : f.isAlive n with
  | true => rfl
  | false =>
      rw [node_of_not_alive f halive] at hn
      exact absurd hn (Nat.lt_irrefl 0)

-- ====================================================== dropping links

/-- A parent after `Sheds` was the parent before. -/
theorem Sheds.parent?_eq_some (hfg : Sheds f g) {m p : NodeId}
    (hp : g.parent? m = some p) : f.parent? m = some p := by
  have hlink := parent?_eq_some_iff.mp hp
  have hm : g.isAlive m = true := by
    cases halive : g.isAlive m with
    | true => rfl
    | false =>
        rw [node_of_not_alive g halive] at hlink
        cases hlink.1
  rw [hfg.node_eq hm] at hlink
  exact parent?_eq_some_iff.mpr ⟨hlink.1, hfg.survivor hlink.2⟩

/-- A parent after `detach` was the parent before. -/
theorem parent?_eq_some_of_detach {o c m p : NodeId}
    (hp : (f.detach o c).parent? m = some p) : f.parent? m = some p := by
  rw [parent?_eq_some_iff, isAlive_detach] at hp
  exact parent?_eq_some_iff.mpr ⟨f.link_of_detach hp.1, hp.2⟩

-- ============================================================== sound

/-- The forest is well-formed, a node is kept by a handle for every time
it is on the list of locks, and with checks on every way up ends. -/
structure Sound (checks : Checks) (locks : List NodeId) (f : Forest) : Prop
    extends WellFormed f where
  kept : ∀ n, locks.count n ≤ (f.node n).handles
  rooted : checks.enforced = true → ∀ n, f.Rooted n

namespace Sound

variable {checks : Checks} {locks : List NodeId}

/-- A locked node is alive. -/
theorem alive (hs : f.Sound checks locks) {n : NodeId} (hn : n ∈ locks) :
    f.isAlive n = true := by
  have hcount := List.count_pos_iff.mpr hn
  exact alive_of_handles (Nat.lt_of_lt_of_le hcount (hs.kept n))

/-- `Sound` with fewer locks follows from `Sound` with more. -/
theorem mono (hs : f.Sound checks locks) {fewer : List NodeId}
    (hfewer : ∀ n, fewer.count n ≤ locks.count n) : f.Sound checks fewer :=
  { hs with kept := fun n => Nat.le_trans (hfewer n) (hs.kept n) }

theorem alike (hs : f.Sound checks locks) (hfg : Alike f g) :
    g.Sound checks locks where
  toWellFormed := hs.toWellFormed.alike hfg
  kept n := Nat.le_trans (hs.kept n) (hfg.handles n)
  rooted hchecks n := (hs.rooted hchecks n).mono fun m p hp => by
    rwa [hfg.parent?] at hp

theorem hold (hs : f.Sound checks locks) {n : NodeId}
    (hn : f.isAlive n = true) : (f.hold n).Sound checks (n :: locks) := by
  have halike := hs.alike (alike_hold n)
  refine { halike with kept := fun m => ?_ }
  have hkept := hs.kept m
  by_cases hm : m = n
  · subst hm
    rw [List.count_cons_self, Forest.hold, node_update_self f hn]
    exact Nat.succ_le_succ hkept
  · rw [List.count_cons_of_ne (Ne.symm hm), Forest.hold, node_update_ne f hm]
    exact hkept

theorem sheds (hs : f.Sound checks locks) (hfg : Sheds f g) :
    g.Sound checks locks where
  toWellFormed := hs.toWellFormed.sheds hfg
  kept n := by
    by_cases hn : n ∈ locks
    · have hkept := hs.kept n
      have hheld : 0 < (f.node n).handles :=
        Nat.lt_of_lt_of_le (List.count_pos_iff.mpr hn) hkept
      rw [hfg.node_eq (hfg.of_handle hheld (hs.alive hn))]
      exact hkept
    · rw [List.count_eq_zero.mpr hn]
      exact Nat.zero_le _
  rooted hchecks n := (hs.rooted hchecks n).mono fun _ _ =>
    hfg.parent?_eq_some

theorem release (hs : f.Sound checks locks) {n : NodeId}
    (hn : locks.count n < (f.node n).handles) :
    (f.release n).Sound checks locks := by
  refine Sound.sheds (f := f.update n _) ?_ (sheds_reap _ n)
  have hwf := hs.toWellFormed.update n
    (k := fun x => { x with handles := x.handles - 1 }) (fun _ => rfl)
    (fun _ => rfl) fun p hp => hs.known hp
  refine ⟨hwf, fun m => ?_, fun hchecks m => (hs.rooted hchecks m).mono ?_⟩
  · by_cases hm : m = n ∧ f.isAlive m = true
    · rw [node_update, if_pos hm, hm.1]
      exact Nat.le_sub_one_of_lt hn
    · rw [node_update, if_neg hm]
      exact hs.kept m
  · intro m p hp
    have hlink : ((f.update n fun x =>
        { x with handles := x.handles - 1 }).node m).link = (f.node m).link :=
      f.field_update (F := Node.link) (by intro _; rfl) n m
    rw [parent?_eq_some_iff, isAlive_update, hlink] at hp
    exact parent?_eq_some_iff.mpr hp

/-- `release` takes one lock of the node off. -/
theorem unlock {n : NodeId} (hs : f.Sound checks (n :: locks)) :
    (f.release n).Sound checks locks := by
  refine Sound.release (hs.mono fun m => ?_) ?_
  · exact List.count_le_count_cons
  · have hkept := hs.kept n
    rw [List.count_cons_self] at hkept
    exact hkept

theorem setPosition (hs : f.Sound checks locks) (n : NodeId) (k : Nat) :
    (f.setPosition n k).Sound checks locks where
  toWellFormed := hs.toWellFormed.update n (fun _ => rfl) (fun _ => rfl)
    fun p hp => hs.known hp
  kept m := by
    rw [f.field_setPosition (F := Node.handles) (fun _ _ => rfl)]
    exact hs.kept m
  rooted hchecks m := (hs.rooted hchecks m).mono fun m p hp => by
    rw [parent?_eq_some_iff, isAlive_setPosition, link_setPosition] at hp
    exact parent?_eq_some_iff.mpr hp

theorem setSlot (hs : f.Sound checks locks) (m : NodeId) (i : Nat)
    {items : List NodeId} (hlive : ∀ c ∈ items, f.isAlive c = true)
    (hfit : ∀ s, (f.node m).opcode.slot? i = some s →
      s.isCollection = false → items.length ≤ 1) :
    (f.setSlot m i items).Sound checks locks where
  toWellFormed := hs.toWellFormed.setSlot m i hlive hfit
  kept n := by
    rw [f.field_setSlot (F := Node.handles) (fun _ _ => rfl)]
    exact hs.kept n
  rooted hchecks n := (hs.rooted hchecks n).mono fun n p hp => by
    rw [parent?_eq_some_iff, isAlive_setSlot, link_setSlot] at hp
    exact parent?_eq_some_iff.mpr hp

/-- `enter` keeps a forest sound where `breaksTree` finds nobody. -/
theorem enter (hs : f.Sound checks locks) {o c : NodeId}
    (ho : f.isAlive o = true) (hbelow : f.breaksTree checks o c = false) :
    (f.enter o c).Sound checks locks where
  toWellFormed := hs.toWellFormed.update c (fun _ => rfl) (fun _ => rfl)
    fun p hp => Option.some.inj hp ▸ f.index_lt_of_alive ho
  kept n := by
    rw [f.field_enter (F := Node.handles) (fun _ _ _ => rfl)]
    exact hs.kept n
  rooted hchecks := by
    rw [breaksTree, hchecks, Bool.true_and] at hbelow
    exact rooted_enter (hs.rooted hchecks) hbelow

theorem detach (hs : f.Sound checks locks) (o c : NodeId) :
    (f.detach o c).Sound checks locks where
  layout n := by
    rw [slots_detach, f.field_detach (F := Node.opcode) (fun _ _ _ => rfl)]
    exact hs.layout n
  arity {n i s} hslot hone := by
    rw [f.field_detach (F := Node.opcode) (fun _ _ _ => rfl)] at hslot
    rw [slot_congr (f.slots_detach o c n)]
    exact hs.arity hslot hone
  closed {p m} hm := by
    rw [children_eq, slots_detach] at hm
    rw [isAlive_detach]
    exact hs.closed hm
  known hlink := by
    rw [size_detach]
    exact hs.known (f.link_of_detach hlink)
  kept n := by
    rw [f.field_detach (F := Node.handles) (fun _ _ _ => rfl)]
    exact hs.kept n
  rooted hchecks m :=
    (hs.rooted hchecks m).mono fun _ _ => parent?_eq_some_of_detach

theorem alloc (hs : f.Sound checks locks) (op : Opcode) (x : Operand) :
    (f.alloc (Node.fresh op x)).2.Sound checks locks := by
  have hnode := node_alloc f (Node.fresh op x)
  have hborn : (f.alloc (Node.fresh op x)).1 ∉ locks := fun hmem => by
    have hdead := f.not_alive_alloc (Node.fresh op x)
    rw [hs.alive hmem] at hdead
    cases hdead
  refine ⟨hs.toWellFormed.alloc op x, fun n => ?_, fun hchecks n =>
    (hs.rooted hchecks n).mono fun m p hp => ?_⟩
  · rw [hnode]
    split
    case isTrue hn =>
      rw [hn, List.count_eq_zero.mpr hborn]
      exact Nat.zero_le _
    case isFalse => exact hs.kept n
  · -- the new node has no link, and nobody linked to it before
    obtain ⟨hlink, halive⟩ := parent?_eq_some_iff.mp hp
    rw [hnode] at hlink
    split at hlink
    · cases hlink
    · refine parent?_eq_some_iff.mpr ⟨hlink, ?_⟩
      rw [isAlive_alloc] at halive
      split at halive
      case isTrue hp =>
        have hknown := hs.known hlink
        rw [hp] at hknown
        exact absurd hknown (Nat.lt_irrefl _)
      case isFalse => exact halive

end Sound

/-- In a forest without locks, nodes that are `Referenced` may count as locked.
-/
theorem Sound.lock {checks : Checks} {ns : List NodeId}
    (hs : f.Sound checks [])
    (hns : f.Referenced ns) : f.Sound checks ns.dedup :=
  { hs with
    kept := fun n => by
      by_cases hn : n ∈ ns
      · rw [List.count_eq_one_of_mem ns.nodup_dedup
          (List.mem_dedup.mpr hn)]
        exact hns n hn
      · rw [List.count_eq_zero_of_not_mem (mt List.mem_dedup.mp hn)]
        exact Nat.zero_le _ }

theorem sound_empty (checks : Checks) : Sound checks [] ∅ where
  toWellFormed := wellFormed_empty
  kept _ := Nat.zero_le _
  rooted _ n := by
    refine ⟨[], .root ?_⟩
    rw [parent?, node_of_not_alive _ (by simp [isAlive])]
    rfl

end Forest

end InstructionTree
