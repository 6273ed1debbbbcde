/-
What each small edit of a forest does to the record of a node, field by
field.

Every edit but freeing and creating is an `update` of one node, and it
touches one or two fields. The lemmas here say which fields it leaves
alone (`field_update` is all of them in one statement) and what it writes
to the others. After this file nobody opens an edit to see what it does
not do.

A freed node reads as the untouched no-op, so most equations hold of
freed nodes too, and carry no condition.
-/
import InstructionTree.Collection.Filter
import InstructionTree.Forest.Subtree

namespace InstructionTree.Forest

variable (f : Forest)

-- ==================================================== updates in general

/-- A view that an update of a record does not change sees the same
records after it. -/
theorem field_update {α : Type _} {F : Node → α} {g : Node → Node}
    (hF : ∀ x, F (g x) = F x) (m n : NodeId) :
    F ((f.update m g).node n) = F (f.node n) := by
  rw [node_update]
  split
  · exact hF _
  · rfl

/-- An update reports nothing. -/
@[simp] theorem events_update (m : NodeId) (k : Node → Node) :
    (f.update m k).events = f.events := by
  unfold update
  split <;> rfl

/-- An update is no overdraft. -/
@[simp] theorem overdrafts_update (m : NodeId) (k : Node → Node) :
    (f.update m k).overdrafts = f.overdrafts := by
  unfold update
  split <;> rfl

/-- An update is read back at the live node it is about. -/
theorem node_update_self {g : Node → Node} {n : NodeId}
    (halive : f.isAlive n = true) :
    (f.update n g).node n = g (f.node n) := by
  rw [node_update, if_pos ⟨rfl, halive⟩]

/-- An update is not seen at other nodes. -/
theorem node_update_ne {g : Node → Node} {m n : NodeId} (hne : n ≠ m) :
    (f.update m g).node n = f.node n := by
  rw [node_update, if_neg fun h => hne h.1]

theorem get?_of_not_alive {n : NodeId} (hdead : f.isAlive n = false) :
    f.get? n = none := by
  simpa [isAlive] using hdead

/-- A freed node reads as the untouched no-op. -/
theorem node_of_not_alive {n : NodeId} (hdead : f.isAlive n = false) :
    f.node n = default := by
  simp [node, f.get?_of_not_alive hdead]

/-- A live node is what it reads as. -/
theorem get?_of_alive {n : NodeId} (halive : f.isAlive n = true) :
    f.get? n = some (f.node n) := by
  obtain ⟨x, hx⟩ := isAlive_iff.mp halive
  rw [node_of_get? hx, hx]

/-- A live node has one of the identities handed out. -/
theorem index_lt_of_alive {n : NodeId} (halive : f.isAlive n = true) :
    n.index < f.size :=
  index_lt_size (f.get?_of_alive halive)

/-- A node of a forest without any cell at its index is not alive. -/
theorem not_alive_of_size_le {n : NodeId} (hle : f.size ≤ n.index) :
    f.isAlive n = false := by
  cases h : f.isAlive n with
  | false => rfl
  | true => exact absurd (f.index_lt_of_alive h) (by omega)

/-- The children of a node are its slots, one after the other. -/
theorem children_eq (n : NodeId) : f.children n = (f.node n).slots.flatten :=
  rfl

/-- A slot reads as the list that is stored for it. -/
theorem slot_of_getElem? {n : NodeId} {i : Nat} {items : List NodeId}
    (hitems : (f.node n).slots[i]? = some items) : f.slot n i = items := by
  rw [slot, Node.slot, hitems]
  rfl

/-- A freed node has no children. -/
theorem children_of_not_alive {n : NodeId} (hdead : f.isAlive n = false) :
    f.children n = [] := by
  rw [children_eq, node_of_not_alive f hdead]
  rfl

/-- Who has a child is alive. -/
theorem alive_of_mem_children {n c : NodeId} (hc : c ∈ f.children n) :
    f.isAlive n = true := by
  cases h : f.isAlive n with
  | true => rfl
  | false =>
      rw [children_of_not_alive f h] at hc
      cases hc

/-- Equal slots hold the same, one by one. -/
theorem slot_congr {f g : Forest} {n : NodeId}
    (hslots : (g.node n).slots = (f.node n).slots) (i : Nat) :
    g.slot n i = f.slot n i := by
  unfold slot Node.slot
  rw [hslots]

/-- What a slot holds is among the children. -/
theorem slot_sublist_children (n : NodeId) (i : Nat) :
    (f.slot n i).Sublist (f.children n) := by
  unfold slot Node.slot
  cases hslot : (f.node n).slots[i]? with
  | none => exact List.nil_sublist _
  | some items =>
      exact List.sublist_flatten_of_mem (List.mem_of_getElem? hslot)

theorem mem_children_of_mem_slot {n c : NodeId} {i : Nat}
    (hc : c ∈ f.slot n i) : c ∈ f.children n :=
  (f.slot_sublist_children n i).mem hc

-- ============================================================== freeing

theorem isAlive_erase (m n : NodeId) :
    (f.erase m).isAlive n = if n = m then false else f.isAlive n := by
  unfold isAlive
  rw [get?_erase]
  split <;> rfl

/-- Freeing a node changes no other. -/
theorem node_erase_ne {m n : NodeId} (hne : n ≠ m) :
    (f.erase m).node n = f.node n := by
  unfold node
  rw [get?_erase, if_neg hne]

-- ============================================================= creating

theorem isAlive_alloc (x : Node) (n : NodeId) :
    (f.alloc x).2.isAlive n
      = if n = (f.alloc x).1 then true else f.isAlive n := by
  unfold isAlive
  rw [get?_alloc]
  split <;> rfl

theorem isAlive_alloc_self (x : Node) :
    (f.alloc x).2.isAlive (f.alloc x).1 = true := by
  rw [isAlive_alloc, if_pos rfl]

/-- A created node reads as it was stored, and no other node changes. -/
theorem node_alloc (x : Node) (n : NodeId) :
    (f.alloc x).2.node n = if n = (f.alloc x).1 then x else f.node n := by
  unfold node
  rw [get?_alloc]
  split <;> rfl

theorem size_alloc (x : Node) : (f.alloc x).2.size = f.size + 1 := by
  simp [alloc, size]

/-- The identity of a created node was never used. -/
theorem not_alive_alloc (x : Node) : f.isAlive (f.alloc x).1 = false :=
  f.not_alive_of_size_le (Nat.le_refl _)

-- ============================================================ who lives

@[simp] theorem isAlive_setPosition (m : NodeId) (k : Nat) (n : NodeId) :
    (f.setPosition m k).isAlive n = f.isAlive n :=
  isAlive_update ..

@[simp] theorem isAlive_setSlot (m : NodeId) (i : Nat) (items : List NodeId)
    (n : NodeId) : (f.setSlot m i items).isAlive n = f.isAlive n :=
  isAlive_update ..

@[simp] theorem isAlive_enter (o c n : NodeId) :
    (f.enter o c).isAlive n = f.isAlive n :=
  isAlive_update ..

@[simp] theorem isAlive_detach (o c n : NodeId) :
    (f.detach o c).isAlive n = f.isAlive n :=
  isAlive_update ..

@[simp] theorem isAlive_hold (m n : NodeId) :
    (f.hold m).isAlive n = f.isAlive n :=
  isAlive_update ..

@[simp] theorem size_setPosition (m : NodeId) (k : Nat) :
    (f.setPosition m k).size = f.size :=
  size_update ..

@[simp] theorem size_setSlot (m : NodeId) (i : Nat) (items : List NodeId) :
    (f.setSlot m i items).size = f.size :=
  size_update ..

@[simp] theorem size_enter (o c : NodeId) : (f.enter o c).size = f.size :=
  size_update ..

@[simp] theorem size_detach (o c : NodeId) : (f.detach o c).size = f.size :=
  size_update ..

-- ============================================================ positions

/-- Caching a place shows only to a view that looks at positions. -/
theorem field_setPosition {α : Type _} {F : Node → α}
    (hF : ∀ x k, F { x with position := k } = F x) (m : NodeId) (k : Nat)
    (n : NodeId) : F ((f.setPosition m k).node n) = F (f.node n) :=
  f.field_update (fun x => hF x k) m n

@[simp] theorem slots_setPosition (m : NodeId) (k : Nat) (n : NodeId) :
    ((f.setPosition m k).node n).slots = (f.node n).slots :=
  f.field_setPosition (fun _ _ => rfl) m k n

@[simp] theorem link_setPosition (m : NodeId) (k : Nat) (n : NodeId) :
    ((f.setPosition m k).node n).link = (f.node n).link :=
  f.field_setPosition (fun _ _ => rfl) m k n

@[simp] theorem slotRefs_setPosition (m : NodeId) (k : Nat) (n : NodeId) :
    ((f.setPosition m k).node n).slotRefs = (f.node n).slotRefs :=
  f.field_setPosition (fun _ _ => rfl) m k n

theorem position_setPosition_self {m : NodeId} (k : Nat)
    (halive : f.isAlive m = true) :
    ((f.setPosition m k).node m).position = k := by
  unfold setPosition
  rw [node_update_self f halive]

theorem position_setPosition_ne {m n : NodeId} (k : Nat) (hne : n ≠ m) :
    ((f.setPosition m k).node n).position = (f.node n).position := by
  unfold setPosition
  rw [node_update_ne f hne]

-- ================================================================ slots

/-- Storing shows only to a view that looks at slots. -/
theorem field_setSlot {α : Type _} {F : Node → α}
    (hF : ∀ x l, F { x with slots := l } = F x) (m : NodeId) (i : Nat)
    (items : List NodeId) (n : NodeId) :
    F ((f.setSlot m i items).node n) = F (f.node n) :=
  f.field_update (fun x => hF x _) m n

@[simp] theorem link_setSlot (m : NodeId) (i : Nat) (items : List NodeId)
    (n : NodeId) :
    ((f.setSlot m i items).node n).link = (f.node n).link :=
  f.field_setSlot (fun _ _ => rfl) m i items n

@[simp] theorem slotRefs_setSlot (m : NodeId) (i : Nat) (items : List NodeId)
    (n : NodeId) :
    ((f.setSlot m i items).node n).slotRefs = (f.node n).slotRefs :=
  f.field_setSlot (fun _ _ => rfl) m i items n

@[simp] theorem position_setSlot (m : NodeId) (i : Nat) (items : List NodeId)
    (n : NodeId) :
    ((f.setSlot m i items).node n).position = (f.node n).position :=
  f.field_setSlot (fun _ _ => rfl) m i items n

theorem slots_setSlot_self {m : NodeId} (i : Nat) (items : List NodeId)
    (halive : f.isAlive m = true) :
    ((f.setSlot m i items).node m).slots = (f.node m).slots.set i items := by
  unfold setSlot
  rw [node_update_self f halive]
  rfl

theorem slots_setSlot_ne {m n : NodeId} (i : Nat) (items : List NodeId)
    (hne : n ≠ m) :
    ((f.setSlot m i items).node n).slots = (f.node n).slots := by
  unfold setSlot
  rw [node_update_ne f hne]

/-- Storing in one slot is not seen in another one. -/
theorem slot_setSlot_ne (m : NodeId) {i j : Nat} (items : List NodeId)
    (hne : j ≠ i) (n : NodeId) :
    (f.setSlot m i items).slot n j = f.slot n j := by
  unfold slot
  rw [setSlot, node_update]
  split
  · exact Node.slot_setSlot_other (Ne.symm hne)
  · rfl

-- ================================================= entering and leaving

/-- Entering shows only to a view that looks at links or counts. -/
theorem field_enter {α : Type _} {F : Node → α}
    (hF : ∀ x l r, F { x with link := l, slotRefs := r } = F x)
    (o c n : NodeId) : F ((f.enter o c).node n) = F (f.node n) :=
  f.field_update (fun x => hF x _ _) c n

/-- Leaving shows only to a view that looks at links or counts. -/
theorem field_detach {α : Type _} {F : Node → α}
    (hF : ∀ x l r, F { x with link := l, slotRefs := r } = F x)
    (o c n : NodeId) : F ((f.detach o c).node n) = F (f.node n) :=
  f.field_update (fun x => hF x _ _) c n

@[simp] theorem slots_enter (o c n : NodeId) :
    ((f.enter o c).node n).slots = (f.node n).slots :=
  f.field_enter (fun _ _ _ => rfl) o c n

@[simp] theorem position_enter (o c n : NodeId) :
    ((f.enter o c).node n).position = (f.node n).position :=
  f.field_enter (fun _ _ _ => rfl) o c n

@[simp] theorem slots_detach (o c n : NodeId) :
    ((f.detach o c).node n).slots = (f.node n).slots :=
  f.field_detach (fun _ _ _ => rfl) o c n

@[simp] theorem position_detach (o c n : NodeId) :
    ((f.detach o c).node n).position = (f.node n).position :=
  f.field_detach (fun _ _ _ => rfl) o c n

theorem node_detach_self {o c : NodeId} (hc : f.isAlive c = true) :
    (f.detach o c).node c = { f.node c with
      slotRefs := (f.node c).slotRefs - 1
      link := if (f.node c).slotRefs - 1 = 0 ∧ (f.node c).link = some o
        then none else (f.node c).link } :=
  node_update_self f hc

theorem node_detach_ne {o c n : NodeId} (hne : n ≠ c) :
    (f.detach o c).node n = f.node n :=
  node_update_ne f hne

/-- Entering links nothing but to the owner. -/
theorem link_of_enter {o c n p : NodeId}
    (hlink : ((f.enter o c).node n).link = some p) :
    p = o ∨ (f.node n).link = some p := by
  rw [enter, node_update] at hlink
  split at hlink
  · exact .inl (Option.some.inj hlink).symm
  · exact .inr hlink

/-- Leaving links nothing. -/
theorem link_of_detach {o c n p : NodeId}
    (hlink : ((f.detach o c).node n).link = some p) :
    (f.node n).link = some p := by
  have hnode : (f.detach o c).node n = _ := f.node_update c n _
  rw [hnode] at hlink
  split at hlink
  · dsimp only at hlink
    split at hlink
    · cases hlink
    · exact hlink
  · exact hlink

/-- The counter of a node that enters grows by one. -/
theorem slotRefs_enter (o : NodeId) {c : NodeId}
    (hc : f.isAlive c = true) (n : NodeId) :
    ((f.enter o c).node n).slotRefs
      = (f.node n).slotRefs + [c].count n := by
  by_cases hnc : n = c
  · subst hnc
    rw [enter, node_update_self f hc, List.count_singleton_self]
  · rw [enter, node_update_ne f hnc, List.count_singleton,
      beq_false_of_ne (Ne.symm hnc)]
    rfl

/-- The counter of a node that leaves drops by one, if it can. -/
theorem slotRefs_detach (o : NodeId) {c : NodeId}
    (hc : f.isAlive c = true) (n : NodeId) :
    ((f.detach o c).node n).slotRefs
      = (f.node n).slotRefs - [c].count n := by
  by_cases hnc : n = c
  · subst hnc
    rw [node_detach_self f hc, List.count_singleton_self]
  · rw [node_detach_ne f hnc, List.count_singleton,
      beq_false_of_ne (Ne.symm hnc)]
    rfl

/-- A detach is an overdraft exactly if the node counts no slot. -/
theorem overdrafts_detach (o c : NodeId) :
    (f.detach o c).overdrafts = f.overdrafts ↔ 0 < (f.node c).slotRefs := by
  unfold detach
  dsimp only
  split <;> omega

-- ============================================================== commits

/-- A commit shows only to a view that looks at versions or caches. -/
theorem field_commit {α : Type _} {F : Node → α}
    (hF : ∀ x v c, F { x with version := v, cached := c } = F x)
    (m n : NodeId) : F ((f.commit m).node n) = F (f.node n) := by
  have hview := map_get?_commit F hF f m n
  unfold node
  cases hg : f.get? n <;> cases hc : (f.commit m).get? n <;>
    simp_all

@[simp] theorem slots_commit (m n : NodeId) :
    ((f.commit m).node n).slots = (f.node n).slots :=
  f.field_commit (fun _ _ _ => rfl) m n

/-- `dropCachesFrom` keeps every view of the forest that `update` keeps. -/
theorem view_dropCachesFrom {α : Type _} {F : Forest → α}
    (hF : ∀ f m k, F (update f m k) = F f) :
    ∀ (steps : Nat) (next : Option NodeId) (f : Forest),
      F (dropCachesFrom steps next f) = F f
  | 0, _, _ => rfl
  | _ + 1, none, _ => rfl
  | steps + 1, some n, f => by
      unfold dropCachesFrom
      split
      · rfl
      · rw [view_dropCachesFrom hF steps]
        exact hF ..

@[simp] theorem size_dropCachesFrom (steps : Nat) (next : Option NodeId)
    (f : Forest) : (dropCachesFrom steps next f).size = f.size :=
  view_dropCachesFrom size_update steps next f

@[simp] theorem size_commit (m : NodeId) : (f.commit m).size = f.size := by
  have hcount : (f.countBatch m).size = f.size := size_update ..
  show (dropCachesFrom _ _ ((f.countBatch m).dropCache m)).size = f.size
  rw [size_dropCachesFrom, dropCache, size_update, hcount]

/-- A commit is no overdraft. -/
@[simp] theorem overdrafts_commit (n : NodeId) :
    (f.commit n).overdrafts = f.overdrafts := by
  show (dropCachesFrom _ _ ((f.countBatch n).dropCache n)).overdrafts = _
  rw [view_dropCachesFrom overdrafts_update, dropCache, overdrafts_update,
    countBatch, overdrafts_update]

/-- A commit reports itself. -/
theorem events_commit {n : NodeId} (hn : f.isAlive n = true) :
    (f.commit n).events = f.events.push
      (.committed (f.node n).opcode ((f.node n).version + 1)) := by
  show (dropCachesFrom _ _ ((f.countBatch n).dropCache n)).events.push _ = _
  rw [view_dropCachesFrom events_update, dropCache, events_update,
    countBatch, events_update, node_update_self f hn]

/-- Ending a traversal reports nothing. -/
theorem events_endTraversal (checks : Checks) (n : NodeId) :
    (endTraversal checks n f).state.events = f.events := by
  unfold endTraversal
  split
  · rfl
  · exact f.events_update ..

end InstructionTree.Forest

namespace InstructionTree.Collection

variable (c : Collection)

-- ========================================================== renumbering

/-- Renumbering shows only to a view that looks at positions. -/
theorem field_renumber {α : Type _} {F : Node → α}
    (hF : ∀ x k, F { x with position := k } = F x) (f : Forest)
    (old new : Nat) (m n : NodeId) :
    F ((c.renumber f old new m).node n) = F (f.node n) := by
  unfold renumber
  split
  · exact f.field_setPosition hF m _ n
  · rfl

theorem field_renumberFrom {α : Type _} {F : Node → α}
    (hF : ∀ x k, F { x with position := k } = F x) (old : Nat → Nat)
    (n : NodeId) :
    ∀ (i : Nat) (ns : List NodeId) (f : Forest),
      F ((c.renumberFrom old i ns f).node n) = F (f.node n)
  | _, [], _ => rfl
  | i, m :: rest, f => by
      rw [renumberFrom, field_renumberFrom hF old n (i + 1) rest,
        c.field_renumber hF]

@[simp] theorem isAlive_renumber (f : Forest) (old new : Nat)
    (m n : NodeId) : (c.renumber f old new m).isAlive n = f.isAlive n := by
  unfold renumber
  split
  · exact f.isAlive_setPosition ..
  · rfl

@[simp] theorem isAlive_renumberFrom (old : Nat → Nat) (n : NodeId) :
    ∀ (i : Nat) (ns : List NodeId) (f : Forest),
      (c.renumberFrom old i ns f).isAlive n = f.isAlive n
  | _, [], _ => rfl
  | i, m :: rest, f => by
      rw [renumberFrom, isAlive_renumberFrom old n (i + 1) rest,
        isAlive_renumber]

@[simp] theorem link_renumberFrom (old : Nat → Nat) (i : Nat)
    (ns : List NodeId) (f : Forest) (n : NodeId) :
    ((c.renumberFrom old i ns f).node n).link = (f.node n).link :=
  c.field_renumberFrom (fun _ _ => rfl) old n i ns f

end InstructionTree.Collection
