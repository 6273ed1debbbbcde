/-
What building a node does to every record.

`build` fills the slots of a new node in order: an operand slot takes one
child, a collection takes all that are left. `dealt` is what each slot gets,
and `surplus` what no slot takes; together they are the children, in order
(`flatten_dealt`).

# A row of children

Nobody knows a new node, and it has no parent. So no attach can break the
tree, no commit climbs, and what is done to its children is the same in
operand slots and in collections: they are put in a row (`Lined`). Each
child has its place at its last index in the row then, and counts one slot
more for each time that it occurs. No other record changes. Rows are joined
(`Lined.trans`), so the row of a whole node is that of its slots.
-/
import InstructionTree.Proofs.Collection.Places
import InstructionTree.Proofs.Forest.Commits
import InstructionTree.Proofs.Forest.Faults
import InstructionTree.Proofs.Forest.Steps

namespace InstructionTree

variable {checks : Checks} {n m : NodeId} {ns ms : List NodeId}
  {i j k s : Nat} {slots : List Slot} {op : Opcode}

-- ================================================================ dealing

/-- What each slot takes of `ns`, if the slots are filled in order. -/
def dealt : List Slot → List NodeId → List (List NodeId)
  | [], _ => []
  | slot :: rest, ns =>
      if slot.isCollection then ns :: dealt rest []
      else ns.take 1 :: dealt rest (ns.drop 1)

/-- The nodes of `ns` that are left over when all slots are filled. -/
def surplus : List Slot → List NodeId → List NodeId
  | [], ns => ns
  | slot :: rest, ns =>
      if slot.isCollection then surplus rest [] else surplus rest (ns.drop 1)

theorem dealt_nil (slots : List Slot) :
    dealt slots [] = slots.map fun _ => [] := by
  induction slots with
  | nil => rfl
  | cons slot rest ih => simp [dealt, ih]

theorem surplus_nil (slots : List Slot) : surplus slots [] = [] := by
  induction slots with
  | nil => rfl
  | cons slot rest ih => simp [surplus, ih]

theorem length_dealt (slots : List Slot) (ns : List NodeId) :
    (dealt slots ns).length = slots.length := by
  induction slots generalizing ns with
  | nil => rfl
  | cons slot rest ih =>
      unfold dealt
      split <;> rw [List.length_cons, List.length_cons, ih]

/-- `dealt` and `surplus` together are `ns`, in order. -/
theorem flatten_dealt (slots : List Slot) (ns : List NodeId) :
    (dealt slots ns).flatten ++ surplus slots ns = ns := by
  induction slots generalizing ns with
  | nil => rfl
  | cons slot rest ih =>
      unfold dealt surplus
      split
      · rw [List.flatten_cons, List.append_assoc, ih, List.append_nil]
      · rw [List.flatten_cons, List.append_assoc, ih, List.take_append_drop]

/-- Where one of the slots is a collection, nothing is left over. -/
theorem surplus_of_collection
    (hmany : ∃ slot ∈ slots, slot.isCollection = true) :
    surplus slots ns = [] := by
  induction slots generalizing ns with
  | nil => obtain ⟨_, hmem, -⟩ := hmany; cases hmem
  | cons slot rest ih =>
      unfold surplus
      split
      case isTrue => exact surplus_nil rest
      case isFalse hone =>
        obtain ⟨other, hmem, hother⟩ := hmany
        rcases List.mem_cons.mp hmem with rfl | hrest
        · exact absurd hother hone
        · exact ih ⟨other, hrest, hother⟩

/-- Where all slots take one node, what is left over are the nodes behind as
many as there are slots. -/
theorem surplus_of_operands
    (hone : ∀ slot ∈ slots, slot.isCollection = false) :
    surplus slots ns = ns.drop slots.length := by
  induction slots generalizing ns with
  | nil => rfl
  | cons slot rest ih =>
      rw [surplus, if_neg (by simp [hone slot (.head _)]),
        ih fun other hother => hone other (.tail _ hother), List.drop_drop,
        List.length_cons, Nat.add_comm]

theorem Opcode.isCollection_of_maxChildren? {max : Nat}
    (hmax : op.maxChildren? = some max) :
    max = op.layout.length
      ∧ ∀ slot ∈ op.layout, slot.isCollection = false := by
  unfold maxChildren? at hmax
  split at hmax
  · cases hmax
  case isFalse hnone =>
    cases hmax
    simpa [List.any_eq_true] using hnone

/-- What is left over of a layout with a limit are the nodes behind
`maxChildren?`. -/
theorem surplus_of_maxChildren? {max : Nat}
    (hmax : op.maxChildren? = some max) :
    surplus op.layout ns = ns.drop max := by
  obtain ⟨rfl, hone⟩ := Opcode.isCollection_of_maxChildren? hmax
  exact surplus_of_operands hone

/-- Nothing is left over exactly if there are no more children than the
layout can hold. -/
theorem surplus_eq_nil_iff :
    surplus op.layout ns = []
      ↔ ∀ max, op.maxChildren? = some max → ns.length ≤ max := by
  cases hmax : op.maxChildren? with
  | none =>
      have hmany := Opcode.maxChildren?_eq_none_iff.mp hmax
      simp [surplus_of_collection hmany]
  | some max => simp [surplus_of_maxChildren? hmax, List.drop_eq_nil_iff]

/-- If nothing is left over, then `dealt` is all of `ns`. -/
theorem flatten_dealt_of_surplus (hall : surplus slots ns = []) :
    (dealt slots ns).flatten = ns := by
  have hsplit := flatten_dealt slots ns
  rwa [hall, List.append_nil] at hsplit

/-- What was `dealt` to a layout with a limit are the first `maxChildren?`
nodes. -/
theorem flatten_dealt_of_maxChildren? {max : Nat}
    (hmax : op.maxChildren? = some max) :
    (dealt op.layout ns).flatten = ns.take max := by
  have hsplit := flatten_dealt op.layout ns
  rw [surplus_of_maxChildren? hmax] at hsplit
  exact List.append_cancel_right
    (hsplit.trans (List.take_append_drop max ns).symm)

/-- The child at `j` went to the slot that starts there, or into the
collection. -/
theorem getElem?_dealt (hj : (dealt slots ns).flatten[j]? = some m) :
    ∃ i k slot items, slots[i]? = some slot ∧ (dealt slots ns)[i]? = some items
      ∧ items[k]? = some m ∧ j = i + k
      ∧ (k = 0 ∨ slot.isCollection = true) := by
  induction slots generalizing ns j with
  | nil => cases hj
  | cons slot rest ih =>
      unfold dealt at hj ⊢
      split at hj
      case isTrue hmany =>
        -- nothing is left for other slots
        have hnone : (dealt rest []).flatten = [] :=
          flatten_dealt_of_surplus (surplus_nil rest)
        rw [List.flatten_cons, hnone, List.append_nil] at hj
        exact ⟨0, j, slot, ns, rfl, by simp [hmany], hj, by omega, .inr hmany⟩
      case isFalse hone =>
        rw [if_neg hone]
        cases ns with
        | nil =>
            have hnone : (dealt rest []).flatten = [] :=
              flatten_dealt_of_surplus (surplus_nil rest)
            simp [hnone] at hj
        | cons first others =>
            cases j with
            | zero => exact ⟨0, 0, slot, _, rfl, rfl, hj, rfl, .inl rfl⟩
            | succ j =>
                obtain ⟨i, k, slot', items, hslot, hitems, hm, rfl, hk⟩ :=
                  ih hj
                exact ⟨i + 1, k, slot', items, hslot, hitems, hm, by omega, hk⟩

-- ================================================================== rows

namespace Forest

open Collection

variable {f g h : Forest} {c : Collection}

/-- From `f` to `g`, the nodes `ns` were put in a row below `n`, the first
of them at global child index `i`. -/
structure Lined (n : NodeId) (i : Nat) (ns : List NodeId)
    (f g : Forest) : Prop where
  /-- The new owner has slots, batches and caches of its own. -/
  owner : ∃ slots version cached, g.get? n = (f.get? n).map fun x =>
    { x with slots := slots, version := version, cached := cached }
  others : ∀ {m}, m ≠ n → m ∉ ns → g.get? m = f.get? m
  row : ∀ {m j}, m ≠ n → LastAt ns m j →
    g.get? m = (f.get? m).map fun x => { x with
      link := some n, position := i + j, slotRefs := x.slotRefs + ns.count m }

namespace Lined

theorem refl (n : NodeId) (i : Nat) (f : Forest) : Lined n i [] f f where
  owner := by
    cases hx : f.get? n with
    | none => exact ⟨[], 0, none, rfl⟩
    | some x => exact ⟨x.slots, x.version, x.cached, rfl⟩
  others _ _ := rfl
  row _ hj := by cases hj.mem

/-- Two rows of which the second starts behind the first are one row. -/
theorem trans (hfg : Lined n i ns f g) (hgh : Lined n (i + ns.length) ms g h) :
    Lined n i (ns ++ ms) f h := by
  refine ⟨?_, fun {m} hm hnot => ?_, fun {m j} hm hj => ?_⟩
  · obtain ⟨_, _, _, hg⟩ := hfg.owner
    obtain ⟨slots, version, cached, hh⟩ := hgh.owner
    refine ⟨slots, version, cached, ?_⟩
    rw [hh, hg, Option.map_map]
    rfl
  · rw [List.mem_append, not_or] at hnot
    rw [hgh.others hm hnot.2, hfg.others hm hnot.1]
  · by_cases hlater : m ∈ ms
    · obtain ⟨k, hk⟩ := exists_lastAt hlater
      have hjk : j = ns.length + k := hk.append_right.unique hj
      rw [hgh.row hm hk, hjk, List.count_append]
      by_cases hfirst : m ∈ ns
      · obtain ⟨l, hl⟩ := exists_lastAt hfirst
        rw [hfg.row hm hl, Option.map_map]
        simp [Function.comp_def, Nat.add_assoc]
      · rw [hfg.others hm hfirst, List.count_eq_zero_of_not_mem hfirst,
          Nat.zero_add, Nat.add_assoc]
    · have hfirst : m ∈ ns :=
        (List.mem_append.mp hj.mem).resolve_right hlater
      obtain ⟨k, hk⟩ := exists_lastAt hfirst
      have hjk : j = k := (hk.append_left hlater).unique hj
      rw [hgh.others hm hlater, hfg.row hm hk, hjk, List.count_append,
        List.count_eq_zero_of_not_mem hlater, Nat.add_zero]

/-- `Lined` with nobody holds for every start. -/
theorem start (hfg : Lined n i [] f g) : Lined n j [] f g :=
  ⟨hfg.owner, hfg.others, fun _ hk => by cases hk.mem⟩

theorem isAlive (hfg : Lined n i ns f g) (m : NodeId) :
    g.isAlive m = f.isAlive m := by
  unfold Forest.isAlive
  by_cases hm : m = n
  · obtain ⟨_, _, _, hg⟩ := hfg.owner
    rw [hm, hg, Option.isSome_map]
  · by_cases hmem : m ∈ ns
    · obtain ⟨j, hj⟩ := exists_lastAt hmem
      rw [hfg.row hm hj, Option.isSome_map]
    · rw [hfg.others hm hmem]

/-- `Lined` changes of the owner only slots, version and cached flags. -/
theorem field_owner {α : Type _} {F : Node → α}
    (hF : ∀ x l v c, F { x with slots := l, version := v, cached := c } = F x)
    (hfg : Lined n i ns f g) : F (g.node n) = F (f.node n) := by
  obtain ⟨_, _, _, hg⟩ := hfg.owner
  unfold node
  rw [hg]
  cases f.get? n with
  | none => rfl
  | some x => exact hF ..

/-- `Lined` changes of other nodes only link, position and `slotRefs`. -/
theorem field_ne {α : Type _} {F : Node → α}
    (hF : ∀ x l p r, F { x with link := l, position := p, slotRefs := r }
      = F x) (hfg : Lined n i ns f g) (hm : m ≠ n) :
    F (g.node m) = F (f.node m) := by
  unfold node
  by_cases hmem : m ∈ ns
  · obtain ⟨j, hj⟩ := exists_lastAt hmem
    rw [hfg.row hm hj]
    cases f.get? m with
    | none => rfl
    | some x => exact hF ..
  · rw [hfg.others hm hmem]

/-- `Lined` changes no children but those of the owner. -/
theorem children_ne (hfg : Lined n i ns f g) (hm : m ≠ n) :
    g.children m = f.children m :=
  hfg.field_ne (F := Node.children) (fun _ _ _ _ => rfl) hm

/-- A loose owner is loose after `Lined`, if it is not among its own children.
-/
theorem isLoose (hfg : Lined n i ns f g) (hn : f.isLoose n = true)
    (hself : n ∉ g.children n) : g.isLoose n = true := by
  obtain ⟨halive, hhandles, hfree⟩ := isLoose_iff.mp hn
  refine isLoose_iff.mpr ⟨(hfg.isAlive n).trans halive, ?_, fun p hp => ?_⟩
  · rw [hfg.field_owner (F := Node.handles) fun _ _ _ _ => rfl]
    exact hhandles
  · by_cases hpn : p = n
    · exact hself (hpn ▸ hp)
    · rw [hfg.children_ne hpn] at hp
      exact hfree p hp

end Lined

-- ============================================================ a new owner

/-- A node that nobody has told anything yet: it has no parent, and nobody
traverses it. -/
structure Untold (f : Forest) (n : NodeId) : Prop where
  alive : f.isAlive n = true
  link : (f.node n).link = none
  depth : (f.node n).depth = .zero

namespace Untold

variable (hn : f.Untold n)
include hn

theorem parent? : f.parent? n = none := by
  rw [Forest.parent?, hn.link]
  rfl

theorem lined (hfg : Lined n i ns f g) : g.Untold n where
  alive := (hfg.isAlive n).trans hn.alive
  link := (hfg.field_owner (F := Node.link) fun _ _ _ _ => rfl).trans hn.link
  depth :=
    (hfg.field_owner (F := Node.depth) fun _ _ _ _ => rfl).trans hn.depth

/-- A node that was `Untold` anything is below no other node. -/
theorem breaksTree (hm : m ≠ n) : f.breaksTree checks n m = false := by
  have hnone : f.ancestors n = [] := by
    unfold ancestors
    cases f.size with
    | zero => rfl
    | succ steps => rw [ancestorsWithin, hn.parent?]
  rw [Forest.breaksTree, isDescendantOf, hnone, beq_false_of_ne (Ne.symm hm)]
  simp

theorem guarded {α : Type} (body : Edit α) :
    guarded checks n body f = body f := by
  refine guarded_of_open body ?_
  rw [isGuarded, hn.depth]
  simp

/-- `commit` of such an owner is `Lined` with nobody. -/
theorem lined_commit (i : Nat) : Lined n i [] f (f.commit n) := by
  have hcount : (f.countBatch n).parent? n = none := by
    rw [(alike_countBatch f n).parent?, hn.parent?]
  have hget : ∀ m, (f.commit n).get? m
      = ((f.countBatch n).dropCache n).get? m := by
    intro m
    unfold commit invalidate
    rw [get?_emit, hcount]
    cases (f.countBatch n).size <;> rfl
  refine ⟨⟨(f.node n).slots, (f.node n).version + 1, none, ?_⟩,
    fun hm _ => ?_, fun _ hj => by cases hj.mem⟩
  · rw [hget, dropCache, countBatch, get?_update, get?_update, if_pos rfl,
      if_pos rfl, f.get?_of_alive hn.alive]
    rfl
  · rw [hget, dropCache, countBatch, get?_update, get?_update, if_neg hm,
      if_neg hm]

end Untold

/-- `attach` after storing a node in slot `s` succeeds, and is a row of one. -/
theorem attach_lined (checks : Checks) (hn : f.Untold n) (hm : m ≠ n)
    (i s : Nat)
    (items : List NodeId) :
    ∃ g, attach checks n m ((f.setPosition m i).setSlot n s items) = .ok () g
      ∧ Lined n i [m] f g
      ∧ (g.node n).slots = (f.node n).slots.set s items := by
  have hstored : Untold ((f.setPosition m i).setSlot n s items) n := by
    refine ⟨?_, ?_, ?_⟩
    · rw [isAlive_setSlot, isAlive_setPosition]
      exact hn.alive
    · rw [link_setSlot, link_setPosition]
      exact hn.link
    · rw [field_setSlot _ (F := Node.depth) (fun _ _ => rfl),
        f.field_setPosition (F := Node.depth) fun _ _ => rfl]
      exact hn.depth
  refine ⟨_, attach_of_opens (hstored.breaksTree hm), ?_, ?_⟩
  · refine ⟨⟨((f.node n).setSlot s items).slots, (f.node n).version,
      (f.node n).cached, ?_⟩, fun {k} hk hnot => ?_, fun {k j} hk hj => ?_⟩
    · rw [enter, setSlot, setPosition, get?_update, get?_update, get?_update,
        if_neg (Ne.symm hm), if_pos rfl, if_neg (Ne.symm hm), node]
      cases f.get? n <;> rfl
    · have hkm : k ≠ m := fun h => hnot (h ▸ .head _)
      rw [enter, setSlot, setPosition, get?_update, get?_update, get?_update,
        if_neg hkm, if_neg hk, if_neg hkm]
    · have hkm : k = m := List.mem_singleton.mp hj.mem
      subst hkm
      have hzero : j = 0 := (LastAt.head List.not_mem_nil).unique hj
      rw [enter, setSlot, setPosition, get?_update, get?_update, get?_update,
        if_pos rfl, if_neg hk, if_pos rfl, hzero, List.count_singleton_self]
      cases f.get? k <;> rfl
  · rw [slots_enter, slots_setSlot_self _ _ _
      ((isAlive_setPosition ..).trans hn.alive), slots_setPosition]

-- ================================================================ filling

/-- `setSlotChild` at an empty operand slot of such an owner succeeds, and is a
row of one. -/
theorem setSlotChild_lined (checks : Checks) (hn : f.Untold n)
    (hm : m ≠ n) {slot : Slot}
    (hslot : (f.node n).opcode.slot? i = some slot)
    (hone : slot.isCollection = false) (hempty : f.slot n i = []) :
    ∃ g, setSlotChild checks n i (some m) f = .ok () g ∧ Lined n i [m] f g
      ∧ (g.node n).slots = (f.node n).slots.set i [m] := by
  obtain ⟨g, hattach, hrow, hslots⟩ :=
    attach_lined checks hn hm i i [m]
  have hcheck : f.checkOperandSlot n i = .ok () := by
    rw [checkOperandSlot_eq, (at?_of_operand hslot hone).2]
  refine ⟨g.commit n, ?_, ?_, ?_⟩
  · rw [setSlotChild, hcheck, hempty]
    show ((attach checks n m
      ((f.setPosition m i).setSlot n i [m])).next _).always _ = _
    rw [hattach]
    rfl
  · exact hrow.trans ((hn.lined hrow).lined_commit _)
  · rw [slots_commit, hslots]

/-- `append` to a collection of such an owner succeeds, and is a row. -/
theorem append_lined (checks : Checks) (hn : f.Untold c.owner)
    (hns : c.owner ∉ ns) (hslot : c.slot < (f.node c.owner).slots.length) :
    ∃ g, c.append checks ns f = .ok () g
      ∧ Lined c.owner (c.base + c.length f) ns f g
      ∧ (g.node c.owner).slots
        = (f.node c.owner).slots.set c.slot (c.items f ++ ns) := by
  have hread : ∀ g : Forest, c.items g
      = ((g.node c.owner).slots[c.slot]?).getD [] := fun _ => rfl
  induction ns generalizing f with
  | nil =>
      refine ⟨f, rfl, .refl .., ?_⟩
      rw [List.append_nil, hread, List.getElem?_eq_getElem hslot,
        Option.getD_some, List.set_getElem_self]
  | cons m rest ih =>
      have hm : m ≠ c.owner := fun h => hns (h ▸ .head _)
      obtain ⟨g, hattach, hfirst, hstored⟩ := attach_lined checks hn
        hm (c.base + c.length f) c.slot (c.items f ++ [m])
      have hitems : c.items g = c.items f ++ [m] := by
        rw [hread, hstored, List.getElem?_set_self hslot, Option.getD_some]
      obtain ⟨h, happend, hrow, hslots⟩ := ih (hn.lined hfirst)
        (fun hmem => hns (.tail _ hmem))
        (by rw [hstored, List.length_set]; exact hslot)
      rw [length, hitems, List.length_append] at hrow
      refine ⟨h, ?_, hfirst.trans hrow, ?_⟩
      · have hpushed : c.pushed f m
            = (f.setPosition m (c.base + c.length f)).setSlot c.owner c.slot
              (c.items f ++ [m]) := rfl
        rw [append, hpushed]
        rw [hattach]
        exact happend
      · rw [hslots, hstored, List.set_set, hitems, List.append_assoc]
        rfl

/-- `addRange` to an empty collection of such an owner succeeds, and is a row.
-/
theorem addRange_lined (checks : Checks) (hn : f.Untold n) (hns : n ∉ ns)
    (hi : i < (f.node n).slots.length) (hempty : f.slot n i = []) :
    ∃ g, Collection.addRange checks ⟨n, i⟩ ns f = .ok () g
      ∧ Lined n i ns f g ∧ (g.node n).slots = (f.node n).slots.set i ns := by
  obtain ⟨g, happend, hrow, hslots⟩ :=
    append_lined checks (c := ⟨n, i⟩) hn hns hi
  have hnone : Collection.items ⟨n, i⟩ f = [] := hempty
  rw [length, hnone] at hrow
  rw [hnone] at hslots
  refine ⟨g.commit n, ?_, ?_, ?_⟩
  · rw [addRange, hn.guarded, appendAll, happend]
    rfl
  · have hcommit := (hn.lined hrow).lined_commit (i + ns.length)
    have hall := Lined.trans hrow hcommit
    rwa [List.append_nil] at hall
  · rw [slots_commit]
    exact hslots

/-- `fillSlots` of such an owner stores what is `dealt`, and is a row of that.
-/
theorem fillSlots_lined (checks : Checks) {filled : List (List NodeId)}
    (hn : f.Untold n) (hns : n ∉ ns) (hi : filled.length = i)
    (hlayout : (f.node n).opcode.layout.drop i = slots)
    (hslots : (f.node n).slots = filled ++ slots.map fun _ => []) :
    ∃ g, fillSlots checks n i slots ns f = .ok (surplus slots ns) g
      ∧ Lined n i (dealt slots ns).flatten f g
      ∧ (g.node n).slots = filled ++ dealt slots ns := by
  induction slots generalizing f i ns filled with
  | nil => exact ⟨f, rfl, .refl .., hslots⟩
  | cons slot rest ih =>
      subst hi
      have hslot : (f.node n).opcode.slot? filled.length = some slot := by
        rw [Opcode.slot?, ← List.head?_drop, hlayout]
        rfl
      have hempty : f.slot n filled.length = [] := by
        rw [Forest.slot, Node.slot, hslots, List.map_cons]
        simp
      have hbound : filled.length < (f.node n).slots.length := by
        rw [hslots]
        simp
      -- what is left to do after this slot got `items`
      have hlater : ∀ (g : Forest) (items left : List NodeId),
          Lined n filled.length items f g → n ∉ left →
          (g.node n).slots = (f.node n).slots.set filled.length items →
          ∃ h, fillSlots checks n (filled.length + 1) rest left g
              = .ok (surplus rest left) h
            ∧ Lined n (filled.length + 1) (dealt rest left).flatten g h
            ∧ (h.node n).slots = filled ++ items :: dealt rest left := by
        intro g items left hrow hleft hstored
        have hop : (g.node n).opcode = (f.node n).opcode :=
          hrow.field_owner fun _ _ _ _ => rfl
        have hset : (g.node n).slots
            = (filled ++ [items]) ++ rest.map fun _ => [] := by
          rw [hstored, hslots, List.map_cons]
          simp
        have hlength : (filled ++ [items]).length = filled.length + 1 := by
          rw [List.length_append, List.length_singleton]
        obtain ⟨h, hfill, hrow', hdealt⟩ :=
          ih (hn.lined hrow) hleft hlength (by
            rw [hop, ← List.drop_drop, hlayout]
            rfl) hset
        exact ⟨h, hfill, hrow', by rw [hdealt, List.append_assoc]; rfl⟩
      unfold fillSlots dealt surplus
      cases hmany : slot.isCollection with
      | true =>
          rw [if_pos rfl, if_pos rfl, if_pos rfl]
          obtain ⟨g, hadd, hrow, hstored⟩ :=
            addRange_lined checks hn hns hbound hempty
          obtain ⟨h, hfill, hrow', hdealt⟩ :=
            hlater g ns [] hrow List.not_mem_nil hstored
          have hnone : (dealt rest []).flatten = [] :=
            flatten_dealt_of_surplus (surplus_nil rest)
          rw [hnone] at hrow'
          refine ⟨h, ?_, ?_, hdealt⟩
          · rw [hadd]
            exact hfill
          · rw [List.flatten_cons, hnone]
            exact hrow.trans hrow'.start
      | false =>
          rw [if_neg Bool.false_ne_true, if_neg Bool.false_ne_true,
            if_neg Bool.false_ne_true]
          cases ns with
          | nil =>
              have hnone : (dealt rest []).flatten = [] :=
                flatten_dealt_of_surplus (surplus_nil rest)
              refine ⟨f, ?_, ?_, ?_⟩
              · rw [List.drop_nil, surplus_nil]
              · rw [List.take_nil, List.drop_nil, List.flatten_cons, hnone]
                exact .refl ..
              · rw [hslots, List.take_nil, List.drop_nil, dealt_nil]
                rfl
          | cons m left =>
              have hm : m ≠ n := fun h => hns (h ▸ .head _)
              obtain ⟨g, hset, hrow, hstored⟩ :=
                setSlotChild_lined checks hn hm hslot hmany hempty
              obtain ⟨h, hfill, hrow', hdealt⟩ := hlater g [m] left hrow
                (fun hmem => hns (.tail _ hmem)) hstored
              refine ⟨h, ?_, hrow.trans hrow', hdealt⟩
              dsimp only
              rw [hset]
              exact hfill

/-- Building deals the children out to the slots of a new node. If some are
left over, it is let go of again. -/
theorem build_lined (checks : Checks) (op : Opcode) (x : Operand)
    (hns : (f.alloc (Node.fresh op x)).1 ∉ ns) :
    ∃ g, Lined (f.alloc (Node.fresh op x)).1 0 (dealt op.layout ns).flatten
        (f.alloc (Node.fresh op x)).2 g
      ∧ (g.node (f.alloc (Node.fresh op x)).1).slots = dealt op.layout ns
      ∧ build checks op x ns f
        = if surplus op.layout ns = [] then .ok (f.alloc (Node.fresh op x)).1 g
          else .stop (.fault (.tooManyChildren op op.layout.length))
            (g.reap (f.alloc (Node.fresh op x)).1) := by
  have hborn : (f.alloc (Node.fresh op x)).2.node
      (f.alloc (Node.fresh op x)).1 = Node.fresh op x := by
    rw [node_alloc, if_pos rfl]
  have hn : Untold (f.alloc (Node.fresh op x)).2
      (f.alloc (Node.fresh op x)).1 :=
    ⟨isAlive_alloc_self .., by rw [hborn]; rfl, by rw [hborn]; rfl⟩
  have hlayout : ((f.alloc (Node.fresh op x)).2.node
      (f.alloc (Node.fresh op x)).1).opcode.layout.drop 0 = op.layout := by
    rw [hborn]
    rfl
  have hempty : ((f.alloc (Node.fresh op x)).2.node
      (f.alloc (Node.fresh op x)).1).slots
      = [] ++ op.layout.map fun _ => [] := by
    rw [hborn]
    rfl
  obtain ⟨g, hfill, hrow, hslots⟩ :=
    fillSlots_lined checks hn hns List.length_nil hlayout hempty
  refine ⟨g, hrow, hslots, ?_⟩
  unfold build
  dsimp only
  rw [hfill]
  cases surplus op.layout ns with
  | nil => rfl
  | cons m rest => rfl

-- ================================================================ reading

/-- If the slots hold what was `dealt`, and nothing was left over, then
`child?` reads `ns`. -/
theorem child?_dealt (hslots : (g.node n).slots = dealt op.layout ns)
    (hop : (g.node n).opcode = op) (hall : surplus op.layout ns = [])
    (hj : j < ns.length) : g.child? n j = ns[j]? := by
  have hflat := flatten_dealt_of_surplus hall
  have hget := List.getElem?_eq_getElem hj
  have hplace : (dealt op.layout ns).flatten[j]? = some ns[j] := by
    rw [hflat]
    exact hget
  obtain ⟨i, k, slot, items, hslot, hitems, hm, rfl, hk⟩ :=
    getElem?_dealt hplace
  have hlen : (g.node n).slots.length = op.layout.length := by
    rw [hslots]
    exact length_dealt op.layout ns
  have hbound := (List.getElem?_eq_some_iff.mp hslot).1
  rw [hget]
  refine child?_eq_some.mpr ⟨i, k, locate?_add (by rwa [hlen]) ?_, ?_⟩
  · refine hk.imp_right fun hmany => ⟨slot, ?_, ?_, hmany⟩
    · rw [hlen]
      exact Opcode.succ_eq_length_of_isCollection hslot hmany
    · rw [hop]
      exact hslot
  · rw [Forest.slot, Node.slot, hslots, hitems]
    exact hm

/-- If `child?` has `m` at its cached position, `findChild?` finds it there. -/
theorem findChild?_of_cached (hlink : (g.node m).link = some n)
    (hchild : g.child? n (g.node m).position = some m) :
    g.findChild? n m = some (g.node m).position := by
  rw [findChild?, cachedChild?]
  rw [if_pos ⟨hlink, hchild⟩]
  rfl

/-- A node that was just created is loose. -/
theorem isLoose_alloc (hclosed : f.Closed) (op : Opcode) (x : Operand) :
    (f.alloc (Node.fresh op x)).2.isLoose (f.alloc (Node.fresh op x)).1
      = true := by
  refine isLoose_iff.mpr ⟨isAlive_alloc_self .., ?_, fun p hp => ?_⟩
  · rw [node_alloc, if_pos rfl]
    rfl
  · rw [children, node_alloc] at hp
    split at hp
    · rw [Node.children_fresh] at hp
      cases hp
    · have hdead := f.not_alive_alloc (Node.fresh op x)
      rw [hclosed hp] at hdead
      cases hdead

/-- If children are left over, `build` fails with `tooManyChildren`, and what
remains of the attempt is the row of those dealt. -/
theorem build_reaped (checks : Checks) (x : Operand) (hwf : f.WellFormed)
    (hns : f.Referenced ns) (hmore : surplus op.layout ns ≠ []) :
    ∃ n g, f.isAlive n = false
      ∧ build checks op x ns f
        = .stop (.fault (.tooManyChildren op op.layout.length)) g
      ∧ g.isAlive n = false
      ∧ (∀ m, m ∉ (dealt op.layout ns).flatten → g.get? m = f.get? m)
      ∧ ∀ c j, LastAt (dealt op.layout ns).flatten c j →
        g.get? c = (f.get? c).map fun y => { y with
          link := some n, position := j,
          slotRefs := y.slotRefs + (dealt op.layout ns).flatten.count c } := by
  have htaken : ∀ c ∈ (dealt op.layout ns).flatten, c ∈ ns := by
    intro c hc
    rw [← flatten_dealt op.layout ns]
    exact List.mem_append_left _ hc
  have hnew := f.not_alive_alloc (Node.fresh op x)
  have hfresh : (f.alloc (Node.fresh op x)).1 ∉ ns := by
    intro hmem
    rw [alive_of_handles (hns _ hmem)] at hnew
    cases hnew
  obtain ⟨k, hrow, hslots, hbuild⟩ := build_lined checks op x hfresh
  rw [if_neg hmore] at hbuild
  have hborn := isLoose_alloc hwf.closed op x
  have hold : ∀ m, m ≠ (f.alloc (Node.fresh op x)).1 →
      (f.alloc (Node.fresh op x)).2.get? m = f.get? m := by
    intro m hm
    rw [get?_alloc, if_neg hm]
  have hchildren : k.children (f.alloc (Node.fresh op x)).1
      = (dealt op.layout ns).flatten := by rw [children_eq, hslots]
  generalize (f.alloc (Node.fresh op x)).1 = n at *
  generalize (f.alloc (Node.fresh op x)).2 = b at *
  generalize (dealt op.layout ns).flatten = placed at *
  have hother : ∀ c ∈ placed, c ≠ n :=
    fun c hc h => hfresh (h ▸ htaken c hc)
  -- the new node is in no slot, and its children have handles
  have hloose : k.isLoose n = true := by
    refine hrow.isLoose hborn fun hself => ?_
    exact hother n (hchildren ▸ hself) rfl
  have hkept : ∀ c ∈ k.children n, 0 < (k.node c).handles := by
    intro c hc
    rw [hchildren] at hc
    rw [hrow.field_ne (F := Node.handles) (fun _ _ _ _ => rfl) (hother c hc),
      node, hold c (hother c hc)]
    exact hns c (htaken c hc)
  rw [reap_eq_erase hloose hkept] at hbuild
  refine ⟨n, k.erase n, hnew, hbuild, ?_, fun m hm => ?_, fun c j hj => ?_⟩
  · rw [isAlive_erase, if_pos rfl]
  · rw [get?_erase]
    split
    case isTrue hmn => rw [hmn, f.get?_of_not_alive hnew]
    case isFalse hmn => rw [hrow.others hmn hm, hold m hmn]
  · have hcn := hother c hj.mem
    rw [get?_erase, if_neg hcn, hrow.row hcn hj, hold c hcn, Nat.zero_add]

end Forest

end InstructionTree
