/-
Building a node, and failing to.

A node with children is built exactly if its layout can hold them all, and
then it holds them in order: building is undone by reading the children
(`Forest.build_children`). This is so in every forest, whoever holds the
children already and however often they occur.

If there are too many of them, the new node is freed again, but what its
first children were told stays with them (`Sees.build_tooMany`): they count
slots of a node that is gone, link to it, and have their places there. So a
node that another owner holds is not found by its parent any more
(`Forest.build_tooMany_detaches`).
-/
import InstructionTree.Proofs.Forest.Building
import InstructionTree.Proofs.Runs.Seen

namespace InstructionTree

open Collection

variable {checks : Checks} {locks ns : List NodeId} {f : Forest}
  {op : Opcode} {x : Operand}

namespace Forest

/-- Building succeeds exactly if the layout has a collection, or no fewer
slots than there are children. The new node then has these children, in
order and at their global child indices. Each of them has the new node as
its parent, its last index as its place, where it is also found, and counts
each of its occurrences. Other nodes do not change. -/
theorem build_children (checks : Checks) (op : Opcode) (x : Operand)
    (hns : ∀ c ∈ ns, f.isAlive c = true) :
    ((∃ n g, build checks op x ns f = .ok n g)
      ↔ op.maxChildren? = none
        ∨ ∃ max, op.maxChildren? = some max ∧ ns.length ≤ max)
    ∧ ∀ n g, build checks op x ns f = .ok n g →
      f.isAlive n = false ∧ g.isAlive n = true
      ∧ (g.node n).opcode = op ∧ (g.node n).operand = x
      ∧ g.children n = ns
      ∧ (∀ i, i < ns.length → g.child? n i = ns[i]?)
      ∧ (∀ c ∈ ns, ∃ j, LastAt ns c j
        ∧ g.parent? c = some n
        ∧ (g.node c).position = j
        ∧ (g.node c).slotRefs = (f.node c).slotRefs + ns.count c
        ∧ g.findChild? n c = some j)
      ∧ ∀ m, m ≠ n → m ∉ ns → g.get? m = f.get? m := by
  have hnew := f.not_alive_alloc (Node.fresh op x)
  have hfresh : (f.alloc (Node.fresh op x)).1 ∉ ns := by
    intro hmem
    rw [hns _ hmem] at hnew
    cases hnew
  obtain ⟨k, hrow, hslots, hbuild⟩ := build_lined checks op x hfresh
  constructor
  · have hroom : surplus op.layout ns = []
        ↔ op.maxChildren? = none
          ∨ ∃ max, op.maxChildren? = some max ∧ ns.length ≤ max := by
      rw [surplus_eq_nil_iff]
      cases op.maxChildren? <;> simp
    rw [← hroom, hbuild]
    constructor
    · rintro ⟨n, g, hok⟩
      split at hok
      case isTrue hall => exact hall
      case isFalse => cases hok
    · intro hall
      rw [if_pos hall]
      exact ⟨_, _, rfl⟩
  · intro n g hok
    rw [hbuild] at hok
    split at hok
    case isFalse => cases hok
    case isTrue hall =>
      obtain ⟨rfl, rfl⟩ : (f.alloc (Node.fresh op x)).1 = n ∧ k = g := by
        cases hok
        exact ⟨rfl, rfl⟩
      have hflat := flatten_dealt_of_surplus hall
      rw [hflat] at hrow
      have halive : k.isAlive (f.alloc (Node.fresh op x)).1 = true :=
        (hrow.isAlive _).trans (isAlive_alloc_self ..)
      have hold : ∀ m, m ≠ (f.alloc (Node.fresh op x)).1 →
          (f.alloc (Node.fresh op x)).2.get? m = f.get? m := by
        intro m hm
        rw [get?_alloc, if_neg hm]
      obtain ⟨slots, version, cached, howner⟩ := hrow.owner
      rw [get?_alloc, if_pos rfl, Option.map_some] at howner
      have hop : (k.node (f.alloc (Node.fresh op x)).1).opcode = op := by
        rw [node_of_get? howner]
        rfl
      refine ⟨hnew, halive, hop, ?_, ?_,
        fun i hi => child?_dealt hslots hop hall hi, fun c hc => ?_,
        fun m hm hnot => ?_⟩
      · rw [node_of_get? howner]
        rfl
      · rw [children_eq, hslots, hflat]
      · have hcn : c ≠ (f.alloc (Node.fresh op x)).1 :=
          fun h => hfresh (h ▸ hc)
        obtain ⟨j, hj⟩ := exists_lastAt hc
        have hget := hrow.row hcn hj
        rw [hold c hcn, f.get?_of_alive (hns c hc), Option.map_some,
          Nat.zero_add] at hget
        have hnode := node_of_get? hget
        have hlink : (k.node c).link
            = some (f.alloc (Node.fresh op x)).1 := by rw [hnode]
        have hposition : (k.node c).position = j := by rw [hnode]
        have hlt := (List.getElem?_eq_some_iff.mp hj.here).1
        refine ⟨j, hj, parent?_eq_some_iff.mpr ⟨hlink, halive⟩, hposition,
          by rw [hnode], ?_⟩
        rw [← hposition]
        refine findChild?_of_cached hlink ?_
        rw [hposition, child?_dealt hslots hop hall hlt, hj.here]
      · rw [hrow.others hm hnot, hold m hm]

end Forest

/-- A node that a block holds twice becomes the head of a switch and, with a
new one, two of its sections. -/
theorem Forest.build_children_of_shared :
    let ops : List Operation :=
      [.create .block .none, .hold ⟨0⟩, .create .nop .none, .hold ⟨1⟩,
        .create .nop .none, .hold ⟨2⟩, .change ⟨⟨0⟩, 0⟩ (.addRange [⟨1⟩, ⟨1⟩])]
    let f := played .strict ops ∅
    let ns : List NodeId := [⟨1⟩, ⟨2⟩, ⟨1⟩]
    (∀ c ∈ ns, f.isAlive c = true)
      ∧ ∃ n g, build .strict .switch .none ns f = .ok n g
        ∧ g.children n = ns ∧ g.child? n 2 = some ⟨1⟩
        ∧ g.parent? ⟨1⟩ = some n ∧ (g.node ⟨1⟩).position = 2
        ∧ (g.node ⟨1⟩).slotRefs = 4 ∧ g.findChild? n ⟨1⟩ = some 2
        ∧ g.get? ⟨0⟩ = f.get? ⟨0⟩ := by
  intro ops f ns
  have hns : ∀ c ∈ ns, f.isAlive c = true := by decide +kernel
  obtain ⟨hiff, hends⟩ := build_children .strict .switch .none hns
  obtain ⟨n, g, hok⟩ := hiff.mpr (.inl (by decide))
  obtain ⟨hnew, -, -, -, hchildren, hchild, hrow, hother⟩ := hends n g hok
  obtain ⟨j, hj, hparent, hposition, hrefs, hfound⟩ :=
    hrow ⟨1⟩ (by decide)
  have hlast : LastAt ns ⟨1⟩ 2 := ⟨rfl, fun k hk => by
    have hlt := (List.getElem?_eq_some_iff.mp hk).1
    exact Nat.le_of_lt_succ hlt⟩
  obtain rfl : j = 2 := hlast.unique hj
  have hbefore : (f.node ⟨1⟩).slotRefs = 2 := by decide +kernel
  have hold : f.isAlive ⟨0⟩ = true := by decide +kernel
  have hne : (⟨0⟩ : NodeId) ≠ n := by
    rintro rfl
    rw [hold] at hnew
    cases hnew
  rw [hbefore] at hrefs
  exact ⟨hns, n, g, hok, hchildren, (hchild 2 (by decide)).trans rfl, hparent,
    hposition, hrefs, hfound, hother ⟨0⟩ hne (by decide)⟩

-- ======================================================= too many children

/-- Wherever a client looks, it can not build a node with more children than
its layout can hold. The fault says how many these are. The nodes that found
no slot, and all others, stay as they are; but each of the first ones, those
that were in a slot for a moment, has lost its parent and its place to the
node that is gone, counts its slots, and is connected for ever. -/
theorem Sees.build_tooMany {permits : Permit} {max : Nat}
    (hf : Sees checks permits locks f) (hns : f.Referenced ns)
    (hmax : op.maxChildren? = some max) (hmany : max < ns.length) :
    ∃ n g, f.isAlive n = false
      ∧ Forest.build checks op x ns f
        = .stop (.fault (.tooManyChildren op max)) g
      ∧ (∀ m, m ∉ ns.take max → g.get? m = f.get? m)
      ∧ ∀ c j, LastAt (ns.take max) c j →
        g.get? c = (f.get? c).map (fun y => { y with
          link := some n, position := j,
          slotRefs := y.slotRefs + (ns.take max).count c })
        ∧ g.parent? c = none ∧ g.placeInParent? c = none
        ∧ g.isConnected c = true := by
  have hmore : surplus op.layout ns ≠ [] := by
    rw [surplus_of_maxChildren? hmax, Ne, List.drop_eq_nil_iff]
    omega
  obtain ⟨n, g, hnew, hbuild, hgone, hothers, hrow⟩ :=
    Forest.build_reaped checks x hf.sound.toWellFormed hns hmore
  rw [flatten_dealt_of_maxChildren? hmax] at hothers hrow
  rw [← (Opcode.isCollection_of_maxChildren? hmax).1] at hbuild
  refine ⟨n, g, hnew, hbuild, hothers, fun c j hj => ?_⟩
  have hget := hrow c j hj
  have halive := Forest.alive_of_handles (hns c (List.mem_of_mem_take hj.mem))
  have hnode := hget
  rw [f.get?_of_alive halive, Option.map_some] at hnode
  have hparent : g.parent? c = none := by
    rw [Forest.parent?, Forest.node_of_get? hnode, Option.filter_some,
      if_neg (by simp [hgone])]
  refine ⟨hget, hparent, ?_, ?_⟩
  · rw [Forest.placeInParent?, hparent]
    rfl
  · have hpos := List.count_pos_iff.mpr hj.mem
    rw [Forest.isConnected, Forest.node_of_get? hnode]
    exact decide_eq_true (by show 0 < _ + _; omega)

/-- A return takes one child. Of the two asked for, the first is in a block
and counts two slots afterwards; the other stays as it was. -/
theorem Sees.build_tooMany_of_two :
    let ops : List Operation :=
      [.create .block .none, .hold ⟨0⟩, .create .nop .none, .hold ⟨1⟩,
        .create .nop .none, .hold ⟨2⟩, .change ⟨⟨0⟩, 0⟩ (.addRange [⟨2⟩, ⟨1⟩])]
    let f := played .strict ops ∅
    let ns : List NodeId := [⟨1⟩, ⟨2⟩]
    Sees .strict Plain [] f ∧ f.Referenced ns
      ∧ Opcode.ret.maxChildren? = some 1 ∧ 1 < ns.length
      ∧ ∃ g, Forest.build .strict .ret .none ns f
          = .stop (.fault (.tooManyChildren .ret 1)) g
        ∧ g.get? ⟨2⟩ = f.get? ⟨2⟩
        ∧ (g.node ⟨1⟩).slotRefs = 2 ∧ g.parent? ⟨1⟩ = none := by
  intro ops f ns
  have hplays : Plays .strict (fun _ _ => true) [] ops ∅ := by
    decide +kernel
  have hf : Sees .strict Plain [] f :=
    .between (hplays.runs (fun hop _ => hop.plain) .refl)
  have hns : f.Referenced ns := by decide +kernel
  have hmax : Opcode.ret.maxChildren? = some 1 := rfl
  have hlen : 1 < ns.length := by decide
  obtain ⟨n, g, -, hbuild, hothers, hrow⟩ :=
    Sees.build_tooMany (x := .none) hf hns hmax hlen
  obtain ⟨hget, hparent, -, -⟩ := hrow ⟨1⟩ 0 (.head List.not_mem_nil)
  have hrefs : (f.node ⟨1⟩).slotRefs = 1 := by decide +kernel
  have halive : f.isAlive ⟨1⟩ = true := by decide +kernel
  rw [f.get?_of_alive halive, Option.map_some] at hget
  refine ⟨hf, hns, hmax, hlen, g, hbuild, hothers ⟨2⟩ (by decide), ?_, hparent⟩
  rw [Forest.node_of_get? hget]
  exact congrArg (· + 1) hrefs

/-- So a failed attempt does not leave the children as they were: this one
sits at index 1 of the block, and could be removed from there. Afterwards it
still sits there, but has no parent, another place, and one slot too many,
and can not be removed. -/
theorem Forest.build_tooMany_detaches :
    let ops : List Operation :=
      [.create .block .none, .hold ⟨0⟩, .create .nop .none, .hold ⟨1⟩,
        .create .nop .none, .hold ⟨2⟩, .change ⟨⟨0⟩, 0⟩ (.addRange [⟨2⟩, ⟨1⟩])]
    let f := played .strict ops ∅
    let ns : List NodeId := [⟨1⟩, ⟨2⟩]
    let g := (build .strict .ret .none ns f).state
    Sees .strict Plain [] f ∧ f.Referenced ns
      ∧ build .strict .ret .none ns f
        = .stop (.fault (.tooManyChildren .ret 1)) g
      ∧ g.children ⟨0⟩ = [⟨2⟩, ⟨1⟩]
      ∧ (f.node ⟨1⟩).slotRefs = 1 ∧ (g.node ⟨1⟩).slotRefs = 2
      ∧ f.parent? ⟨1⟩ = some ⟨0⟩ ∧ g.parent? ⟨1⟩ = none
      ∧ (f.node ⟨1⟩).position = 1 ∧ (g.node ⟨1⟩).position = 0
      ∧ removeFromParent .strict ⟨1⟩ f
        = .ok () (removeFromParent .strict ⟨1⟩ f).state
      ∧ removeFromParent .strict ⟨1⟩ g = .stop (.fault .detached) g := by
  intro ops f ns g
  have hplays : Plays .strict (fun _ _ => true) [] ops ∅ := by
    decide +kernel
  refine ⟨.between (hplays.runs (fun hop _ => hop.plain) .refl), ?_⟩
  decide +kernel

end InstructionTree
