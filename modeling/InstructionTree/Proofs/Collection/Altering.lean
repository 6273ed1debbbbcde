/-
What an edit of one place stores, if nobody is freed by it.

Whoever edits a node through its parent has the node, but need not have
the parent. So the edit lets go of nobody: the one node that leaves is the
client's own. `Alters` says all that happens to the slots of a forest then.
It leaves no room for a node that is freed, or for a slot of somebody else
that changes as well, and so the one slot that is stored decides what is
read everywhere.

Each of the three edits stores once. Before and after that it only writes
where nobody looks for slots (`Unmoved`): positions, links, counters,
versions and caches.
-/
import InstructionTree.Proofs.Collection.Exchanges
import InstructionTree.Proofs.Collection.Guarded
import InstructionTree.Proofs.Forest.Indices
import InstructionTree.Proofs.Forest.Operands
import InstructionTree.Proofs.Forest.Settled

namespace InstructionTree

/-- The fields of a record that say who is where and who can be freed: opcode,
`handles` and slots. -/
def Node.standing (x : Node) : Opcode × Nat × List (List NodeId) :=
  (x.opcode, x.handles, x.slots)

namespace Forest

variable {checks : Checks} {f g h : Forest} {m n o p q x : NodeId}
  {i j k : Nat} {new : List NodeId}

-- ================================================================ unmoved

/-- The same nodes are alive in both forests, with the same `standing`. -/
structure Unmoved (f g : Forest) : Prop where
  alive : ∀ q, g.isAlive q = f.isAlive q
  standing : ∀ q, (g.node q).standing = (f.node q).standing

theorem Unmoved.refl (f : Forest) : Unmoved f f :=
  ⟨fun _ => rfl, fun _ => rfl⟩

theorem Unmoved.trans (hfg : Unmoved f g) (hgh : Unmoved g h) :
    Unmoved f h where
  alive q := (hgh.alive q).trans (hfg.alive q)
  standing q := (hgh.standing q).trans (hfg.standing q)

theorem unmoved_update (m : NodeId) {k : Node → Node}
    (hk : ∀ x, (k x).standing = x.standing) : Unmoved f (f.update m k) :=
  ⟨fun q => isAlive_update f m q k, f.field_update hk m⟩

theorem unmoved_place (n : NodeId) (k : Nat) :
    Unmoved f (f.setPosition n k) :=
  unmoved_update n fun _ => rfl

theorem unmoved_enter (o n : NodeId) : Unmoved f (f.enter o n) :=
  unmoved_update n fun _ => rfl

theorem unmoved_detach (o n : NodeId) : Unmoved f (f.detach o n) :=
  ⟨f.isAlive_detach o n,
    f.field_detach (F := Node.standing) (fun _ _ _ => rfl) o n⟩

theorem unmoved_commit (o : NodeId) : Unmoved f (f.commit o) :=
  ⟨isAlive_commit f o,
    f.field_commit (F := Node.standing) (fun _ _ _ => rfl) o⟩

theorem unmoved_renumberFrom (c : Collection) (old : Nat → Nat) (i : Nat)
    (ns : List NodeId) : Unmoved f (c.renumberFrom old i ns f) :=
  ⟨fun q => c.isAlive_renumberFrom old q i ns f, fun q =>
    c.field_renumberFrom (F := Node.standing) (fun _ _ => rfl) old q i ns f⟩

-- ================================================================= storing

/-- From `f` to `g`, slot `j` of `p` was given `new`. No other slot of any
node is other than it was, and nobody was freed. -/
structure Alters (p : NodeId) (j : Nat) (new : List NodeId) (f g : Forest) :
    Prop where
  alive : ∀ q, g.isAlive q = f.isAlive q
  opcode : ∀ q, (g.node q).opcode = (f.node q).opcode
  handles : ∀ q, (g.node q).handles = (f.node q).handles
  own : (g.node p).slots = (f.node p).slots.set j new
  others : ∀ {q}, q ≠ p → (g.node q).slots = (f.node q).slots

/-- `Alters` from `f` to itself, with the slot as it is. -/
theorem alters_same (hj : j < (f.node p).slots.length) :
    Alters p j (f.slot p j) f f where
  alive _ := rfl
  opcode _ := rfl
  handles _ := rfl
  own := by
    rw [f.slot_of_getElem? (List.getElem?_eq_getElem hj),
      List.set_getElem_self]
  others _ := rfl

/-- One `setSlot` between `Unmoved` steps is `Alters`. -/
theorem alters_setSlot (hp : f.isAlive p = true) (hfg : Unmoved f g)
    (hgh : Unmoved (g.setSlot p j new) h) : Alters p j new f h := by
  have hfrom : ∀ {α : Type} (F : Opcode × Nat × List (List NodeId) → α) q,
      F (g.node q).standing = F (f.node q).standing :=
    fun F q => congrArg F (hfg.standing q)
  have hto : ∀ {α : Type} (F : Opcode × Nat × List (List NodeId) → α) q,
      F (h.node q).standing = F ((g.setSlot p j new).node q).standing :=
    fun F q => congrArg F (hgh.standing q)
  refine ⟨fun q => ?_, fun q => ?_, fun q => ?_, ?_, fun {q} hq => ?_⟩
  · rw [hgh.alive, isAlive_setSlot, hfg.alive]
  · exact ((hto Prod.fst q).trans (g.field_setSlot (F := Node.opcode)
      (fun _ _ => rfl) ..)).trans (hfrom Prod.fst q)
  · exact ((hto (·.2.1) q).trans (g.field_setSlot (F := Node.handles)
      (fun _ _ => rfl) ..)).trans (hfrom (·.2.1) q)
  · exact ((hto (·.2.2) p).trans (slots_setSlot_self g j new
      ((hfg.alive p).trans hp))).trans
      (congrArg (List.set · j new) (hfrom (·.2.2) p))
  · exact ((hto (·.2.2) q).trans (slots_setSlot_ne g j new hq)).trans
      (hfrom (·.2.2) q)

namespace Alters

/-- `reap` of a node with a handle does nothing, so `Alters` is about the whole
edit. -/
theorem reap (hfg : Alters p j new f g) (hn : 0 < (f.node n).handles) :
    g.reap n = g := by
  rw [← reapAll_singleton, reapAll_of_handles fun m hm => ?_]
  rw [List.mem_singleton.mp hm, hfg.handles]
  exact hn

theorem slot_self (hfg : Alters p j new f g)
    (hj : j < (f.node p).slots.length) : g.slot p j = new := by
  rw [slot, Node.slot, hfg.own, List.getElem?_set_self hj, Option.getD_some]

/-- `Alters p j` leaves every slot as it was but slot `j` of `p`. -/
theorem slot_ne (hfg : Alters p j new f g) {l : Nat}
    (hne : q ≠ p ∨ l ≠ j) : g.slot q l = f.slot q l := by
  by_cases hq : q = p
  · subst hq
    have hl := hne.resolve_left fun h => h rfl
    rw [slot, Node.slot, hfg.own, List.getElem?_set_ne (Ne.symm hl)]
    rfl
  · exact slot_congr (hfg.others hq) l

theorem locate?_eq (hfg : Alters p j new f g) (q : NodeId) (i : Nat) :
    g.locate? q i = f.locate? q i := by
  have hlen : (g.node q).slots.length = (f.node q).slots.length := by
    by_cases hq : q = p
    · rw [hq, hfg.own, List.length_set]
    · rw [hfg.others hq]
  exact locate?_congr (hfg.opcode q) hlen i

/-- `Alters p j` leaves `child?` of every other node as it was. -/
theorem child?_other (hfg : Alters p j new f g) (hq : q ≠ p) (i : Nat) :
    g.child? q i = f.child? q i :=
  child?_congr (hfg.opcode q) (hfg.others hq) i

/-- If index `k` of slot `j` is set to `m`, then `child?` reads `m` there, and
what it read at all other indices. -/
theorem child?_set (hfg : Alters p j ((f.slot p j).set k m) f g)
    (hlocate : f.locate? p i = some (j, k))
    (hk : k < (f.slot p j).length) :
    g.child? p i = some m ∧ ∀ l ≠ i, g.child? p l = f.child? p l := by
  have hself := hfg.slot_self (locate?_eq_some hlocate).1
  refine ⟨?_, fun l hl => ?_⟩
  · rw [child?_of_locate? ((hfg.locate?_eq p i).trans hlocate), hself,
      List.getElem?_set_self hk]
  cases hother : f.locate? p l with
  | none =>
      unfold child?
      rw [hfg.locate?_eq, hother]
      rfl
  | some place =>
      obtain ⟨j', k'⟩ := place
      rw [child?_of_locate? ((hfg.locate?_eq p l).trans hother),
        child?_of_locate? hother]
      by_cases hj : j' = j
      · -- the same slot, so another inner index
        subst hj
        have hi := (locate?_eq_some hlocate).2.1
        have hsum := (locate?_eq_some hother).2.1
        rw [hself, List.getElem?_set_ne (by omega)]
      · rw [hfg.slot_ne (.inr hj)]

/-- If index `k` of slot `j` is erased, then `p` holds `n` once less, and every
other count is as before. -/
theorem count_eraseIdx (hfg : Alters p j ((f.slot p j).eraseIdx k) f g)
    (hj : j < (f.node p).slots.length) (hk : (f.slot p j)[k]? = some n)
    (q x : NodeId) :
    (g.children q).count x + (if q = p ∧ n = x then 1 else 0)
      = (f.children q).count x := by
  by_cases hq : q = p
  case neg =>
    rw [children_eq, children_eq, hfg.others hq, if_neg fun h => hq h.1]
    rfl
  subst hq
  obtain ⟨hlt, hn⟩ := List.getElem?_eq_some_iff.mp hk
  have herase := (List.getElem_cons_eraseIdx_perm hlt).count_eq x
  have hset := count_flatten_set x (f.node q).slots
    ((f.slot q j).eraseIdx k) hj
  rw [← hfg.own, ← children_eq, ← children_eq] at hset
  rw [hn, List.count_cons] at herase
  have hslot : ((f.node q).slots[j]?.getD []).count x
      = (f.slot q j).count x := rfl
  simp only [true_and, beq_iff_eq] at herase ⊢
  omega

end Alters

end Forest

-- =================================================================== edits

open Forest

variable {checks : Checks} {f g : Forest} {n m p : NodeId} {j k : Nat}

namespace Collection

variable {c : Collection}

/-- `set` at an element with a handle `Alters` the slot by `List.set`. -/
theorem alters_set {u : Unit} (hwf : f.WellFormed) (hc : c.Fits f)
    (hn : 0 < (f.node n).handles) (hold : (c.items f)[k]? = some n)
    (hout : c.set checks k m f = .ok u g) :
    Alters c.owner c.slot ((c.items f).set k m) f g := by
  obtain ⟨old, hold', hcases⟩ := set_eq_ok hout
  cases hold.symm.trans hold'
  rcases hcases with ⟨rfl, rfl⟩ | ⟨-, hg⟩
  · obtain ⟨hlt, hget⟩ := List.getElem?_eq_some_iff.mp hold
    rw [← hget, List.set_getElem_self]
    exact alters_same (hc.bound hwf)
  · have hrest : Unmoved (c.overwritten f k m)
        ((((c.overwritten f k m).enter c.owner m).detach c.owner n).commit
          c.owner) :=
      ((unmoved_enter c.owner m).trans (unmoved_detach c.owner n)).trans
        (unmoved_commit c.owner)
    have halters := alters_setSlot hc.alive (unmoved_place m (c.base + k))
      hrest
    rwa [hg, halters.reap hn]

/-- `removeAt` of an element with a handle `Alters` the slot by
`List.eraseIdx`. -/
theorem alters_removeAt {old : NodeId} (hc : c.Fits f)
    (hn : 0 < (f.node n).handles) (hold : (c.items f)[k]? = some n)
    (hout : c.removeAt checks k f = .ok old g) :
    Alters c.owner c.slot ((c.items f).eraseIdx k) f g := by
  obtain ⟨hold', rfl⟩ := removeAt_eq_ok hout
  cases hold.symm.trans hold'
  have hrest : Unmoved (c.setItems f ((c.items f).eraseIdx k))
      ((c.erased f k n).commit c.owner) :=
    ((unmoved_detach c.owner n).trans (unmoved_renumberFrom c _ k _)).trans
      (unmoved_commit c.owner)
  have halters := alters_setSlot hc.alive (.refl f) hrest
  rwa [halters.reap hn]

end Collection

namespace Forest

/-- `setSlotChild` in a slot whose operand has a handle `Alters` the slot to
`child.toList`. -/
theorem alters_setSlotChild {u : Unit} {child : Option NodeId}
    (hp : f.isAlive p = true) (hj : j < (f.node p).slots.length)
    (hn : 0 < (f.node n).handles) (hold : f.slot p j = [n])
    (hout : setSlotChild checks p j child f = .ok u g) :
    Alters p j child.toList f g := by
  obtain ⟨-, hcases⟩ := setSlotChild_eq_ok hout
  rw [hold, List.head?_cons] at hcases
  rcases hcases with ⟨hsame, rfl⟩ | ⟨-, k, hattach, rfl⟩
  · rw [← hsame, Option.toList_some, ← hold]
    exact alters_same hj
  have hleft : ∀ {h}, Unmoved h k → Unmoved h
      ((k.detach? p (some n)).commit p) := fun hk =>
    (hk.trans (unmoved_detach ..)).trans (unmoved_commit _)
  have halters : Alters p j child.toList f
      ((k.detach? p (some n)).commit p) := by
    cases child with
    | none =>
        cases hattach
        exact alters_setSlot hp (.refl f) (hleft (.refl _))
    | some c =>
        obtain ⟨-, rfl⟩ := attach_eq_ok hattach
        exact alters_setSlot hp (unmoved_place c j)
          (hleft (unmoved_enter ..))
  rw [Option.toList_some, reapAll_singleton]
  rwa [halters.reap hn]

end Forest

end InstructionTree
