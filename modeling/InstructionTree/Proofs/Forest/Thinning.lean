/-
Taking elements out of a slot.

There is more than one way to take elements out of a slot of an owner: one
by one or all at once, letting go of each of them when it is taken out or
only in the end. `Thins` covers them all, as long as nothing is stored in
the slot that was not there, and nobody is let go of who was not. What
happens in between may change the order in the slot, but not who holds whom
(`Shuffled`).

# Who is freed

`Doomed` says it without any order: a node is freed if nothing outside the
forest keeps it, and everybody who would still hold it is freed. Every way
frees these nodes and no other (`Thins.isAlive_iff`): what is freed has lost
all its holders by then, and what has lost them is loose, unless it was let
go of. So two ways which leave the same elements leave the same nodes, even
where the elements hold the owner.
-/
import InstructionTree.Proofs.Forest.Refilling

namespace InstructionTree.Forest

variable {f g h : Forest} {o n p x : NodeId} {i j : Nat}
  {kept due more items : List NodeId}

-- ============================================================== shuffled

/-- The same nodes are alive with the same handles, and every slot holds the
same nodes, perhaps in another order. -/
structure Shuffled (f g : Forest) : Prop where
  alive : ∀ x, g.isAlive x = f.isAlive x
  handles : ∀ x, (g.node x).handles = (f.node x).handles
  slots : ∀ p j x, x ∈ g.slot p j ↔ x ∈ f.slot p j

namespace Shuffled

theorem refl (f : Forest) : Shuffled f f :=
  ⟨fun _ => rfl, fun _ => rfl, fun _ _ _ => .rfl⟩

theorem trans (hfg : Shuffled f g) (hgh : Shuffled g h) : Shuffled f h where
  alive x := (hgh.alive x).trans (hfg.alive x)
  handles x := (hgh.handles x).trans (hfg.handles x)
  slots p j x := (hgh.slots p j x).trans (hfg.slots p j x)

theorem isLoose (hfg : Shuffled f g) (x : NodeId) :
    g.isLoose x = f.isLoose x := by
  rw [Bool.eq_iff_iff, isLoose_iff, isLoose_iff, hfg.alive, hfg.handles]
  simp only [mem_children_iff, hfg.slots]

end Shuffled

/-- Steps that keep who is alive, handles and slots are `Shuffled`. -/
theorem shuffled_of_eq (halive : ∀ x, g.isAlive x = f.isAlive x)
    (hhandles : ∀ x, (g.node x).handles = (f.node x).handles)
    (hslots : ∀ x, (g.node x).slots = (f.node x).slots) : Shuffled f g :=
  ⟨halive, hhandles, fun p j x => by rw [slot_congr (hslots p)]⟩

theorem shuffled_update (m : NodeId) {k : Node → Node}
    (hhandles : ∀ x, (k x).handles = x.handles)
    (hslots : ∀ x, (k x).slots = x.slots) : Shuffled f (f.update m k) :=
  shuffled_of_eq (isAlive_update f m · k)
    (f.field_update (F := Node.handles) hhandles m)
    (f.field_update (F := Node.slots) hslots m)

theorem shuffled_detach (o n : NodeId) : Shuffled f (f.detach o n) :=
  shuffled_of_eq (f.isAlive_detach o n)
    (f.field_detach (F := Node.handles) (fun _ _ _ => rfl) o n)
    (f.slots_detach o n)

theorem shuffled_commit (o : NodeId) : Shuffled f (f.commit o) :=
  shuffled_of_eq (isAlive_commit f o)
    (f.field_commit (F := Node.handles) (fun _ _ _ => rfl) o)
    (slots_commit f o)

theorem shuffled_beginTraversal (o : NodeId) :
    Shuffled f (f.beginTraversal o) :=
  shuffled_update o (fun _ => rfl) fun _ => rfl

theorem shuffled_endTraversal (checks : Checks) (o : NodeId) :
    Shuffled f (endTraversal checks o f).state := by
  unfold endTraversal
  split
  · exact .refl f
  · exact shuffled_update o (fun _ => rfl) fun _ => rfl

/-- `setSlot` of the same nodes in another order is `Shuffled`. -/
theorem shuffled_setSlot (hitems : ∀ x, x ∈ items ↔ x ∈ f.slot o i) :
    Shuffled f (f.setSlot o i items) where
  alive := isAlive_setSlot f o i items
  handles := f.field_setSlot (F := Node.handles) (fun _ _ => rfl) o i items
  slots p j x := by
    by_cases hpo : p = o
    case neg => rw [slot_congr (slots_setSlot_ne f i items hpo)]
    subst hpo
    by_cases hji : j = i
    case neg => rw [slot_setSlot_ne f p items hji]
    subst hji
    constructor
    · exact fun hx => (hitems x).mp (mem_of_mem_slot_setSlot hx)
    · intro hx
      have hp := f.alive_of_mem_children (f.mem_children_of_mem_slot hx)
      exact mem_slot_setSlot hp (lt_of_mem_slot hx) ((hitems x).mpr hx)

/-- Holding a stored node for a while. It is not freed when it is given
back, because it is stored. -/
theorem shuffled_release (hfg : Shuffled (f.hold n) g)
    (hlive : f.isAlive n = true) (hn : n ∈ f.slot o i) :
    Shuffled f (g.release n) := by
  have hhold : ∀ x, ((f.hold n).node x).slots = (f.node x).slots :=
    (alike_hold n).slots
  have hback : Shuffled f
      (g.update n fun x => { x with handles := x.handles - 1 }) := by
    have hgn : g.isAlive n = true :=
      (hfg.alive n).trans ((isAlive_hold f n n).trans hlive)
    refine ⟨fun x => ?_, fun x => ?_, fun p j x => ?_⟩
    · rw [isAlive_update, hfg.alive, isAlive_hold]
    · by_cases hx : x = n
      · subst hx
        rw [node_update_self g hgn]
        dsimp only
        rw [hfg.handles, hold, node_update_self f hlive]
        exact Nat.add_sub_cancel ..
      · rw [node_update_ne g hx, hfg.handles, hold, node_update_ne f hx]
    · have hslots : ((g.update n fun x =>
          { x with handles := x.handles - 1 }).node p).slots
            = (g.node p).slots :=
        g.field_update (F := Node.slots) (by intro _; rfl) n p
      rw [slot_congr hslots, hfg.slots, slot_congr (hhold p)]
  rw [release, reap_of_kept]
  · exact hback
  · exact isLoose_of_mem_children
      (mem_children_of_mem_slot _ ((hback.slots o i n).mpr hn))

-- =============================================================== thinning

/-- From `f` to `g`, elements were taken out of slot `i` of `o`, but none of
`kept`. Of `due` it still has to let go. -/
inductive Thins (o : NodeId) (i : Nat) (kept : List NodeId) (f : Forest) :
    List NodeId → Forest → Prop where
  | start : Thins o i kept f [] f
  | shuffle {due : List NodeId} {g h : Forest}
      (hg : Thins o i kept f due g) (hgh : Shuffled g h) :
      Thins o i kept f due h
  | store {due more : List NodeId} {g : Forest}
      (hg : Thins o i kept f due g) {items : List NodeId}
      (hkept : ∀ n ∈ kept, n ∈ items) (hitems : ∀ n ∈ items, n ∈ g.slot o i)
      (hdue : ∀ n ∈ due, n ∈ more)
      (hlost : ∀ n ∈ g.slot o i, n ∈ items ∨ n ∈ more) :
      Thins o i kept f more (g.setSlot o i items)
  | free {n : NodeId} {due : List NodeId} {g : Forest}
      (hg : Thins o i kept f (n :: due) g) (hn : n ∈ f.slot o i) :
      Thins o i kept f due (g.reap n)

/-- Slot `j` of `p` holds `x`, and goes on holding it if slot `i` of `o`
keeps only `kept`. -/
def HoldsOn (o : NodeId) (i : Nat) (kept : List NodeId) (f : Forest)
    (p : NodeId) (j : Nat) (x : NodeId) : Prop :=
  x ∈ f.slot p j ∧ (p = o → j = i → x ∈ kept)

namespace Thins

theorem reapAll {ns : List NodeId} (hg : Thins o i kept f ns g)
    (hns : ∀ n ∈ ns, n ∈ f.slot o i) : Thins o i kept f [] (g.reapAll ns) := by
  induction ns generalizing g with
  | nil => exact hg
  | cons n rest ih =>
      exact ih (hg.free (hns n (.head _))) fun m hm => hns m (.tail _ hm)

theorem survivor (hg : Thins o i kept f due g) (hx : g.isAlive x = true) :
    f.isAlive x = true := by
  induction hg with
  | start => exact hx
  | shuffle _ hgh ih => exact ih ((hgh.alive x).symm.trans hx)
  | store _ _ _ _ _ ih => exact ih ((isAlive_setSlot ..).symm.trans hx)
  | free _ _ ih => exact ih ((sheds_reap _ _).survivor hx)

theorem handles (hg : Thins o i kept f due g) (hx : g.isAlive x = true) :
    (g.node x).handles = (f.node x).handles := by
  induction hg with
  | start => rfl
  | shuffle _ hgh ih =>
      exact (hgh.handles x).trans (ih ((hgh.alive x).symm.trans hx))
  | @store _ _ g _ items _ _ _ _ ih =>
      rw [g.field_setSlot (F := Node.handles) fun _ _ => rfl]
      exact ih ((isAlive_setSlot ..).symm.trans hx)
  | free _ _ ih =>
      rw [(sheds_reap _ _).node_eq hx]
      exact ih ((sheds_reap _ _).survivor hx)

/-- After `Thins` every slot holds only nodes that it held. -/
theorem within (hg : Thins o i kept f due g) (hx : x ∈ g.slot p j) :
    x ∈ f.slot p j := by
  induction hg with
  | start => exact hx
  | shuffle _ hgh ih => exact ih ((hgh.slots p j x).mp hx)
  | @store _ _ g _ items _ hitems _ _ ih =>
      by_cases hpo : p = o
      · by_cases hji : j = i
        · subst hpo hji
          exact ih (hitems x (mem_of_mem_slot_setSlot hx))
        · rw [slot_setSlot_ne g o items hji] at hx
          exact ih hx
      · rw [slot_congr (slots_setSlot_ne g i items hpo)] at hx
        exact ih hx
  | @free n _ g _ _ ih =>
      have hp := alive_of_mem_children _ (mem_children_of_mem_slot _ hx)
      rw [slot, (sheds_reap g n).node_eq hp] at hx
      exact ih hx

/-- If slot `j` of `p` `HoldsOn` to `x`, it holds `x` after `Thins`, if `p` is
alive. -/
theorem holds (hg : Thins o i kept f due g) (hx : HoldsOn o i kept f p j x)
    (hp : g.isAlive p = true) : x ∈ g.slot p j := by
  induction hg with
  | start => exact hx.1
  | shuffle _ hgh ih =>
      exact (hgh.slots p j x).mpr (ih ((hgh.alive p).symm.trans hp))
  | @store _ _ g _ items hkept _ _ _ ih =>
      rw [isAlive_setSlot] at hp
      have hmem := ih hp
      by_cases hpo : p = o
      · by_cases hji : j = i
        · rw [hpo, hji] at hmem ⊢
          exact mem_slot_setSlot (hpo ▸ hp) (lt_of_mem_slot hmem)
            (hkept x (hx.2 hpo hji))
        · rwa [slot_setSlot_ne g o items hji]
      · rwa [slot_congr (slots_setSlot_ne g i items hpo)]
  | @free n _ g _ _ ih =>
      rw [slot, (sheds_reap g n).node_eq hp]
      exact ih ((sheds_reap g n).survivor hp)

/-- After `Thins` a loose node was loose before, or is `due`. -/
theorem loose (hg : Thins o i kept f due g) (hx : g.isLoose x = true) :
    f.isLoose x = true ∨ x ∈ due := by
  induction hg with
  | start => exact .inl hx
  | shuffle _ hgh ih => exact ih ((hgh.isLoose x).symm.trans hx)
  | @store _ more _ _ _ _ _ hdue hlost ih =>
      by_cases hmore : x ∈ more
      · exact .inr hmore
      · exact (ih (isLoose_of_setSlot hx fun hmem =>
          (hlost x hmem).resolve_right hmore)).imp_right (hdue x)
  | free _ _ ih =>
      obtain ⟨hx, hne⟩ := isLoose_reap hx
      exact (ih hx).imp_right fun hmem =>
        (List.mem_cons.mp hmem).resolve_left hne

end Thins

-- =============================================================== the doomed

/-- `x` is freed if slot `i` of `o` keeps only `kept`: it has no handle, and
every node that goes on holding it is `Doomed` itself. A node that was loose
before is not let go of, so it is not doomed. -/
inductive Doomed (o : NodeId) (i : Nat) (kept : List NodeId) (f : Forest) :
    NodeId → Prop where
  | lost {x : NodeId} (hhandles : (f.node x).handles = 0)
      (hheld : f.isLoose x = false)
      (hholders : ∀ p j, HoldsOn o i kept f p j x → Doomed o i kept f p) :
      Doomed o i kept f x

namespace Thins

/-- A node that is loose now, and was let go of, is doomed if all those are
who were freed so far. -/
private theorem doomed_of_loose (hg : Thins o i kept f due g)
    (hgh : Sheds g h)
    (hfreed : ∀ p, f.isAlive p = true → h.isAlive p = false →
      Doomed o i kept f p)
    (hn : n ∈ f.slot o i) (hreach : Relation.ReflTransGen g.Holds n x)
    (hx : h.isLoose x = true) : Doomed o i kept f x := by
  obtain ⟨hhx, hhandles, hfree⟩ := isLoose_iff.mp hx
  have hgx := hgh.survivor hhx
  refine .lost ?_ ?_ fun p j hp => ?_
  · rw [← hg.handles hgx, ← hgh.node_eq hhx, hhandles]
  · -- it was held: by the slot, or by whoever let it go
    have hheld : ∃ p, x ∈ f.children p := by
      rcases Relation.ReflTransGen.cases_tail hreach with rfl | ⟨p, -, hp⟩
      · exact ⟨o, f.mem_children_of_mem_slot hn⟩
      · obtain ⟨j, hj⟩ := mem_children_iff.mp hp
        exact ⟨p, f.mem_children_of_mem_slot (hg.within hj)⟩
    obtain ⟨p, hp⟩ := hheld
    exact isLoose_of_mem_children hp
  · have hfp := f.alive_of_mem_children (f.mem_children_of_mem_slot hp.1)
    refine hfreed p hfp (Bool.eq_false_iff.mpr fun hhp => hfree p ?_)
    have hmem := hg.holds hp (hgh.survivor hhp)
    rw [children_eq, hgh.node_eq hhp]
    exact g.mem_children_of_mem_slot hmem

/-- A node that `Thins` freed is `Doomed`. -/
theorem doomed (hg : Thins o i kept f due g) (hf : f.isAlive x = true)
    (hx : g.isAlive x = false) : Doomed o i kept f x := by
  induction hg generalizing x with
  | start =>
      rw [hf] at hx
      cases hx
  | shuffle _ hgh ih => exact ih hf ((hgh.alive x).symm.trans hx)
  | store _ _ _ _ _ ih => exact ih hf ((isAlive_setSlot ..).symm.trans hx)
  | @free n _ g hg hn ih =>
      have hfrees := frees_reap g n
      generalize g.reap n = k at hfrees hx
      induction hfrees generalizing x with
      | refl => exact ih hf hx
      | @free k m hk hm hloose ihk =>
          rw [isAlive_erase] at hx
          split at hx
          case isTrue hxm =>
            exact hxm ▸ hg.doomed_of_loose hk.sheds (fun _ => ihk) hn hm
              hloose
          case isFalse => exact ihk hf hx

/-- If nobody is due, and the slot holds only `kept`, then `Thins` has freed
all who are `Doomed`. -/
theorem freed (hg : Thins o i kept f [] g)
    (hend : ∀ n ∈ g.slot o i, n ∈ kept) (hx : Doomed o i kept f x) :
    g.isAlive x = false := by
  induction hx with
  | @lost x hhandles hheld _ ih =>
      refine Bool.eq_false_iff.mpr fun hgx => ?_
      have hloose : g.isLoose x = true := by
        refine isLoose_iff.mpr ⟨hgx, (hg.handles hgx).trans hhandles,
          fun p hp => ?_⟩
        obtain ⟨j, hj⟩ := mem_children_iff.mp hp
        have hdead := ih p j ⟨hg.within hj, fun hpo hji =>
          hend x (hpo ▸ hji ▸ hj)⟩
        rw [g.alive_of_mem_children hp] at hdead
        cases hdead
      rcases hg.loose hloose with hl | hl
      · rw [hheld] at hl
        cases hl
      · cases hl

/-- After such `Thins` exactly those are alive who were and are not `Doomed`.
-/
theorem isAlive_iff (hg : Thins o i kept f [] g)
    (hend : ∀ n ∈ g.slot o i, n ∈ kept) :
    g.isAlive x = true ↔ f.isAlive x = true ∧ ¬ Doomed o i kept f x := by
  constructor
  · intro hx
    refine ⟨hg.survivor hx, fun hdoomed => ?_⟩
    rw [hg.freed hend hdoomed] at hx
    cases hx
  · rintro ⟨hf, hspared⟩
    cases hx : g.isAlive x with
    | true => rfl
    | false => exact absurd (hg.doomed hf hx) hspared

/-- Two such `Thins` free the same nodes. -/
theorem isAlive_eq (hg : Thins o i kept f [] g) (hh : Thins o i kept f [] h)
    (hendg : ∀ n ∈ g.slot o i, n ∈ kept)
    (hendh : ∀ n ∈ h.slot o i, n ∈ kept) (x : NodeId) :
    h.isAlive x = g.isAlive x := by
  rw [Bool.eq_iff_iff, hh.isAlive_iff hendh, hg.isAlive_iff hendg]

end Thins

end InstructionTree.Forest
