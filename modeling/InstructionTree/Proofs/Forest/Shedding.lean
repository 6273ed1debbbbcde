/-
What letting go of nodes can do to a forest.

`reap` walks down from a node and frees what nobody keeps. Which nodes it
frees depends on the order of the walk; what every proof needs of it does
not: it frees loose nodes one after the other, and does nothing else.
`Sheds` is that relation, and each fact about freeing is an induction over
it.

# What survives

A survivor reads as before (`Sheds.node_eq`). A node with a handle
survives, and so does a child of a survivor, if all children were alive
before (`Closed`): a node that a live slot holds is not loose.
-/
import InstructionTree.Proofs.Forest.Fields

namespace InstructionTree.Forest

-- ======================================================= who is loose

/-- A slot of a live node holds `n` exactly if `n` is a child. -/
theorem isHeld_iff {f : Forest} {n : NodeId} :
    f.isHeld n = true ↔ ∃ p, n ∈ f.children p := by
  unfold isHeld
  rw [List.any_eq_true]
  constructor
  · rintro ⟨cell, hcell, hholds⟩
    cases cell with
    | none => cases hholds
    | some x =>
        obtain ⟨i, hi⟩ := List.mem_iff_getElem?.mp hcell
        rw [Array.getElem?_toList] at hi
        have hget : f.get? ⟨i⟩ = some x := by
          simp [get?, hi]
        refine ⟨⟨i⟩, ?_⟩
        rw [children_eq, node_of_get? hget]
        obtain ⟨items, hitems, hn⟩ := List.any_eq_true.mp hholds
        exact List.mem_flatten.mpr ⟨items, hitems, by simpa using hn⟩
  · rintro ⟨p, hp⟩
    have hget := f.get?_of_alive (f.alive_of_mem_children hp)
    refine ⟨some (f.node p), ?_, ?_⟩
    · have hcell : f.cells[p.index]? = some (some (f.node p)) := by
        simpa [get?, Option.join_eq_some_iff] using hget
      exact List.mem_of_getElem? (by rwa [Array.getElem?_toList])
    · obtain ⟨items, hitems, hn⟩ := List.mem_flatten.mp hp
      exact List.any_eq_true.mpr ⟨items, hitems, by simpa using hn⟩

/-- A loose node is alive, without a handle, and nobody's child. -/
theorem isLoose_iff {f : Forest} {n : NodeId} :
    f.isLoose n = true
      ↔ f.isAlive n = true ∧ (f.node n).handles = 0
        ∧ ∀ p, n ∉ f.children p := by
  unfold isLoose
  cases hget : f.get? n with
  | none => simp [isAlive, hget]
  | some x =>
      have hheld : f.isHeld n = false ↔ ∀ p, n ∉ f.children p := by
        rw [← Bool.not_eq_true, isHeld_iff, not_exists]
      simp [isAlive, hget, node_of_get? hget, hheld]

/-- A node with a handle is not loose. -/
theorem isLoose_of_handles {f : Forest} {n : NodeId}
    (hn : 0 < (f.node n).handles) : f.isLoose n = false :=
  Bool.eq_false_iff.mpr fun hloose =>
    Nat.ne_of_gt hn (isLoose_iff.mp hloose).2.1

/-- A node that a live slot holds is not loose. -/
theorem isLoose_of_mem_children {f : Forest} {n p : NodeId}
    (hn : n ∈ f.children p) : f.isLoose n = false :=
  Bool.eq_false_iff.mpr fun hloose => (isLoose_iff.mp hloose).2.2 p hn

-- =========================================================== shedding

/-- `g` is `f` after loose nodes were freed, one after the other. -/
inductive Sheds (f : Forest) : Forest → Prop where
  | refl : Sheds f f
  | free {g : Forest} (n : NodeId) (hg : Sheds f g)
      (hloose : g.isLoose n = true) : Sheds f (g.erase n)

namespace Sheds

variable {f g h : Forest}

theorem trans (hfg : Sheds f g) (hgh : Sheds g h) : Sheds f h := by
  induction hgh with
  | refl => exact hfg
  | free n _ hloose ih => exact .free n ih hloose

/-- `Sheds` keeps the size. -/
theorem size_eq (hfg : Sheds f g) : g.size = f.size := by
  induction hfg with
  | refl => rfl
  | free n _ _ ih => rw [size_erase, ih]

theorem overdrafts_eq (hfg : Sheds f g) : g.overdrafts = f.overdrafts := by
  induction hfg with
  | refl => rfl
  | free _ _ _ ih => exact ih

/-- A node that is alive after `Sheds` was alive before. -/
theorem survivor (hfg : Sheds f g) {n : NodeId}
    (halive : g.isAlive n = true) : f.isAlive n = true := by
  induction hfg with
  | refl => exact halive
  | free m _ _ ih =>
      rw [isAlive_erase] at halive
      split at halive
      · cases halive
      · exact ih halive

/-- A node that is alive after `Sheds` has the record it had. -/
theorem node_eq (hfg : Sheds f g) {n : NodeId}
    (halive : g.isAlive n = true) : g.node n = f.node n := by
  induction hfg with
  | refl => rfl
  | @free g m _ _ ih =>
      have hne : n ≠ m := by
        rintro rfl
        simp [isAlive_erase] at halive
      rw [isAlive_erase, if_neg hne] at halive
      rw [node_erase_ne g hne, ih halive]

/-- `Sheds` frees no node with a handle. -/
theorem of_handle (hfg : Sheds f g) {n : NodeId}
    (hheld : 0 < (f.node n).handles) (halive : f.isAlive n = true) :
    g.isAlive n = true := by
  induction hfg with
  | refl => exact halive
  | @free g m hg hloose ih =>
      rw [isAlive_erase, if_neg ?_]
      · exact ih
      · rintro rfl
        rw [← hg.node_eq ih] at hheld
        rw [isLoose_of_handles hheld] at hloose
        cases hloose

end Sheds

-- ================================================= freeing is shedding

/-- A fold of steps that each `Sheds` does so as a whole. -/
theorem sheds_foldl {step : Forest → NodeId → Forest}
    (hstep : ∀ f n, Sheds f (step f n)) :
    ∀ (ns : List NodeId) (f : Forest), Sheds f (ns.foldl step f)
  | [], _ => .refl
  | n :: rest, f => (hstep f n).trans (sheds_foldl hstep rest (step f n))

theorem sheds_reapWithin :
    ∀ (depth : Nat) (f : Forest) (n : NodeId),
      Sheds f (reapWithin depth f n)
  | 0, _, _ => .refl
  | depth + 1, f, n => by
      unfold reapWithin
      split
      case isTrue hloose =>
        exact (Sheds.free n .refl hloose).trans
          (sheds_foldl (sheds_reapWithin depth) _ _)
      case isFalse => exact .refl

theorem sheds_reap (f : Forest) (n : NodeId) : Sheds f (f.reap n) :=
  sheds_reapWithin _ _ _

theorem sheds_reapAll (f : Forest) (ns : List NodeId) :
    Sheds f (f.reapAll ns) :=
  sheds_foldl sheds_reap ns f

theorem reapAll_singleton (f : Forest) (n : NodeId) :
    f.reapAll [n] = f.reap n := rfl

-- ============================================ what is kept is not freed

section

variable {f : Forest} {n : NodeId} {ns : List NodeId}

/-- `reapWithin` of a node that is not loose does nothing. -/
theorem reapWithin_of_kept (hn : f.isLoose n = false) (depth : Nat) :
    reapWithin depth f n = f := by
  cases depth with
  | zero => rfl
  | succ depth =>
      rw [reapWithin, hn]
      rfl

theorem reap_of_kept (hn : f.isLoose n = false) : f.reap n = f :=
  reapWithin_of_kept hn _

theorem foldl_of_kept {step : Forest → NodeId → Forest}
    (hstep : ∀ n, f.isLoose n = false → step f n = f)
    (hns : ∀ n ∈ ns, f.isLoose n = false) : ns.foldl step f = f := by
  induction ns with
  | nil => rfl
  | cons n rest ih =>
      rw [List.foldl_cons, hstep n (hns n (.head _))]
      exact ih fun m hm => hns m (.tail _ hm)

/-- `reapAll` of nodes with handles does nothing. -/
theorem reapAll_of_handles (hns : ∀ n ∈ ns, 0 < (f.node n).handles) :
    f.reapAll ns = f :=
  foldl_of_kept (fun _ => reap_of_kept) fun n hn =>
    isLoose_of_handles (hns n hn)

/-- `reap` of a loose node whose children have handles frees that node alone.
-/
theorem reap_eq_erase (hloose : f.isLoose n = true)
    (hkept : ∀ c ∈ f.children n, 0 < (f.node c).handles) :
    f.reap n = f.erase n := by
  obtain ⟨halive, -, hfree⟩ := isLoose_iff.mp hloose
  -- there is at least one level, that of `n`
  have hsize : f.size ≠ 0 :=
    Nat.ne_of_gt (Nat.zero_lt_of_lt (f.index_lt_of_alive halive))
  obtain ⟨depth, hdepth⟩ := Nat.exists_eq_succ_of_ne_zero hsize
  rw [reap, hdepth, reapWithin, if_pos hloose]
  refine foldl_of_kept (fun _ hm => reapWithin_of_kept hm depth)
    fun c hc => isLoose_of_handles ?_
  have hcn : c ≠ n := by
    rintro rfl
    exact hfree c hc
  rw [node_erase_ne f hcn]
  exact hkept c hc

end

-- ============================================================== closure

/-- No live slot holds a freed node. -/
def Closed (f : Forest) : Prop :=
  ∀ {p c : NodeId}, c ∈ f.children p → f.isAlive c = true

/-- `Sheds` keeps a forest `Closed`: a node is loose only if no slot holds it.
-/
theorem Sheds.closed {f g : Forest} (hfg : Sheds f g) (hclosed : f.Closed) :
    g.Closed := by
  induction hfg with
  | refl => exact hclosed
  | @free g m _ hloose ih =>
      intro p c hc
      have hp := (g.erase m).alive_of_mem_children hc
      have hpm : p ≠ m := by
        rintro rfl
        simp [isAlive_erase] at hp
      have hcg : c ∈ g.children p := by
        rw [Forest.children_eq] at hc ⊢
        rwa [node_erase_ne g hpm] at hc
      have hcm : c ≠ m := by
        rintro rfl
        exact (isLoose_iff.mp hloose).2.2 p hcg
      rw [isAlive_erase, if_neg hcm]
      exact ih hcg

end InstructionTree.Forest
