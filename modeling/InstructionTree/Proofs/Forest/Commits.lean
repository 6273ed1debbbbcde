/-
What a commit depends on.

A commit of `o` forgets cached flags on the way up from `o`, and its effect
on caches depends on that way alone (`Abreast`): where two forests lead up
from `o` in the same way and remember the same on it, commits forget the
same. A second commit finds nothing left to forget
(`cached_commit_commit`).
-/
import InstructionTree.Proofs.Forest.Informed

namespace InstructionTree.Forest

variable {f g h : Forest} {n o p : NodeId}

/-- `p` is `n` or above it. -/
abbrev Above (f : Forest) (n p : NodeId) : Prop :=
  Relation.ReflTransGen (fun a b => f.parent? a = some b) n p

theorem Above.alive (ho : f.isAlive o = true) (hp : f.Above o p) :
    f.isAlive p = true := by
  rcases Relation.ReflTransGen.cases_tail hp with rfl | ⟨m, -, hm⟩
  · exact ho
  · exact (parent?_eq_some_iff.mp hm).2

theorem mem_ancestorsWithin :
    ∀ {steps : Nat} {n : NodeId}, p ∈ f.ancestorsWithin steps n →
      f.Above n p
  | 0, _, h => by cases h
  | steps + 1, n, h => by
      unfold ancestorsWithin at h
      split at h
      · cases h
      next q hq =>
        rcases List.mem_cons.mp h with rfl | h
        · exact .single hq
        · exact .head hq (mem_ancestorsWithin h)

/-- A node that `isDescendantOf` finds is `Above`. -/
theorem above_of_isDescendantOf (h : f.isDescendantOf n p = true) :
    f.Above n p := by
  rcases Bool.or_eq_true_iff.mp h with hsame | hlisted
  · rw [beq_iff_eq.mp hsame]
  · exact mem_ancestorsWithin (List.contains_iff_mem.mp hlisted)

-- ============================================================== the same way

/-- From `o` upwards in `f`, `g` has the same parents and remembers the
same. -/
structure Abreast (o : NodeId) (f g : Forest) : Prop where
  parent : ∀ {p}, f.Above o p → g.parent? p = f.parent? p
  cached : ∀ {p}, f.Above o p → (g.node p).cached = (f.node p).cached

theorem Alike.above (hfg : Alike f g) : g.Above n = f.Above n := by
  unfold Above
  simp only [hfg.parent?]

theorem cached_dropCache (f : Forest) (m p : NodeId) :
    ((f.dropCache m).node p).cached
      = if p = m then none else (f.node p).cached := by
  split
  case isTrue hpm => exact hpm ▸ f.cached_dropCache_self p
  case isFalse hpm => rw [dropCache, node_update_ne f hpm]

theorem alike_dropCache (f : Forest) (m : NodeId) : Alike f (f.dropCache m) :=
  alike_update m (fun _ => rfl) fun _ => Nat.le_refl _

/-- `dropCache` of the same node keeps forests `Abreast`. -/
theorem Abreast.dropCache (hfg : Abreast o f g) (m : NodeId) :
    Abreast o (f.dropCache m) (g.dropCache m) := by
  have hf := alike_dropCache f m
  refine ⟨fun {p} hp => ?_, fun {p} hp => ?_⟩
  · rw [hf.above] at hp
    rw [(alike_dropCache g m).parent?, hf.parent?, hfg.parent hp]
  · rw [hf.above] at hp
    rw [cached_dropCache, cached_dropCache, hfg.cached hp]

theorem Abreast.dropCachesFrom :
    ∀ {steps : Nat} {next : Option NodeId} {f g : Forest},
      Abreast o f g → (∀ q, next = some q → f.Above o q) →
      Abreast o (dropCachesFrom steps next f) (dropCachesFrom steps next g)
  | 0, next, f, g, hfg, _ => by
      rw [show Forest.dropCachesFrom 0 next f = f from by cases next <;> rfl,
        show Forest.dropCachesFrom 0 next g = g from by cases next <;> rfl]
      exact hfg
  | steps + 1, none, f, g, hfg, _ => hfg
  | steps + 1, some q, f, g, hfg, hnext => by
      have hq := hnext q rfl
      have hf := alike_dropCache f q
      unfold Forest.dropCachesFrom
      rw [hfg.cached hq, hfg.parent hq]
      split
      · exact hfg
      · refine (hfg.dropCache q).dropCachesFrom fun r hr => ?_
        rw [hf.above]
        exact hq.tail hr

theorem alike_countBatch (f : Forest) (m : NodeId) :
    Alike f (f.countBatch m) :=
  alike_update m (fun _ => rfl) fun _ => Nat.le_refl _

theorem cached_countBatch (f : Forest) (m p : NodeId) :
    ((f.countBatch m).node p).cached = (f.node p).cached := by
  rw [countBatch]
  exact f.field_update (F := Node.cached) (by intro _; rfl) m p

/-- Forests that are abreast still are after commits of `o`. -/
theorem Abreast.commit (hfg : Abreast o f g) (hsize : g.size = f.size) :
    Abreast o (f.commit o) (g.commit o) := by
  have hf := alike_countBatch f o
  have hg := alike_countBatch g o
  have hcounted : Abreast o (f.countBatch o) (g.countBatch o) := by
    refine ⟨fun {p} hp => ?_, fun {p} hp => ?_⟩
    · rw [hf.above] at hp
      rw [hg.parent?, hf.parent?, hfg.parent hp]
    · rw [hf.above] at hp
      rw [cached_countBatch, cached_countBatch, hfg.cached hp]
  have hsizes : (g.countBatch o).size = (f.countBatch o).size := by
    rw [hg.size, hf.size, hsize]
  have hclimb : Abreast o ((f.countBatch o).invalidate o)
      ((g.countBatch o).invalidate o) := by
    unfold invalidate
    rw [hsizes, hcounted.parent .refl]
    refine (hcounted.dropCache o).dropCachesFrom fun q hq => ?_
    rw [(alike_dropCache _ o).above]
    exact .single hq
  exact ⟨hclimb.parent, hclimb.cached⟩

-- ============================================================ who forgets

/-- A climb that starts above `o` stays there. -/
theorem cached_dropCachesFrom_of_not_above (hp : ¬ f.Above o p) :
    ∀ {steps : Nat} {next : Option NodeId} {g : Forest}, Alike f g →
      (∀ q, next = some q → f.Above o q) →
      ((dropCachesFrom steps next g).node p).cached = (g.node p).cached
  | 0, next, g, _, _ => by
      rw [show Forest.dropCachesFrom 0 next g = g from by cases next <;> rfl]
  | steps + 1, none, g, _, _ => rfl
  | steps + 1, some q, g, hfg, hnext => by
      have hq := hnext q rfl
      unfold Forest.dropCachesFrom
      split
      · rfl
      · rw [cached_dropCachesFrom_of_not_above hp
          (hfg.trans (alike_dropCache g q)) fun r hr => ?_, cached_dropCache,
          if_neg fun hpq : p = q => hp (hpq ▸ hq)]
        rw [hfg.parent?] at hr
        exact hq.tail hr

/-- A commit of `o` is about `o` and what is above it. -/
theorem cached_commit_of_not_above (hp : ¬ f.Above o p) :
    ((f.commit o).node p).cached = (f.node p).cached := by
  have hcount := alike_countBatch f o
  have hdrop := hcount.trans (alike_dropCache (f.countBatch o) o)
  have hclimb : (((f.countBatch o).invalidate o).node p).cached
      = (((f.countBatch o).dropCache o).node p).cached := by
    refine cached_dropCachesFrom_of_not_above hp hdrop fun q hq => ?_
    rw [hcount.parent?] at hq
    exact .single hq
  refine hclimb.trans ?_
  rw [cached_dropCache, if_neg fun hpo : p = o => hp (hpo ▸ .refl),
    cached_countBatch]

/-- After a commit the parent of `o` remembers nothing. -/
theorem cached_parent_commit (hq : f.parent? o = some n) :
    ((f.commit o).node n).cached = none := by
  have hn := (parent?_eq_some_iff.mp hq).2
  have hsize : (f.countBatch o).size ≠ 0 := by
    rw [(alike_countBatch f o).size]
    exact Nat.ne_of_gt (Nat.zero_lt_of_lt (f.index_lt_of_alive hn))
  obtain ⟨steps, hsteps⟩ := Nat.exists_eq_succ_of_ne_zero hsize
  show (((f.countBatch o).invalidate o).node n).cached = none
  unfold invalidate
  rw [hsteps, (alike_countBatch f o).parent?, hq, Forest.dropCachesFrom]
  split
  case isTrue hnone => exact Option.isNone_iff_eq_none.mp hnone
  case isFalse =>
    exact (fades_dropCachesFrom n steps _ _).uncached
      (cached_dropCache_self _ n)

/-- A second `commit` of the same node changes no cached flags. -/
theorem cached_commit_commit (f : Forest) (o p : NodeId) :
    (((f.commit o).commit o).node p).cached
      = ((f.commit o).node p).cached := by
  have hself := (fades_commit f o o).2
  have hcommit := alike_commit (f := f) o
  have hparent : ∀ n, (f.commit o).parent? o = some n →
      ((f.commit o).node n).cached = none := by
    intro n hn
    rw [hcommit.parent?] at hn
    exact cached_parent_commit hn
  generalize f.commit o = g at hself hparent ⊢
  have hcount := alike_countBatch g o
  have hdrop : (((g.countBatch o).dropCache o).node p).cached
      = (g.node p).cached := by
    rw [cached_dropCache, cached_countBatch]
    split
    case isTrue hpo => rw [hpo, hself]
    case isFalse => rfl
  refine Eq.trans ?_ hdrop
  show (((g.countBatch o).invalidate o).node p).cached = _
  unfold invalidate
  rw [hcount.parent?]
  cases hnext : g.parent? o with
  | none => cases (g.countBatch o).size <;> rfl
  | some n =>
      cases (g.countBatch o).size with
      | zero => rfl
      | succ steps =>
          have hnone : (((g.countBatch o).dropCache o).node n).cached
              = none := by
            rw [cached_dropCache, cached_countBatch, hparent n hnext,
              ite_self]
          rw [Forest.dropCachesFrom, hnone]
          rfl

end InstructionTree.Forest
