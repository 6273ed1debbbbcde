/-
The way up from a node, as a relation, and what keeps it finite.

`ancestors` climbs at most as many steps as there are identities. A way
that ends visits no node twice (`Way.nodup`), and all nodes on it are
alive, so it is never longer than that: where the way ends, `ancestors`
is all of it (`ancestors_eq`).

# Why entering keeps ways finite

Letting `c` enter a slot of `o` redirects the way up from `c` through
`o`. If `c` was neither `o` nor above it, the way up from `o` does not
meet `c` and stays what it was, so the redirected ways end too
(`rooted_enter`). This is the whole reason behind the check that an
attach makes. Dropping links only makes ways shorter (`Rooted.mono`).
-/
import InstructionTree.Proofs.Forest.Shedding
import Mathlib.Data.List.Nodup
import Mathlib.Data.List.Perm.Subperm
import Mathlib.Logic.Relation

namespace InstructionTree.Forest

variable {f g : Forest}

-- ======================================================== the parent

theorem parent?_eq_some_iff {n p : NodeId} :
    f.parent? n = some p
      ↔ (f.node n).link = some p ∧ f.isAlive p = true := by
  simp [parent?, Option.filter_eq_some_iff]

/-- A slot of `p` holds `c`. -/
abbrev Holds (f : Forest) (p c : NodeId) : Prop := c ∈ f.children p

/-- A list of different live nodes is not longer than `f.size`. -/
theorem length_le_size {l : List NodeId} (hnodup : l.Nodup)
    (halive : ∀ n ∈ l, f.isAlive n = true) : l.length ≤ f.size := by
  have hinj : (l.map NodeId.index).Nodup :=
    List.Nodup.map (fun a b hab => by cases a; cases b; simpa using hab)
      hnodup
  have hsub : l.map NodeId.index ⊆ List.range f.size := by
    intro i hi
    obtain ⟨m, hm, rfl⟩ := List.mem_map.mp hi
    exact List.mem_range.mpr (f.index_lt_of_alive (halive m hm))
  have hle := (hinj.subperm hsub).length_le
  rwa [List.length_map, List.length_range] at hle

-- =========================================================== the way up

/-- The complete way up from `n`, nearest first. -/
inductive Way (f : Forest) : NodeId → List NodeId → Prop where
  | root {n : NodeId} (h : f.parent? n = none) : Way f n []
  | up {n p : NodeId} {rest : List NodeId} (h : f.parent? n = some p)
      (hrest : Way f p rest) : Way f n (p :: rest)

/-- The way up from `n` ends. -/
def Rooted (f : Forest) (n : NodeId) : Prop := ∃ l, f.Way n l

namespace Way

variable {n m : NodeId} {l l' : List NodeId}

/-- `Way` determines the list of nodes above `n`. -/
theorem unique (h : f.Way n l) (h' : f.Way n l') : l = l' := by
  induction h generalizing l' with
  | root hp =>
      cases h' with
      | root => rfl
      | up hp' => rw [hp] at hp'; cases hp'
  | up hp _ ih =>
      cases h' with
      | root hp' => rw [hp] at hp'; cases hp'
      | up hp' hrest' =>
          rw [hp] at hp'
          cases hp'
          rw [ih hrest']

/-- From a node on the way there is a `Way`, which is shorter. -/
theorem of_mem (h : f.Way n l) (hm : m ∈ l) :
    ∃ l', f.Way m l' ∧ l'.length < l.length := by
  induction h with
  | root => cases hm
  | @up n p rest hp hrest ih =>
      rcases List.mem_cons.mp hm with rfl | hm'
      · exact ⟨rest, hrest, by simp⟩
      · obtain ⟨l', hl', hlt⟩ := ih hm'
        exact ⟨l', hl', by simp only [List.length_cons]; omega⟩

/-- `n` is not on its own way. -/
theorem not_mem_self (h : f.Way n l) : n ∉ l := by
  intro hn
  obtain ⟨l', hl', hlt⟩ := h.of_mem hn
  rw [h.unique hl'] at hlt
  exact absurd hlt (Nat.lt_irrefl _)

/-- A `Way` has no repetitions. -/
theorem nodup (h : f.Way n l) : l.Nodup := by
  induction h with
  | root => exact List.nodup_nil
  | up _ hrest ih => exact List.nodup_cons.mpr ⟨hrest.not_mem_self, ih⟩

/-- The nodes on a `Way` are alive. -/
theorem alive (h : f.Way n l) (hm : m ∈ l) : f.isAlive m = true := by
  induction h with
  | root => cases hm
  | up hp _ ih =>
      rcases List.mem_cons.mp hm with rfl | hm'
      · exact (parent?_eq_some_iff.mp hp).2
      · exact ih hm'

/-- A `Way` is not longer than `f.size`. -/
theorem length_le (h : f.Way n l) : l.length ≤ f.size :=
  length_le_size h.nodup fun _ hm => h.alive hm

/-- `ancestorsWithin` as many steps as the way has nodes is the whole way. -/
theorem ancestorsWithin_eq (h : f.Way n l) :
    ∀ {steps : Nat}, l.length ≤ steps → f.ancestorsWithin steps n = l := by
  induction h with
  | @root n hp =>
      intro steps _
      cases steps with
      | zero => rfl
      | succ steps => simp [ancestorsWithin, hp]
  | @up n p rest hp _ ih =>
      intro steps hle
      cases steps with
      | zero => simp at hle
      | succ steps =>
          simp only [ancestorsWithin, hp]
          rw [ih (by simpa using hle)]

/-- Where the way up ends, `ancestors` is all of it. -/
theorem ancestors_eq (h : f.Way n l) : f.ancestors n = l :=
  h.ancestorsWithin_eq h.length_le

/-- The way of `n` has exactly the nodes that climbing from `n` reaches. -/
theorem mem_iff (h : f.Way n l) :
    m ∈ l ↔ Relation.TransGen (fun a b => f.parent? a = some b) n m := by
  induction h with
  | @root n hp =>
      constructor
      · intro hm
        cases hm
      · intro hm
        obtain ⟨b, hb, -⟩ := Relation.TransGen.head'_iff.mp hm
        rw [hp] at hb
        cases hb
  | @up n p rest hp _ ih =>
      rw [List.mem_cons, Relation.TransGen.head'_iff]
      constructor
      · rintro (rfl | hm)
        · exact ⟨m, hp, .refl⟩
        · exact ⟨p, hp, (ih.mp hm).to_reflTransGen⟩
      · rintro ⟨b, hb, hbm⟩
        rw [hp] at hb
        cases hb
        rcases Relation.reflTransGen_iff_eq_or_transGen.mp hbm with rfl | hbm
        · exact .inl rfl
        · exact .inr (ih.mpr hbm)

end Way

/-- `isDescendantOf` answers `true` exactly for `n` and the nodes that climbing
from it reaches. -/
theorem isDescendantOf_iff {n a : NodeId} (h : f.Rooted n) :
    f.isDescendantOf n a = true
      ↔ Relation.ReflTransGen (fun a b => f.parent? a = some b) n a := by
  obtain ⟨l, hl⟩ := h
  rw [isDescendantOf, hl.ancestors_eq, Bool.or_eq_true, beq_iff_eq,
    List.contains_iff_mem, hl.mem_iff,
    Relation.reflTransGen_iff_eq_or_transGen, eq_comm]

-- ================================================ keeping ways finite

/-- If `g` has no parent that `f` has not, a node that is `Rooted` in `f` is so
in `g`. -/
theorem Rooted.mono {n : NodeId} (h : f.Rooted n)
    (hfewer : ∀ m p, g.parent? m = some p → f.parent? m = some p) :
    g.Rooted n := by
  obtain ⟨l, hl⟩ := h
  induction hl with
  | @root n hp =>
      refine ⟨[], .root ?_⟩
      cases hg : g.parent? n with
      | none => rfl
      | some p =>
          have hf := hfewer n p hg
          rw [hp] at hf
          cases hf
  | @up n p rest hp _ ih =>
      cases hg : g.parent? n with
      | none => exact ⟨[], .root hg⟩
      | some q =>
          have hf := hfewer n q hg
          rw [hp] at hf
          cases hf
          obtain ⟨l, hl⟩ := ih
          exact ⟨p :: l, .up hg hl⟩

/-- A way that does not meet `c` does not see what links `c` gets. -/
theorem Way.congr {n c : NodeId} {l : List NodeId} (h : f.Way n l)
    (hsame : ∀ m, m ≠ c → g.parent? m = f.parent? m) (hn : n ≠ c)
    (hc : c ∉ l) : g.Way n l := by
  induction h with
  | @root n hp => exact .root (by rw [hsame n hn, hp])
  | @up n p rest hp _ ih =>
      rw [List.mem_cons, not_or] at hc
      exact .up (by rw [hsame n hn, hp]) (ih (Ne.symm hc.1) hc.2)

theorem parent?_enter_ne {o c m : NodeId} (hne : m ≠ c) :
    (f.enter o c).parent? m = f.parent? m := by
  unfold parent? enter
  rw [node_update_ne f hne]
  congr 1
  exact funext fun p => f.isAlive_update ..

/-- `enter` keeps all nodes `Rooted`, unless the owner is the child or below
it. -/
theorem rooted_enter {o c : NodeId} (hall : ∀ n, f.Rooted n)
    (hbelow : f.isDescendantOf o c = false) (n : NodeId) :
    (f.enter o c).Rooted n := by
  obtain ⟨up, hup⟩ := hall o
  have hclear : o ≠ c ∧ c ∉ up := by
    rw [isDescendantOf, hup.ancestors_eq] at hbelow
    simpa using hbelow
  have howner : (f.enter o c).Way o up :=
    hup.congr (fun m => parent?_enter_ne) hclear.1 hclear.2
  -- the way up from `c` is the owner's, or ends at once
  have hchild : (f.enter o c).Rooted c := by
    cases hp : (f.enter o c).parent? c with
    | none => exact ⟨[], .root hp⟩
    | some p =>
        by_cases hpo : p = o
        · exact ⟨p :: up, .up hp (hpo ▸ howner)⟩
        · exfalso
          have hlink := (parent?_eq_some_iff.mp hp).1
          by_cases hc : f.isAlive c = true
          · unfold enter at hlink
            rw [node_update_self f hc] at hlink
            exact hpo (Option.some.inj hlink).symm
          · have hdead : (f.enter o c).isAlive c = false := by
              simpa using hc
            rw [node_of_not_alive _ hdead] at hlink
            cases hlink
  obtain ⟨l, hl⟩ := hall n
  induction hl with
  | @root n hp =>
      by_cases hn : n = c
      · exact hn ▸ hchild
      · exact ⟨[], .root (by rw [parent?_enter_ne hn, hp])⟩
  | @up n p rest hp _ ih =>
      by_cases hn : n = c
      · exact hn ▸ hchild
      · obtain ⟨l, hl⟩ := ih
        exact ⟨p :: l, .up (by rw [parent?_enter_ne hn, hp]) hl⟩

end InstructionTree.Forest
