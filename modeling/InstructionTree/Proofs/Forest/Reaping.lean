/-
What is let go of is freed, and nothing else.

`Sheds` is what freeing may do at most. An edit that lets go of a node
relies on more. Once `reap` has walked down from `n`, no node is loose that
was not loose before (`isLoose_reap`): the number of levels is no limit,
since every level frees a node. And whoever is freed can be reached from
`n` (`frees_reap`).
-/
import InstructionTree.Proofs.Forest.Lineage
import Mathlib.Data.Finset.Card

namespace InstructionTree.Forest

variable {f g h : Forest} {n x : NodeId}

-- ======================================================= how many there are

/-- The number of live nodes. -/
def population (f : Forest) : Nat :=
  ((Finset.range f.size).filter fun i => f.isAlive ⟨i⟩ = true).card

theorem population_le_size (f : Forest) : f.population ≤ f.size :=
  Nat.le_trans (Finset.card_filter_le ..)
    (Nat.le_of_eq (Finset.card_range f.size))

theorem population_pos (hn : f.isAlive n = true) : 0 < f.population :=
  Finset.card_pos.mpr ⟨n.index, Finset.mem_filter.mpr
    ⟨Finset.mem_range.mpr (f.index_lt_of_alive hn), hn⟩⟩

/-- `erase` of a live node makes `population` smaller. -/
theorem population_erase (hn : f.isAlive n = true) :
    (f.erase n).population < f.population := by
  refine Finset.card_lt_card (Finset.ssubset_iff_of_subset ?_ |>.mpr
    ⟨n.index, Finset.mem_filter.mpr
      ⟨Finset.mem_range.mpr (f.index_lt_of_alive hn), hn⟩, fun hgone => ?_⟩)
  · intro i hi
    obtain ⟨hlt, halive⟩ := Finset.mem_filter.mp hi
    rw [size_erase] at hlt
    rw [isAlive_erase] at halive
    split at halive
    · cases halive
    · exact Finset.mem_filter.mpr ⟨hlt, halive⟩
  · have halive := (Finset.mem_filter.mp hgone).2
    rw [isAlive_erase, if_pos rfl] at halive
    cases halive

theorem Sheds.population_le (hfg : Sheds f g) :
    g.population ≤ f.population := by
  induction hfg with
  | refl => exact Nat.le_refl _
  | free m _ hloose ih =>
      have hfewer := population_erase (isLoose_iff.mp hloose).1
      omega

-- ============================================================ completeness

/-- Freeing `n` makes only its children loose. -/
theorem isLoose_of_erase (hx : (f.erase n).isLoose x = true)
    (hchild : x ∉ f.children n) : f.isLoose x = true ∧ x ≠ n := by
  obtain ⟨halive, hhandles, hfree⟩ := isLoose_iff.mp hx
  have hxn : x ≠ n := by
    rintro rfl
    rw [isAlive_erase, if_pos rfl] at halive
    cases halive
  rw [isAlive_erase, if_neg hxn] at halive
  rw [node_erase_ne f hxn] at hhandles
  refine ⟨isLoose_iff.mpr ⟨halive, hhandles, fun p hp => ?_⟩, hxn⟩
  by_cases hpn : p = n
  · exact hchild (hpn ▸ hp)
  · refine hfree p ?_
    rwa [children_eq, node_erase_ne f hpn]

/-- `reapWithin` as many levels as `population` leaves nobody loose who was
not, and not `n`. -/
theorem isLoose_reapWithin :
    ∀ (depth : Nat) (f : Forest) (n : NodeId), f.population ≤ depth →
      ∀ x, (reapWithin depth f n).isLoose x = true →
        f.isLoose x = true ∧ x ≠ n := by
  intro depth
  induction depth with
  | zero =>
      intro f n hfew x hx
      have hpos := population_pos (isLoose_iff.mp hx).1
      exact absurd hfew (Nat.not_le_of_lt hpos)
  | succ depth ih =>
      have hall : ∀ (ns : List NodeId) (f : Forest), f.population ≤ depth →
          ∀ x, (ns.foldl (reapWithin depth) f).isLoose x = true →
            f.isLoose x = true ∧ x ∉ ns := by
        intro ns
        induction ns with
        | nil => exact fun _ _ _ hx => ⟨hx, List.not_mem_nil⟩
        | cons m rest ihrest =>
            intro f hfew x hx
            have hfewer := (sheds_reapWithin depth f m).population_le
            obtain ⟨hx, hrest⟩ := ihrest _ (by omega) x hx
            obtain ⟨hx, hxm⟩ := ih f m hfew x hx
            exact ⟨hx, fun hmem => (List.mem_cons.mp hmem).elim hxm hrest⟩
      intro f n hfew x hx
      unfold reapWithin at hx
      split at hx
      case isTrue hloose =>
        have hfewer := population_erase (isLoose_iff.mp hloose).1
        obtain ⟨hx, hchild⟩ := hall _ _ (by omega) x hx
        exact isLoose_of_erase hx hchild
      case isFalse hkept =>
        exact ⟨hx, fun hxn => hkept (hxn ▸ hx)⟩

/-- Letting go of `n` leaves no node loose that was not, and not `n`. -/
theorem isLoose_reap (hx : (f.reap n).isLoose x = true) :
    f.isLoose x = true ∧ x ≠ n :=
  isLoose_reapWithin f.size f n f.population_le_size x hx

-- ============================================================ who is freed

/-- `g` is `f` after loose nodes among `S` were freed, one after the
other. -/
inductive Frees (S : NodeId → Prop) (f : Forest) : Forest → Prop where
  | refl : Frees S f f
  | free {g : Forest} (n : NodeId) (hg : Frees S f g) (hn : S n)
      (hloose : g.isLoose n = true) : Frees S f (g.erase n)

namespace Frees

variable {S T : NodeId → Prop}

theorem sheds (hfg : Frees S f g) : Sheds f g := by
  induction hfg with
  | refl => exact .refl
  | free n _ _ hloose ih => exact ih.free n hloose

theorem trans (hfg : Frees S f g) (hgh : Frees S g h) : Frees S f h := by
  induction hgh with
  | refl => exact hfg
  | free n _ hn hloose ih => exact ih.free n hn hloose

theorem mono (hfg : Frees S f g) (hST : ∀ n, S n → T n) :
    Frees T f g := by
  induction hfg with
  | refl => exact .refl
  | free n _ hn hloose ih => exact ih.free n (hST n hn) hloose

theorem of_freed (hfg : Frees S f g) (hf : f.isAlive x = true)
    (hx : g.isAlive x = false) : S x := by
  induction hfg with
  | refl =>
      rw [hf] at hx
      cases hx
  | free n _ hn _ ih =>
      rw [isAlive_erase] at hx
      split at hx
      case isTrue hxn => exact hxn ▸ hn
      case isFalse => exact ih hx

end Frees

/-- What can be reached through slots after `Sheds` could be reached before. -/
theorem Sheds.reaches (hfg : Sheds f g)
    (hreach : Relation.ReflTransGen g.Holds n x) :
    Relation.ReflTransGen f.Holds n x := by
  induction hreach with
  | refl => exact .refl
  | tail _ hc ih =>
      refine ih.tail ?_
      rwa [Holds, children_eq, hfg.node_eq (g.alive_of_mem_children hc)]
        at hc

theorem frees_reapWithin :
    ∀ (depth : Nat) (f : Forest) (n : NodeId),
      Frees (Relation.ReflTransGen f.Holds n) f (reapWithin depth f n) := by
  intro depth
  induction depth with
  | zero => exact fun _ _ => .refl
  | succ depth ih =>
      have hall : ∀ (ns : List NodeId) (f g : Forest) (n : NodeId),
          Sheds f g → (∀ c ∈ ns, c ∈ f.children n) →
          Frees (Relation.ReflTransGen f.Holds n) g
            (ns.foldl (reapWithin depth) g) := by
        intro ns
        induction ns with
        | nil => exact fun _ _ _ _ _ => .refl
        | cons c rest ihrest =>
            intro f g n hfg hns
            have hfirst := (ih g c).mono fun x hx =>
              Relation.ReflTransGen.head (hns c (.head _)) (hfg.reaches hx)
            exact hfirst.trans (ihrest f _ n
              (hfg.trans (sheds_reapWithin depth g c))
              fun m hm => hns m (.tail _ hm))
      intro f n
      unfold reapWithin
      split
      case isTrue hloose =>
        exact (Frees.refl.free n .refl hloose).trans
          (hall _ f _ n (.free n .refl hloose) fun _ hc => hc)
      case isFalse => exact .refl

/-- Letting go of `n` frees only what can be reached from it. -/
theorem frees_reap (f : Forest) (n : NodeId) :
    Frees (Relation.ReflTransGen f.Holds n) f (f.reap n) :=
  frees_reapWithin f.size f n

end InstructionTree.Forest
