/-
Looking a node up: the cached place first, then a scan.

`Collection.indexOf?` looks among the elements of a collection,
`findChild?` among all children of a node. Both believe the cached place
of a node only where it leads back to the node, and scan otherwise, each
in its own way. `Finds` says for both of them what the answer is, without
saying anything about the cache but when it is right. So a cache can be as
wrong as it likes: it names another slot of the same owner, an index past
the end, or an owner that has been freed.
-/
import InstructionTree.Proofs.Forest.Indices

namespace InstructionTree

-- ================================================================= lookups

/-- The answer is the first index at which `m` is read, if there is one. -/
def Scans (read : Nat → Option NodeId) (m : NodeId)
    (answer : Option Nat) : Prop :=
  ∀ i, answer = some i ↔ read i = some m ∧ ∀ j < i, read j ≠ some m

/-- What a lookup of `m` answers among what is read: nothing if `m` is
nowhere, else an index at which it is. The index that the cached place of
`m` gives is the answer if it is `right`, and else the first one is. -/
structure Finds (read : Nat → Option NodeId) (m : NodeId)
    (right : Nat → Prop) (answer : Option Nat) : Prop where
  absent : answer = none ↔ ∀ i, read i ≠ some m
  here : ∀ {i}, answer = some i → read i = some m
  cached : ∀ {i}, right i → answer = some i
  first : (∀ i, ¬ right i) → Scans read m answer

namespace Finds

variable {read : Nat → Option NodeId} {m : NodeId} {right : Nat → Prop}
  {cached scan : Option Nat}

/-- If `Scans` answers none, `m` is read nowhere. -/
private theorem nowhere (hscan : Scans read m none) (i : Nat) :
    read i ≠ some m := by
  induction i using Nat.strongRecOn with
  | ind i ih =>
      intro hi
      cases (hscan i).mpr ⟨hi, ih⟩

/-- A look at the cached place and then a scan is `Finds`, if the cached place
is exact. -/
theorem or (hcached : ∀ i, cached = some i ↔ right i)
    (hthere : ∀ i, right i → read i = some m) (hscan : Scans read m scan) :
    Finds read m right (cached.or scan) where
  absent := by
    constructor
    · intro hnone
      obtain ⟨-, rfl⟩ := Option.or_eq_none_iff.mp hnone
      exact nowhere hscan
    · intro hnowhere
      refine Option.or_eq_none_iff.mpr
        ⟨Option.eq_none_iff_forall_ne_some.mpr fun i hi => ?_,
          Option.eq_none_iff_forall_ne_some.mpr fun i hi => ?_⟩
      · exact hnowhere i (hthere i ((hcached i).mp hi))
      · exact hnowhere i ((hscan i).mp hi).1
  here {i} hi := by
    rcases Option.or_eq_some_iff.mp hi with hi | ⟨-, hi⟩
    · exact hthere i ((hcached i).mp hi)
    · exact ((hscan i).mp hi).1
  cached {i} hi := by
    rw [(hcached i).mpr hi]
    rfl
  first hwrong := by
    have hnone : cached = none :=
      Option.eq_none_iff_forall_ne_some.mpr fun i hi =>
        hwrong i ((hcached i).mp hi)
    rw [hnone]
    exact hscan

/-- If `m` is read at one index only, `Finds` answers that. -/
theorem unique {answer : Option Nat} {i : Nat}
    (h : Finds read m right answer) (hi : read i = some m)
    (honce : ∀ j, read j = some m → j = i) : answer = some i := by
  cases hanswer : answer with
  | none => exact absurd hi (h.absent.mp hanswer i)
  | some j => rw [honce j (h.here hanswer)]

end Finds

namespace Forest

variable {f : Forest} {n m : NodeId}

-- ============================================================= all children

/-- Scanning slots comes to no index that is too large, if no slot but the
last one holds more than one node. -/
theorem le_of_scanSlots {slots : List (List NodeId)} {i a k r : Nat}
    {items : List NodeId}
    (hone : ∀ a items, slots[a]? = some items → a + 1 < slots.length →
      items.length ≤ 1)
    (hscan : scanSlots m i slots = some r) (ha : slots[a]? = some items)
    (hk : items[k]? = some m) : r ≤ i + a + k := by
  induction slots generalizing i a with
  | nil => cases hscan
  | cons first rest ih =>
      rw [scanSlots] at hscan
      cases a with
      | zero =>
          cases ha
          split at hscan
          next inner hfind =>
            cases hscan
            obtain ⟨_, _, hmin⟩ :=
              List.findIdx?_eq_some_iff_getElem.mp hfind
            obtain ⟨_, hm⟩ := List.getElem?_eq_some_iff.mp hk
            have hle : inner ≤ k := Nat.le_of_not_lt fun hearlier =>
              hmin k hearlier (beq_iff_eq.mpr hm)
            omega
          next hnone =>
            rw [List.findIdx?_eq_none_iff] at hnone
            simpa using hnone m (List.mem_of_getElem? hk)
      | succ a =>
          split at hscan
          next inner hfind =>
            -- others follow, so this slot holds nothing but the node
            cases hscan
            have hlen := hone 0 first rfl (by
              have := (List.getElem?_eq_some_iff.mp ha).1
              rw [List.length_cons] at this ⊢
              omega)
            have hlt := (List.findIdx?_eq_some_iff_getElem.mp hfind).1
            omega
          next =>
            have hrest := ih (fun b items hb hlt => hone (b + 1) items hb
              (Nat.succ_lt_succ hlt)) hscan ha
            omega

section

variable (hwf : f.WellFormed)
include hwf

/-- A slot that others follow holds one node at most. -/
theorem WellFormed.length_le_one {a : Nat} {items : List NodeId}
    (ha : (f.node n).slots[a]? = some items)
    (hnext : a + 1 < (f.node n).slots.length) : items.length ≤ 1 := by
  have hlt := (List.getElem?_eq_some_iff.mp ha).1
  refine Nat.le_of_not_lt fun htwo => ?_
  rw [← f.slot_of_getElem? ha] at htwo
  rcases hwf.room hlt 1 htwo with hzero | ⟨s, hlast, -⟩
  · cases hzero
  · omega

/-- `scanSlots` finds the smallest index at which `child?` reads `m`. -/
theorem WellFormed.scans_scanSlots (n m : NodeId) :
    Scans (f.child? n) m (scanSlots m 0 (f.node n).slots) := by
  have hfound : ∀ {r}, scanSlots m 0 (f.node n).slots = some r →
      f.child? n r = some m ∧ ∀ j < r, f.child? n j ≠ some m := by
    intro r hscan
    obtain ⟨a, k, items, ha, hk, hr⟩ := getElem?_of_scanSlots hscan
    have hlt := (List.getElem?_eq_some_iff.mp ha).1
    have hbound := (List.getElem?_eq_some_iff.mp hk).1
    rw [← f.slot_of_getElem? ha] at hk hbound
    have hlocate := locate?_add hlt (hwf.room hlt k hbound)
    rw [Nat.zero_add] at hr
    refine ⟨?_, fun j hj hchild => ?_⟩
    · rw [hr, child?_of_locate? hlocate, hk]
    · obtain ⟨b, k', hlocate', hk'⟩ := child?_eq_some.mp hchild
      obtain ⟨hb, hsum, -⟩ := locate?_eq_some hlocate'
      have hstored := List.getElem?_eq_getElem hb
      rw [f.slot_of_getElem? hstored] at hk'
      have hle := le_of_scanSlots (fun a items => hwf.length_le_one)
        hscan hstored hk'
      omega
  intro i
  refine ⟨hfound, ?_⟩
  rintro ⟨hi, hmin⟩
  cases hscan : scanSlots m 0 (f.node n).slots with
  | none =>
      exact absurd (mem_children_of_child? hi) (not_mem_of_scanSlots hscan)
  | some r =>
      obtain ⟨hr, hmin'⟩ := hfound hscan
      have hle : ¬ r < i := fun hlt => hmin r hlt hr
      have hge : ¬ i < r := fun hlt => hmin' i hlt hi
      rw [show r = i by omega]

/-- The children of `n` are searched for `m`. -/
theorem WellFormed.finds_child (n m : NodeId) :
    Finds (f.child? n) m
      (fun i => f.Accurate m n ∧ (f.node m).position = i)
      (f.findChild? n m) := by
  refine .or (fun i => ?_) (fun i hi => hi.2 ▸ hi.1.2)
    (hwf.scans_scanSlots n m)
  unfold cachedChild? Accurate
  dsimp only
  constructor
  · intro hi
    split at hi
    case isTrue hthere =>
      cases hi
      have halive := f.alive_of_mem_children
        (mem_children_of_child? hthere.2)
      exact ⟨⟨parent?_eq_some_iff.mpr ⟨hthere.1, halive⟩, hthere.2⟩, rfl⟩
    case isFalse => cases hi
  · rintro ⟨⟨hparent, hchild⟩, rfl⟩
    rw [if_pos ⟨(parent?_eq_some_iff.mp hparent).1, hchild⟩]

/-- The children are exactly the nodes that `child?` reads somewhere. -/
theorem WellFormed.mem_children_iff :
    m ∈ f.children n ↔ ∃ i, f.child? n i = some m := by
  constructor
  · intro hm
    obtain ⟨i, hi⟩ :=
      Option.isSome_iff_exists.mp (hwf.findChild?_isSome.mpr hm)
    exact ⟨i, (hwf.finds_child n m).here hi⟩
  · rintro ⟨i, hi⟩
    exact mem_children_of_child? hi

-- =========================================================== the elements

/-- The elements of a collection are searched for `m`. -/
theorem WellFormed.finds_element {c : Collection} (hc : c.Fits f)
    (m : NodeId) :
    Finds (fun i => (c.items f)[i]?) m
      (fun i => f.Accurate m c.owner ∧ (f.node m).position = c.base + i)
      (c.indexOf? f m) := by
  have hscan : Scans (fun i => (c.items f)[i]?) m
      ((c.items f).findIdx? fun x => x == m) := by
    intro i
    rw [List.findIdx?_eq_some_iff_getElem]
    constructor
    · rintro ⟨hlt, hi, hmin⟩
      refine ⟨List.getElem?_eq_some_iff.mpr ⟨hlt, beq_iff_eq.mp hi⟩,
        fun j hj hm => ?_⟩
      obtain ⟨_, hm⟩ := List.getElem?_eq_some_iff.mp hm
      exact hmin j hj (beq_iff_eq.mpr hm)
    · rintro ⟨hi, hmin⟩
      obtain ⟨hlt, hi⟩ := List.getElem?_eq_some_iff.mp hi
      refine ⟨hlt, beq_iff_eq.mpr hi, fun j hj hm => ?_⟩
      have hjlt := Nat.lt_trans hj hlt
      exact hmin j hj (List.getElem?_eq_some_iff.mpr
        ⟨hjlt, beq_iff_eq.mp hm⟩)
  refine .or (fun i => ?_) (fun i hi => ?_) hscan
  · unfold Collection.cachedIndex? Accurate
    dsimp only
    constructor
    · intro hi
      split at hi
      case isTrue hthere =>
        obtain ⟨hlink, hbase, hitem⟩ := hthere
        cases hi
        have hsum : (f.node m).position
            = c.base + ((f.node m).position - c.base) := by omega
        refine ⟨⟨parent?_eq_some_iff.mpr ⟨hlink, hc.alive⟩, ?_⟩, hsum⟩
        rw [hsum, hwf.child?_base_add hc]
        exact hitem
      case isFalse => cases hi
    · rintro ⟨⟨hparent, hchild⟩, hposition⟩
      rw [hposition, hwf.child?_base_add hc] at hchild
      rw [hposition, Nat.add_sub_cancel_left, if_pos
        ⟨(parent?_eq_some_iff.mp hparent).1, Nat.le_add_right .., hchild⟩]
  · obtain ⟨⟨-, hchild⟩, hposition⟩ := hi
    rwa [hposition, hwf.child?_base_add hc] at hchild

end

end Forest

end InstructionTree
