/-
Nodes whose cached data say where they are.

A node that sits in one slot at most can be described exactly: its counter
is the number of its positions, its link names whoever holds it, its place
is right, and a node that nobody holds has no link (`Settled`). The fields
hold each other up. A link is dropped with the last position only if the
counter was exact before, and a counter stays exact only as long as nobody
who holds the node is freed (`Kept`).

# The way up

If all nodes are settled, the parent of a node is whoever holds it. So the
way up is the path of holders, and a node is a descendant of those from
which it can be reached through slots.
-/
import InstructionTree.Proofs.Forest.Places

namespace InstructionTree.Forest

variable {f g h : Forest} {n : NodeId}

-- =============================================================== holders

/-- Nobody who holds `n` in `f` is freed on the way to `g`. -/
def Kept (f g : Forest) (n : NodeId) : Prop :=
  ∀ {p}, n ∈ f.children p → g.isAlive p = true

/-- A node with one position at most has one holder at most. -/
theorem holder_unique (honce : f.holdCount n ≤ 1) {p q : NodeId}
    (hp : n ∈ f.children p) (hq : n ∈ f.children q) : p = q := by
  by_contra hne
  have htwo := f.count_add_count_le (n := n) hne
  have hp' := List.count_pos_iff.mpr hp
  have hq' := List.count_pos_iff.mpr hq
  omega

/-- A node that is not alive has no position. -/
theorem WellFormed.holdCount_eq_zero (hwf : f.WellFormed)
    (hdead : f.isAlive n = false) : f.holdCount n = 0 := by
  rcases Nat.eq_zero_or_pos (f.holdCount n) with hzero | hpos
  · exact hzero
  · obtain ⟨p, hp⟩ := holdCount_pos_iff.mp hpos
    rw [hwf.closed hp] at hdead
    cases hdead

/-- `Calm` steps change no `holdCount` of a node whose holders live on. -/
theorem Calm.holdCount_eq (hfg : Calm f g) (hkept : Kept f g n) :
    g.holdCount n = f.holdCount n := by
  refine holdCount_eq_of_children hfg.ages.size fun p => ?_
  cases hp : g.isAlive p with
  | true => rw [hfg.children hp]
  | false =>
      have hnot : n ∉ f.children p := fun hn => by
        rw [hkept hn] at hp
        cases hp
      rw [children_of_not_alive g hp, List.count_eq_zero.mpr hnot]
      rfl

theorem Calm.mem_children (hfg : Calm f g) {p : NodeId}
    (hn : n ∈ g.children p) : n ∈ f.children p := by
  rwa [hfg.children (g.alive_of_mem_children hn)] at hn

/-- `child?` looks at the opcode and the slots. -/
theorem child?_congr {p : NodeId}
    (hop : (g.node p).opcode = (f.node p).opcode)
    (hslots : (g.node p).slots = (f.node p).slots) (j : Nat) :
    g.child? p j = f.child? p j := by
  have hlocate := locate?_congr hop (congrArg List.length hslots) j
  unfold child? slot Node.slot
  rw [hlocate, hslots]

/-- `Calm` steps change no `child?` of a node that lives on. -/
theorem Calm.child?_eq (hfg : Calm f g) {p : NodeId}
    (hpf : f.isAlive p = true) (hpg : g.isAlive p = true) (j : Nat) :
    g.child? p j = f.child? p j :=
  child?_congr (hfg.ages.opcode (f.index_lt_of_alive hpf) hpg)
    (hfg.slots hpf hpg) j

/-- An account changes no `child?` of a node other than its owner. -/
theorem Account.child?_eq {o p : NodeId} {i : Nat}
    {entered left items : List NodeId}
    (hg : Account o i f entered left items g) (hpo : p ≠ o)
    (hpf : f.isAlive p = true) (hpg : g.isAlive p = true) (j : Nat) :
    g.child? p j = f.child? p j :=
  child?_congr (hg.ages.opcode (f.index_lt_of_alive hpf) hpg)
    ((hg.others hpo hpg).1 hpf) j

-- =============================================================== settled

/-- Parent, position and `slotRefs` of `n` say where `n` is. -/
structure Settled (f : Forest) (n : NodeId) : Prop where
  counted : (f.node n).slotRefs = f.holdCount n
  linked : ∀ {p}, n ∈ f.children p → (f.node n).link = some p
  loose : f.holdCount n = 0 → (f.node n).link = none
  placed : ∀ {p}, n ∈ f.children p →
    f.child? p (f.node n).position = some n

namespace Settled

/-- A node that is not alive is `Settled`: it is nowhere, and its record says
so. -/
theorem of_not_alive (hwf : f.WellFormed) (hdead : f.isAlive n = false) :
    f.Settled n := by
  have hnowhere : ∀ {p}, n ∉ f.children p := fun hn => by
    rw [hwf.closed hn] at hdead
    cases hdead
  refine ⟨?_, fun hn => absurd hn hnowhere, fun _ => ?_,
    fun hn => absurd hn hnowhere⟩
  · rw [node_of_not_alive f hdead, hwf.holdCount_eq_zero hdead]
    rfl
  · rw [node_of_not_alive f hdead]
    rfl

/-- `Calm` steps keep a node `Settled`, if its holders live on. -/
theorem calm (hset : f.Settled n) (hfg : Calm f g) (hn : g.Spared n)
    (hkept : Kept f g n) : g.Settled n := by
  have hholds := hfg.holdCount_eq hkept
  refine ⟨?_, fun hp => ?_, fun hzero => ?_, fun {p} hp => ?_⟩
  · rw [hfg.slotRefs hn, hset.counted, hholds]
  · rw [hfg.link hn]
    exact hset.linked (hfg.mem_children hp)
  · rw [hfg.link hn]
    exact hset.loose (hholds ▸ hzero)
  · have hpg := g.alive_of_mem_children hp
    have hpf := f.alive_of_mem_children (hfg.mem_children hp)
    rw [hfg.child?_eq hpf hpg, hfg.position hn]
    exact hset.placed (hfg.mem_children hp)

end Settled

-- ============================================================= exchanges

section

variable {o : NodeId} {i : Nat} {entered left new : List NodeId}
  {removed : Nat → Prop}

/-- `holdCount` changes by what entered less what left, if the holders live on.
-/
theorem Exchange.holdCount_eq (hx : Exchange o i entered left new f g)
    (hkept : Kept f g n) :
    g.holdCount n + left.count n = f.holdCount n + entered.count n := by
  have hholds := hx.account.holdCount_eq fun p => hkept
  have hbalance := hx.balance n
  omega

/-- A child that did not enter was a child of the same node before. -/
theorem Exchange.mem_children_before
    (hx : Exchange o i entered left new f g) (hentered : n ∉ entered)
    {p : NodeId} (hn : n ∈ g.children p) : n ∈ f.children p := by
  have hp := g.alive_of_mem_children hn
  by_cases hpo : p = o
  · subst hpo
    rw [children_eq, hx.account.own] at hn
    obtain ⟨items, hitems, hmem⟩ := List.mem_flatten.mp hn
    rcases List.mem_or_eq_of_mem_set hitems with hold | rfl
    · exact List.mem_flatten.mpr ⟨items, hold, hmem⟩
    · refine f.mem_children_of_mem_slot (i := i)
        (List.count_pos_iff.mp ?_)
      have hnew := List.count_pos_iff.mpr hmem
      have hbalance := hx.balance n
      rw [List.count_eq_zero.mpr hentered] at hbalance
      omega
  · rwa [(hx.account.others hpo hp).2] at hn

/-- An edit keeps a node settled that sits in one slot at most, before and
after, if nobody who holds it is freed. -/
theorem Settled.exchange (hset : f.Settled n)
    (hx : Exchange o i entered left new f g)
    (hplaces : KeepsPlaces o entered removed f g)
    (hemptied : ∀ {j}, removed j → f.child? o j = some n → n ∈ left)
    (hwf : f.WellFormed) (hcov : f.Covered) (hn : g.isAlive n = true)
    (hkept : Kept f g n) (honce : f.holdCount n ≤ 1)
    (honce' : g.holdCount n ≤ 1) : g.Settled n := by
  have hholds := hx.holdCount_eq hkept
  have hcount := hx.account.count hwf hcov (.inl hn)
  have hcounted : (g.node n).slotRefs = g.holdCount n := by
    have hcounted := hset.counted
    omega
  have hheld : ∀ {p}, n ∈ g.children p → 0 < g.holdCount n :=
    fun hp => holdCount_pos_iff.mpr ⟨_, hp⟩
  by_cases hentered : n ∈ entered
  · -- it is below the owner now, and nowhere else
    have haccurate := hplaces.attached hentered
    have ho := mem_children_of_child? haccurate.2
    refine ⟨hcounted, fun hp => ?_, fun hzero => ?_, fun hp => ?_⟩
    · rw [holder_unique honce' hp ho]
      exact (parent?_eq_some_iff.mp haccurate.1).1
    · have hpos := hheld ho
      omega
    · rw [holder_unique honce' hp ho]
      exact haccurate.2
  · have hentries := List.count_eq_zero.mpr hentered
    have hbefore : ∀ {p}, n ∈ g.children p → n ∈ f.children p :=
      fun hp => hx.mem_children_before hentered hp
    have hstayed := hx.account.stayed (.inl hn) hentered
    have hlinked : ∀ {p}, n ∈ g.children p →
        (g.node n).link = (f.node n).link := by
      intro p hp
      rcases hstayed with hlink | ⟨-, -, hrefs⟩
      · exact hlink
      · have hpos := hheld hp
        omega
    refine ⟨hcounted, fun hp => ?_, fun hzero => ?_, fun {p} hp => ?_⟩
    · rw [hlinked hp]
      exact hset.linked (hbefore hp)
    · rcases hstayed with hlink | ⟨-, hlink, -⟩
      · rw [hlink]
        by_cases hleft : n ∈ left
        · -- it was below the owner, and the owner has cut the link
          have hpos := List.count_pos_iff.mpr hleft
          have hbalance := hx.balance n
          have hslot : n ∈ f.slot o i := List.count_pos_iff.mp (by omega)
          have hcut := hx.account.cleared (.inl hn) (.inr hleft) (by omega)
          rw [hlink, hset.linked (f.mem_children_of_mem_slot hslot)] at hcut
          exact absurd rfl hcut
        · have hexits := List.count_eq_zero.mpr hleft
          exact hset.loose (by omega)
      · exact hlink
    · have hpg := g.alive_of_mem_children hp
      have hpf := f.alive_of_mem_children (hbefore hp)
      have hplace := hset.placed (hbefore hp)
      have hlink := hset.linked (hbefore hp)
      by_cases hpo : p = o
      · subst hpo
        refine (hplaces.remaining hentered
          ⟨parent?_eq_some_iff.mpr ⟨hlink, hpf⟩, hplace⟩ ?_).1.2
        -- its place was not emptied: it would have left, and be nowhere
        intro hremoved
        have hexits := List.count_pos_iff.mpr (hemptied hremoved hplace)
        have hpos := hheld hp
        omega
      · have hother : (f.node n).link ≠ some o := by
          rw [hlink]
          exact fun h => hpo (Option.some.inj h)
        rw [hx.account.child?_eq hpo hpf hpg,
          (hplaces.elsewhere hentered hn hother).2.1]
        exact hplace

end

-- ============================================================ the way up

section

variable (hall : ∀ n, f.Settled n)
include hall

/-- If all nodes are `Settled`, `parent?` is the node that holds `n`. -/
theorem parent?_eq_some_iff_mem_children {p : NodeId} :
    f.parent? n = some p ↔ n ∈ f.children p := by
  constructor
  · intro hparent
    have hlink := (parent?_eq_some_iff.mp hparent).1
    have hpos : 0 < f.holdCount n := by
      refine Nat.pos_of_ne_zero fun hzero => ?_
      rw [(hall n).loose hzero] at hlink
      cases hlink
    obtain ⟨q, hq⟩ := holdCount_pos_iff.mp hpos
    rw [(hall n).linked hq] at hlink
    cases hlink
    exact hq
  · intro hn
    exact parent?_eq_some_iff.mpr
      ⟨(hall n).linked hn, f.alive_of_mem_children hn⟩

/-- The way up from a node is the path of its holders, to one that nobody
holds. -/
theorem Way.holders {l : List NodeId} (hway : f.Way n l) :
    List.IsChain (fun a b => a ∈ f.children b) (n :: l)
      ∧ ∀ p, (n :: l).getLast (List.cons_ne_nil n l) ∉ f.children p := by
  induction hway with
  | @root n hroot =>
      refine ⟨.singleton n, fun p hp => ?_⟩
      rw [List.getLast_singleton,
        ← parent?_eq_some_iff_mem_children hall, hroot] at hp
      cases hp
  | @up n p rest hparent _ ih =>
      obtain ⟨hchain, hlast⟩ := ih
      refine ⟨.cons_cons ?_ hchain, fun q hq => hlast q ?_⟩
      · exact (parent?_eq_some_iff_mem_children hall).mp hparent
      · rwa [List.getLast_cons_cons] at hq

/-- If all nodes are `Settled`, `isDescendantOf` is reaching `n` from `a`
through slots. -/
theorem isDescendantOf_iff_reaches {a : NodeId} (hroot : f.Rooted n) :
    f.isDescendantOf n a = true
      ↔ Relation.ReflTransGen f.Holds a n := by
  rw [isDescendantOf_iff hroot, ← Relation.reflTransGen_swap]
  have hsame : (Function.swap fun a b => f.parent? a = some b)
      = f.Holds := by
    funext p c
    exact propext (parent?_eq_some_iff_mem_children hall)
  rw [hsame]

end

end InstructionTree.Forest
