/-
Invalidation, wherever links lead.

A commit forgets the cached flags of its owner, and climbs from parent to
parent until one has none. Links may lead into a ring, and then the way up
has no end. But every step leaves one node less that remembers its flags,
so the climb ends in any forest, and all it does is to forget flags on the
way (`Invalidates`).

# Why it may stop

A node that remembers its flags vouches for the children that are linked
to it: they remember theirs (`Vouches`). Taking children out breaks
nothing of this (`Eases`), and asking mends as it goes (`Vouches.asked`).
Whoever is given new children is listed, until its commit takes it off the
list again (`Vouched.commit`). So where a climb meets a node without cached
flags, nobody has any who is above it along slots and links
(`Vouched.uncached_of_joined`).
-/
import InstructionTree.Proofs.Forest.Asking
import InstructionTree.Proofs.Forest.Climbs
import InstructionTree.Proofs.Forest.Commits
import InstructionTree.Proofs.Forest.Refilling

namespace InstructionTree

/-- The record without its cached flags. -/
def Node.forgetful (x : Node) : Node := { x with cached := none }

namespace Forest

variable {f g h : Forest} {n m o p : NodeId} {next : Option NodeId}
  {dirty : List NodeId} {S : NodeId → Prop}

-- =============================================================== climbing

/-- Enough steps come to the end of a climb: every one of them leaves
fewer nodes with cached flags. -/
theorem forgets_dropCachesFrom :
    ∀ {steps : Nat} {next : Option NodeId} {f : Forest},
      f.remembering.card ≤ steps →
      Forgets next f (dropCachesFrom steps next f) := by
  intro steps
  induction steps with
  | zero =>
      intro next f hcard
      cases next with
      | none => exact .over
      | some n =>
          exact .known (uncached_of_card_remembering (Nat.le_zero.mp hcard) n)
  | succ steps ih =>
      intro next f hcard
      cases next with
      | none => exact .over
      | some n =>
          unfold dropCachesFrom
          split
          case isTrue hnone =>
            exact .known (Option.isNone_iff_eq_none.mp hnone)
          case isFalse hnone =>
            have hsome : (f.node n).cached ≠ none :=
              mt Option.isNone_iff_eq_none.mpr hnone
            have hfewer := card_remembering_dropCache hsome
            exact .up hsome (ih (by omega))

/-- `Forgets` determines the forest that a climb ends in. -/
theorem Forgets.unique (hfg : Forgets next f g) (hfh : Forgets next f h) :
    g = h := by
  induction hfg with
  | known hnone =>
      cases hfh with
      | known => rfl
      | up hsome => exact absurd hnone hsome
  | up hsome _ ih =>
      cases hfh with
      | known hnone => exact absurd hnone hsome
      | up _ hrest => exact ih hrest
  | _ =>
      cases hfh
      rfl

/-- The only difference is that some nodes of `S` have forgotten their
flags. -/
def Clears (S : NodeId → Prop) (f g : Forest) : Prop :=
  ∀ m, g.get? m = f.get? m
    ∨ S m ∧ g.get? m = (f.get? m).map Node.forgetful

theorem Clears.refl (S : NodeId → Prop) (f : Forest) : Clears S f f :=
  fun _ => .inl rfl

theorem Clears.trans (hfg : Clears S f g) (hgh : Clears S g h) :
    Clears S f h := by
  intro m
  rcases hgh m with hsame | ⟨hm, hclear⟩
  · rw [hsame]
    exact hfg m
  · refine .inr ⟨hm, ?_⟩
    rcases hfg m with hsame | ⟨-, hbefore⟩
    · rw [hclear, hsame]
    · rw [hclear, hbefore, Option.map_map]
      rfl

theorem clears_dropCache (hm : S m) : Clears S f (f.dropCache m) := by
  intro k
  rw [dropCache, get?_update]
  split
  case isTrue hk => exact .inr ⟨hk ▸ hm, rfl⟩
  case isFalse => exact .inl rfl

/-- A climb that starts above `n` clears what is above `n`. -/
theorem clears_dropCachesFrom :
    ∀ {steps : Nat} {next : Option NodeId} {g : Forest}, Alike f g →
      (∀ q, next = some q → f.Above n q) →
      Clears (f.Above n) g (dropCachesFrom steps next g)
  | 0, next, g, _, _ => by
      rw [show dropCachesFrom 0 next g = g from by cases next <;> rfl]
      exact .refl _ g
  | steps + 1, none, g, _, _ => .refl _ g
  | steps + 1, some q, g, hfg, hnext => by
      have hq := hnext q rfl
      unfold dropCachesFrom
      split
      · exact .refl _ g
      · refine (clears_dropCache hq).trans (clears_dropCachesFrom
          (hfg.trans (alike_dropCache g q)) fun r hr => ?_)
        rw [hfg.parent?] at hr
        exact hq.tail hr

/-- What invalidating `n` makes of a forest. -/
structure Invalidates (f : Forest) (n : NodeId) (g : Forest) : Prop where
  /-- The climb from the parent of `n` ends, and ends here. -/
  climbs : ∀ h, Forgets (f.parent? n) (f.dropCache n) h ↔ h = g
  self : (g.node n).cached = none
  clears : Clears (f.Above n) f g
  size : g.size = f.size
  events : g.events = f.events

/-- In any forest `invalidate` ends, with or without a ring of parents. -/
theorem invalidates_invalidate (f : Forest) (n : NodeId) :
    Invalidates f n (f.invalidate n) := by
  have hcard := card_remembering_le (f.dropCache n)
  rw [dropCache, size_update] at hcard
  have hends : Forgets (f.parent? n) (f.dropCache n) (f.invalidate n) :=
    forgets_dropCachesFrom hcard
  have hparent : ∀ q, f.parent? n = some q → f.Above n q :=
    fun q hq => .single hq
  constructor
  case climbs =>
    refine fun h => ⟨fun hclimb => hclimb.unique hends, ?_⟩
    rintro rfl
    exact hends
  case self =>
    exact (fades_dropCachesFrom n _ _ _).uncached (f.cached_dropCache_self n)
  case clears =>
    have hself : Clears (f.Above n) f (f.dropCache n) :=
      clears_dropCache .refl
    exact hself.trans (clears_dropCachesFrom (alike_dropCache f n) hparent)
  case size => exact (size_dropCachesFrom ..).trans (size_update ..)
  case events =>
    exact (view_dropCachesFrom events_update ..).trans (events_update ..)

-- =============================================================== vouching

/-- If `p` remembers its flags, so do the children that are linked to
it. -/
def Vouches (f : Forest) (p : NodeId) : Prop :=
  (f.node p).cached ≠ none → ∀ c ∈ f.children p, f.parent? c = some p →
    (f.node c).cached ≠ none

/-- All nodes outside of `dirty` vouch for the children that are linked to
them. -/
def Vouched (f : Forest) (dirty : List NodeId) : Prop :=
  ∀ p, p ∉ dirty → f.Vouches p

/-- What `p` vouches for in `g` it vouched for in `f`, and nothing of it was
forgotten. -/
def Eases (f g : Forest) (p : NodeId) : Prop :=
  (g.node p).cached = none
    ∨ (f.node p).cached ≠ none
      ∧ ∀ c ∈ g.children p, (g.node c).link = some p →
        c ∈ f.children p ∧ (f.node c).link = some p
          ∧ ((f.node c).cached ≠ none → (g.node c).cached ≠ none)

theorem Vouches.of_uncached (hnone : (f.node p).cached = none) :
    f.Vouches p :=
  fun hsome => absurd hnone hsome

theorem Vouches.eases (hvouches : f.Vouches p) (hfg : Eases f g p) :
    g.Vouches p := by
  intro hsome c hc hparent
  rcases hfg with hnone | ⟨hbefore, hchildren⟩
  · exact absurd hnone hsome
  · obtain ⟨hc', hlink, hkept⟩ :=
      hchildren c hc (parent?_eq_some_iff.mp hparent).1
    exact hkept (hvouches hbefore c hc'
      (parent?_eq_some_iff.mpr ⟨hlink, f.alive_of_mem_children hc'⟩))

theorem Eases.trans (hfg : Eases f g p) (hgh : Eases g h p) :
    Eases f h p := by
  rcases hgh with hnone | ⟨hsome, hchildren⟩
  · exact .inl hnone
  · obtain ⟨hbefore, hearlier⟩ := hfg.resolve_left hsome
    refine .inr ⟨hbefore, fun c hc hlink => ?_⟩
    obtain ⟨hc', hlink', hkept⟩ := hchildren c hc hlink
    obtain ⟨hc'', hlink'', hkept'⟩ := hearlier c hc' hlink'
    exact ⟨hc'', hlink'', hkept ∘ hkept'⟩

/-- `Overlooks` eases every node outside of `dirty`. -/
theorem Overlooks.eases (hfg : Overlooks f g dirty) (hp : p ∉ dirty) :
    Eases f g p := by
  by_cases hnone : (g.node p).cached = none
  · exact .inl hnone
  · have hunseen := (hfg p hp).resolve_left hnone
    refine .inr ⟨fun hbefore => hnone (hunseen.cached.trans hbefore),
      fun c hc hlink => ?_⟩
    rw [hunseen.children] at hc
    refine ⟨hc, hunseen.link c hc hlink, fun hkept => ?_⟩
    rwa [hunseen.told c hc]

/-- `detach` eases every node: it links nobody. -/
theorem eases_detach (o c p : NodeId) : Eases f (f.detach o c) p := by
  have hcached : ∀ m, ((f.detach o c).node m).cached = (f.node m).cached :=
    f.field_detach (F := Node.cached) (fun _ _ _ => rfl) o c
  by_cases hnone : (f.node p).cached = none
  · exact .inl ((hcached p).trans hnone)
  · refine .inr ⟨hnone, fun m hm hlink => ⟨?_, ?_, ?_⟩⟩
    · rwa [children_eq, slots_detach] at hm
    · exact f.link_of_detach hlink
    · rw [hcached]
      exact id

/-- `setSlot` to nodes that the slot holds already eases every node. -/
theorem eases_setSlot {i : Nat} {items : List NodeId}
    (hitems : ∀ m ∈ items, m ∈ f.slot o i) (p : NodeId) :
    Eases f (f.setSlot o i items) p := by
  have hcached : ∀ m, ((f.setSlot o i items).node m).cached
      = (f.node m).cached :=
    f.field_setSlot (F := Node.cached) (fun _ _ => rfl) o i items
  by_cases hnone : (f.node p).cached = none
  · exact .inl ((hcached p).trans hnone)
  · refine .inr ⟨hnone, fun m hm hlink => ⟨?_, ?_, ?_⟩⟩
    · obtain ⟨j, hj⟩ := mem_children_iff.mp hm
      by_cases hpo : p = o
      · subst hpo
        by_cases hji : j = i
        · subst hji
          exact f.mem_children_of_mem_slot
            (hitems m (mem_of_mem_slot_setSlot hj))
        · rw [f.slot_setSlot_ne p items hji] at hj
          exact f.mem_children_of_mem_slot hj
      · rw [slot_congr (f.slots_setSlot_ne i items hpo)] at hj
        exact f.mem_children_of_mem_slot hj
    · rwa [link_setSlot] at hlink
    · rw [hcached]
      exact id

/-- A node that vouches does so after flags were asked for: children are asked
first. -/
theorem Vouches.asked (hvouches : f.Vouches p) (hfg : Asked f g) :
    g.Vouches p := by
  intro hsome c hc hparent
  by_cases hnone : (f.node p).cached = none
  · obtain ⟨flags, hflags⟩ := Option.ne_none_iff_exists'.mp hsome
    exact (hfg.informed (.of_uncached hnone)).below hflags hc
  · rw [hfg.alike.children] at hc
    rw [hfg.alike.parent?] at hparent
    have hkept := hvouches hnone c hc hparent
    rwa [hfg.cached_eq hkept]

-- =============================================================== commits

namespace Vouched

theorem eases (hvouched : f.Vouched dirty)
    (hfg : ∀ p, p ∉ dirty → Eases f g p) : g.Vouched dirty :=
  fun p hp => (hvouched p hp).eases (hfg p hp)

theorem overlooks (hvouched : f.Vouched dirty) (hfg : Overlooks f g dirty) :
    g.Vouched dirty :=
  hvouched.eases fun _ hp => hfg.eases hp

theorem mono {more : List NodeId} (hvouched : f.Vouched dirty)
    (hmore : ∀ p ∈ dirty, p ∈ more) : f.Vouched more :=
  fun p hp => hvouched p (mt (hmore p) hp)

/-- Forgetting the flags of a node leaves nothing for it to vouch for, and
its parent without one it vouched for. -/
theorem dropCache (hvouched : f.Vouched (n :: dirty)) :
    (f.dropCache n).Vouched ((f.parent? n).toList ++ dirty) := by
  intro p hp
  rw [List.mem_append, not_or] at hp
  by_cases hpn : p = n
  · exact .of_uncached (hpn ▸ f.cached_dropCache_self n)
  · have halike := alike_dropCache f n
    intro hsome c hc hparent
    rw [cached_dropCache, if_neg hpn] at hsome
    rw [halike.children] at hc
    rw [halike.parent?] at hparent
    have hcn : c ≠ n := by
      rintro rfl
      exact hp.1 (Option.mem_toList.mpr hparent)
    rw [cached_dropCache, if_neg hcn]
    refine hvouched p (fun h => ?_) hsome c hc hparent
    exact (List.mem_cons.mp h).elim hpn hp.2

end Vouched

theorem mends_vouched : Mends Vouched where
  mono hvouched hmore := hvouched.mono hmore
  overlooks hvouched hfg := hvouched.overlooks hfg
  known {f n dirty} hnone hvouched p hp := by
    by_cases hpn : p = n
    · exact .of_uncached (hpn ▸ hnone)
    · exact hvouched p fun h => (List.mem_cons.mp h).elim hpn hp
  drop hvouched := hvouched.dropCache

namespace Vouched

theorem commit (hvouched : f.Vouched (o :: dirty)) :
    (f.commit o).Vouched dirty :=
  mends_vouched.commit hvouched

/-- `commit` keeps the forest `Vouched`, whoever is dirty. -/
theorem commit_any (hvouched : f.Vouched dirty) (o : NodeId) :
    (f.commit o).Vouched dirty :=
  (hvouched.mono fun _ hp => .tail _ hp).commit

theorem batched (hvouched : f.Vouched dirty) (hfg : Batched f g) :
    g.Vouched dirty :=
  mends_vouched.batched hvouched hfg

end Vouched

-- ================================================================= joined

/-- A slot of `p` holds `c`, and `p` is the parent of `c`. -/
def Joins (f : Forest) (p c : NodeId) : Prop :=
  c ∈ f.children p ∧ f.parent? c = some p

/-- In a forest where all nodes vouch, from a node without cached flags no node
that `Joins` leads up to has any. -/
theorem Vouched.uncached_of_joined (hvouched : f.Vouched [])
    (hjoined : Relation.ReflTransGen f.Joins p n)
    (hnone : (f.node n).cached = none) : (f.node p).cached = none := by
  induction hjoined using Relation.ReflTransGen.head_induction_on with
  | refl => exact hnone
  | head hstep _ ih =>
      by_contra hsome
      exact hvouched _ List.not_mem_nil hsome _ hstep.1 hstep.2 ih

end Forest

end InstructionTree
