/-
Global child indices, and places that are right.

`locate?` maps a global child index to a slot and an index inside it, and
`child?` reads there. A node's cached place is `Accurate` for an owner if
the owner is its parent and the place leads back to the node.

# What an edit does to places

`Placed` says it for one slot, in indices of that slot. A node that
entered has a place at which it is stored now. Another node's place stays,
or it is such a place too. And a place that was right, at an index that
was not emptied, is right again, perhaps at another index. `keepsPlaces`
turns this into a statement about accuracy and the whole owner: this is
where the books of the edit come in, since a link must not have been
dropped.
-/
import InstructionTree.Proofs.Forest.Account

namespace InstructionTree.Forest

variable {f g h : Forest}

-- ======================================================= global indices

/-- A global child index is the index of its slot plus the index inside,
and only the collection at the end has more than one index. -/
theorem locate?_eq_some {n : NodeId} {j i k : Nat}
    (hj : f.locate? n j = some (i, k)) :
    i < (f.node n).slots.length ∧ j = i + k
      ∧ (k = 0 ∨ ∃ s, i + 1 = (f.node n).slots.length
        ∧ (f.node n).opcode.slot? i = some s ∧ s.isCollection = true) := by
  unfold locate? at hj
  dsimp only at hj
  split at hj
  · cases hj
  case isFalse hsome =>
    split at hj
    · cases hj
    case isFalse hone =>
      simp only [Option.some.injEq, Prod.mk.injEq] at hj
      obtain ⟨hi, hk⟩ := hj
      rw [hi] at hk hone
      refine ⟨by omega, by omega, ?_⟩
      rcases Nat.eq_zero_or_pos k with hzero | hpos
      · exact .inl hzero
      · refine .inr ?_
        cases hslot : (f.node n).opcode.slot? i with
        | none =>
            rw [hslot] at hone
            exact absurd ⟨hk ▸ hpos, rfl⟩ hone
        | some s =>
            rw [hslot] at hone
            refine ⟨s, by omega, rfl, ?_⟩
            cases hcoll : s.isCollection with
            | true => rfl
            | false => exact absurd ⟨hk ▸ hpos, hcoll⟩ hone

/-- `locate?` in an operand slot has inner index 0. -/
theorem inner_eq_zero {n : NodeId} {j i k : Nat} {s : Slot}
    (hj : f.locate? n j = some (i, k))
    (hs : (f.node n).opcode.slot? i = some s)
    (hone : s.isCollection = false) : k = 0 := by
  rcases (locate?_eq_some hj).2.2 with hzero | ⟨s', -, hs', hcoll⟩
  · exact hzero
  · cases hs.symm.trans hs'
    rw [hone] at hcoll
    cases hcoll

/-- `locate?` of `i + k` is `(i, k)`, if slot `i` takes one node and `k` is 0,
or it is the collection. -/
theorem locate?_add {n : NodeId} {i k : Nat}
    (hi : i < (f.node n).slots.length)
    (hk : k = 0 ∨ ∃ s, i + 1 = (f.node n).slots.length
      ∧ (f.node n).opcode.slot? i = some s ∧ s.isCollection = true) :
    f.locate? n (i + k) = some (i, k) := by
  unfold locate?
  dsimp only
  have hmin : min (i + k) ((f.node n).slots.length - 1) = i := by
    rcases hk with rfl | ⟨s, hlast, -⟩ <;> omega
  rw [if_neg (by omega), hmin, Nat.add_sub_cancel_left, if_neg]
  rintro ⟨hpos, hone⟩
  rcases hk with rfl | ⟨s, -, hs, hcoll⟩
  · exact Nat.lt_irrefl 0 hpos
  · rw [hs, Option.any_some, hcoll] at hone
    cases hone

theorem child?_eq_some {n m : NodeId} {j : Nat} :
    f.child? n j = some m
      ↔ ∃ i k, f.locate? n j = some (i, k)
        ∧ (f.slot n i)[k]? = some m := by
  unfold child?
  constructor
  · intro hj
    obtain ⟨⟨i, k⟩, hlocate, hm⟩ := Option.bind_eq_some_iff.mp hj
    exact ⟨i, k, hlocate, hm⟩
  · rintro ⟨i, k, hlocate, hm⟩
    exact Option.bind_eq_some_iff.mpr ⟨(i, k), hlocate, hm⟩

/-- `locate?` looks at the opcode and the number of slots. -/
theorem locate?_congr {n : NodeId}
    (hop : (g.node n).opcode = (f.node n).opcode)
    (hlen : (g.node n).slots.length = (f.node n).slots.length) (j : Nat) :
    g.locate? n j = f.locate? n j := by
  unfold locate?
  dsimp only
  rw [hop, hlen]

/-- What `child?` reads is among the children. -/
theorem mem_children_of_child? {n m : NodeId} {j : Nat}
    (hj : f.child? n j = some m) : m ∈ f.children n := by
  obtain ⟨i, k, -, hm⟩ := child?_eq_some.mp hj
  exact f.mem_children_of_mem_slot (List.mem_of_getElem? hm)

theorem two_le_count {l : List NodeId} {a b : Nat} {m : NodeId}
    (hab : a < b) (ha : l[a]? = some m) (hb : l[b]? = some m) :
    2 ≤ l.count m := by
  have hfirst : m ∈ l.take b :=
    List.mem_of_getElem? (i := a) (by rw [List.getElem?_take, if_pos hab, ha])
  have hsecond : m ∈ l.drop b :=
    List.mem_of_getElem? (i := 0) (by rw [List.getElem?_drop]; exact hb)
  rw [← List.take_append_drop b l, List.count_append]
  have h1 := List.count_pos_iff.mpr hfirst
  have h2 := List.count_pos_iff.mpr hsecond
  omega

private theorem two_le_count_flatten {slots : List (List NodeId)}
    {i j : Nat} {m : NodeId} (hij : i < j)
    (hi : m ∈ (slots[i]?).getD []) (hj : m ∈ (slots[j]?).getD []) :
    2 ≤ slots.flatten.count m := by
  have hmem : ∀ {l : List (List NodeId)} {k : Nat},
      m ∈ (l[k]?).getD [] → m ∈ l.flatten := by
    intro l k hk
    cases hget : l[k]? with
    | none =>
        rw [hget] at hk
        cases hk
    | some items =>
        rw [hget] at hk
        exact List.mem_flatten.mpr ⟨items, List.mem_of_getElem? hget, hk⟩
  have hfirst : m ∈ (slots.take j).flatten := hmem (k := i) (by
    rw [List.getElem?_take, if_pos hij]
    exact hi)
  have hsecond : m ∈ (slots.drop j).flatten := hmem (k := 0) (by
    rw [List.getElem?_drop]
    exact hj)
  rw [← List.take_append_drop j slots, List.flatten_append,
    List.count_append]
  have h1 := List.count_pos_iff.mpr hfirst
  have h2 := List.count_pos_iff.mpr hsecond
  omega

/-- A child that occurs once is read by `child?` at one index only. -/
theorem child?_unique {n m : NodeId} {a b : Nat}
    (honce : (f.children n).count m = 1) (ha : f.child? n a = some m)
    (hb : f.child? n b = some m) : a = b := by
  obtain ⟨i, k, hlocate, hk⟩ := child?_eq_some.mp ha
  obtain ⟨i', k', hlocate', hk'⟩ := child?_eq_some.mp hb
  have hsum := (locate?_eq_some hlocate).2.1
  have hsum' := (locate?_eq_some hlocate').2.1
  have hmem := List.mem_of_getElem? hk
  have hmem' := List.mem_of_getElem? hk'
  rw [children_eq] at honce
  rcases Nat.lt_trichotomy i i' with hlt | rfl | hgt
  · have := two_le_count_flatten hlt hmem hmem'
    omega
  · have hslot := (f.slot_sublist_children n i).count_le m
    rw [children_eq] at hslot
    rcases Nat.lt_trichotomy k k' with hlt | rfl | hgt
    · have := two_le_count hlt hk hk'
      omega
    · omega
    · have := two_le_count hgt hk' hk
      omega
  · have := two_le_count_flatten hgt hmem' hmem
    omega

/-- Slot `i` of `o` has room for `length` nodes: only the collection at
the end takes more than one. -/
def Room (f : Forest) (o : NodeId) (i length : Nat) : Prop :=
  ∀ k, k < length → k = 0 ∨ ∃ s, i + 1 = (f.node o).slots.length
    ∧ (f.node o).opcode.slot? i = some s ∧ s.isCollection = true

/-- In a well-formed forest every slot has `Room` for what it holds. -/
theorem WellFormed.room (hwf : f.WellFormed) {n : NodeId} {i : Nat}
    (hi : i < (f.node n).slots.length) : f.Room n i (f.slot n i).length := by
  intro k hk
  rw [hwf.layout] at hi
  have hslot : (f.node n).opcode.slot? i
      = some ((f.node n).opcode.layout[i]) := List.getElem?_eq_getElem hi
  cases hcoll : ((f.node n).opcode.layout[i]).isCollection with
  | true =>
      refine .inr ⟨_, ?_, hslot, hcoll⟩
      rw [hwf.layout]
      exact Opcode.succ_eq_length_of_isCollection hslot hcoll
  | false =>
      have hlen := hwf.arity hslot hcoll
      exact .inl (by omega)

/-- `scanSlots` answers an index at which the slots have `m`. -/
theorem getElem?_of_scanSlots {m : NodeId} :
    ∀ {slots : List (List NodeId)} {i j : Nat},
      scanSlots m i slots = some j →
      ∃ a inner items, slots[a]? = some items ∧ items[inner]? = some m
        ∧ j = i + a + inner
  | [], _, _, h => by cases h
  | items :: rest, i, j, h => by
      unfold scanSlots at h
      split at h
      next inner hfind =>
        obtain ⟨hlt, hfound, -⟩ := List.findIdx?_eq_some_iff_getElem.mp hfind
        cases h
        refine ⟨0, inner, items, rfl, ?_, by omega⟩
        rw [List.getElem?_eq_getElem hlt, beq_iff_eq.mp hfound]
      next =>
        obtain ⟨a, inner, items', ha, hinner, rfl⟩ := getElem?_of_scanSlots h
        exact ⟨a + 1, inner, items', ha, hinner, by omega⟩

/-- What `findChild?` answers is an index at which `child?` reads the node. -/
theorem child?_of_findChild? (hwf : f.WellFormed) {n m : NodeId} {j : Nat}
    (h : f.findChild? n m = some j) : f.child? n j = some m := by
  unfold findChild? at h
  rcases Option.or_eq_some_iff.mp h with hcached | ⟨-, hscan⟩
  · unfold cachedChild? at hcached
    dsimp only at hcached
    split at hcached
    case isTrue hthere =>
      cases hcached
      exact hthere.2
    case isFalse => cases hcached
  · obtain ⟨a, inner, items, ha, hinner, rfl⟩ := getElem?_of_scanSlots hscan
    have hslot : f.slot n a = items := f.slot_of_getElem? ha
    have hlt := (List.getElem?_eq_some_iff.mp ha).1
    have hbound := (List.getElem?_eq_some_iff.mp hinner).1
    rw [Nat.zero_add]
    refine child?_eq_some.mpr ⟨a, inner, ?_, by rw [hslot, hinner]⟩
    exact locate?_add hlt (hwf.room hlt inner (by rwa [hslot]))

-- ============================================================== accuracy

/-- The cached place of `n` is right: its parent is `p`, and `p` has `n`
at that place. -/
def Accurate (f : Forest) (n p : NodeId) : Prop :=
  f.parent? n = some p ∧ f.child? p (f.node n).position = some n

/-- What an edit of slot `i` of `o` did to the place of one node:
`entered` are the nodes that it attached, `old` and `new` what the slot
held before and holds after, and `removed` the old indices whose element
left or was overwritten. -/
structure PlacedAt (o : NodeId) (i : Nat) (entered old new : List NodeId)
    (removed : Nat → Prop) (f g : Forest) (n : NodeId) : Prop where
  attached : n ∈ entered →
    ∃ k, new[k]? = some n ∧ (g.node n).position = i + k
  moved : n ∉ entered → (g.node n).position = (f.node n).position
    ∨ ((f.node n).link = some o
      ∧ ∃ k, new[k]? = some n ∧ (g.node n).position = i + k)
  followed : ∀ {k}, n ∉ entered → (f.node n).link = some o →
    old[k]? = some n → (f.node n).position = i + k → ¬ removed k →
    ∃ k', new[k']? = some n ∧ (g.node n).position = i + k'

/-- What an edit of slot `i` of `o` did to the cached places of all nodes that
were not freed. -/
structure Placed (o : NodeId) (i : Nat) (entered old new : List NodeId)
    (removed : Nat → Prop) (f g : Forest) : Prop where
  kept : ∀ {k n}, old[k]? = some n → ¬ removed k → n ∈ new
  places : ∀ {n}, g.Spared n →
    PlacedAt o i entered old new removed f g n

namespace Placed

variable {o : NodeId} {i : Nat} {entered old new : List NodeId}
  {removed : Nat → Prop}

/-- `Placed`, if those who entered have the positions of their indices, all
others have those they had, and no element that stays moved. -/
theorem of_stays
    (hattached : ∀ {n}, n ∈ entered → g.Spared n →
      ∃ k, new[k]? = some n ∧ (g.node n).position = i + k)
    (hposition : ∀ {n}, n ∉ entered → g.Spared n →
      (g.node n).position = (f.node n).position)
    (hstays : ∀ {k n}, old[k]? = some n → ¬ removed k →
      new[k]? = some n) :
    Placed o i entered old new removed f g where
  kept hk hkept := List.mem_of_getElem? (hstays hk hkept)
  places hn :=
    { attached := fun hentered => hattached hentered hn
      moved := fun hentered => .inl (hposition hentered hn)
      followed := fun hentered _ hk hpos hkept =>
        ⟨_, hstays hk hkept, (hposition hentered hn).trans hpos⟩ }

/-- Steps behind an edit that change no position keep `Placed`. -/
theorem of_position (hfg : Placed o i entered old new removed f g)
    (hspared : ∀ {n}, h.Spared n → g.Spared n)
    (hposition : ∀ {n}, h.Spared n →
      (h.node n).position = (g.node n).position) :
    Placed o i entered old new removed f h := by
  refine ⟨hfg.kept, fun {n} hn => ?_⟩
  have hp := hfg.places (hspared hn)
  refine ⟨fun hentered => ?_, fun hentered => ?_,
    fun hentered hlink hk hpos hkept => ?_⟩
  · rw [hposition hn]
    exact hp.attached hentered
  · rw [hposition hn]
    exact hp.moved hentered
  · rw [hposition hn]
    exact hp.followed hentered hlink hk hpos hkept

theorem calm (hfg : Placed o i entered old new removed f g)
    (hgh : Calm g h) : Placed o i entered old new removed f h :=
  hfg.of_position hgh.ages.spared hgh.position

theorem enter (hfg : Placed o i entered old new removed f g) (c : NodeId) :
    Placed o i entered old new removed f (g.enter o c) :=
  hfg.of_position spared_update.mp fun _ => position_enter ..

theorem detach (hfg : Placed o i entered old new removed f g) (c : NodeId) :
    Placed o i entered old new removed f (g.detach o c) :=
  hfg.of_position spared_detach.mp fun _ => position_detach ..

end Placed

namespace Exchange

variable {o : NodeId} {i : Nat} {entered left new : List NodeId}
  (hx : Exchange o i entered left new f g)
include hx

theorem locate?_eq (j : Nat) : g.locate? o j = f.locate? o j := by
  have hacc := hx.account
  refine locate?_congr (hacc.ages.opcode ?_ hacc.owner) ?_ j
  · exact f.index_lt_of_alive hacc.source
  · rw [hacc.own, List.length_set]

/-- After the edit `child?` reads the new contents of the slot. -/
theorem child?_eq (hroom : f.Room o i new.length) {k : Nat} {n : NodeId}
    (hk : new[k]? = some n) : g.child? o (i + k) = some n := by
  have hlt := (List.getElem?_eq_some_iff.mp hk).1
  refine child?_eq_some.mpr ⟨i, k, ?_, by rw [hx.account.slot_self, hk]⟩
  rw [hx.locate?_eq]
  exact locate?_add hx.account.bound (hroom k hlt)

theorem mem_children {n : NodeId} (hn : n ∈ new) : n ∈ g.children o := by
  rw [← hx.account.slot_self] at hn
  exact g.mem_children_of_mem_slot hn

variable (hwf : f.WellFormed) (hcov : f.Covered) (hclosed : g.Closed)
include hwf hcov hclosed

/-- After the edit the children of `o` have `slotRefs` above 0. -/
theorem counted {n : NodeId} (hn : n ∈ g.children o) :
    (g.node n).slotRefs ≠ 0 := by
  have hpos := holdCount_pos_iff.mpr ⟨o, hn⟩
  have hle := hx.covered hwf hcov n (hclosed hn)
  omega

/-- A link to the owner is not dropped as long as the owner holds the
node. -/
theorem linked {n : NodeId} (hentered : n ∉ entered)
    (hn : n ∈ g.children o) (hlink : (f.node n).link = some o) :
    (g.node n).link = some o := by
  rcases hx.account.stayed (.inl (hclosed hn)) hentered with hsame | hgone
  · rw [hsame, hlink]
  · exact absurd hgone.2.2 (hx.counted hwf hcov hclosed hn)

variable {removed : Nat → Prop} {n : NodeId} (hroom : f.Room o i new.length)
  (hp : PlacedAt o i entered (f.slot o i) new removed f g n)
include hroom hp

/-- After the edit every node that entered has an accurate place below `o`. -/
theorem accurate_of_mem (hn : g.isAlive n = true)
    (hentered : n ∈ entered) : g.Accurate n o := by
  obtain ⟨k, hk, hpos⟩ := hp.attached hentered
  refine ⟨parent?_eq_some_iff.mpr ⟨?_, hx.account.owner⟩,
    hpos ▸ hx.child?_eq hroom hk⟩
  rcases hx.account.arrived (.inl hn) hentered with hlink | ⟨-, hzero⟩
  · exact hlink
  · exact absurd hzero (hx.counted hwf hcov hclosed
      (hx.mem_children (List.mem_of_getElem? hk)))

/-- A node that did not enter keeps an accurate place below `o`, unless the
element there was removed. -/
theorem accurate_of_accurate (hentered : n ∉ entered)
    (haccurate : f.Accurate n o)
    (hkept : ∀ k, f.locate? o (f.node n).position = some (i, k) →
      ¬ removed k) : g.Accurate n o := by
  obtain ⟨hparent, hchild⟩ := haccurate
  have hlink := (parent?_eq_some_iff.mp hparent).1
  obtain ⟨i', k, hloc, hk⟩ := child?_eq_some.mp hchild
  have hsum := (locate?_eq_some hloc).2.1
  have hfound : ∀ {k'}, new[k']? = some n →
      (g.node n).position = i + k' → g.Accurate n o := by
    intro k' hk' hpos
    have hmem := hx.mem_children (List.mem_of_getElem? hk')
    exact ⟨parent?_eq_some_iff.mpr
      ⟨hx.linked hwf hcov hclosed hentered hmem hlink, hx.account.owner⟩,
      hpos ▸ hx.child?_eq hroom hk'⟩
  by_cases hi : i' = i
  · subst hi
    obtain ⟨k', hk', hpos⟩ :=
      hp.followed hentered hlink hk hsum (hkept k hloc)
    exact hfound hk' hpos
  · -- another slot of the owner: nothing happened there
    have hslot := hx.account.slot_ne hi
    have hmem : n ∈ g.children o := by
      refine g.mem_children_of_mem_slot (i := i') ?_
      rw [hslot]
      exact List.mem_of_getElem? hk
    rcases hp.moved hentered with hpos | ⟨-, k', hk', hpos⟩
    · refine ⟨parent?_eq_some_iff.mpr
        ⟨hx.linked hwf hcov hclosed hentered hmem hlink,
          hx.account.owner⟩, ?_⟩
      rw [hpos]
      refine child?_eq_some.mpr ⟨i', k, ?_, by rw [hslot, hk]⟩
      rw [hx.locate?_eq, hloc]
    · exact hfound hk' hpos

omit hwf hcov hclosed hroom in
/-- A node that did not enter and was not linked to `o` keeps link and
position. -/
theorem place_of_link_ne (hn : g.isAlive n = true) (hentered : n ∉ entered)
    (hlink : (f.node n).link ≠ some o) :
    (g.node n).link = (f.node n).link
      ∧ (g.node n).position = (f.node n).position :=
  ⟨(hx.account.stayed (.inl hn) hentered).resolve_right
      fun h => hlink h.1,
    (hp.moved hentered).resolve_right fun h => hlink h.1⟩

end Exchange

/-- What an edit of `o` must do to cached places: `entered` are the nodes
that it attached, `removed` the global child indices of `o` whose element
left or was overwritten. -/
structure KeepsPlaces (o : NodeId) (entered : List NodeId)
    (removed : Nat → Prop) (f g : Forest) : Prop where
  /-- An attached node has an accurate place below `o`. -/
  attached : ∀ {n}, n ∈ entered → g.Accurate n o
  /-- The place of a node that was not below `o` stays; so does its parent,
  unless that was freed. -/
  elsewhere : ∀ {n}, n ∉ entered → g.isAlive n = true →
    (f.node n).link ≠ some o →
    (g.node n).link = (f.node n).link
      ∧ (g.node n).position = (f.node n).position
      ∧ ∀ p, f.parent? n = some p →
        g.parent? n = some p ∨ g.isAlive p = false
  /-- An accurate place below `o` stays accurate unless the element there
  was removed, and then a node that occurs once is found at its place. -/
  remaining : ∀ {n}, n ∉ entered → f.Accurate n o →
    ¬ removed (f.node n).position →
    g.Accurate n o ∧ ((g.children o).count n = 1 →
      ∀ j, g.child? o j = some n → (g.node n).position = j)

/-- `Exchange` and `Placed` of an edit make `KeepsPlaces`. -/
theorem keepsPlaces {o : NodeId} {i : Nat} {entered left new : List NodeId}
    {removed : Nat → Prop} (hwf : f.WellFormed) (hcov : f.Covered)
    (hclosed : g.Closed) (hx : Exchange o i entered left new f g)
    (hp : Placed o i entered (f.slot o i) new removed f g)
    (hlive : ∀ n ∈ entered, g.isAlive n = true)
    (hroom : f.Room o i new.length) :
    KeepsPlaces o entered
      (fun j => ∃ k, f.locate? o j = some (i, k) ∧ removed k) f g := by
  refine ⟨fun {n} hentered => ?_, fun {n} hentered halive hlink => ?_,
    fun {n} hentered haccurate hkept => ?_⟩
  · have hn := hlive n hentered
    exact hx.accurate_of_mem hwf hcov hclosed hroom (hp.places (.inl hn)) hn
      hentered
  · obtain ⟨hsame, hpos⟩ :=
      hx.place_of_link_ne (hp.places (.inl halive)) halive hentered hlink
    refine ⟨hsame, hpos, fun p hparent => ?_⟩
    cases hpg : g.isAlive p with
    | true =>
        refine .inl (parent?_eq_some_iff.mpr ⟨?_, hpg⟩)
        rw [hsame]
        exact (parent?_eq_some_iff.mp hparent).1
    | false => exact .inr rfl
  · have hkept' : ∀ k, f.locate? o (f.node n).position = some (i, k) →
        ¬ removed k := fun k hloc hk => hkept ⟨k, hloc, hk⟩
    have hn : g.isAlive n = true := by
      obtain ⟨i', k, hloc, hk⟩ := child?_eq_some.mp haccurate.2
      by_cases hi : i' = i
      · subst hi
        exact hclosed (hx.mem_children (hp.kept hk (hkept' k hloc)))
      · refine hclosed (g.mem_children_of_mem_slot (i := i') (n := o) ?_)
        rw [hx.account.slot_ne hi]
        exact List.mem_of_getElem? hk
    have haccurate' := hx.accurate_of_accurate hwf hcov hclosed hroom
      (hp.places (.inl hn)) hentered haccurate hkept'
    exact ⟨haccurate', fun honce j hj =>
      child?_unique honce haccurate'.2 hj⟩

end InstructionTree.Forest
