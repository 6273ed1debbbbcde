/-
What an edit of one slot does to links and counters.

An `Account` follows an edit of slot `i` of `o` step by step and keeps
books: the nodes that entered, the nodes that left, and what the slot
holds now. Storing, placing, entering and leaving may come in any order,
and what is between them is calm.

# What the books say

The counter of a node changes by its entries less its exits (`count`). A
node that entered is linked to the owner (`arrived`). Any other link stays
as it was (`stayed`), unless it named the owner and the last position is
gone, and then it is dropped (`cleared`).

An exit is booked only for a node that the slot held at the start or that
entered since. So its counter, which covers those positions, does not run
out (`solvent`).
-/
import InstructionTree.Proofs.Forest.Calm

namespace InstructionTree.Forest

variable {f g h : Forest}

-- ============================================================ accounts

/-- The books of an edit of slot `i` of `o` that started from `f`: who
entered, who left, what the slot holds, and the forest now. -/
inductive Account (o : NodeId) (i : Nat) (f : Forest) :
    List NodeId → List NodeId → List NodeId → Forest → Prop where
  | start (ho : f.isAlive o = true)
      (hi : i < (f.node o).slots.length) :
      Account o i f [] [] (f.slot o i) f
  | place {entered left items : List NodeId} {g : Forest}
      (hg : Account o i f entered left items g) (n : NodeId) (k : Nat) :
      Account o i f entered left items (g.setPosition n k)
  | store {entered left items : List NodeId} {g : Forest}
      (hg : Account o i f entered left items g) (new : List NodeId) :
      Account o i f entered left new (g.setSlot o i new)
  | enter {entered left items : List NodeId} {g : Forest}
      (hg : Account o i f entered left items g) {c : NodeId}
      (hc : g.isAlive c = true) :
      Account o i f (entered ++ [c]) left items (g.enter o c)
  | leave {entered left items : List NodeId} {g : Forest}
      (hg : Account o i f entered left items g) {c : NodeId}
      (hc : g.isAlive c = true)
      (hcount : left.count c < (f.slot o i).count c + entered.count c) :
      Account o i f entered (left ++ [c]) items (g.detach o c)
  | calm {entered left items : List NodeId} {g h : Forest}
      (hg : Account o i f entered left items g) (hgh : Calm g h)
      (ho : h.isAlive o = true) : Account o i f entered left items h

namespace Account

variable {o : NodeId} {i : Nat} {entered left items : List NodeId}

theorem ages (hg : Account o i f entered left items g) : Ages f g := by
  induction hg with
  | start => exact .refl f
  | @place _ _ _ g _ n k ih =>
      have htouches : Touches .lax o g (g.setPosition n k) :=
        .single (.place n k)
      exact ih.trans htouches.ages
  | @store _ _ _ g _ new ih =>
      refine ih.trans ⟨?_, fun _ h => ?_, fun _ _ => ?_⟩
      · exact Nat.le_of_eq (size_setSlot ..).symm
      · rwa [isAlive_setSlot] at h
      · exact field_setSlot g (F := Node.opcode) (fun _ _ => rfl) o i new _
  | @enter _ _ _ g _ c _ ih =>
      refine ih.trans ⟨?_, fun _ h => ?_, fun _ _ => ?_⟩
      · exact Nat.le_of_eq (size_enter ..).symm
      · rwa [isAlive_enter] at h
      · exact field_enter g (F := Node.opcode) (fun _ _ _ => rfl) o c _
  | @leave _ _ _ g _ c _ _ ih =>
      have htouches : Touches .lax o g (g.detach o c) := .single (.leave c)
      exact ih.trans htouches.ages
  | calm _ hgh _ ih => exact ih.trans hgh.ages

theorem owner (hg : Account o i f entered left items g) :
    g.isAlive o = true := by
  induction hg with
  | start ho => exact ho
  | place _ _ _ ih => exact (isAlive_setPosition ..).trans ih
  | store _ _ ih => exact (isAlive_setSlot ..).trans ih
  | enter _ _ ih => exact (isAlive_enter ..).trans ih
  | leave _ _ _ ih => exact (isAlive_detach ..).trans ih
  | calm _ _ ho => exact ho

/-- The slot of an account is one of the slots of its owner. -/
theorem bound (hg : Account o i f entered left items g) :
    i < (f.node o).slots.length := by
  induction hg with
  | start _ hi => exact hi
  | place _ _ _ ih => exact ih
  | store _ _ ih => exact ih
  | enter _ _ ih => exact ih
  | leave _ _ _ ih => exact ih
  | calm _ _ _ ih => exact ih

theorem source (hg : Account o i f entered left items g) :
    f.isAlive o = true := by
  induction hg with
  | start ho => exact ho
  | place _ _ _ ih => exact ih
  | store _ _ ih => exact ih
  | enter _ _ ih => exact ih
  | leave _ _ _ ih => exact ih
  | calm _ _ _ ih => exact ih

/-- The slots of the owner are those of `f` with `items` at `i`. -/
theorem own (hg : Account o i f entered left items g) :
    (g.node o).slots = (f.node o).slots.set i items := by
  induction hg with
  | start ho hi =>
      rw [f.slot_of_getElem? (List.getElem?_eq_getElem hi),
        List.set_getElem_self]
  | place _ _ _ ih => rw [slots_setPosition, ih]
  | @store _ _ _ g hg new ih =>
      rw [slots_setSlot_self g i new hg.owner, ih, List.set_set]
  | enter _ _ ih => rw [slots_enter, ih]
  | leave _ _ _ ih => rw [slots_detach, ih]
  | calm hg hgh ho ih => rw [hgh.slots hg.owner ho, ih]

/-- A node other than the owner that is alive after the steps has the slots and
the children it had; who was created has no children. -/
theorem others (hg : Account o i f entered left items g) {p : NodeId}
    (hne : p ≠ o) (hp : g.isAlive p = true) :
    (f.isAlive p = true → (g.node p).slots = (f.node p).slots)
      ∧ g.children p = f.children p := by
  induction hg with
  | start => exact ⟨fun _ => rfl, rfl⟩
  | place _ _ _ ih =>
      rw [isAlive_setPosition] at hp
      rw [children_eq, slots_setPosition]
      exact ih hp
  | @store _ _ _ g _ new ih =>
      rw [isAlive_setSlot] at hp
      rw [children_eq, slots_setSlot_ne g i new hne]
      exact ih hp
  | enter _ _ ih =>
      rw [isAlive_enter] at hp
      rw [children_eq, slots_enter]
      exact ih hp
  | leave _ _ _ ih =>
      rw [isAlive_detach] at hp
      rw [children_eq, slots_detach]
      exact ih hp
  | @calm _ _ _ g h hg hgh _ ih =>
      cases hpg : g.isAlive p with
      | true =>
          obtain ⟨hslots, hchildren⟩ := ih hpg
          refine ⟨fun hpf => ?_, (hgh.children hp).trans hchildren⟩
          rw [hgh.slots hpg hp, hslots hpf]
      | false =>
          -- born since: `f` did not know it either
          have hpf : f.isAlive p = false := by
            cases hpf : f.isAlive p with
            | false => rfl
            | true =>
                have hold := f.index_lt_of_alive hpf
                rw [hgh.ages.alive (Nat.lt_of_lt_of_le hold hg.ages.size)
                  hp] at hpg
                cases hpg
          refine ⟨fun halive => ?_, ?_⟩
          · rw [hpf] at halive
            cases halive
          · rw [hgh.born hpg hp, children_of_not_alive f hpf]

/-- `g.slot o i` is `items`. -/
theorem slot_self (hg : Account o i f entered left items g) :
    g.slot o i = items := by
  refine g.slot_of_getElem? ?_
  rw [hg.own, List.getElem?_set_self hg.bound]

/-- `g.slot o j` is `f.slot o j` at every other `j`. -/
theorem slot_ne (hg : Account o i f entered left items g) {j : Nat}
    (hne : j ≠ i) : g.slot o j = f.slot o j := by
  rw [slot, slot, Node.slot, Node.slot, hg.own,
    List.getElem?_set_ne (Ne.symm hne)]

/-- The children of `o` are counted as in `f`, with `items` for what slot `i`
held. -/
theorem count_children (hg : Account o i f entered left items g)
    (n : NodeId) :
    (g.children o).count n + (f.slot o i).count n
      = (f.children o).count n + items.count n := by
  rw [children_eq, children_eq, hg.own]
  exact count_flatten_set n (f.node o).slots items hg.bound

/-- The positions of a node grow at most by its occurrences in `items`, less
those in the old slot. -/
theorem holdCount_le (hg : Account o i f entered left items g) (n : NodeId) :
    g.holdCount n + (f.slot o i).count n ≤ f.holdCount n + items.count n := by
  have hexchange := holdCount_exchange_le (f := f) (g := g) (o := o)
    (n := n) hg.ages.size fun p hp => by
      cases halive : g.isAlive p with
      | true => rw [(hg.others hp halive).2]
      | false =>
          rw [children_of_not_alive g halive]
          exact Nat.zero_le _
  have hown := hg.count_children n
  omega

/-- The positions of a node change by exactly that, if all who held it live on.
-/
theorem holdCount_eq (hg : Account o i f entered left items g) {n : NodeId}
    (hkept : ∀ p, n ∈ f.children p → g.isAlive p = true) :
    g.holdCount n + (f.slot o i).count n = f.holdCount n + items.count n := by
  have hexchange := holdCount_exchange (f := f) (g := g) (o := o)
    (n := n) hg.ages.size fun p hp => by
      cases halive : g.isAlive p with
      | true => rw [(hg.others hp halive).2]
      | false =>
          have hnot : n ∉ f.children p := fun h => by
            rw [hkept p h] at halive
            cases halive
          rw [children_of_not_alive g halive, List.count_eq_zero.mpr hnot]
          rfl
  have hown := hg.count_children n
  omega

/-- A node that entered is linked to `o`, or its counter is at 0 and it is
linked to nobody. -/
theorem arrived (hg : Account o i f entered left items g) {n : NodeId}
    (hn : g.Spared n) (hentered : n ∈ entered) :
    (g.node n).link = some o
      ∨ ((g.node n).link = none ∧ (g.node n).slotRefs = 0) := by
  induction hg with
  | start => cases hentered
  | place _ _ _ ih =>
      rw [link_setPosition, slotRefs_setPosition]
      exact ih (spared_update.mp hn) hentered
  | store _ _ ih =>
      rw [link_setSlot, slotRefs_setSlot]
      exact ih (spared_update.mp hn) hentered
  | @enter _ _ _ g _ c hc ih =>
      by_cases hnc : n = c
      · subst hnc
        rw [Forest.enter, node_update_self g hc]
        exact .inl rfl
      · rw [Forest.enter, node_update_ne g hnc]
        refine ih (spared_update.mp hn) ?_
        simpa [hnc] using hentered
  | @leave _ _ _ g _ c hc _ ih =>
      have ih := ih (spared_detach.mp hn) hentered
      by_cases hnc : n = c
      · subst hnc
        rw [node_detach_self g hc]
        dsimp only
        split
        case isTrue hlast => exact .inr ⟨rfl, hlast.1⟩
        case isFalse =>
          rcases ih with hlink | ⟨hlink, hrefs⟩
          · exact .inl hlink
          · exact .inr ⟨hlink, by omega⟩
      · rw [node_detach_ne g hnc]
        exact ih
  | calm _ hgh _ ih =>
      rw [hgh.link hn, hgh.slotRefs hn]
      exact ih (hgh.ages.spared hn) hentered

/-- A node that did not enter has the link it had, or was linked to `o` and has
lost that link with its counter at 0. -/
theorem stayed (hg : Account o i f entered left items g) {n : NodeId}
    (hn : g.Spared n) (hentered : n ∉ entered) :
    (g.node n).link = (f.node n).link
      ∨ ((f.node n).link = some o ∧ (g.node n).link = none
        ∧ (g.node n).slotRefs = 0) := by
  induction hg with
  | start => exact .inl rfl
  | place _ _ _ ih =>
      rw [link_setPosition, slotRefs_setPosition]
      exact ih (spared_update.mp hn) hentered
  | store _ _ ih =>
      rw [link_setSlot, slotRefs_setSlot]
      exact ih (spared_update.mp hn) hentered
  | @enter _ _ _ g _ c hc ih =>
      rw [List.mem_append, List.mem_singleton, not_or] at hentered
      rw [Forest.enter, node_update_ne g hentered.2]
      exact ih (spared_update.mp hn) hentered.1
  | @leave _ _ _ g _ c hc _ ih =>
      have ih := ih (spared_detach.mp hn) hentered
      by_cases hnc : n = c
      · subst hnc
        rw [node_detach_self g hc]
        dsimp only
        split
        case isTrue hlast =>
          rcases ih with hlink | ⟨-, hlink, -⟩
          · exact .inr ⟨hlink ▸ hlast.2, rfl, hlast.1⟩
          · rw [hlink] at hlast
            cases hlast.2
        case isFalse =>
          rcases ih with hlink | ⟨hlinkf, hlink, hrefs⟩
          · exact .inl hlink
          · exact .inr ⟨hlinkf, hlink, by omega⟩
      · rw [node_detach_ne g hnc]
        exact ih
  | calm _ hgh _ ih =>
      rw [hgh.link hn, hgh.slotRefs hn]
      exact ih (hgh.ages.spared hn) hentered

/-- A node that neither entered nor left has the link it had. -/
theorem undisturbed (hg : Account o i f entered left items g) {n : NodeId}
    (hn : g.Spared n) (hentered : n ∉ entered) (hleft : n ∉ left) :
    (g.node n).link = (f.node n).link := by
  induction hg with
  | start => rfl
  | place _ _ _ ih =>
      rw [link_setPosition]
      exact ih (spared_update.mp hn) hentered hleft
  | store _ _ ih =>
      rw [link_setSlot]
      exact ih (spared_update.mp hn) hentered hleft
  | @enter _ _ _ g _ c _ ih =>
      rw [List.mem_append, List.mem_singleton, not_or] at hentered
      rw [Forest.enter, node_update_ne g hentered.2]
      exact ih (spared_update.mp hn) hentered.1 hleft
  | @leave _ _ _ g _ c _ _ ih =>
      rw [List.mem_append, List.mem_singleton, not_or] at hleft
      rw [node_detach_ne g hleft.2]
      exact ih (spared_detach.mp hn) hentered hleft.1
  | calm _ hgh _ ih =>
      rw [hgh.link hn]
      exact ih (hgh.ages.spared hn) hentered hleft

/-- A node that entered or left and counts 0 is not linked to `o`. -/
theorem cleared (hg : Account o i f entered left items g) {n : NodeId}
    (hn : g.Spared n) (hmoved : n ∈ entered ∨ n ∈ left)
    (hrefs : (g.node n).slotRefs = 0) : (g.node n).link ≠ some o := by
  induction hg with
  | start => rcases hmoved with hmoved | hmoved <;> cases hmoved
  | place _ _ _ ih =>
      rw [slotRefs_setPosition] at hrefs
      rw [link_setPosition]
      exact ih (spared_update.mp hn) hmoved hrefs
  | store _ _ ih =>
      rw [slotRefs_setSlot] at hrefs
      rw [link_setSlot]
      exact ih (spared_update.mp hn) hmoved hrefs
  | @enter _ _ _ g _ c hc ih =>
      by_cases hnc : n = c
      · subst hnc
        rw [Forest.enter, node_update_self g hc] at hrefs
        cases hrefs
      · rw [Forest.enter, node_update_ne g hnc] at hrefs ⊢
        refine ih (spared_update.mp hn) ?_ hrefs
        simpa [hnc] using hmoved
  | @leave _ _ _ g _ c hc _ ih =>
      by_cases hnc : n = c
      · subst hnc
        rw [node_detach_self g hc] at hrefs ⊢
        dsimp only at hrefs ⊢
        intro hlink
        split at hlink
        case isTrue => cases hlink
        case isFalse hlast => exact hlast ⟨hrefs, hlink⟩
      · rw [node_detach_ne g hnc] at hrefs ⊢
        refine ih (spared_detach.mp hn) ?_ hrefs
        simpa [hnc] using hmoved
  | calm _ hgh _ ih =>
      rw [hgh.slotRefs hn] at hrefs
      rw [hgh.link hn]
      exact ih (hgh.ages.spared hn) hmoved hrefs

/-- An account is `Solvent` if every node counts at least its exits in `f`. -/
theorem solvent_of_le (hg : Account o i f entered left items g)
    (hleft : ∀ n, left.count n ≤ (f.node n).slotRefs) :
    Solvent o f entered left g := by
  induction hg with
  | start => exact .start
  | place _ n k ih => exact (ih hleft).place n k
  | store _ new ih => exact (ih hleft).store i new
  | enter _ hc ih => exact (ih hleft).enter hc
  | @leave _ left _ g _ c hc _ ih =>
      have hfewer : ∀ n, left.count n ≤ (f.node n).slotRefs := fun n =>
        Nat.le_trans ((List.sublist_append_left ..).count_le n) (hleft n)
      refine (ih hfewer).leave hc ?_
      have hrefs := (ih hfewer).count (.inl hc)
      have hlast := hleft c
      rw [List.count_append, List.count_singleton_self] at hlast
      omega
  | calm _ hgh _ ih => exact (ih hleft).calm hgh

-- what follows needs that the counters cover the positions at the start

variable (hwf : f.WellFormed) (hcov : f.Covered)
include hwf hcov

/-- In a covered forest `slotRefs` is at least the occurrences in the slot. -/
private theorem slot_covered (c : NodeId) :
    (f.slot o i).count c ≤ (f.node c).slotRefs := by
  by_cases hc : c ∈ f.slot o i
  · have halive := hwf.closed (f.mem_children_of_mem_slot hc)
    exact Nat.le_trans ((f.slot_sublist_children o i).count_le c)
      (Nat.le_trans (count_le_holdCount o c) (hcov c halive))
  · rw [List.count_eq_zero.mpr hc]
    exact Nat.zero_le _

/-- A node that leaves is in the slot or has entered, so it counts a
position. -/
theorem solvent (hg : Account o i f entered left items g) :
    Solvent o f entered left g := by
  induction hg with
  | start => exact .start
  | place _ n k ih => exact ih.place n k
  | store _ new ih => exact ih.store i new
  | enter _ hc ih => exact ih.enter hc
  | @leave _ _ _ g _ c hc hcount ih =>
      refine ih.leave hc ?_
      have hrefs := ih.count (.inl hc)
      have hslot := slot_covered (o := o) (i := i) hwf hcov c
      omega
  | calm _ hgh _ ih => exact ih.calm hgh

theorem count (hg : Account o i f entered left items g) {n : NodeId}
    (hn : g.Spared n) :
    (g.node n).slotRefs + left.count n
      = (f.node n).slotRefs + entered.count n :=
  (hg.solvent hwf hcov).count hn

/-- The link of a node follows from the books, whatever the order of the
steps was. -/
theorem link_eq {items' : List NodeId}
    (hg : Account o i f entered left items g)
    (hh : Account o i f entered left items' h) {n : NodeId}
    (hgn : g.Spared n) (hhn : h.Spared n) :
    (h.node n).link = (g.node n).link := by
  have hcountg := hg.count hwf hcov hgn
  have hcounth := hh.count hwf hcov hhn
  by_cases hmoved : n ∈ entered ∨ n ∈ left
  case neg =>
    rw [not_or] at hmoved
    rw [hh.undisturbed hhn hmoved.1 hmoved.2,
      hg.undisturbed hgn hmoved.1 hmoved.2]
  by_cases hentered : n ∈ entered
  · rcases hg.arrived hgn hentered with hlinkg | ⟨hlinkg, hzero⟩
    · have hcounted : (g.node n).slotRefs ≠ 0 :=
        fun hzero => hg.cleared hgn hmoved hzero hlinkg
      rcases hh.arrived hhn hentered with hlinkh | ⟨-, hzero⟩
      · rw [hlinkg, hlinkh]
      · omega
    · rcases hh.arrived hhn hentered with hlinkh | ⟨hlinkh, -⟩
      · exact absurd hlinkh (hh.cleared hhn hmoved (by omega))
      · rw [hlinkg, hlinkh]
  · rcases hg.stayed hgn hentered with hlinkg | ⟨howner, hlinkg, hzero⟩
    · rcases hh.stayed hhn hentered with hlinkh | ⟨howner, -, hzero⟩
      · rw [hlinkg, hlinkh]
      · exact absurd (hlinkg.trans howner)
          (hg.cleared hgn hmoved (by omega))
    · rcases hh.stayed hhn hentered with hlinkh | ⟨-, hlinkh, -⟩
      · exact absurd (hlinkh.trans howner)
          (hh.cleared hhn hmoved (by omega))
      · rw [hlinkg, hlinkh]

end Account

/-- The counter of a node that is not alive covers its positions too:
there are none. -/
theorem Covered.le (hcov : f.Covered) (hwf : f.WellFormed) (n : NodeId) :
    f.holdCount n ≤ (f.node n).slotRefs := by
  cases halive : f.isAlive n with
  | true => exact hcov n halive
  | false =>
      rcases Nat.eq_zero_or_pos (f.holdCount n) with hzero | hpos
      · omega
      · obtain ⟨p, hp⟩ := holdCount_pos_iff.mp hpos
        rw [hwf.closed hp] at halive
        cases halive

-- ============================================================ exchanges

/-- An edit replaced the contents of slot `i` of `o` by `new`, and the
books balance: what was there and what entered is what is there now and
what left. -/
structure Exchange (o : NodeId) (i : Nat) (entered left new : List NodeId)
    (f g : Forest) : Prop where
  account : Account o i f entered left new g
  balance : ∀ n, new.count n + left.count n
    = (f.slot o i).count n + entered.count n

namespace Exchange

variable {o : NodeId} {i : Nat} {entered left new : List NodeId}

theorem start (ho : f.isAlive o = true)
    (hi : i < (f.node o).slots.length) :
    Exchange o i [] [] (f.slot o i) f f :=
  ⟨.start ho hi, fun _ => rfl⟩

theorem calm (hfg : Exchange o i entered left new f g) (hgh : Calm g h)
    (ho : h.isAlive o = true) : Exchange o i entered left new f h :=
  ⟨hfg.account.calm hgh ho, hfg.balance⟩

/-- An `Exchange` in a covered forest leads to a covered one. -/
theorem covered (hfg : Exchange o i entered left new f g)
    (hwf : f.WellFormed) (hcov : f.Covered) : g.Covered := by
  intro n hn
  have hcount := hfg.account.count hwf hcov (.inl hn)
  have hholds := hfg.account.holdCount_le n
  have hbefore := hcov.le hwf n
  have hbalance := hfg.balance n
  omega

end Exchange

end InstructionTree.Forest
