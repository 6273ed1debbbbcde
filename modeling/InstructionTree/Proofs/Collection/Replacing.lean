/-
Replacing all elements, at once or by clearing first.

`replaceList` overwrites elements one by one, and lets go of each old one as
it goes. `clear` lets go of all of them after its commit, and `addRange`
fills what is empty then. Both are ways to refill the slot (`Refills`), and
both end with the same books and the same places (`Renewed`). That is all it
takes: any two such ways free the same nodes (`Renewed.isAlive_eq`) and
leave the others in the same states (`Renewed.get?_eq`), but that versions
count how many commits there were.
-/
import InstructionTree.Proofs.Collection.Places
import InstructionTree.Proofs.Forest.Refilling

namespace InstructionTree

open Forest

variable {checks : Checks} {locks ns due more : List NodeId} {count : Nat}
  {c : Collection} {f g h k : Forest} {n x : NodeId}

namespace Collection

/-- From `f` to `g`, the elements were replaced by some of `ns`. -/
abbrev Refills (c : Collection) (ns : List NodeId) (f : Forest) :
    Nat → List NodeId → Forest → Prop :=
  Refill c.owner c.slot (c.items f ++ ns) f

-- ================================================================== steps

theorem Refills.elements (hg : c.Refills ns f count due g) :
    ∀ n ∈ c.items g, n ∈ c.items f ++ ns :=
  Refill.elements hg fun _ hn => List.mem_append_left _ hn

theorem Refills.stored (hg : c.Refills ns f count due g)
    (hn : n ∈ c.items f ++ ns) (i : Nat) {items : List NodeId}
    (hitems : ∀ m ∈ items, m ∈ c.items f ++ ns) (hdue : ∀ m ∈ due, m ∈ more)
    (hlost : ∀ m ∈ c.items g, m ∈ items ∨ m ∈ more) :
    c.Refills ns f count more (c.setItems (c.place g i n) items) := by
  have hplaced : c.Refills ns f count due (c.place g i n) :=
    hg.relocate hn (relocates_setPosition n _)
  refine hplaced.store hitems hdue fun m hm => hlost m ?_
  rwa [← c.items_place g i n]

/-- An element is still there after `List.set` at `i`, or it is the one that
was at `i`. -/
private theorem mem_set_or {l : List NodeId} {i : Nat} {old m : NodeId}
    (hold : l[i]? = some old) (hm : m ∈ l) (n : NodeId) :
    m ∈ l.set i n ∨ m ∈ [old] := by
  obtain ⟨j, hj⟩ := List.mem_iff_getElem?.mp hm
  by_cases hji : j = i
  · subst hji
    cases hold.symm.trans hj
    exact .inr (.head _)
  · refine .inl (List.mem_of_getElem? (i := j) ?_)
    rw [List.getElem?_set_ne (Ne.symm hji), hj]

/-- `discard` keeps `Refills`. -/
theorem Refills.discard (i : Nat) :
    ∀ (times : Nat) {g : Forest}, c.Refills ns f count [] g →
      c.Refills ns f count [] (c.discard i times g)
  | 0, _, hg => hg
  | times + 1, g, hg => by
      unfold Collection.discard
      split
      · exact hg
      next old hold =>
        have hels := hg.elements
        have hmem := hels old (List.mem_of_getElem? hold)
        have hstored : c.Refills ns f count [old]
            (c.setItems g ((c.items g).eraseIdx i)) :=
          hg.store (fun m hm => hels m (List.mem_of_mem_eraseIdx hm))
            (fun m hm => by cases hm) fun m hm => mem_eraseIdx_or hold hm
        exact Refills.discard i times ((hstored.detach hmem).free hmem)

section

variable (haway : ∀ e ∈ c.items f ++ ns, ∀ m,
    Relation.ReflTransGen f.Holds e m → ¬ f.Above c.owner m)
  (ho : f.isAlive c.owner = true)
include haway ho

/-- `append` of nodes among `ns` succeeds, and keeps `Refills`. -/
theorem Refills.append {ms : List NodeId} (hms : ∀ n ∈ ms, n ∈ ns)
    (hg : c.Refills ns f count [] g) :
    ∃ h, c.append checks ms g = .ok () h ∧ c.Refills ns f count [] h := by
  induction ms generalizing g with
  | nil => exact ⟨g, rfl, hg⟩
  | cons n rest ih =>
      have hn : n ∈ c.items f ++ ns :=
        List.mem_append_right _ (hms n (.head _))
      have hpushed : c.Refills ns f count [] (c.pushed g n) := by
        refine hg.stored hn _ (fun m hm => ?_) (fun m hm => hm) fun m hm =>
          .inl (List.mem_append_left _ hm)
        rcases List.mem_append.mp hm with hm | hm
        · exact hg.elements m hm
        · exact List.mem_singleton.mp hm ▸ hn
      unfold Collection.append
      rw [attach_of_opens (hpushed.opens haway ho hn checks)]
      exact ih (fun m hm => hms m (.tail _ hm)) (hpushed.enter hn)

/-- `overwriteOne` with an old element or one of `ns` succeeds, and keeps
`Refills`. -/
theorem Refills.overwriteOne (hn : n ∈ c.items f ++ ns) (i : Nat)
    (hg : c.Refills ns f count [] g) :
    ∃ h, c.overwriteOne checks i n g = .ok () h
      ∧ c.Refills ns f count [] h := by
  have hels := hg.elements
  unfold Collection.overwriteOne
  split
  next old hold =>
    have hmem := hels old (List.mem_of_getElem? hold)
    have hover : c.Refills ns f count [old] (c.overwritten g i n) := by
      refine hg.stored hn i (fun m hm => ?_) (fun m hm => by cases hm)
        fun m hm => mem_set_or hold hm n
      rcases List.mem_or_eq_of_mem_set hm with hm | rfl
      · exact hels m hm
      · exact hn
    rw [attach_of_opens (hover.opens haway ho hn checks)]
    exact ⟨_, rfl, ((hover.enter hn).detach hmem).free hmem⟩
  next hnone =>
    have hpushed : c.Refills ns f count []
        (c.setItems (c.place g i n) (c.items g ++ [n])) := by
      refine hg.stored hn i (fun m hm => ?_) (fun m hm => hm) fun m hm =>
        .inl (List.mem_append_left _ hm)
      rcases List.mem_append.mp hm with hm | hm
      · exact hels m hm
      · exact List.mem_singleton.mp hm ▸ hn
    rw [attach_of_opens (hpushed.opens haway ho hn checks)]
    exact ⟨_, rfl, hpushed.enter hn⟩

theorem Refills.overwrite {ms : List NodeId} (hms : ∀ n ∈ ms, n ∈ ns)
    (i : Nat) (hg : c.Refills ns f count [] g) :
    ∃ h, c.overwrite checks i ms g = .ok () h
      ∧ c.Refills ns f count [] h := by
  induction ms generalizing g i with
  | nil => exact ⟨g, rfl, hg⟩
  | cons n rest ih =>
      have hn : n ∈ c.items f ++ ns :=
        List.mem_append_right _ (hms n (.head _))
      obtain ⟨h, hstep, hh⟩ : ∃ h, c.overwriteOne checks i n g = .ok () h
          ∧ c.Refills ns f count [] h := hg.overwriteOne haway ho hn i
      unfold Collection.overwrite
      rw [hstep]
      exact ih (fun m hm => hms m (.tail _ hm)) (i + 1) hh

-- ================================================================== edits

/-- `replaceList` succeeds where the guard is down, and refills with one
commit. -/
theorem refills_replaceList (hguard : f.isGuarded checks c.owner = false) :
    ∃ g, c.replaceList checks ns f = .ok () g ∧ c.Refills ns f 1 [] g := by
  have hstart : c.Refills ns f 0 [] f := .start
  obtain ⟨k, hover, hk⟩ : ∃ k, c.overwrite checks 0 ns f = .ok () k
      ∧ c.Refills ns f 0 [] k :=
    hstart.overwrite haway ho (fun _ hn => hn) 0
  unfold replaceList overwriteAll guarded
  rw [hguard]
  dsimp only [Bool.false_eq_true, if_false]
  rw [hover]
  exact ⟨_, rfl, (hk.discard ns.length _).commit⟩

omit haway ho in
/-- `clear` succeeds where the guard is down, and refills with one commit. -/
theorem refills_clear (hguard : f.isGuarded checks c.owner = false) :
    ∃ g, c.clear checks f = .ok () g ∧ c.Refills ns f 1 [] g := by
  have hels : ∀ n ∈ c.items f, n ∈ c.items f ++ ns :=
    fun n hn => List.mem_append_left _ hn
  have hstart : c.Refills ns f 0 [] f := .start
  have hstored : c.Refills ns f 0 (c.items f) (c.setItems f []) :=
    hstart.store (fun _ hm => by cases hm) (fun _ hm => by cases hm)
      fun _ hm => .inr hm
  unfold clear guarded
  rw [hguard]
  exact ⟨_, rfl, ((hstored.detachAll hels).commit).reapAll hels⟩

/-- `addRange` behind `Refills` succeeds, and refills with one commit more. -/
theorem refills_addRange {ms : List NodeId} (hms : ∀ n ∈ ms, n ∈ ns)
    (hg : c.Refills ns f count [] g)
    (hguard : f.isGuarded checks c.owner = false) :
    ∃ h, c.addRange checks ms g = .ok () h
      ∧ c.Refills ns f (count + 1) [] h := by
  have hopen : g.isGuarded checks c.owner = false := by
    rw [← hguard, isGuarded, isGuarded,
      hg.field (F := Node.depth) (fun _ _ _ _ _ _ _ => rfl)
        (hg.alive haway ho .refl)]
  obtain ⟨k, happend, hk⟩ : ∃ k, c.append checks ms g = .ok () k
      ∧ c.Refills ns f count [] k := hg.append haway ho hms
  unfold addRange appendAll guarded
  rw [hopen]
  dsimp only [Bool.false_eq_true, if_false]
  rw [happend]
  exact ⟨_, rfl, hk.commit⟩

end

-- ============================================================ the same end

/-- From `f` to `g`, the elements were replaced by `ns`: with `count`
commits, with the books of an exchange, and with the new elements at their
places. -/
structure Renewed (c : Collection) (ns : List NodeId) (f : Forest)
    (count : Nat) (g : Forest) : Prop where
  refills : c.Refills ns f count [] g
  books : Exchange c.owner c.slot ns (c.items f) ns f g
  places : ∀ n, g.isAlive n = true →
    (n ∉ ns → (g.node n).position = (f.node n).position)
      ∧ (n ∈ ns → ∃ j, LastAt ns n j ∧ (g.node n).position = c.base + j)

/-- Two ways that give the nodes of `ns` the position of their last index, and
leave all others, agree on every position. -/
theorem position_eq_of_lastAt {start : Nat}
    (hg : (n ∉ ns → (g.node n).position = (f.node n).position)
      ∧ (n ∈ ns → ∃ j, LastAt ns n j ∧ (g.node n).position = start + j))
    (hh : (n ∉ ns → (h.node n).position = (f.node n).position)
      ∧ (n ∈ ns → ∃ j, LastAt ns n j ∧ (h.node n).position = start + j)) :
    (h.node n).position = (g.node n).position := by
  by_cases hn : n ∈ ns
  · obtain ⟨j, hj, hposg⟩ := hg.2 hn
    obtain ⟨k, hk, hposh⟩ := hh.2 hn
    rw [hposg, hposh, hj.unique hk]
  · rw [hg.1 hn, hh.1 hn]

namespace Renewed

variable (haway : ∀ e ∈ c.items f ++ ns, ∀ m,
    Relation.ReflTransGen f.Holds e m → ¬ f.Above c.owner m)
include haway

/-- Two ways that leave the collection `Renewed` with `ns` free the same nodes.
-/
theorem isAlive_eq (hg : c.Renewed ns f count g) {more : Nat}
    (hh : c.Renewed ns f more h) (hns : f.Referenced ns)
    (hf : f.isAlive n = true) : h.isAlive n = g.isAlive n := by
  have hkept : ∀ e ∈ c.items f ++ ns, f.isLoose e = false := by
    intro e he
    rcases List.mem_append.mp he with hold | hnew
    · exact isLoose_of_mem_children (f.mem_children_of_mem_slot hold)
    · exact isLoose_of_handles (hns e hnew)
  have hstored : ∀ {count : Nat} {g : Forest}, c.Renewed ns f count g →
      ∀ e ∈ g.slot c.owner c.slot, 0 < (f.node e).handles := by
    intro count g hg e he
    rw [hg.books.account.slot_self] at he
    exact hns e he
  have hgone : ∀ {count more : Nat} {g h : Forest}, c.Renewed ns f count g →
      c.Renewed ns f more h → g.isAlive n = false → h.isAlive n = false :=
    fun hg hh hdead =>
      hh.refills.gone haway hkept (hstored hh) hg.refills hf hdead
  cases hgn : g.isAlive n with
  | false => exact hgone hg hh hgn
  | true =>
      cases hhn : h.isAlive n with
      | true => rfl
      | false =>
          rw [hgone hh hg hhn] at hgn
          cases hgn

/-- Two ways that leave the collection `Renewed` with `ns` leave equal records,
but for the version of the owner. -/
theorem get?_eq (hg : c.Renewed ns f (count + 1) g) {more : Nat}
    (hh : c.Renewed ns f (more + 1) h) (hwf : f.WellFormed)
    (hcov : f.Covered) (hns : f.Referenced ns) (n : NodeId) :
    h.get? n = (g.get? n).map fun x => { x with
      version := (f.node n).version
        + if n = c.owner then more + 1 else 0 } := by
  have halive : h.isAlive n = g.isAlive n := by
    cases hf : f.isAlive n with
    | true => exact hg.isAlive_eq haway hh hns hf
    | false =>
        have hdead : ∀ {count : Nat} {k : Forest}, c.Renewed ns f count k →
            k.isAlive n = false := fun hk =>
          Bool.eq_false_iff.mpr fun hkn => by
            rw [hk.refills.survivor hkn] at hf
            cases hf
        rw [hdead hg, hdead hh]
  exact hg.refills.get?_eq haway hwf hcov hh.refills hg.books.account
    hh.books.account halive fun hgn hhn =>
      position_eq_of_lastAt (hg.places n hgn) (hh.places n hhn)

end Renewed

-- ============================================================ the two ways

section

variable (hs : f.Sound checks locks) (hc : c.Fits f) (ho : c.owner ∈ locks)
  (hns : ∀ n ∈ ns, n ∈ locks)
  (haway : ∀ e ∈ c.items f ++ ns, ∀ m,
    Relation.ReflTransGen f.Holds e m → ¬ f.Above c.owner m)
  (hguard : f.isGuarded checks c.owner = false)
include hs hc ho hns haway hguard

/-- `replaceList` leaves the collection `Renewed` with one commit. -/
theorem renewed_replaceList :
    ∃ g, c.replaceList checks ns f = .ok () g ∧ c.Renewed ns f 1 g := by
  obtain ⟨g, hout, hrefills⟩ : ∃ g, c.replaceList checks ns f = .ok () g
      ∧ c.Refills ns f 1 [] g := refills_replaceList haway hc.alive hguard
  exact ⟨g, hout, hrefills, exchange_replaceList hs hc ho hns hout,
    fun n hn => positions_replaceList hs hc ho hns hout (.inl hn)⟩

/-- `clear` and `addRange` leave the collection `Renewed` with two commits. -/
theorem renewed_clear_addRange :
    ∃ g h, c.clear checks f = .ok () g
      ∧ c.addRange checks ns g = .ok () h ∧ c.Renewed ns f 2 h := by
  obtain ⟨g, hclear, hcleared⟩ : ∃ g, c.clear checks f = .ok () g
      ∧ c.Refills ns f 1 [] g := refills_clear hguard
  obtain ⟨h, hadd, hrefills⟩ : ∃ h, c.addRange checks ns g = .ok () h
      ∧ c.Refills ns f 2 [] h :=
    refills_addRange haway hc.alive (fun _ hn => hn) hcleared hguard
  have hs' : g.Sound checks locks := by
    have hcarried : Carried checks c.owner f (c.clear checks f) :=
      carried_clear hc
    rw [hclear] at hcarried
    exact hcarried.sound hs
  obtain ⟨k, hx, hsheds⟩ := exchange_clear hs hc hclear
  have hempty := hx.calm hsheds.calm (hs'.alive ho)
  obtain ⟨m, happend, rfl⟩ := addRange_eq_ok hadd
  have hlive : ∀ n ∈ ns, g.isAlive n = true := fun n hn => hs'.alive (hns n hn)
  have hfilled := exchange_append hempty hlive happend
  refine ⟨g, _, hclear, hadd, hrefills, exchange_commit hfilled,
    fun n hn => ?_⟩
  obtain ⟨hother, hplaced⟩ := positions_append hempty hlive happend n
  have hcommit := alike_commit (f := m) c.owner
  rw [isAlive_commit] at hn
  have hgn : g.isAlive n = true := by
    rwa [isAlive_append happend] at hn
  rw [hcommit.position]
  refine ⟨fun hnew => ?_, fun hnew => ?_⟩
  · rw [hother hnew, position_clear hclear (.inl hgn)]
  · obtain ⟨j, hj, hpos⟩ := hplaced hnew
    rw [List.length_nil, Nat.zero_add] at hpos
    exact ⟨j, hj, hpos⟩

end

end Collection

end InstructionTree
