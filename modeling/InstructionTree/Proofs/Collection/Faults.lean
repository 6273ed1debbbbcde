/-
Which requests an edit of a collection refuses.

A request is refused because a traversal is open, or else because an index
is not one of the collection. `Change.outside?` says on lengths alone
which index that is, over all natural numbers: nothing wraps, and only the
end of a range is cut, to the largest index there is. `refuses_apply` is
the whole table: it names the fault of every edit in every forest, or that
there is none. A refused edit returns before it stored anything
(`apply_guarded`, `apply_outside`).

What can still stop an edit then is the check of an attach, and that is no
fault.
-/
import InstructionTree.Proofs.Collection.Guarded
import InstructionTree.Proofs.Collection.Success

namespace InstructionTree

-- ================================================================= faults

namespace Outcome

variable {σ α β : Type}

/-- The fault that a program ended with, if it ended with one. -/
def fault? : Outcome σ α → Option Fault
  | .stop (.fault e) _ => some e
  | _ => none

@[simp] theorem fault?_ok (a : α) (s : σ) :
    (Outcome.ok a s).fault? = none := rfl

@[simp] theorem fault?_map (out : Outcome σ α) (k : α → β) :
    (out.map k).fault? = out.fault? := by
  cases out with
  | ok a s => rfl
  | stop why s => cases why <;> rfl

@[simp] theorem fault?_next (out : Outcome σ α) (k : σ → σ) :
    (out.next k).fault? = out.fault? := by
  cases out with
  | ok a s => rfl
  | stop why s => cases why <;> rfl

@[simp] theorem fault?_mapState {τ : Type} (out : Outcome σ α)
    (k : σ → τ) : (out.mapState k).fault? = out.fault? := by
  cases out with
  | ok a s => rfl
  | stop why s => cases why <;> rfl

@[simp] theorem fault?_always (out : Outcome σ α) (k : σ → σ) :
    (out.always k).fault? = out.fault? := by
  cases out with
  | ok a s => rfl
  | stop why s => cases why <;> rfl

end Outcome

/-- What a refusal leaves behind: the forest as it was, and a report if a
traversal was in the way. -/
def Fault.reported : Fault → Forest → Forest
  | .invalidDuringTraversal op depth, f => f.emit (.rejected op depth)
  | _, f => f

/-- `Fault.reported` changes no record. -/
theorem Fault.get?_reported (e : Fault) (f : Forest) (n : NodeId) :
    (e.reported f).get? n = f.get? n := by
  cases e <;> rfl

/-- A program on `f` ended with the fault that is given, having changed
nothing, or, if none is given, without a fault. -/
def Outcome.Refuses {α : Type} (f : Forest) (out : Outcome Forest α) :
    Option Fault → Prop
  | some e => out = .stop (.fault e) (e.reported f)
  | none => out.fault? = none

theorem Outcome.Refuses.fault?_eq {α : Type} {f : Forest}
    {out : Outcome Forest α} {e? : Option Fault} (hout : out.Refuses f e?) :
    out.fault? = e? := by
  cases e? with
  | none => exact hout
  | some e => exact congrArg Outcome.fault? hout

theorem Outcome.refuses_map {α β : Type} {f : Forest}
    {out : Outcome Forest α} {k : α → β} {e? : Option Fault} :
    (out.map k).Refuses f e? ↔ out.Refuses f e? := by
  cases e? with
  | none => rw [Refuses, Refuses, fault?_map]
  | some e =>
      cases out with
      | ok a g => exact ⟨nofun, nofun⟩
      | stop why g => simp [Refuses, Outcome.map]

namespace Forest

variable {checks : Checks} {f : Forest}

/-- `attach` ends with no fault: where its check fails it panics. -/
@[simp] theorem fault?_attach (o c : NodeId) :
    (attach checks o c f).fault? = none := by
  unfold attach
  split <;> rfl

/-- `unlessSpent` ends with no fault, if the edit does not: a counter without
room panics. -/
theorem fault?_unlessSpent {α : Type} {o : NodeId} {edit : Edit α}
    (hedit : (edit f).fault? = none) :
    (unlessSpent checks o edit f).fault? = none := by
  unfold unlessSpent
  split
  · rfl
  · exact hedit

/-- `endTraversal` ends with no fault: where its check fails it panics. -/
@[simp] theorem fault?_endTraversal (o : NodeId) :
    (endTraversal checks o f).fault? = none := by
  unfold endTraversal
  split <;> rfl

/-- The fault of a structural edit of `o` while a traversal is open. -/
def traversalFault? (checks : Checks) (f : Forest) (o : NodeId) :
    Option Fault :=
  if checks = .strict ∧ 0 < (f.node o).depth.shown then
    some (.invalidDuringTraversal (f.node o).opcode (f.node o).depth.shown)
  else none

theorem isGuarded_iff {o : NodeId} : f.isGuarded checks o = true
    ↔ checks = .strict ∧ 0 < (f.node o).depth.shown := by
  simp [isGuarded, Checks.enforced, Nat.pos_iff_ne_zero]

theorem traversalFault?_of_guard {o : NodeId}
    (hguard : f.isGuarded checks o = true) :
    f.traversalFault? checks o
      = some (.invalidDuringTraversal (f.node o).opcode
        (f.node o).depth.shown) :=
  if_pos (isGuarded_iff.mp hguard)

theorem traversalFault?_of_open {o : NodeId}
    (hopen : f.isGuarded checks o = false) :
    f.traversalFault? checks o = none :=
  if_neg fun h => by simp [isGuarded_iff.mpr h] at hopen

end Forest

-- ================================================================ indices

/-- The index that the change needs and a collection of this length does not
have, if there is one. -/
def Change.outside? {ν : Type} (length : Nat) : Change ν → Option Nat
  | set i _ | removeAt i | swapRemoveAt i =>
      if length ≤ i then some i else none
  | insert i _ => if length < i then some i else none
  | removeRange i count =>
      if length < i then some i
      else if length < i + count then some (min (i + count) maxIndex)
      else none
  | move a b =>
      if length ≤ a then some a else if length ≤ b then some b else none
  | add _ | addRange _ | remove _ | clear | moveToEnd _ | replaceList _ =>
      none

/-- The indices that an edit names, and where its ranges end. -/
def Change.indices {ν : Type} : Change ν → List Nat
  | set i _ | insert i _ | removeAt i | swapRemoveAt i => [i]
  | removeRange i count => [i, i + count]
  | move a b => [a, b]
  | add _ | addRange _ | remove _ | clear | moveToEnd _ | replaceList _ => []

/-- An edit whose indices are all there counts to no more than the length
of the list. -/
theorem Change.le_of_inside {ν : Type} {ch : Change ν} {length i : Nat}
    (hin : ch.outside? length = none) (hi : i ∈ ch.indices) :
    i ≤ length := by
  cases ch with
  | set j _ | insert j _ | removeAt j | swapRemoveAt j =>
      obtain rfl := List.mem_singleton.mp hi
      simp [outside?] at hin
      omega
  | removeRange j count =>
      rw [outside?] at hin
      split at hin
      · cases hin
      · split at hin
        · cases hin
        · simp [indices] at hi
          omega
  | move a b =>
      rw [outside?] at hin
      split at hin
      · cases hin
      · split at hin
        · cases hin
        · simp [indices] at hi
          omega
  | add | addRange | remove | clear | moveToEnd | replaceList => cases hi

namespace Collection

open Forest

variable {checks : Checks} {c : Collection} {f : Forest}

/-- Below the length there is an element at every index. -/
theorem exists_getElem? {i : Nat} (hi : i < c.length f) :
    ∃ n, (c.items f)[i]? = some n :=
  ⟨_, List.getElem?_eq_getElem hi⟩

/-- What `indexOf?` finds is an index below the length. -/
theorem lt_of_indexOf? {n : NodeId} {i : Nat}
    (hfound : c.indexOf? f n = some i) : i < c.length f :=
  (List.getElem?_eq_some_iff.mp (getElem?_of_indexOf? hfound)).1

-- ------------------------------------------------------ what is refused

/-- A change with an index `outside?` is refused with `outOfBounds`, and
changes nothing. -/
theorem apply_outside {ch : Change NodeId} {i : Nat}
    (hopen : ch.exchanges = false → f.isGuarded checks c.owner = false)
    (hout : ch.outside? (c.length f) = some i) :
    c.apply checks ch f
      = .stop (.fault (.outOfBounds i (c.length f))) f := by
  have hnone : ∀ {j : Nat}, c.length f ≤ j → (c.items f)[j]? = none :=
    fun hle => List.getElem?_eq_none_iff.mpr hle
  cases ch with
  | set j n =>
      obtain ⟨hj, rfl⟩ : c.length f ≤ j ∧ j = i := by
        simpa [Change.outside?] using hout
      simp [apply, set, hnone hj, Edit.fail, Outcome.map]
  | insert j n =>
      obtain ⟨hj, rfl⟩ : c.length f < j ∧ j = i := by
        simpa [Change.outside?] using hout
      simp [apply, insert, guarded_of_open _ (hopen rfl), hj, Edit.fail,
        Outcome.map]
  | removeAt j =>
      obtain ⟨hj, rfl⟩ : c.length f ≤ j ∧ j = i := by
        simpa [Change.outside?] using hout
      simp [apply, removeAt, guarded_of_open _ (hopen rfl), hnone hj,
        Edit.fail, Outcome.map]
  | swapRemoveAt j =>
      obtain ⟨hj, rfl⟩ : c.length f ≤ j ∧ j = i := by
        simpa [Change.outside?] using hout
      simp [apply, swapRemoveAt, guarded_of_open _ (hopen rfl), hnone hj,
        Edit.fail, Outcome.map]
  | removeRange j count =>
      by_cases hstart : c.length f < j
      · obtain rfl : j = i := by
          simpa [Change.outside?, hstart] using hout
        simp [apply, removeRange, guarded_of_open _ (hopen rfl), hstart,
          Edit.fail, Outcome.map]
      · obtain ⟨hend, rfl⟩ : c.length f < j + count
            ∧ min (j + count) maxIndex = i := by
          simpa [Change.outside?, hstart] using hout
        simp [apply, removeRange, guarded_of_open _ (hopen rfl), hstart,
          hend, Edit.fail, Outcome.map]
  | move a b =>
      by_cases ha : c.length f ≤ a
      · obtain rfl : a = i := by
          simpa [Change.outside?, ha] using hout
        simp [apply, move, guarded_of_open _ (hopen rfl), hnone ha,
          Edit.fail, Outcome.map]
      · obtain ⟨hb, rfl⟩ : c.length f ≤ b ∧ b = i := by
          simpa [Change.outside?, ha] using hout
        obtain ⟨n, hn⟩ := exists_getElem? (Nat.lt_of_not_le ha)
        simp [apply, move, guarded_of_open _ (hopen rfl), hn,
          Nat.not_lt_of_le hb, Edit.fail, Outcome.map]
  | add | addRange | remove | clear | moveToEnd | replaceList => cases hout

-- -------------------------------------------------- what is not refused

theorem fault?_append (ns : List NodeId) :
    (c.append checks ns f).fault? = none := by
  induction ns generalizing f with
  | nil => rfl
  | cons n rest ih =>
      have hattach : (Forest.attach checks c.owner n (c.pushed f n)).fault?
          = none := fault?_attach c.owner n
      rw [append]
      cases hout : Forest.attach checks c.owner n (c.pushed f n) with
      | ok u g => exact ih
      | stop why g =>
          rw [hout] at hattach
          exact hattach

theorem fault?_overwrite (i : Nat) (ns : List NodeId) :
    (c.overwrite checks i ns f).fault? = none := by
  induction ns generalizing i f with
  | nil => rfl
  | cons n rest ih =>
      have hone : (c.overwriteOne checks i n f).fault? = none := by
        unfold overwriteOne
        split <;> simp
      rw [overwrite]
      cases hout : c.overwriteOne checks i n f with
      | ok u g => exact ih (i + 1)
      | stop why g =>
          rw [hout] at hone
          exact hone

theorem fault?_removeAt {i : Nat}
    (hopen : f.isGuarded checks c.owner = false) (hi : i < c.length f) :
    (c.removeAt checks i f).fault? = none := by
  obtain ⟨n, hn⟩ := exists_getElem? hi
  unfold removeAt
  rw [guarded_of_open _ hopen, hn]
  rfl

theorem fault?_move {a b : Nat}
    (hopen : f.isGuarded checks c.owner = false)
    (ha : a < c.length f) (hb : b < c.length f) :
    (c.move checks a b f).fault? = none := by
  obtain ⟨n, hn⟩ := exists_getElem? ha
  unfold move
  rw [guarded_of_open _ hopen, hn]
  simp [hb]

/-- A change without an index `outside?` ends with no fault, where its guard is
down. -/
theorem apply_inside {ch : Change NodeId}
    (hopen : ch.exchanges = false → f.isGuarded checks c.owner = false)
    (hin : ch.outside? (c.length f) = none) :
    (c.apply checks ch f).fault? = none := by
  cases ch with
  | set i n =>
      have hi : i < c.length f := by
        simpa [Change.outside?] using hin
      obtain ⟨old, hn⟩ := exists_getElem? hi
      show ((c.set checks i n f).map _).fault? = none
      unfold set
      rw [hn]
      dsimp only
      split <;> simp
  | add n =>
      show ((c.add checks n f).map _).fault? = none
      simp [add, guarded_of_open _ (hopen rfl)]
  | addRange ns =>
      show ((c.addRange checks ns f).map _).fault? = none
      simp [addRange, appendAll, guarded_of_open _ (hopen rfl), fault?_append]
  | insert i n =>
      have hi : ¬ c.length f < i := by
        simpa [Change.outside?] using hin
      show ((c.insert checks i n f).map _).fault? = none
      simp [insert, guarded_of_open _ (hopen rfl), hi]
  | removeAt i =>
      have hi : i < c.length f := by
        simpa [Change.outside?] using hin
      show ((c.removeAt checks i f).map _).fault? = none
      rw [Outcome.fault?_map, fault?_removeAt (hopen rfl) hi]
  | remove n =>
      show ((c.remove checks n f).map _).fault? = none
      unfold remove
      rw [guarded_of_open _ (hopen rfl)]
      cases hfound : c.indexOf? f n with
      | none => rfl
      | some i =>
          show (((c.removeAt checks i f).map _).map _).fault? = none
          rw [Outcome.fault?_map, Outcome.fault?_map,
            fault?_removeAt (hopen rfl) (lt_of_indexOf? hfound)]
  | removeRange i count =>
      obtain ⟨hstart, hend⟩ :
          ¬ c.length f < i ∧ ¬ c.length f < i + count := by
        by_cases hstart : c.length f < i
        · simp [Change.outside?, hstart] at hin
        · exact ⟨hstart, by simpa [Change.outside?, hstart] using hin⟩
      show ((c.removeRange checks i count f).map _).fault? = none
      simp [removeRange, guarded_of_open _ (hopen rfl), hstart, hend]
  | swapRemoveAt i =>
      have hi : i < c.length f := by
        simpa [Change.outside?] using hin
      obtain ⟨old, hn⟩ := exists_getElem? hi
      have hne : c.items f ≠ [] :=
        List.ne_nil_of_length_pos (Nat.lt_of_le_of_lt (Nat.zero_le i) hi)
      show ((c.swapRemoveAt checks i f).map _).fault? = none
      unfold swapRemoveAt
      rw [guarded_of_open _ (hopen rfl), hn,
        List.getLast?_eq_some_getLast hne]
      rfl
  | clear =>
      show ((c.clear checks f).map _).fault? = none
      simp [clear, guarded_of_open _ (hopen rfl)]
  | move a b =>
      obtain ⟨ha, hb⟩ : a < c.length f ∧ b < c.length f := by
        by_cases ha : c.length f ≤ a
        · simp [Change.outside?, ha] at hin
        · exact ⟨Nat.lt_of_not_le ha,
            by simpa [Change.outside?, ha] using hin⟩
      show ((c.move checks a b f).map _).fault? = none
      rw [Outcome.fault?_map, fault?_move (hopen rfl) ha hb]
  | moveToEnd n =>
      show ((c.moveToEnd checks n f).map _).fault? = none
      unfold moveToEnd
      rw [guarded_of_open _ (hopen rfl)]
      cases hfound : c.indexOf? f n with
      | none => rfl
      | some i =>
          have hi := lt_of_indexOf? hfound
          show (((c.move checks i (c.length f - 1) f).map _).map _).fault?
            = none
          rw [Outcome.fault?_map, Outcome.fault?_map,
            fault?_move (hopen rfl) hi (by omega)]
  | replaceList ns =>
      show ((c.replaceList checks ns f).map _).fault? = none
      simp [replaceList, overwriteAll, guarded_of_open _ (hopen rfl),
        fault?_overwrite]

-- -------------------------------------------------------------- the table

/-- The fault of an edit: structural edits look for open traversals before
anything else, and then it is about indices. -/
def fault? (checks : Checks) (c : Collection) (ch : Change NodeId)
    (f : Forest) : Option Fault :=
  (if ch.exchanges then none else f.traversalFault? checks c.owner).or
    ((ch.outside? (c.length f)).map fun i => .outOfBounds i (c.length f))

/-- A change is refused with `fault?`, and ends with no other fault. -/
theorem refuses_apply (ch : Change NodeId) :
    (c.apply checks ch f).Refuses f (fault? checks c ch f) := by
  unfold fault?
  by_cases hguard : ch.exchanges = false ∧ f.isGuarded checks c.owner = true
  · rw [hguard.1, if_neg Bool.false_ne_true,
      traversalFault?_of_guard hguard.2, apply_guarded hguard.2 hguard.1]
    rfl
  · have hopen : ch.exchanges = false →
        f.isGuarded checks c.owner = false := by
      simpa using hguard
    have hnone : (if ch.exchanges then none
        else f.traversalFault? checks c.owner) = none := by
      cases hchange : ch.exchanges with
      | true => rfl
      | false => exact traversalFault?_of_open (hopen hchange)
    rw [hnone, Option.none_or]
    cases hout : ch.outside? (c.length f) with
    | none => exact apply_inside hopen hout
    | some i => exact apply_outside hopen hout

theorem refuses_set (i : Nat) (n : NodeId) :
    (c.set checks i n f).Refuses f
      (if c.length f ≤ i then some (.outOfBounds i (c.length f))
      else none) := by
  have hfault : fault? checks c (.set i n) f
      = if c.length f ≤ i then some (.outOfBounds i (c.length f))
        else none := by
    by_cases hi : c.length f ≤ i
    · simp [fault?, Change.outside?, Change.exchanges, hi]
    · simp [fault?, Change.outside?, Change.exchanges, hi]
  rw [← hfault]
  exact Outcome.refuses_map.mp (refuses_apply (.set i n))

/-- `removeAt` below the length is refused for a traversal, or not at all. -/
theorem refuses_removeAt {i : Nat} (hi : i < c.length f) :
    (c.removeAt checks i f).Refuses f
      (f.traversalFault? checks c.owner) := by
  cases hguard : f.isGuarded checks c.owner with
  | true =>
      rw [traversalFault?_of_guard hguard]
      exact guarded_of_guard _ hguard
  | false =>
      rw [traversalFault?_of_open hguard]
      exact fault?_removeAt hguard hi

-- ============================================================= filtering

/-- A filtering is refused because of open traversals, and for no other
reason, as long as its judge answers. -/
theorem fault?_removeAll {σ : Type} (judge : Judge σ) (st : σ)
    (hanswers : ∀ j ∈ c.removalCalls checks judge (f, st), ∀ e g,
      j.verdict ≠ .stop (.fault e) g) :
    (c.removeAll checks judge (f, st)).fault?
      = f.traversalFault? checks c.owner := by
  cases hguard : f.isGuarded checks c.owner with
  | true =>
      unfold removeAll requireUntraversed
      rw [guarded_of_guard _ hguard, traversalFault?_of_guard hguard]
      rfl
  | false =>
      rw [traversalFault?_of_open hguard]
      unfold removalCalls at hanswers
      unfold removeAll requireUntraversed
      rw [guarded_of_open _ hguard]
      rw [hguard] at hanswers
      have hsifts := sifts_sift c judge (c.length f) ⟨0, 0, 0⟩
        (f.beginTraversal c.owner) st
      simp only [Bool.false_eq_true, if_false] at hanswers ⊢
      generalize c.judgements judge (c.length f) ⟨0, 0, 0⟩
        (f.beginTraversal c.owner, st) = calls at hsifts hanswers
      generalize c.sift judge (c.length f) ⟨0, 0, 0⟩
        (f.beginTraversal c.owner, st) = result at hsifts ⊢
      obtain ⟨⟨pass, stopped⟩, g, st'⟩ := result
      dsimp only at hsifts ⊢
      cases stopped with
      | some why =>
          cases why with
          | fault e =>
              obtain ⟨j, hj, k, hverdict⟩ := hsifts.call_of_stop rfl
                (fun hgone => by cases hgone)
              exact absurd hverdict (hanswers j hj e k)
          | panic p => rfl
      | none =>
          cases hfinish : pass.finish checks c g with
          | ok u h => rfl
          | stop why h =>
              obtain ⟨-, op, rfl⟩ := finish_stop hfinish
              rfl

end Collection

end InstructionTree
