/-
Places after an edit of a collection.

`Change.removes` says which indices an edit empties or overwrites, and
`placed_apply` is `Placed` for every edit.

# Renumbering

The loop over a window of shifted elements tests a node again at each of
its occurrences, against a place that an earlier test may have changed.
The loop invariant needs no order of the occurrences: either no test
succeeded, and then the place is none of the old places of the node in the
window, or the place is one where the node is stored now
(`position_renumberFrom`). The second case is right whatever was moved
into the way of later tests.
-/
import InstructionTree.Proofs.Collection.Exchanges
import InstructionTree.Proofs.Forest.Places

namespace InstructionTree

/-- The indices of `items` whose element an edit removes or overwrites;
`find` is how the collection finds a node. -/
def Change.removes (find : NodeId → Option Nat) (items : List NodeId) :
    Change NodeId → Nat → Prop
  | set i n, k => k = i ∧ items[i]? ≠ some n
  | removeAt i, k | swapRemoveAt i, k => k = i
  | remove n, k => find n = some k
  | removeRange i count, k => i ≤ k ∧ k < i + count
  | clear, _ | replaceList _, _ => True
  | add _, _ | addRange _, _ | insert .., _ | move .., _
  | moveToEnd _, _ => False

/-- An element at an index that the change `removes` is among those that have
`left`. -/
theorem Change.mem_left_of_removes {find : NodeId → Option Nat}
    {items : List NodeId} {change : Change NodeId} {k : Nat} {n : NodeId}
    (hk : change.removes find items k) (hn : items[k]? = some n) :
    n ∈ change.left find items := by
  cases change with
  | set i m =>
      obtain ⟨rfl, hne⟩ := hk
      rw [left, if_neg hne, hn]
      exact .head _
  | removeAt i | swapRemoveAt i =>
      cases hk
      rw [left, hn]
      exact .head _
  | remove m =>
      have hfound : find m = some k := hk
      rw [left, hfound, Option.bind_some, hn]
      exact .head _
  | removeRange i count =>
      obtain ⟨hle, hlt⟩ := hk
      refine List.mem_of_getElem? (i := k - i) ?_
      rw [left, List.getElem?_take, if_pos (by omega), List.getElem?_drop,
        Nat.add_sub_cancel' hle, hn]
  | clear | replaceList => exact List.mem_of_getElem? hn
  | add | addRange | insert | move | moveToEnd => exact absurd hk id

namespace Collection

open Forest

variable {checks : Checks} {locks : List NodeId} {c : Collection}
  {f g h : Forest} {entered left new : List NodeId} {removed : Nat → Prop}

-- ========================================================== renumbering

theorem position_renumber (old new : Nat) (m n : NodeId) :
    (m = n ∧ (f.node n).isAt c.owner (c.base + old) = true
      ∧ ((c.renumber f old new m).node n).position = c.base + new)
    ∨ (¬(m = n ∧ (f.node n).isAt c.owner (c.base + old) = true)
      ∧ ((c.renumber f old new m).node n).position
        = (f.node n).position) := by
  unfold renumber
  by_cases hm : m = n
  · subst hm
    split
    case isTrue hat =>
      refine .inl ⟨rfl, hat, position_setPosition_self f _ ?_⟩
      -- a freed node has no link
      cases halive : f.isAlive m with
      | true => rfl
      | false =>
          rw [node_of_not_alive f halive] at hat
          simp [Node.isAt, default, Node.fresh] at hat
    case isFalse hat => exact .inr ⟨fun h => hat h.2, rfl⟩
  · refine .inr ⟨fun h => hm h.1, ?_⟩
    split
    · exact position_setPosition_ne f _ (Ne.symm hm)
    · rfl

/-- `renumber` of a node linked to the owner, with its position at `base +
old`, puts the position to `base + new`. -/
theorem position_renumber_hit {old new : Nat} {n : NodeId}
    (hlink : (f.node n).link = some c.owner)
    (hposition : (f.node n).position = c.base + old) :
    ((c.renumber f old new n).node n).position = c.base + new := by
  rcases position_renumber (c := c) (f := f) old new n n with
    ⟨-, -, hnow⟩ | ⟨hno, -⟩
  · exact hnow
  · refine absurd ⟨rfl, ?_⟩ hno
    simp [Node.isAt, hlink, hposition]

/-- `renumber` that does not find the position at `base + old` leaves it. -/
theorem position_renumber_miss {old new : Nat} {m n : NodeId}
    (hmiss : m = n → (f.node n).position ≠ c.base + old) :
    ((c.renumber f old new m).node n).position = (f.node n).position := by
  rcases position_renumber (c := c) (f := f) old new m n with
    ⟨hmn, hat, -⟩ | ⟨-, hsame⟩
  · exact absurd (by simpa [Node.isAt] using hat : _ ∧ _).1 (hmiss hmn)
  · exact hsame

/-- A node spared after `renumber` was spared before it. -/
theorem spared_renumber {old new : Nat} {m n : NodeId}
    (hn : (c.renumber f old new m).Spared n) : f.Spared n := by
  have htouches : Touches .lax c.owner f (c.renumber f old new m) :=
    touches_renumber old new m
  exact htouches.ages.spared hn

theorem spared_renumberFrom {old : Nat → Nat} {start : Nat}
    {ns : List NodeId} {n : NodeId}
    (hn : (c.renumberFrom old start ns f).Spared n) : f.Spared n := by
  have htouches : Touches .lax c.owner f (c.renumberFrom old start ns f) :=
    touches_renumberFrom old start ns
  exact htouches.ages.spared hn

/-- Either no test at an occurrence of `n` succeeded, or the place of `n`
is an occurrence in the window now. -/
theorem position_renumberFrom (old : Nat → Nat) (n : NodeId) :
    ∀ (ns : List NodeId) (start : Nat) (f : Forest),
      (((c.renumberFrom old start ns f).node n).position
          = (f.node n).position
        ∧ ((f.node n).link = some c.owner → ∀ j, ns[j]? = some n →
          (f.node n).position ≠ c.base + old (start + j)))
      ∨ ((f.node n).link = some c.owner ∧ ∃ j, ns[j]? = some n
        ∧ ((c.renumberFrom old start ns f).node n).position
          = c.base + (start + j))
  | [], _, _ => .inl ⟨rfl, fun _ j hj => by cases hj⟩
  | m :: rest, start, f => by
      have hlink : ((c.renumber f (old start) start m).node n).link
          = (f.node n).link :=
        c.field_renumber (F := Node.link) (fun _ _ => rfl) ..
      have ih := position_renumberFrom old n rest (start + 1)
        (c.renumber f (old start) start m)
      rw [hlink] at ih
      unfold renumberFrom
      rcases ih with ⟨hpos, hmiss⟩ | ⟨howner, j, hj, hpos⟩
      · rcases position_renumber (c := c) (f := f) (old start) start m n with
          ⟨rfl, hat, hnow⟩ | ⟨hno, hsame⟩
        · refine .inr ⟨?_, 0, rfl, by rw [hpos, hnow]; rfl⟩
          exact (by simpa [Node.isAt] using hat : _ ∧ _).2
        · refine .inl ⟨hpos.trans hsame, fun howner j hj => ?_⟩
          rw [hsame] at hmiss
          cases j with
          | zero =>
              cases hj
              intro hhere
              refine hno ⟨rfl, ?_⟩
              simp [Node.isAt, howner, hhere]
          | succ j =>
              have hnext := hmiss howner j hj
              rwa [Nat.add_assoc, Nat.add_comm 1 j] at hnext
      · refine .inr ⟨howner, j + 1, hj, ?_⟩
        rw [hpos]
        omega

/-- Renumbering a window of elements that moved. `g` is the forest before
it; the nodes that entered have places already. -/
theorem placed_renumberFrom {old : Nat → Nat} {start : Nat}
    {ns : List NodeId}
    (hattached : ∀ {n}, n ∈ entered → g.Spared n →
      ∃ k, new[k]? = some n ∧ (g.node n).position = c.base + k)
    (hposition : ∀ {n}, n ∉ entered → g.Spared n →
      (g.node n).position = (f.node n).position)
    (hlink : ∀ {n}, n ∉ entered → g.Spared n →
      (g.node n).link = some c.owner → (f.node n).link = some c.owner)
    (hlinked : ∀ {n}, n ∉ entered → n ∈ new →
      (f.node n).link = some c.owner → (g.node n).link = some c.owner)
    (hwindow : ∀ {j n}, ns[j]? = some n → new[start + j]? = some n)
    (hcovers : ∀ {k n}, (c.items f)[k]? = some n → ¬ removed k →
      new[k]? = some n ∨ ∃ j, ns[j]? = some n ∧ old (start + j) = k) :
    Placed c.owner c.slot entered (c.items f) new removed f
      (c.renumberFrom old start ns g) := by
  have hspared : ∀ {n}, (c.renumberFrom old start ns g).Spared n →
      g.Spared n := spared_renumberFrom
  have hkept : ∀ {k n}, (c.items f)[k]? = some n → ¬ removed k →
      n ∈ new := by
    intro k n hk hnot
    rcases hcovers hk hnot with hnew | ⟨j, hj, -⟩
    · exact List.mem_of_getElem? hnew
    · exact List.mem_of_getElem? (hwindow hj)
  refine ⟨hkept, fun {n} hn => ⟨fun hentered => ?_, fun hentered => ?_,
    fun {k} hentered howner hk hpos hnot => ?_⟩⟩
  · rcases position_renumberFrom (c := c) old n ns start g with
      ⟨hsame, -⟩ | ⟨-, j, hj, hnow⟩
    · rw [hsame]
      exact hattached hentered (hspared hn)
    · exact ⟨start + j, hwindow hj, hnow⟩
  · rcases position_renumberFrom (c := c) old n ns start g with
      ⟨hsame, -⟩ | ⟨howner, j, hj, hnow⟩
    · exact .inl (hsame.trans (hposition hentered (hspared hn)))
    · exact .inr ⟨hlink hentered (hspared hn) howner, start + j,
        hwindow hj, hnow⟩
  · rcases position_renumberFrom (c := c) old n ns start g with
      ⟨hsame, hmiss⟩ | ⟨-, j, hj, hnow⟩
    · have hstill : (g.node n).position = c.base + k := by
        rw [hposition hentered (hspared hn)]
        exact hpos
      rcases hcovers hk hnot with hnew | ⟨j, hj, hold⟩
      · exact ⟨k, hnew, hsame.trans hstill⟩
      · have hmiss' := hmiss (hlinked hentered (hkept hk hnot) howner) j hj
        rw [hold] at hmiss'
        exact absurd hstill hmiss'
    · exact ⟨start + j, hwindow hj, hnow⟩

-- ======================================================= parts of edits

/-- `place` and `setItems` with `n` at index `i` is `Placed`, if no other
element moves that is not removed. -/
theorem placed_stored {i : Nat} {n : NodeId} (hn : f.isAlive n = true)
    (hhere : new[i]? = some n)
    (hstays : ∀ {k m}, (c.items f)[k]? = some m → ¬ removed k →
      new[k]? = some m) :
    Placed c.owner c.slot [n] (c.items f) new removed f
      (c.setItems (c.place f i n) new) := by
  refine .of_stays (fun {m} hm _ => ⟨i, ?_, ?_⟩) (fun {m} hm _ => ?_) hstays
  · rw [List.mem_singleton.mp hm, hhere]
  · rw [List.mem_singleton.mp hm, setItems, position_setSlot]
    exact position_setPosition_self f _ hn
  · rw [setItems, position_setSlot]
    exact position_setPosition_ne f _ (by simpa using hm)

/-- A renumbering of a window after an exchange that nobody entered is
`Placed`, if the tests follow the moves. -/
theorem placed_shifted {old : Nat → Nat} {start : Nat} {ns : List NodeId}
    (hwf : f.WellFormed) (hcov : f.Covered) (hclosed : g.Closed)
    (hx : Exchange c.owner c.slot [] left new f g)
    (hposition : ∀ {n}, g.Spared n →
      (g.node n).position = (f.node n).position)
    (hwindow : ∀ {j n}, ns[j]? = some n → new[start + j]? = some n)
    (hcovers : ∀ {k n}, (c.items f)[k]? = some n → ¬ removed k →
      new[k]? = some n ∨ ∃ j, ns[j]? = some n ∧ old (start + j) = k) :
    Placed c.owner c.slot [] (c.items f) new removed f
      (c.renumberFrom old start ns g) := by
  refine placed_renumberFrom (fun h => by cases h)
    (fun _ hn => hposition hn) (fun {n} hentered hn hlink => ?_)
    (fun {n} hentered hn hlink => ?_) hwindow hcovers
  · rcases hx.account.stayed hn hentered with hsame | ⟨howner, -, -⟩
    · rw [← hsame, hlink]
    · exact howner
  · refine hx.linked hwf hcov hclosed hentered ?_ hlink
    rw [← hx.account.slot_self] at hn
    exact g.mem_children_of_mem_slot hn

theorem position_takenOut {i : Nat} {old n : NodeId} :
    ((c.takenOut f i old).node n).position = (f.node n).position := by
  rw [takenOut, position_detach, setItems, position_setSlot]

theorem position_discard (i : Nat) {n : NodeId} :
    ∀ (count : Nat) {f : Forest}, (c.discard i count f).Spared n →
      f.Spared n ∧ ((c.discard i count f).node n).position
        = (f.node n).position
  | 0, _, hn => ⟨hn, rfl⟩
  | count + 1, f, hn => by
      unfold discard at hn ⊢
      split at hn
      next => exact ⟨hn, rfl⟩
      next old _ =>
        obtain ⟨hspared, hpos⟩ := position_discard i count hn
        have hcalm := (sheds_reap (c.takenOut f i old) old).calm
        refine ⟨spared_update.mp (spared_update.mp
          (hcalm.ages.spared hspared)), ?_⟩
        rw [hpos, hcalm.position hspared, position_takenOut]

theorem position_detachAll {n : NodeId} :
    ∀ (ns : List NodeId) (f : Forest),
      ((ns.foldl (fun f old => f.detach c.owner old) f).node n).position
        = (f.node n).position
  | [], _ => rfl
  | m :: rest, f =>
      (position_detachAll rest (f.detach c.owner m)).trans
        (position_detach ..)

/-- `j` is the last index of `n` in `ns`. -/
structure LastAt (ns : List NodeId) (n : NodeId) (j : Nat) : Prop where
  here : ns[j]? = some n
  last : ∀ k, ns[k]? = some n → k ≤ j

namespace LastAt

variable {ns : List NodeId} {n m : NodeId} {j k : Nat}

theorem cons (hj : LastAt ns n j) : LastAt (m :: ns) n (j + 1) where
  here := hj.here
  last k hk := by
    cases k with
    | zero => exact Nat.zero_le _
    | succ k => exact Nat.succ_le_succ (hj.last k hk)

/-- If `n` is not among `ns`, it is last in `n :: ns` at 0. -/
theorem head (hrest : n ∉ ns) : LastAt (n :: ns) n 0 where
  here := rfl
  last k hk := by
    cases k with
    | zero => exact Nat.le_refl 0
    | succ k =>
        rw [List.getElem?_cons_succ] at hk
        exact absurd (List.mem_of_getElem? hk) hrest

theorem unique (hj : LastAt ns n j) (hk : LastAt ns n k) : k = j :=
  Nat.le_antisymm (hj.last k hk.here) (hk.last j hj.here)

theorem mem (hj : LastAt ns n j) : n ∈ ns := List.mem_of_getElem? hj.here

theorem append_right {ms : List NodeId} (hj : LastAt ns n j) :
    LastAt (ms ++ ns) n (ms.length + j) := by
  induction ms with
  | nil => simpa using hj
  | cons m ms ih =>
      have hcons := ih.cons (m := m)
      rwa [List.length_cons, Nat.add_right_comm]

theorem append_left {ms : List NodeId} (hj : LastAt ms n j) (hns : n ∉ ns) :
    LastAt (ms ++ ns) n j where
  here := by
    rw [List.getElem?_append_left (List.getElem?_eq_some_iff.mp hj.here).1]
    exact hj.here
  last k hk := by
    rcases Nat.lt_or_ge k ms.length with hlt | hge
    · rw [List.getElem?_append_left hlt] at hk
      exact hj.last k hk
    · rw [List.getElem?_append_right hge] at hk
      exact absurd (List.mem_of_getElem? hk) hns

end LastAt

/-- An element of a list has a last index in it. -/
theorem exists_lastAt {ns : List NodeId} {n : NodeId} (hn : n ∈ ns) :
    ∃ j, LastAt ns n j := by
  induction ns with
  | nil => cases hn
  | cons m rest ih =>
      by_cases hrest : n ∈ rest
      · obtain ⟨j, hj⟩ := ih hrest
        exact ⟨j + 1, hj.cons⟩
      · rw [(List.mem_cons.mp hn).resolve_right hrest]
        exact ⟨0, .head (by rwa [← (List.mem_cons.mp hn).resolve_right hrest])⟩

/-- Appending places the nodes at the end, in order: a node that occurs
more than once at its last index. -/
theorem positions_append {ns items : List NodeId} {u : Unit}
    (hx : Exchange c.owner c.slot entered left items f g)
    (hns : ∀ n ∈ ns, g.isAlive n = true)
    (hout : c.append checks ns g = .ok u h) (n : NodeId) :
    (n ∉ ns → (h.node n).position = (g.node n).position)
      ∧ (n ∈ ns → ∃ j, LastAt ns n j
        ∧ (h.node n).position = c.base + (items.length + j)) := by
  induction ns generalizing entered items g with
  | nil =>
      cases hout
      exact ⟨fun _ => rfl, fun hn => by cases hn⟩
  | cons m rest ih =>
      unfold append at hout
      split at hout
      next k hattach =>
        have hm := hns m (.head _)
        obtain ⟨-, rfl⟩ := attach_eq_ok hattach
        rw [pushed, length, items_of_exchange hx] at hout
        obtain ⟨hother, hlater⟩ := ih
          (exchange_appended hx items.length hm)
          (fun m hm => by
            rw [isAlive_enter, isAlive_setItems, isAlive_place]
            exact hns m (.tail _ hm)) hout
        rw [position_enter, setItems, position_setSlot] at hother
        refine ⟨fun hn => ?_, fun hn => ?_⟩
        · rw [hother fun h => hn (.tail _ h)]
          exact position_setPosition_ne g _ fun h => hn (h ▸ .head _)
        · by_cases hrest : n ∈ rest
          · obtain ⟨j, hj, hpos⟩ := hlater hrest
            refine ⟨j + 1, hj.cons, ?_⟩
            rw [hpos, List.length_append, List.length_singleton]
            omega
          · have hnm : n = m := (List.mem_cons.mp hn).resolve_right hrest
            subst hnm
            refine ⟨0, .head hrest, (hother hrest).trans ?_⟩
            exact position_setPosition_self g _ hm
      · cases hout

theorem position_overwriteOne {k : Nat} {m n : NodeId} {u : Unit}
    (hm : g.isAlive m = true) (hout : c.overwriteOne checks k m g = .ok u h)
    (hn : h.Spared n) :
    g.Spared n ∧ (h.node n).position
      = if n = m then c.base + k else (g.node n).position := by
  have hplaced : ((g.setPosition m (c.base + k)).node n).position
      = if n = m then c.base + k else (g.node n).position := by
    split
    case isTrue hnm => rw [hnm, position_setPosition_self g _ hm]
    case isFalse hnm => exact position_setPosition_ne g _ hnm
  rcases overwriteOne_eq_ok hout with ⟨old, -, rfl⟩ | ⟨-, rfl⟩
  · have hcalm := (sheds_reap ((((c.overwritten g k m).enter c.owner
      m)).detach c.owner old) old).calm
    refine ⟨spared_update.mp (spared_update.mp (spared_update.mp
      (spared_detach.mp (hcalm.ages.spared hn)))), ?_⟩
    rw [hcalm.position hn, position_detach, position_enter, overwritten,
      setItems, position_setSlot]
    exact hplaced
  · refine ⟨spared_update.mp (spared_update.mp (spared_update.mp hn)), ?_⟩
    rw [position_enter, setItems, position_setSlot]
    exact hplaced

/-- `overwrite` gives each of the nodes the position of its last index in the
range, and leaves all others. -/
theorem positions_overwrite {ns : List NodeId} {k : Nat} {u : Unit}
    (hs : g.Sound checks locks) (hc : c.Fits g) (ho : c.owner ∈ locks)
    (hns : ∀ n ∈ ns, n ∈ locks) (hout : c.overwrite checks k ns g = .ok u h)
    {n : NodeId} (hn : h.Spared n) :
    g.Spared n
      ∧ (n ∉ ns → (h.node n).position = (g.node n).position)
      ∧ (n ∈ ns → ∃ j, LastAt ns n j
        ∧ (h.node n).position = c.base + (k + j)) := by
  induction ns generalizing g k with
  | nil =>
      cases hout
      exact ⟨hn, fun _ => rfl, fun hn => by cases hn⟩
  | cons m rest ih =>
      unfold overwrite at hout
      split at hout
      next g' hstep =>
        have hm := hs.alive (hns m (.head _))
        have htried : Tried checks c.owner g (c.overwriteOne checks k m g) :=
          tried_overwriteOne hs hc k hm
        rw [hstep] at htried
        have hs' : g'.Sound checks locks := htried.sound hs
        have hc' : c.Fits g' := by
          cases htried with
          | ok _ hgg' => exact hc.touches hgg' (hs'.alive ho)
        obtain ⟨hspared, hother, hlater⟩ :=
          ih hs' hc' (fun m hm => hns m (.tail _ hm)) hout
        obtain ⟨hspared', hpos⟩ := position_overwriteOne hm hstep hspared
        refine ⟨hspared', fun hn => ?_, fun hn => ?_⟩
        · rw [hother fun h => hn (.tail _ h), hpos,
            if_neg fun (hnm : n = m) => hn (hnm ▸ .head _)]
        · by_cases hrest : n ∈ rest
          · obtain ⟨j, hj, hend⟩ := hlater hrest
            exact ⟨j + 1, hj.cons, by omega⟩
          · have hnm := (List.mem_cons.mp hn).resolve_right hrest
            subst hnm
            refine ⟨0, .head hrest, ?_⟩
            rw [hother hrest, hpos, if_pos rfl, Nat.add_zero]
      · cases hout

/-- Where the element that was at `k` is after the element at `a` moved
to `b`. -/
def indexAfterMove (a b k : Nat) : Nat :=
  if k = a then b
  else if a < k ∧ k ≤ b then k - 1
  else if b ≤ k ∧ k < a then k + 1
  else k

/-- Between the two indices, everything stays between them, and
`indexBeforeMove` leads back. -/
theorem indexAfterMove_within {a b k : Nat}
    (hk : min a b ≤ k ∧ k ≤ max a b) :
    min a b ≤ indexAfterMove a b k ∧ indexAfterMove a b k ≤ max a b
      ∧ indexBeforeMove a b (indexAfterMove a b k) = k := by
  unfold indexAfterMove indexBeforeMove
  split_ifs <;> omega

theorem indexAfterMove_outside {a b k : Nat}
    (hk : ¬(min a b ≤ k ∧ k ≤ max a b)) : indexAfterMove a b k = k := by
  unfold indexAfterMove
  split_ifs <;> omega

theorem getElem?_moved {l : List NodeId} {a b k : Nat} {n : NodeId}
    (ha : a < l.length) (hb : b < l.length) (hn : l[a]? = some n) :
    ((l.eraseIdx a).insertIdx b n)[indexAfterMove a b k]? = l[k]? := by
  have hlen := List.length_eraseIdx_add_one ha
  unfold indexAfterMove
  by_cases hka : k = a
  · rw [if_pos hka, List.getElem?_insertIdx_self, if_pos (by omega), hka, hn]
  rw [if_neg hka]
  by_cases hdown : a < k ∧ k ≤ b
  · rw [if_pos hdown, List.getElem?_insertIdx_of_lt (by omega),
      List.getElem?_eraseIdx_of_ge (by omega), Nat.sub_add_cancel (by omega)]
  rw [if_neg hdown]
  by_cases hup : b ≤ k ∧ k < a
  · rw [if_pos hup, List.getElem?_insertIdx_of_gt (by omega),
      Nat.add_sub_cancel, List.getElem?_eraseIdx_of_lt hup.2]
  rw [if_neg hup]
  rcases Nat.lt_or_gt_of_ne hka with hlt | hgt
  · rw [List.getElem?_insertIdx_of_lt (by omega),
      List.getElem?_eraseIdx_of_lt hlt]
  · rw [List.getElem?_insertIdx_of_gt (by omega),
      List.getElem?_eraseIdx_of_ge (by omega), Nat.sub_add_cancel (by omega)]

theorem placed_refl :
    Placed c.owner c.slot [] (c.items f) (c.items f) removed f f :=
  .of_stays (fun h => by cases h) (fun _ _ => rfl) fun hk _ => hk

-- ========================================================== whole edits

theorem placed_set {i : Nat} {n : NodeId} {u : Unit}
    {find : NodeId → Option Nat}
    (hn : f.isAlive n = true) (hout : c.set checks i n f = .ok u g) :
    Placed c.owner c.slot (if (c.items f)[i]? = some n then [] else [n])
      (c.items f) ((c.items f).set i n)
      ((Change.set i n).removes find (c.items f)) f g := by
  obtain ⟨old, hold, ⟨rfl, hg⟩ | ⟨hother, hg⟩⟩ := set_eq_ok hout
  · obtain ⟨hlt, hget⟩ := List.getElem?_eq_some_iff.mp hold
    rw [hg, if_pos hold]
    simp only [← hget, List.set_getElem_self]
    exact placed_refl
  · have hne : some old ≠ some n := fun h => hother (Option.some.inj h)
    have hlt := (List.getElem?_eq_some_iff.mp hold).1
    have hstored : Placed c.owner c.slot [n] (c.items f)
        ((c.items f).set i n) ((Change.set i n).removes find (c.items f)) f
        (c.overwritten f i n) := by
      refine placed_stored hn (List.getElem?_set_self hlt) ?_
      intro k m hk hkept
      have hki : i ≠ k := fun h => hkept ⟨h.symm, by rwa [hold]⟩
      rw [List.getElem?_set_ne hki, hk]
    rw [hg, hold, if_neg hne]
    exact ((hstored.enter n).detach old).calm
      ((alike_commit _).calm.trans (sheds_reap _ old).calm)

theorem placed_add {n : NodeId} {u : Unit} (hn : f.isAlive n = true)
    (hout : c.add checks n f = .ok u g) :
    Placed c.owner c.slot [n] (c.items f) (c.items f ++ [n])
      (fun _ => False) f g := by
  have hstored : Placed c.owner c.slot [n] (c.items f) (c.items f ++ [n])
      (fun _ => False) f (c.pushed f n) := by
    refine placed_stored hn List.getElem?_concat_length ?_
    intro k m hk _
    rw [List.getElem?_append_left (List.getElem?_eq_some_iff.mp hk).1, hk]
  rw [add_eq_ok hout]
  exact (hstored.enter n).calm (alike_commit _).calm

theorem placed_addRange {ns : List NodeId} {u : Unit}
    (hwf : f.WellFormed) (hc : c.Fits f)
    (hns : ∀ n ∈ ns, f.isAlive n = true)
    (hout : c.addRange checks ns f = .ok u g) :
    Placed c.owner c.slot ns (c.items f) (c.items f ++ ns)
      (fun _ => False) f g := by
  obtain ⟨k, happend, rfl⟩ := addRange_eq_ok hout
  have hpositions := positions_append (exchange_start hwf hc) hns
    happend
  refine Placed.calm (.of_stays (fun {n} hn _ => ?_)
    (fun {n} hn _ => (hpositions n).1 hn) fun hk _ => ?_)
    (alike_commit _).calm
  · obtain ⟨j, hj, hpos⟩ := (hpositions n).2 hn
    exact ⟨_, by rw [List.getElem?_append_right (Nat.le_add_right ..),
      Nat.add_sub_cancel_left, hj.here], hpos⟩
  · rw [List.getElem?_append_left (List.getElem?_eq_some_iff.mp hk).1, hk]

theorem placed_insert {i : Nat} {n : NodeId} {u : Unit}
    (hn : f.isAlive n = true) (hout : c.insert checks i n f = .ok u g) :
    Placed c.owner c.slot [n] (c.items f) ((c.items f).insertIdx i n)
      (fun _ => False) f g := by
  obtain ⟨hi, rfl⟩ := insert_eq_ok hout
  refine Placed.calm (Placed.enter ?_ n) (alike_commit _).calm
  have hlink : ∀ m, ((c.setItems (c.place f i n)
      ((c.items f).insertIdx i n)).node m).link = (f.node m).link :=
    fun m => (link_setSlot ..).trans (link_setPosition ..)
  refine placed_renumberFrom (fun {m} hm _ => ⟨i, ?_, ?_⟩)
    (fun {m} hm _ => ?_) (fun _ _ h => (hlink _).symm.trans h)
    (fun _ _ h => (hlink _).trans h) (fun {j m} hj => ?_)
    fun {k m} hk _ => ?_
  · rw [List.mem_singleton.mp hm, List.getElem?_insertIdx_self, if_pos hi]
  · rw [List.mem_singleton.mp hm, setItems, position_setSlot]
    exact position_setPosition_self f _ hn
  · rw [setItems, position_setSlot]
    exact position_setPosition_ne f _ (by simpa using hm)
  · rw [List.getElem?_drop] at hj
    rw [List.getElem?_insertIdx_of_gt (by omega), ← hj]
    congr 1
    omega
  · rcases Nat.lt_or_ge k i with hlt | hge
    · exact .inl (by rw [List.getElem?_insertIdx_of_lt hlt, hk])
    · refine .inr ⟨k - i, ?_, by omega⟩
      rw [List.getElem?_drop, Nat.add_sub_cancel' hge, hk]

section

variable (hs : f.Sound checks locks) (hc : c.Fits f) (hcov : f.Covered)
include hs hc hcov

theorem placed_removeAt {i : Nat} {old : NodeId}
    (hout : c.removeAt checks i f = .ok old g) :
    Placed c.owner c.slot [] (c.items f) ((c.items f).eraseIdx i)
      (fun k => k = i) f g := by
  obtain ⟨hold, rfl⟩ := removeAt_eq_ok hout
  have hwf := hs.toWellFormed
  have hmem := alive_of_mem_items hwf (List.mem_of_getElem? hold)
  have htouches : Touches checks c.owner f (c.takenOut f i old) :=
    touches_takenOut hwf hc i old
  refine Placed.calm ?_ ((alike_commit _).calm.trans (sheds_reap _ old).calm)
  refine placed_shifted hwf hcov (htouches.sound hs).closed
    (exchange_takenOut (exchange_start hwf hc) hold hmem)
    (fun _ => position_takenOut) (fun {j m} hj => ?_) fun {k m} hk hki => ?_
  · rw [List.getElem?_drop] at hj
    rw [List.getElem?_eraseIdx_of_ge (Nat.le_add_right ..), ← hj]
    congr 1
    omega
  · rcases Nat.lt_or_gt_of_ne hki with hlt | hgt
    · exact .inl (by rw [List.getElem?_eraseIdx_of_lt hlt, hk])
    · refine .inr ⟨k - (i + 1), ?_, by omega⟩
      rw [List.getElem?_drop, Nat.add_sub_cancel' hgt, hk]

theorem placed_removeRange {i count : Nat} {u : Unit}
    (ho : c.owner ∈ locks)
    (hout : c.removeRange checks i count f = .ok u g) :
    Placed c.owner c.slot [] (c.items f)
      ((c.items f).take i ++ (c.items f).drop (i + count))
      (fun k => i ≤ k ∧ k < i + count) f g := by
  obtain ⟨hle, rfl⟩ := removeRange_eq_ok hout
  have hwf := hs.toWellFormed
  have htouches : Touches checks c.owner f (c.discard i count f) :=
    touches_discard ho i count hs hc
  have hlen : ((c.items f).take i).length = i :=
    List.length_take_of_le (by omega)
  refine Placed.calm ?_ (alike_commit _).calm
  refine placed_shifted hwf hcov (htouches.sound hs).closed
    (exchange_discard ho i count hs hc (exchange_start hwf hc) hle)
    (fun hn => (position_discard i count hn).2) (fun {j m} hj => ?_)
    fun {k m} hk hout => ?_
  · rw [List.getElem?_append_right (by omega), hlen,
      Nat.add_sub_cancel_left, hj]
  · rcases Nat.lt_or_ge k i with hlt | hge
    · refine .inl ?_
      rw [List.getElem?_append_left (by omega), List.getElem?_take,
        if_pos hlt, hk]
    · refine .inr ⟨k - (i + count), ?_, by omega⟩
      rw [List.getElem?_drop, Nat.add_sub_cancel' (by omega), hk]

theorem placed_swapRemoveAt {i : Nat} {old : NodeId}
    (hout : c.swapRemoveAt checks i f = .ok old g) :
    ∃ last, (c.items f).getLast? = some last
      ∧ Placed c.owner c.slot [] (c.items f)
        ((c.items f).set i last).dropLast (fun k => k = i) f g := by
  obtain ⟨last, hold, hlast, rfl⟩ := swapRemoveAt_eq_ok hout
  refine ⟨last, hlast, ?_⟩
  have hwf := hs.toWellFormed
  have hi := (List.getElem?_eq_some_iff.mp hold).1
  rw [List.getLast?_eq_getElem?] at hlast
  refine Placed.calm ?_ ((alike_commit _).calm.trans (sheds_reap _ old).calm)
  -- the last element moves to `i`, unless it is the one that left
  have hnew : ∀ {k}, k < (c.items f).length - 1 →
      ((c.items f).set i last).dropLast[k]?
        = if k = i then some last else (c.items f)[k]? := by
    intro k hk
    rw [List.getElem?_dropLast, List.length_set, if_pos hk,
      List.getElem?_set]
    by_cases hki : i = k
    · rw [if_pos hki, if_pos hki.symm, if_pos (by omega)]
    · rw [if_neg hki, if_neg (Ne.symm hki)]
  have hrenumbered : c.swapErased f i old last
      = c.renumberFrom (fun _ => c.length f - 1) i
        (if i < c.length f - 1 then [last] else [])
        ((c.setItems f (((c.items f).set i last).take
          (c.length f - 1))).detach c.owner old) := by
    unfold swapErased
    dsimp only
    split <;> rfl
  have htouches : Touches checks c.owner f _ :=
    touches_swapped hwf hc i old last (List.mem_of_getElem? hlast)
  rw [hrenumbered]
  refine placed_shifted hwf hcov (htouches.sound hs).closed
    (exchange_swapped hs hc hold (by rwa [List.getLast?_eq_getElem?]))
    (fun _ => ?_) (fun {j m} hj => ?_) fun {k m} hk hki => ?_
  · rw [position_detach, setItems, position_setSlot]
  · split at hj
    case isTrue hlt =>
      cases j with
      | zero =>
          rw [Nat.add_zero, hnew hlt, if_pos rfl]
          exact hj
      | succ j => cases hj
    case isFalse => cases hj
  · have hlt := (List.getElem?_eq_some_iff.mp hk).1
    rcases Nat.lt_or_ge k ((c.items f).length - 1) with hbefore | hend
    · exact .inl (by rw [hnew hbefore, if_neg hki, hk])
    · have hfinal : k = (c.items f).length - 1 := by omega
      subst hfinal
      rw [hlast] at hk
      refine .inr ⟨0, ?_, rfl⟩
      rw [if_pos (show i < c.length f - 1 by unfold length; omega)]
      exact hk

omit hs hc hcov in
/-- `clear` leaves every position as it was. -/
theorem position_clear {u : Unit} (hout : c.clear checks f = .ok u g)
    {n : NodeId} (hn : g.Spared n) :
    (g.node n).position = (f.node n).position := by
  rw [clear_eq_ok hout] at hn ⊢
  have hcalm : Calm (c.cleared f) _ := (alike_commit (f := c.cleared f)
    c.owner).calm.trans (sheds_reapAll _ (c.items f)).calm
  rw [hcalm.position hn, cleared, position_detachAll, setItems,
    position_setSlot]

omit hs hc hcov in
theorem placed_clear {u : Unit} (hout : c.clear checks f = .ok u g) :
    Placed c.owner c.slot [] (c.items f) [] (fun _ => True) f g :=
  .of_stays (fun h => by cases h) (fun _ hn => position_clear hout hn)
    fun _ h => absurd trivial h

omit hs hc hcov in
theorem placed_move {a b : Nat} {u : Unit}
    (hout : c.move checks a b f = .ok u g) :
    ∃ n, (c.items f)[a]? = some n
      ∧ Placed c.owner c.slot [] (c.items f)
        (((c.items f).eraseIdx a).insertIdx b n) (fun _ => False) f g := by
  obtain ⟨n, hn, hb, rfl⟩ := move_eq_ok hout
  refine ⟨n, hn, ?_⟩
  have hlt := (List.getElem?_eq_some_iff.mp hn).1
  have hlen := List.length_eraseIdx_add_one hlt
  refine Placed.calm ?_ (alike_commit _).calm
  refine placed_renumberFrom (fun h => by cases h) (fun _ _ => ?_)
    (fun _ _ h => ?_) (fun _ _ h => ?_) (fun {j m} hj => ?_)
    fun {k m} hk _ => ?_
  · exact position_setSlot ..
  · exact (link_setSlot ..).symm.trans h
  · exact (link_setSlot ..).trans h
  · rw [List.getElem?_take] at hj
    split at hj
    · rwa [List.getElem?_drop] at hj
    · cases hj
  · rw [← getElem?_moved hlt hb hn] at hk
    by_cases hwithin : min a b ≤ k ∧ k ≤ max a b
    · obtain ⟨hlo, hhi, hback⟩ := indexAfterMove_within hwithin
      refine .inr ⟨indexAfterMove a b k - min a b, ?_, ?_⟩
      · rw [List.getElem?_take, if_pos (by omega), List.getElem?_drop,
          Nat.add_sub_cancel' hlo, hk]
      · rw [Nat.add_sub_cancel' hlo, hback]
    · rw [indexAfterMove_outside hwithin] at hk
      exact .inl hk

omit hcov in
/-- `replaceList` gives each of the nodes the position of its last index, and
leaves all others. -/
theorem positions_replaceList {ns : List NodeId} {u : Unit}
    (ho : c.owner ∈ locks) (hns : ∀ n ∈ ns, n ∈ locks)
    (hout : c.replaceList checks ns f = .ok u g)
    {n : NodeId} (hn : g.Spared n) :
    (n ∉ ns → (g.node n).position = (f.node n).position)
      ∧ (n ∈ ns → ∃ j, LastAt ns n j
        ∧ (g.node n).position = c.base + j) := by
  obtain ⟨k, hover, rfl⟩ := replaceList_eq_ok hout
  have hcommit := (alike_commit (f := c.discard ns.length
    ((c.items k).length - ns.length) k) c.owner).calm
  obtain ⟨hstill, hpos⟩ := position_discard (c := c) ns.length
    ((c.items k).length - ns.length) (hcommit.ages.spared hn)
  rw [hcommit.position hn, hpos]
  obtain ⟨-, hother, hplaced⟩ :=
    positions_overwrite hs hc ho hns hover hstill
  refine ⟨hother, fun hn => ?_⟩
  obtain ⟨j, hj, hk⟩ := hplaced hn
  rw [Nat.zero_add] at hk
  exact ⟨j, hj, hk⟩

omit hcov in
theorem placed_replaceList {ns : List NodeId} {u : Unit}
    (ho : c.owner ∈ locks) (hns : ∀ n ∈ ns, n ∈ locks)
    (hout : c.replaceList checks ns f = .ok u g) :
    Placed c.owner c.slot ns (c.items f) ns (fun _ => True) f g := by
  refine .of_stays (fun {n} hn hspared => ?_) (fun {n} hn hspared => ?_)
    fun _ h => absurd trivial h
  · obtain ⟨j, hj, hpos⟩ :=
      (positions_replaceList hs hc ho hns hout hspared).2 hn
    exact ⟨j, hj.here, hpos⟩
  · exact (positions_replaceList hs hc ho hns hout hspared).1 hn

/-- A change that succeeded is `Placed`: who entered has its place, and
elements that stay keep theirs right. -/
theorem placed_apply {change : Change NodeId} {answer : ChangeAnswer}
    (ho : c.owner ∈ locks) (hns : ∀ n ∈ change.nodes, n ∈ locks)
    (hout : c.apply checks change f = .ok answer g) :
    Placed c.owner c.slot (change.entered (c.items f)) (c.items f)
      (change.result (c.indexOf? f) (c.items f))
      (change.removes (c.indexOf? f) (c.items f)) f g := by
  have hone : ∀ {n : NodeId}, n ∈ [n] := .head _
  cases change with
  | set i n =>
      obtain ⟨_, hedit, -⟩ := Outcome.map_eq_ok hout
      exact placed_set (hs.alive (hns n hone)) hedit
  | add n =>
      obtain ⟨_, hedit, -⟩ := Outcome.map_eq_ok hout
      exact placed_add (hs.alive (hns n hone)) hedit
  | addRange ns =>
      obtain ⟨_, hedit, -⟩ := Outcome.map_eq_ok hout
      exact placed_addRange hs.toWellFormed hc
        (fun n hn => hs.alive (hns n hn)) hedit
  | insert i n =>
      obtain ⟨_, hedit, -⟩ := Outcome.map_eq_ok hout
      exact placed_insert (hs.alive (hns n hone)) hedit
  | removeAt i =>
      obtain ⟨old, hedit, -⟩ := Outcome.map_eq_ok hout
      exact placed_removeAt hs hc hcov hedit
  | remove n =>
      obtain ⟨_, hedit, -⟩ := Outcome.map_eq_ok hout
      simp only [Change.entered, Change.result]
      rcases remove_eq_ok hedit with ⟨hnone, rfl⟩ | ⟨i, old, hfound, hremove⟩
      · rw [hnone]
        exact placed_refl
      · have hremoves : (Change.remove n).removes (c.indexOf? f) (c.items f)
            = fun k => k = i := by
          funext k
          rw [Change.removes, hfound, Option.some.injEq]
          exact propext eq_comm
        rw [hfound, hremoves]
        exact placed_removeAt hs hc hcov hremove
  | removeRange i count =>
      obtain ⟨_, hedit, -⟩ := Outcome.map_eq_ok hout
      exact placed_removeRange hs hc hcov ho hedit
  | swapRemoveAt i =>
      obtain ⟨old, hedit, -⟩ := Outcome.map_eq_ok hout
      obtain ⟨last, hlast, hp⟩ := placed_swapRemoveAt hs hc hcov hedit
      simp only [Change.entered, Change.result, hlast]
      exact hp
  | clear =>
      obtain ⟨_, hedit, -⟩ := Outcome.map_eq_ok hout
      exact placed_clear hedit
  | move a b =>
      obtain ⟨_, hedit, -⟩ := Outcome.map_eq_ok hout
      obtain ⟨n, hn, hp⟩ := placed_move hedit
      simp only [Change.entered, Change.result, hn]
      exact hp
  | moveToEnd n =>
      obtain ⟨_, hedit, -⟩ := Outcome.map_eq_ok hout
      simp only [Change.entered, Change.result]
      rcases moveToEnd_eq_ok hedit with ⟨hnone, rfl⟩ | ⟨i, hfound, hmove⟩
      · rw [hnone]
        exact placed_refl
      · obtain ⟨m, hm, hp⟩ := placed_move hmove
        rw [getElem?_of_indexOf? hfound] at hm
        cases hm
        rw [hfound]
        exact hp
  | replaceList ns =>
      obtain ⟨_, hedit, -⟩ := Outcome.map_eq_ok hout
      exact placed_replaceList hs hc ho hns hedit

end

end Collection

end InstructionTree
