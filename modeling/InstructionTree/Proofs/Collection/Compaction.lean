/-
A filtering pass, call by call, and where it leaves every element.

The judge edits nothing here (`Judgement.Idle`), but it may answer what it
likes, and give up at any call. A pass can be cut at any of its calls
(`Sifts.cut`), and what it has done until then is a pass in turn. So the
judge finds the survivors so far, the rejected nodes in some order, and
then everything that was not judged yet, untouched (`Sifts.view`).

# Where the elements go

An element at index `i` that is not rejected has as many predecessors
less as were rejected before it (`newIndex`). Survivors get their index
when they are kept, and what was not judged gets it from the compaction
at the end. A cached place that leads to an occurrence goes with that
occurrence (`Rides`), also if the node occurs elsewhere in the collection:
a place is tested at one index only before it moves, and then it lies
below all indices that are still to be tested.
-/
import InstructionTree.Proofs.Collection.Culling

namespace InstructionTree.Collection

open Forest

variable {checks : Checks} {locks : List NodeId} {c : Collection}
  {f g h : Forest} {done calls : List Judgement} {pass last : Pass}
  {count k i : Nat} {stopped : Option Stop} {n : NodeId} {j : Judgement}

-- ========================================================= one call of it

/-- The calls before call `k` are a run of the pass themselves, which ends with
the node of call `k` at index `judged`. -/
theorem Sifts.cut (hsifts : Sifts c count pass f calls last stopped h)
    (hj : calls[k]? = some j) :
    ∃ mid g, Sifts c k pass f (calls.take k) mid none g
      ∧ (c.items g)[mid.judged]? = some j.node
      ∧ j.before = g.hold j.node := by
  induction hsifts generalizing k with
  | full | short => cases hj
  | failed hn | lost hn =>
      cases k with
      | zero =>
          cases hj
          exact ⟨_, _, .full, hn, rfl⟩
      | succ k => cases hj
  | rejected hn hrest ih =>
      cases k with
      | zero =>
          cases hj
          exact ⟨_, _, .full, hn, rfl⟩
      | succ k =>
          obtain ⟨mid, g, hbefore, hnode, hheld⟩ := ih hj
          exact ⟨mid, g, .rejected hn hbefore, hnode, hheld⟩
  | kept hn hkeep hrest ih =>
      cases k with
      | zero =>
          cases hj
          exact ⟨_, _, .full, hn, rfl⟩
      | succ k =>
          obtain ⟨mid, g, hbefore, hnode, hheld⟩ := ih hj
          exact ⟨mid, g, .kept hn hkeep hbefore, hnode, hheld⟩

/-- Every call of a pass but the last has answered; so has the last one, unless
the pass was stopped. -/
theorem Sifts.answered (hsifts : Sifts c count pass f calls last stopped h)
    (hj : calls[k]? = some j) (hmore : stopped = none ∨ k + 1 < calls.length) :
    ∃ answer g, j.verdict = .ok answer g := by
  induction hsifts generalizing k with
  | full | short => cases hj
  | failed hn =>
      rcases hmore with hnone | hlt
      · cases hnone
      · exact absurd hlt (by simp)
  | lost hn =>
      cases k with
      | zero =>
          cases hj
          exact ⟨_, _, rfl⟩
      | succ k => cases hj
  | rejected hn hrest ih | kept hn hkeep hrest ih =>
      cases k with
      | zero =>
          cases hj
          exact ⟨_, _, rfl⟩
      | succ k => exact ih hj (hmore.imp_right Nat.lt_of_succ_lt_succ)

section

variable (ho : c.owner ∈ locks) (hs : f.Sound checks locks) (hc : c.Fits f)
  (hcov : f.Covered) (hidle : ∀ j ∈ calls, j.Idle checks locks)
include ho hs hc hcov hidle

/-- The judge is shown the elements in order, and finds the survivors so
far, the rejected ones, and the others untouched. -/
theorem Sifts.view
    (hsifts : Sifts c count ⟨0, 0, 0⟩ (f.beginTraversal c.owner) calls last
      stopped h)
    (hj : calls[k]? = some j) :
    (c.items f)[k]? = some j.node
      ∧ (c.items j.before).length = (c.items f).length
      ∧ ∃ zone, zone.Perm (rejectedNodes (calls.take k))
        ∧ c.items j.before
          = keptNodes (calls.take k) ++ zone ++ (c.items f).drop k := by
  have hlt := (List.getElem?_eq_some_iff.mp hj).1
  obtain ⟨mid, g, hbefore, hnode, hheld⟩ := hsifts.cut hj
  have hidle' : ∀ i ∈ calls.take k, i.Idle checks locks :=
    fun i hi => hidle i (List.mem_of_mem_take hi)
  obtain ⟨done, hp, hnone, -⟩ := hbefore.passed ho hs hc hcov hidle'
  obtain ⟨rfl, -⟩ := hnone rfl
  have hlength : ([] ++ calls.take k).length = k := by
    rw [List.nil_append, List.length_take]
    omega
  have hshown : c.items j.before = c.items g := by
    rw [hheld]
    exact slot_congr ((alike_hold (f := g) j.node).slots c.owner) c.slot
  have hcurrent := hp.current hnode
  have hlen := hp.length_items
  obtain ⟨zone, hperm, hitems⟩ := hp.zones
  rw [hlength] at hcurrent hitems
  rw [hshown]
  exact ⟨hcurrent, hlen, zone, hperm, hitems⟩

/-- A pass without early end judges every element; an early end is that
of the last call. -/
theorem Sifts.concludes
    (hsifts : Sifts c (c.length f) ⟨0, 0, 0⟩ (f.beginTraversal c.owner)
      calls last stopped h) :
    last.rejected = calls.countP Judgement.rejects
      ∧ (stopped = none → calls.length = (c.items f).length)
      ∧ ∀ why, stopped = some why → ∃ j k, calls.getLast? = some j
        ∧ j.verdict = .stop why k := by
  have hrejected := hsifts.rejected_eq
  rw [Nat.zero_add] at hrejected
  obtain ⟨done, -, hnone, hsome⟩ := hsifts.passed ho hs hc hcov hidle
  refine ⟨hrejected, fun h => ?_, fun why h => ?_⟩
  · obtain ⟨rfl, hlen⟩ := hnone h
    exact hlen (by rw [List.length_nil, Nat.zero_add]; rfl)
  · obtain ⟨j, k, hverdict, -, heq⟩ := hsome why h
    rw [List.nil_append] at heq
    refine ⟨j, k, ?_, hverdict⟩
    rw [heq, List.getLast?_append, List.getLast?_singleton]
    rfl

end

-- ====================================================== where elements go

/-- The index of the element at `i` after a pass with these calls, if it is
not rejected. -/
def newIndex (calls : List Judgement) (i : Nat) : Nat :=
  i - (calls.take i).countP Judgement.rejects

theorem newIndex_concat (hi : i < done.length) :
    newIndex (done ++ [j]) i = newIndex done i := by
  rw [newIndex, newIndex, List.take_append_of_le_length (Nat.le_of_lt hi)]

/-- A call that does not reject changes no `newIndex`. -/
theorem newIndex_concat_kept (hj : j.rejects = false) (i : Nat) :
    newIndex (done ++ [j]) i = newIndex done i := by
  have hcount : ((done ++ [j]).take i).countP Judgement.rejects
      = (done.take i).countP Judgement.rejects := by
    rw [List.take_append, List.countP_append, Nat.add_eq_left]
    refine List.countP_eq_zero.mpr fun x hx => ?_
    rw [List.mem_singleton.mp (List.mem_of_mem_take hx), hj]
    exact Bool.false_ne_true
  rw [newIndex, newIndex, hcount]

/-- The element that is judged next has the number of survivors as its
`newIndex`. -/
theorem newIndex_length (done : List Judgement) :
    newIndex done done.length = (keptNodes done).length := by
  have hlen := length_keptNodes_add done
  have hrejected : (rejectedNodes done).length
      = done.countP Judgement.rejects := by
    rw [rejectedNodes, List.length_map, List.countP_eq_length_filter]
  rw [newIndex, List.take_length]
  omega

/-- If no call before `i` rejects, `newIndex calls i` is `i`. -/
theorem newIndex_of_none
    (hnone : (calls.take i).any Judgement.rejects = false) :
    newIndex calls i = i := by
  rw [List.any_eq_false] at hnone
  rw [newIndex, List.countP_eq_zero.mpr hnone, Nat.sub_zero]

/-- The `newIndex` of an element not judged yet is its index less the number of
rejections. -/
theorem newIndex_of_le (hi : done.length ≤ i) :
    newIndex done i + (done.length - (keptNodes done).length) = i := by
  have hlen := length_keptNodes_add done
  have hnew := newIndex_length done
  rw [newIndex, List.take_length] at hnew
  rw [newIndex, List.take_of_length_le hi]
  have hle := List.countP_le_length (p := Judgement.rejects) (l := done)
  omega

/-- An element that was judged and not rejected is in `keptNodes`, at its
`newIndex`. -/
theorem getElem?_keptNodes (hj : done[i]? = some j)
    (hkept : j.rejects = false) :
    (keptNodes done)[newIndex done i]? = some j.node := by
  induction done using List.reverseRecOn with
  | nil => cases hj
  | append_singleton done last ih =>
      rw [keptNodes_concat]
      rw [List.getElem?_append] at hj
      split at hj
      next hlt =>
        have hbefore := ih hj
        rw [newIndex_concat hlt, List.getElem?_append_left
          (List.getElem?_eq_some_iff.mp hbefore).1, hbefore]
      next hge =>
        -- then it was judged last
        have hlast := List.mem_singleton.mp (List.mem_of_getElem? hj)
        have hi : i = done.length := by
          have hlt := (List.getElem?_eq_some_iff.mp hj).1
          rw [List.length_singleton] at hlt
          omega
        rw [← hlast, hi, newIndex_concat_kept hkept, newIndex_length, hkept,
          if_neg Bool.false_ne_true, List.getElem?_concat_length]

/-- The survivors with the elements not judged behind them have every element
that was not rejected at its `newIndex`. -/
theorem getElem?_newIndex {items : List NodeId}
    (hnodes : calls.map Judgement.node = items.take calls.length)
    (hi : items[i]? = some n)
    (hkept : ∀ j, calls[i]? = some j → j.rejects = false) :
    (keptNodes calls ++ items.drop calls.length)[newIndex calls i]?
      = some n := by
  by_cases hjudged : i < calls.length
  · have hj := List.getElem?_eq_getElem hjudged
    have hstored := getElem?_keptNodes hj (hkept _ hj)
    have hnode : (calls.map Judgement.node)[i]?
        = (items.take calls.length)[i]? := by rw [hnodes]
    rw [List.getElem?_map, hj, List.getElem?_take, if_pos hjudged, hi]
      at hnode
    rw [List.getElem?_append_left (List.getElem?_eq_some_iff.mp hstored).1,
      hstored]
    exact hnode
  · have hlen := length_keptNodes_add calls
    have hsum := newIndex_of_le (Nat.le_of_not_lt hjudged)
    rw [List.getElem?_append_right (by omega), List.getElem?_drop,
      show calls.length + (newIndex calls i - (keptNodes calls).length) = i
        by omega, hi]

/-- If the place of `n` led to the occurrence at `i` when the pass began,
it still does so as long as that was not judged, and then it leads to the
new index of it. It is lost only if the occurrence was rejected. -/
def Rides (c : Collection) (i : Nat) (n : NodeId) (done : List Judgement)
    (g : Forest) : Prop :=
  g.Spared n → (∀ j, done[i]? = some j → j.rejects = false) →
    (g.node n).position
      = c.base + if i < done.length then newIndex done i else i

theorem Rides.calm (hr : Rides c i n done g) (hgh : Calm g h) :
    Rides c i n done h := fun hn hkept => by
  rw [hgh.position hn]
  exact hr (hgh.ages.spared hn) hkept

/-- If no call at `i` rejects in `done` with one more call, none does in
`done`. -/
private theorem kept_of_concat
    (hkept : ∀ x, (done ++ [j])[i]? = some x → x.rejects = false) :
    ∀ x, done[i]? = some x → x.rejects = false := fun x hx =>
  hkept x ((List.getElem?_append_left
    (List.getElem?_eq_some_iff.mp hx).1).trans hx)

theorem Rides.reject (hr : Rides c i n done g) (hj : j.rejects = true)
    (pass : Pass) :
    Rides c i n (done ++ [j]) (c.reject j.node pass g).2 := by
  intro hn hkept
  have hpos := hr (spared_update.mp hn) (kept_of_concat hkept)
  rw [Collection.reject, position_detach, hpos]
  rcases Nat.lt_trichotomy i done.length with hlt | rfl | hgt
  · rw [if_pos hlt, if_pos (by simp; omega), newIndex_concat hlt]
  · have hlast := hkept j List.getElem?_concat_length
    rw [hj] at hlast
    cases hlast
  · rw [if_neg (by omega), if_neg (by simp; omega)]

/-- `keep` of the next element preserves `Rides`: the cached place is tested at
one index only before the element moves. -/
theorem Rides.keep (hr : Rides c i n done g) (hwf : f.WellFormed)
    (hcov : f.Covered) (hp : Passed c f done pass g)
    (hi : (c.items f)[i]? = some n)
    (hlink : (f.node n).link = some c.owner)
    (hj : (c.items f)[done.length]? = some j.node) {next : Pass}
    (hkeep : c.keep j.node pass g = (some next, h)) :
    Rides c i n (done ++ [j]) h := by
  obtain ⟨-, items, rfl⟩ := keep_stores hkeep
  intro hn hkept
  have hspared : g.Spared n := spared_renumber (spared_update.mp hn)
  have hpos := hr hspared (kept_of_concat hkept)
  rw [setItems, position_setSlot]
  rcases Nat.lt_trichotomy i done.length with hlt | rfl | hgt
  · -- it has moved: it lies below the index that is tested now
    rw [if_pos (by simp; omega), newIndex_concat hlt]
    rw [if_pos hlt] at hpos
    have hle : newIndex done i ≤ i := Nat.sub_le ..
    rw [position_renumber_miss fun _ => ?_, hpos]
    rw [hpos, hp.judged]
    omega
  · -- its turn: the test succeeds
    rw [if_pos (by simp), newIndex_concat_kept (hkept j
      List.getElem?_concat_length), newIndex_length]
    rw [if_neg (Nat.lt_irrefl _)] at hpos
    cases hi.symm.trans hj
    have hmem : j.node ∈ (c.items f).drop done.length := by
      rw [List.drop_eq_getElem?_toList_append, hj]
      exact .head _
    have hlinked := hp.linked hwf hcov hspared hmem hlink
    rw [← hp.judged] at hpos
    rw [position_renumber_hit hlinked hpos, hp.kept]
  · -- not yet
    rw [if_neg (by simp; omega)]
    rw [if_neg (by omega)] at hpos
    rw [position_renumber_miss fun _ => ?_, hpos]
    rw [hpos, hp.judged]
    omega

-- ========================================================= the compaction

/-- `renumberFrom` leaves the position of `n` if no test of `n` finds it. -/
theorem position_renumberFrom_ne (old : Nat → Nat) (n : NodeId) :
    ∀ (ns : List NodeId) (start : Nat) (f : Forest),
      (∀ m, ns[m]? = some n →
        (f.node n).position ≠ c.base + old (start + m)) →
      ((c.renumberFrom old start ns f).node n).position = (f.node n).position
  | [], _, _, _ => rfl
  | x :: rest, start, f, hmiss => by
      have hsame : ((c.renumber f (old start) start x).node n).position
          = (f.node n).position := by
        rcases position_renumber (c := c) (f := f) (old start) start x n with
          ⟨rfl, hat, -⟩ | ⟨-, hsame⟩
        · have hhere : (f.node x).position = c.base + old start :=
            (by simpa [Node.isAt] using hat : _ ∧ _).1
          exact absurd hhere (hmiss 0 rfl)
        · exact hsame
      rw [renumberFrom, position_renumberFrom_ne old n rest (start + 1) _
        fun m hm => ?_, hsame]
      have hnext := hmiss (m + 1) hm
      rwa [hsame, Nat.add_assoc, Nat.add_comm 1 m]

/-- Elements that moved to the left by `shift`: whose place led to one of
them still leads to it. -/
theorem position_renumberFrom_left {shift : Nat} (hshift : 0 < shift) :
    ∀ (ns : List NodeId) (start m : Nat) (f : Forest), ns[m]? = some n →
      (f.node n).link = some c.owner →
      (f.node n).position = c.base + (start + m + shift) →
      ((c.renumberFrom (fun j => j + shift) start ns f).node n).position
        = c.base + (start + m)
  | [], _, _, _, hm, _, _ => by cases hm
  | x :: rest, start, m, f, hm, hlink, hpos => by
      have hlink' : ((c.renumber f (start + shift) start x).node n).link
          = some c.owner :=
        (c.field_renumber (F := Node.link) (fun _ _ => rfl) ..).trans hlink
      rw [renumberFrom]
      cases m with
      | zero =>
          cases hm
          rcases position_renumber (c := c) (f := f) (start + shift) start n n
            with ⟨-, -, hnow⟩ | ⟨hno, -⟩
          · rw [position_renumberFrom_ne _ n rest (start + 1) _ ?_, hnow]
            · rfl
            · intro m _
              rw [hnow]
              omega
          · refine absurd ⟨rfl, ?_⟩ hno
            rw [Node.isAt, hlink, hpos]
            simp
      | succ m =>
          have hsame : ((c.renumber f (start + shift) start x).node n).position
              = (f.node n).position := by
            rcases position_renumber (c := c) (f := f) (start + shift) start x
                n
              with ⟨rfl, hat, -⟩ | ⟨-, hsame⟩
            · have hhere : (f.node x).position = c.base + (start + shift) :=
                (by simpa [Node.isAt] using hat : _ ∧ _).1
              omega
            · exact hsame
          rw [position_renumberFrom_left hshift rest (start + 1) m _ hm hlink'
            (by rw [hsame, hpos]; omega)]
          omega

/-- After the compaction the place leads to the new index of the
occurrence, whether that was judged or not. -/
theorem Passed.ridden (hp : Passed c f done pass g) (hwf : f.WellFormed)
    (hcov : f.Covered) (hr : Rides c i n done g)
    (hi : (c.items f)[i]? = some n)
    (hlink : (f.node n).link = some c.owner)
    (hkept : ∀ j, done[i]? = some j → j.rejects = false)
    (hn : (pass.compact c g).Spared n) :
    ((pass.compact c g).node n).position = c.base + newIndex done i := by
  obtain ⟨zone, -, hcompact⟩ := hp.compacted
  rw [hcompact] at hn ⊢
  generalize hnew : keptNodes done ++ (c.items f).drop done.length = new
    at hn ⊢
  have hshown : ∀ {m}, ((c.setItems g new).reapAll zone).Spared m → _ :=
    fun hm => shown_stored hm
  generalize (c.setItems g new).reapAll zone = k at hn hshown ⊢
  have hspared : k.Spared n := spared_renumberFrom hn
  obtain ⟨hspared', hposition, hlinked⟩ := hshown hspared
  rw [hr hspared' hkept] at hposition
  have hlen := length_keptNodes_add done
  by_cases hjudged : i < done.length
  · -- the tests of the compaction are at indices that were not judged
    rw [if_pos hjudged] at hposition
    have hle : newIndex done i ≤ i := Nat.sub_le ..
    rw [position_renumberFrom_ne, hposition]
    intro m _
    rw [hposition]
    omega
  · have hge : done.length ≤ i := by omega
    have hsum := newIndex_of_le hge
    rw [if_neg hjudged] at hposition
    split
    next hnone =>
      rw [renumberFrom, hposition]
      omega
    next hsome =>
      have hm : ((c.items f).drop done.length)[i - done.length]? = some n := by
        rw [List.getElem?_drop, Nat.add_sub_cancel' hge, hi]
      have hmem := List.mem_of_getElem? hm
      rw [hp.linked hwf hcov hspared' hmem hlink] at hlinked
      rw [position_renumberFrom_left (by omega) _ _ _ k hm hlinked
        (by rw [hposition]; omega)]
      omega

/-- Wherever a pass stopped: a place that led to an occurrence which was
not rejected leads to the new index of that occurrence. -/
theorem Sifts.ridden
    (hsifts : Sifts c (c.length f) ⟨0, 0, 0⟩ (f.beginTraversal c.owner)
      calls pass stopped g)
    (ho : c.owner ∈ locks) (hs : f.Sound checks locks) (hc : c.Fits f)
    (hcov : f.Covered) (hidle : ∀ j ∈ calls, j.Idle checks locks)
    (hi : (c.items f)[i]? = some n)
    (hlink : (f.node n).link = some c.owner)
    (hpos : (f.node n).position = c.base + i)
    (hkept : ∀ j, calls[i]? = some j → j.rejects = false)
    (hn : (pass.finish checks c g).state.Spared n) :
    ((pass.finish checks c g).state.node n).position
      = c.base + newIndex calls i := by
  have hwf := hs.toWellFormed
  obtain ⟨done, hp, hr, hnone, hsome⟩ :=
    hsifts.passed_with ho hs hc hcov hidle (Rides c i n) Rides.calm
      (fun {_ pass _ _} _ hr _ hj => hr.reject hj pass)
      (fun hp hr hj _ hkeep => hr.keep hwf hcov hp hi hlink hj hkeep)
      fun _ _ => hpos
  have hend : Alike (pass.compact c g) (pass.finish checks c g).state :=
    alike_finish pass
  rw [List.nil_append] at hnone hsome
  rw [hend.calm.position hn]
  have hn' := hend.calm.ages.spared hn
  cases stopped with
  | none =>
      obtain ⟨rfl, -⟩ := hnone rfl
      exact hp.ridden hwf hcov hr hi hlink hkept hn'
  | some why =>
      obtain ⟨j, k, hverdict, -, rfl⟩ := hsome why rfl
      have hj : j.rejects = false := by rw [Judgement.rejects, hverdict]
      rw [newIndex_concat_kept hj]
      exact hp.ridden hwf hcov hr hi hlink (kept_of_concat hkept) hn'

end InstructionTree.Collection
