/-
What a successful edit of a collection did.

One inversion lemma for every edit: if it succeeded, its guard was open,
its indices were in range, and the forest it left is the one written here.
Proofs about successful edits start from these lemmas and open no edit
themselves.
-/
import InstructionTree.Proofs.Collection.Steps

namespace InstructionTree.Collection

open Forest

variable {checks : Checks} {c : Collection} {f g : Forest}

/-- An exchange that succeeded found an element. It did nothing if that was the
node itself; otherwise it stored, attached, detached, committed and let go. -/
theorem set_eq_ok {i : Nat} {n : NodeId} {u : Unit}
    (hout : c.set checks i n f = .ok u g) :
    ∃ old, (c.items f)[i]? = some old
      ∧ (old = n ∧ g = f
        ∨ old ≠ n ∧ g = ((((c.overwritten f i n).enter c.owner n).detach
            c.owner old).commit c.owner).reap old) := by
  unfold set at hout
  split at hout
  · cases hout
  next old hold =>
    refine ⟨old, hold, ?_⟩
    split at hout
    case isTrue hsame =>
      cases hout
      exact .inl ⟨hsame, rfl⟩
    case isFalse hother =>
      obtain ⟨g1, hnext, rfl⟩ := Outcome.always_eq_ok hout
      obtain ⟨g2, hattach, rfl⟩ := Outcome.next_eq_ok hnext
      obtain ⟨-, rfl⟩ := attach_eq_ok hattach
      exact .inr ⟨hother, rfl⟩

/-- `add` that succeeded has pushed the node, entered it and committed the
owner. -/
theorem add_eq_ok {n : NodeId} {u : Unit}
    (hout : c.add checks n f = .ok u g) :
    g = ((c.pushed f n).enter c.owner n).commit c.owner := by
  obtain ⟨-, hbody⟩ := guarded_eq_ok hout
  obtain ⟨g1, hattach, rfl⟩ := Outcome.next_eq_ok hbody
  rw [(attach_eq_ok hattach).2]

/-- `addRange` that succeeded has appended, with one commit behind it. -/
theorem addRange_eq_ok {ns : List NodeId} {u : Unit}
    (hout : c.addRange checks ns f = .ok u g) :
    ∃ k, c.append checks ns f = .ok () k ∧ g = k.commit c.owner := by
  obtain ⟨-, hbody⟩ := guarded_eq_ok hout
  exact Outcome.next_eq_ok hbody

/-- `insert` that succeeded was at an index up to the length. -/
theorem insert_eq_ok {i : Nat} {n : NodeId} {u : Unit}
    (hout : c.insert checks i n f = .ok u g) :
    i ≤ (c.items f).length
      ∧ g = ((c.inserted f i n).enter c.owner n).commit c.owner := by
  obtain ⟨-, hbody⟩ := guarded_eq_ok hout
  split at hbody
  · cases hbody
  case isFalse hle =>
    obtain ⟨g1, hattach, rfl⟩ := Outcome.next_eq_ok hbody
    rw [(attach_eq_ok hattach).2]
    exact ⟨Nat.le_of_not_lt hle, rfl⟩

/-- A removal answers the element that was there, and lets go of it after the
commit. -/
theorem removeAt_eq_ok {i : Nat} {old : NodeId}
    (hout : c.removeAt checks i f = .ok old g) :
    (c.items f)[i]? = some old
      ∧ g = ((c.erased f i old).commit c.owner).reap old := by
  obtain ⟨-, hbody⟩ := guarded_eq_ok hout
  split at hbody
  · cases hbody
  next hold =>
    cases hbody
    exact ⟨hold, rfl⟩

/-- A removal by node did nothing if the node was not found, and else removed
what is at its index. -/
theorem remove_eq_ok {n : NodeId} {yes : Bool}
    (hout : c.remove checks n f = .ok yes g) :
    (c.indexOf? f n = none ∧ g = f)
      ∨ ∃ i old, c.indexOf? f n = some i
        ∧ c.removeAt checks i f = .ok old g := by
  obtain ⟨-, hbody⟩ := guarded_eq_ok hout
  split at hbody
  next hnone =>
    cases hbody
    exact .inl ⟨hnone, rfl⟩
  next i hfound =>
    obtain ⟨old, hremove, -⟩ := Outcome.map_eq_ok hbody
    exact .inr ⟨i, old, hfound, hremove⟩

/-- `removeRange` that succeeded ended within the collection. -/
theorem removeRange_eq_ok {i count : Nat} {u : Unit}
    (hout : c.removeRange checks i count f = .ok u g) :
    i + count ≤ (c.items f).length
      ∧ g = (c.erasedRange f i count).commit c.owner := by
  obtain ⟨-, hbody⟩ := guarded_eq_ok hout
  split at hbody
  · cases hbody
  · split at hbody
    · cases hbody
    case isFalse hle =>
      cases hbody
      exact ⟨Nat.le_of_not_lt hle, rfl⟩

/-- A swapping removal put the last element in the place of the one that it
answers. -/
theorem swapRemoveAt_eq_ok {i : Nat} {old : NodeId}
    (hout : c.swapRemoveAt checks i f = .ok old g) :
    ∃ last, (c.items f)[i]? = some old ∧ (c.items f).getLast? = some last
      ∧ g = ((c.swapErased f i old last).commit c.owner).reap old := by
  obtain ⟨-, hbody⟩ := guarded_eq_ok hout
  split at hbody
  next old' last hold hlast =>
    cases hbody
    exact ⟨last, hold, hlast, rfl⟩
  · cases hbody

theorem clear_eq_ok {u : Unit} (hout : c.clear checks f = .ok u g) :
    g = ((c.cleared f).commit c.owner).reapAll (c.items f) := by
  obtain ⟨-, hbody⟩ := guarded_eq_ok hout
  cases hbody
  rfl

/-- `move` that succeeded was from the index of an element to the index of an
element. -/
theorem move_eq_ok {a b : Nat} {u : Unit}
    (hout : c.move checks a b f = .ok u g) :
    ∃ n, (c.items f)[a]? = some n ∧ b < (c.items f).length
      ∧ g = (c.moved f a b n).commit c.owner := by
  obtain ⟨-, hbody⟩ := guarded_eq_ok hout
  split at hbody
  · cases hbody
  next n hn =>
    split at hbody
    case isTrue hb =>
      cases hbody
      exact ⟨n, hn, hb, rfl⟩
    case isFalse => cases hbody

theorem moveToEnd_eq_ok {n : NodeId} {yes : Bool}
    (hout : c.moveToEnd checks n f = .ok yes g) :
    (c.indexOf? f n = none ∧ g = f)
      ∨ ∃ i, c.indexOf? f n = some i
        ∧ c.move checks i ((c.items f).length - 1) f = .ok () g := by
  obtain ⟨-, hbody⟩ := guarded_eq_ok hout
  split at hbody
  next hnone =>
    cases hbody
    exact .inl ⟨hnone, rfl⟩
  next i hfound =>
    obtain ⟨_, hmove, -⟩ := Outcome.map_eq_ok hbody
    exact .inr ⟨i, hfound, hmove⟩

/-- `replaceList` that succeeded has overwritten from 0, discarded the rest,
and committed the owner. -/
theorem replaceList_eq_ok {ns : List NodeId} {u : Unit}
    (hout : c.replaceList checks ns f = .ok u g) :
    ∃ k, c.overwrite checks 0 ns f = .ok () k
      ∧ g = (c.discard ns.length ((c.items k).length - ns.length) k).commit
        c.owner := by
  obtain ⟨-, hbody⟩ := guarded_eq_ok hout
  exact Outcome.next_eq_ok hbody

/-- `overwriteOne` that succeeded has replaced the element at `i`, or appended
where there was none. -/
theorem overwriteOne_eq_ok {i : Nat} {n : NodeId} {u : Unit}
    (hout : c.overwriteOne checks i n f = .ok u g) :
    (∃ old, (c.items f)[i]? = some old
      ∧ g = (((c.overwritten f i n).enter c.owner n).detach c.owner old).reap
        old)
    ∨ ((c.items f)[i]? = none
      ∧ g = (c.setItems (c.place f i n) (c.items f ++ [n])).enter
        c.owner n) := by
  unfold overwriteOne at hout
  split at hout
  next old hold =>
    obtain ⟨g1, hnext, rfl⟩ := Outcome.always_eq_ok hout
    obtain ⟨g2, hattach, rfl⟩ := Outcome.next_eq_ok hnext
    obtain ⟨-, rfl⟩ := attach_eq_ok hattach
    exact .inl ⟨old, hold, rfl⟩
  next hnone =>
    obtain ⟨-, rfl⟩ := attach_eq_ok hout
    exact .inr ⟨hnone, rfl⟩

/-- At the index that `indexOf?` finds, the collection has the node. -/
theorem getElem?_of_indexOf? {n : NodeId} {i : Nat}
    (hfound : c.indexOf? f n = some i) : (c.items f)[i]? = some n := by
  rcases Option.or_eq_some_iff.mp hfound with hcached | ⟨-, hscan⟩
  · unfold cachedIndex? at hcached
    dsimp only at hcached
    split at hcached
    case isTrue hplace =>
      cases hcached
      exact hplace.2.2
    case isFalse => cases hcached
  · obtain ⟨hlt, hn, -⟩ := List.findIdx?_eq_some_iff_getElem.mp hscan
    rw [List.getElem?_eq_getElem hlt, beq_iff_eq.mp hn]

end InstructionTree.Collection
