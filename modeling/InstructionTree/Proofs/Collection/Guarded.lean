/-
Edits of an owner that is being traversed.

While a traversal of `o` is open and checks are on, the elements of its
collection can change in one way: one of them is exchanged, at its index.
Whatever else is asked of `o` is refused before anything was done
(`apply_guarded`, `removeAll_guarded`, `removeFromParent_guarded`), or it
is about an operand slot, and leaves the collection alone.

An exchange happens even if it stops on the check of an attach: the check
comes after the element was stored (`items_set`).
-/
import InstructionTree.Proofs.Forest.Works
import InstructionTree.Proofs.Collection.Sifting

namespace InstructionTree

open Forest

variable {checks : Checks} {locks : List NodeId} {c : Collection}
  {f g : Forest}

-- =============================================================== refusals

namespace Forest

/-- How a structural edit of `o` is refused. -/
def refusal (o : NodeId) (f : Forest) {α : Type} : Outcome Forest α :=
  .stop (.fault (.invalidDuringTraversal (f.node o).opcode
      (f.node o).depth.shown))
    (f.emit (.rejected (f.node o).opcode (f.node o).depth.shown))

theorem guarded_of_guard {α : Type} {o : NodeId} (body : Edit α)
    (hguard : f.isGuarded checks o = true) :
    guarded checks o body f = refusal o f := by
  unfold guarded
  rw [if_pos hguard]
  rfl

theorem guarded_of_open {α : Type} {o : NodeId} (body : Edit α)
    (hopen : f.isGuarded checks o = false) :
    guarded checks o body f = body f := by
  unfold guarded
  rw [hopen]
  rfl

end Forest

/-- Whether the change is `set`, which keeps all other elements where they are.
-/
def Change.exchanges {ν : Type} : Change ν → Bool
  | .set .. => true
  | _ => false

namespace Collection

variable (hguard : f.isGuarded checks c.owner = true)
include hguard

/-- With the guard up every change but `set` is the `refusal`. -/
theorem apply_guarded {change : Change NodeId}
    (hchange : change.exchanges = false) :
    c.apply checks change f = refusal c.owner f := by
  cases change with
  | set => cases hchange
  | add | addRange | insert | removeAt | remove | removeRange | swapRemoveAt
  | clear | move | moveToEnd | replaceList =>
      exact congrArg (Outcome.map _) (guarded_of_guard _ hguard)

/-- With the guard up `removeAll` is the `refusal`, and makes no calls. -/
theorem removeAll_guarded {σ : Type} (judge : Judge σ) (st : σ) :
    (c.removeAll checks judge (f, st)).mapState Prod.fst = refusal c.owner f
      ∧ c.removalCalls checks judge (f, st) = [] := by
  constructor
  · unfold removeAll requireUntraversed
    rw [guarded_of_guard _ hguard]
    rfl
  · unfold removalCalls
    rw [if_pos hguard]

end Collection

-- ============================================================== exchanges

namespace Collection

/-- Two collections that fit and have the same owner are the same: it is the
last slot. -/
theorem Fits.unique {d : Collection} (hc : c.Fits f) (hd : d.Fits f)
    (hwf : f.WellFormed) (howner : d.owner = c.owner) : d = c := by
  have hlast := hc.last hwf
  have hlast' := hd.last hwf
  rw [howner] at hlast'
  have hslot : d.slot = c.slot := by omega
  obtain ⟨o, i⟩ := c
  obtain ⟨p, j⟩ := d
  cases howner
  cases hslot
  rfl

theorem items_works {p : NodeId} (hfg : Works p f g)
    (halive : g.isAlive c.owner = true) (hne : c.owner ≠ p) :
    c.items g = c.items f :=
  hfg.slot_eq halive hne c.slot

/-- `Sheds` changes no element of a collection whose owner lives on. -/
theorem items_sheds (hfg : Sheds f g) (halive : g.isAlive c.owner = true) :
    c.items g = c.items f :=
  slot_congr (by rw [hfg.node_eq halive]) c.slot

theorem items_overwritten (hc : c.Fits f) (hwf : f.WellFormed) (i : Nat)
    (n : NodeId) :
    c.items (c.overwritten f i n) = (c.items f).set i n := by
  have halive : (c.place f i n).isAlive c.owner = true :=
    (isAlive_place ..).trans hc.alive
  have hbound : c.slot < ((c.place f i n).node c.owner).slots.length := by
    rw [place, slots_setPosition]
    exact hc.bound hwf
  exact items_setItems halive hbound

/-- However an exchange ended, the element is there. If there was no such
element, nothing is. -/
theorem items_set (hc : c.Fits f) (hwf : f.WellFormed) (i : Nat)
    (n : NodeId)
    (halive : (c.set checks i n f).state.isAlive c.owner = true) :
    c.items (c.set checks i n f).state = (c.items f).set i n := by
  revert halive
  unfold set
  split
  next hnone =>
    intro _
    have hout := List.getElem?_eq_none_iff.mp hnone
    exact (List.set_eq_of_length_le hout).symm
  next old hold =>
    split
    next hsame =>
      intro _
      subst hsame
      obtain ⟨hlt, hget⟩ := List.getElem?_eq_some_iff.mp hold
      have hself : (c.items f).set i (c.items f)[i] = c.items f :=
        List.set_getElem_self hlt
      rw [hget] at hself
      exact hself.symm
    next =>
      intro halive
      have hover := items_overwritten hc hwf i n
      generalize c.overwritten f i n = k at hover halive ⊢
      rw [Outcome.state_always] at halive ⊢
      rw [items_sheds (sheds_reap _ old) halive, ← hover]
      unfold attach
      split
      · rfl
      · have hslots : (((k.enter c.owner n).detach c.owner old).commit
            c.owner |>.node c.owner).slots = (k.node c.owner).slots := by
          rw [slots_commit, slots_detach, slots_enter]
        exact slot_congr hslots c.slot

end Collection

-- =========================================================== replacements

/-- An element to be replaced: its collection, its index, and the node that
takes its place. -/
structure Replacement where
  collection : Collection
  index : Nat
  node : NodeId
deriving DecidableEq

/-- What a collection stores after somebody made a replacement, if it had
`items` before. -/
def Replacement.stored (c : Collection) (items : List NodeId) :
    Option Replacement → List NodeId
  | none => items
  | some r => if r.collection = c then items.set r.index r.node else items

/-- A replacement in another collection changes no element of `c`. -/
theorem Replacement.stored_ne {items : List NodeId} {r : Option Replacement}
    (hne : ∀ x ∈ r, x.collection ≠ c) : stored c items r = items := by
  cases r with
  | none => rfl
  | some x => exact if_neg (hne x rfl)

@[simp] theorem Replacement.length_stored (items : List NodeId)
    (r : Option Replacement) : (stored c items r).length = items.length := by
  unfold stored
  split
  · rfl
  · split
    · exact List.length_set ..
    · rfl

-- ================================================= operands and children

namespace Forest

variable {n o : NodeId} {i : Nat}

/-- The replacement that `setChild n j m` makes, if index `j` falls into a
collection. -/
def replacement? (f : Forest) (n : NodeId) (j : Nat) (m : NodeId) :
    Option Replacement :=
  (if j < f.childCount n then f.locate? n j else none).map
    fun place => ⟨⟨n, place.1⟩, place.2, m⟩

/-- `setSlotChild` at slot `i` changes no other slot of the node, however it
ends. -/
theorem slot_setSlotChild_ne {child : Option NodeId} {j : Nat} (hne : j ≠ i)
    (halive : (setSlotChild checks n i child f).state.isAlive n = true) :
    (setSlotChild checks n i child f).state.slot n j = f.slot n j := by
  revert halive
  unfold setSlotChild
  split
  · exact fun _ => rfl
  · dsimp only
    split
    · exact fun _ => rfl
    · intro halive
      have hassigned : (f.slotAssigned n i child).slot n j = f.slot n j := by
        cases child with
        | none => exact slot_setSlot_ne f n [] hne n
        | some c =>
            exact (slot_setSlot_ne _ n [c] hne n).trans
              (slot_congr (slots_setPosition ..) j)
      generalize f.slotAssigned n i child = k at hassigned halive ⊢
      generalize (f.slot n i).head? = old at halive ⊢
      rw [Outcome.state_always] at halive ⊢
      refine (slot_congr ?_ j).trans hassigned
      rw [(sheds_reapAll _ old.toList).node_eq halive]
      have hdetach : ∀ g : Forest,
          (((g.detach? n old).commit n).node n).slots = (g.node n).slots := by
        intro g
        rw [slots_commit]
        cases old with
        | none => rfl
        | some old => exact slots_detach ..
      cases child with
      | none => exact hdetach k
      | some c =>
          show (((attach checks n c k).next _).state.node n).slots = _
          unfold attach
          split
          · rfl
          · exact (hdetach _).trans (slots_enter ..)

/-- `Collection.at?` answers a collection that fits. -/
theorem at?_of_fits (hc : c.Fits f) :
    Collection.at? f c.owner c.slot = .ok c := by
  obtain ⟨s, hs, hmany⟩ := hc
  unfold Collection.at?
  dsimp only
  rw [hs]
  exact if_pos hmany

/-- `Collection.at?` answers an error only at slots other than that of `c`. -/
theorem slot_ne_of_at? {e : Fault} (hc : c.Fits f)
    (hi : Collection.at? f c.owner i = .error e) : c.slot ≠ i := by
  rintro rfl
  rw [at?_of_fits hc] at hi
  cases hi

section

variable (hs : f.Sound checks locks) (hc : c.Fits f)
include hs hc

/-- `setChild` does to the elements of `c` what `replacement?` says. -/
theorem items_setChild {j : Nat} {m : NodeId} (hn : f.isAlive n = true)
    (hm : f.isAlive m = true)
    (halive : (setChild checks n j m f).state.isAlive c.owner = true) :
    c.items (setChild checks n j m f).state
      = Replacement.stored c (c.items f) (f.replacement? n j m) := by
  by_cases howner : c.owner = n
  · subst howner
    revert halive
    unfold setChild replacement?
    split
    next hnone =>
      intro _
      rw [hnone]
      rfl
    next slot inner hlocate =>
      rw [hlocate]
      split
      next d hd =>
        intro halive
        obtain ⟨rfl, hfits⟩ := Collection.fits_at? hd
        have hsame := hc.unique hfits hs.toWellFormed rfl
        rw [← hsame] at hc halive ⊢
        rw [Collection.items_set hfits hs.toWellFormed inner m halive]
        exact (if_pos rfl).symm
      next e he =>
        intro halive
        have hne := slot_ne_of_at? hc he
        have hsame := slot_setSlotChild_ne hne halive
        rw [Replacement.stored_ne]
        · exact hsame
        · intro x hx hcollection
          cases hx
          exact hne (congrArg Collection.slot hcollection).symm
  · have hcarried : Carried checks n f (setChild checks n j m f) :=
      carried_setChild hs j hn hm
    rw [Collection.items_works hcarried.works halive howner,
      Replacement.stored_ne]
    intro x hx hcollection
    obtain ⟨place, -, rfl⟩ := Option.map_eq_some_iff.mp hx
    exact howner (congrArg Collection.owner hcollection).symm

theorem items_replaceWith {m : NodeId} (hm : f.isAlive m = true)
    (halive : (replaceWith checks n m f).state.isAlive c.owner = true) :
    c.items (replaceWith checks n m f).state
      = Replacement.stored c (c.items f)
        ((f.placeInParent? n).bind fun place =>
          f.replacement? place.1 place.2 m) := by
  revert halive
  unfold replaceWith
  split
  next hnone =>
    intro _
    rw [hnone]
    rfl
  next p j hplace =>
    intro halive
    have hparent := (placeInParent?_eq_some hplace).1
    rw [hplace]
    exact items_setChild hs hc (parent?_eq_some_iff.mp hparent).2 hm halive

omit hs in
/-- `setSlotChild` changes no element of a collection of the node. -/
theorem items_setSlotChild {child : Option NodeId}
    (halive : (setSlotChild checks c.owner i child f).state.isAlive c.owner
      = true) :
    c.items (setSlotChild checks c.owner i child f).state = c.items f := by
  by_cases hslot : c.slot = i
  · subst hslot
    cases hcheck : f.checkOperandSlot c.owner c.slot with
    | ok u =>
        obtain ⟨s, hs, hone⟩ := checkOperandSlot_ok hcheck
        obtain ⟨s', hs', hmany⟩ := hc
        rw [hs] at hs'
        cases hs'
        rw [hone] at hmany
        cases hmany
    | error e =>
        unfold setSlotChild
        rw [hcheck]
        rfl
  · exact slot_setSlotChild_ne hslot halive

/-- With the guard up `removeFromParent` changes no element of `c`. -/
theorem items_removeFromParent (hguard : f.isGuarded checks c.owner = true)
    (halive : (removeFromParent checks n f).state.isAlive c.owner = true) :
    c.items (removeFromParent checks n f).state = c.items f := by
  revert halive
  unfold removeFromParent
  split
  · exact fun _ => rfl
  next p j hplace =>
    split
    · exact fun _ => rfl
    next slot inner hlocate =>
      by_cases howner : c.owner = p
      · subst howner
        split
        next d hd =>
          intro _
          obtain ⟨rfl, hfits⟩ := Collection.fits_at? hd
          unfold Collection.removeAt
          rw [guarded_of_guard _ hguard]
          rfl
        next e he =>
          intro halive
          exact slot_setSlotChild_ne (slot_ne_of_at? hc he) halive
      · split
        next d hd =>
          intro halive
          obtain ⟨rfl, hfits⟩ := Collection.fits_at? hd
          have hcarried : Carried checks p f
              (Collection.removeAt checks ⟨p, slot⟩ inner f) :=
            Collection.carried_removeAt hs hfits inner
          exact Collection.items_works (hcarried.map _).works halive howner
        next e he =>
          intro halive
          have hparent := (placeInParent?_eq_some hplace).1
          have hcarried : Carried checks p f
              (setSlotChild checks p slot none f) :=
            carried_setSlotChild slot (parent?_eq_some_iff.mp hparent).2
              fun m hm => by cases hm
          exact Collection.items_works hcarried.works halive howner

end

/-- Removing an element of a collection through its parent is refused like
any other structural edit. -/
theorem removeFromParent_guarded {j inner : Nat} (hc : c.Fits f)
    (hplace : f.placeInParent? n = some (c.owner, j))
    (hlocate : f.locate? c.owner j = some (c.slot, inner))
    (hguard : f.isGuarded checks c.owner = true) :
    removeFromParent checks n f = refusal c.owner f := by
  unfold removeFromParent
  rw [hplace]
  dsimp only
  rw [hlocate]
  dsimp only
  rw [at?_of_fits hc]
  exact congrArg (Outcome.map _) (guarded_of_guard _ hguard)

end Forest

end InstructionTree
