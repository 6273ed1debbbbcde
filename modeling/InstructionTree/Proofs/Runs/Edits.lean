/-
Every edit of a client is an edit of one slot.

`Edited` puts together what is known of a successful edit: its books, the
places it left behind, and that what it removed has left. The lemmas here
find the slot for each operation that edits, so that whatever follows from
`Edited` holds of all of them.

What enters and what is emptied can be read off the request: `entering`
and `emptying` say it in terms of the owner, whichever slot it is, and
`EditsAt` is an edit of one slot in these terms.
-/
import InstructionTree.Proofs.Collection.Culling
import InstructionTree.Proofs.Forest.Operands
import InstructionTree.Proofs.Runs.Sound

namespace InstructionTree

open Forest

variable {checks : Checks} {locks : List NodeId} {f g k : Forest}
  {o : NodeId} {i : Nat} {entered left new : List NodeId}
  {removed : Nat → Prop}

/-- Slot `i` of `o` was edited: `entered` were attached, `left` detached,
and the slot holds `new` now. -/
structure Edited (o : NodeId) (i : Nat) (entered left new : List NodeId)
    (removed : Nat → Prop) (f g : Forest) : Prop where
  exchange : Exchange o i entered left new f g
  placed : Placed o i entered (f.slot o i) new removed f g
  emptied : ∀ {j n}, removed j → (f.slot o i)[j]? = some n → n ∈ left
  room : f.Room o i new.length
  live : ∀ n ∈ entered, g.isAlive n = true

/-- An `Edited` slot keeps cached places (`KeepsPlaces`), but for the indices
whose element it removed. -/
theorem Edited.keepsPlaces (hfg : Edited o i entered left new removed f g)
    (hwf : f.WellFormed) (hcov : f.Covered) (hclosed : g.Closed) :
    KeepsPlaces o entered
      (fun j => ∃ k, f.locate? o j = some (i, k) ∧ removed k) f g :=
  Forest.keepsPlaces hwf hcov hclosed hfg.exchange hfg.placed hfg.live
    hfg.room

/-- A slot of `o` was edited, and nobody left who entered as well. -/
def SwapsSlot (o : NodeId) (f g : Forest) : Prop :=
  g.isAlive o = true ∧ ∃ i entered left new removed,
    Edited o i entered left new removed f g ∧ ∀ n ∈ left, n ∉ entered

/-- A slot of `o` was edited, and `o` lives on: `entered` were attached,
`left` detached, and elements left or were overwritten at the global child
indices `gone` at most. -/
structure EditsAt (o : NodeId) (entered left : List NodeId)
    (gone : Nat → Prop) (f g : Forest) : Prop where
  alive : g.isAlive o = true
  edited : ∃ i new removed, Edited o i entered left new removed f g
    ∧ ∀ j k, f.locate? o j = some (i, k) → removed k → gone j

/-- `EditsAt` in which none of those who left is among those who `entered`. -/
def SwapsAt (o : NodeId) (entered : List NodeId) (gone : Nat → Prop)
    (f g : Forest) : Prop :=
  ∃ left, EditsAt o entered left gone f g ∧ ∀ n ∈ left, n ∉ entered

/-- An `Edited` slot in global child indices: index `k` of slot `i` is `i + k`.
-/
theorem Edited.at (hfg : Edited o i entered left new removed f g)
    (ho : g.isAlive o = true) :
    EditsAt o entered left (fun j => ∃ k, j = i + k ∧ removed k) f g :=
  ⟨ho, i, new, removed, hfg,
    fun _ k hloc hk => ⟨k, (locate?_eq_some hloc).2.1, hk⟩⟩

theorem EditsAt.mono {gone more : Nat → Prop}
    (hfg : EditsAt o entered left gone f g)
    (hmore : ∀ j, gone j → more j) : EditsAt o entered left more f g := by
  obtain ⟨ho, i, new, removed, hedited, hgone⟩ := hfg
  exact ⟨ho, i, new, removed, hedited,
    fun j k hloc hk => hmore j (hgone j k hloc hk)⟩

theorem SwapsAt.slot {gone : Nat → Prop} (hfg : SwapsAt o entered gone f g) :
    SwapsSlot o f g := by
  obtain ⟨left, ⟨ho, i, new, removed, hedited, -⟩, hother⟩ := hfg
  exact ⟨ho, i, entered, left, new, removed, hedited, hother⟩

/-- An owner is not let go of with the nodes that left, if it is locked
itself or all of them are. -/
private theorem alive_of_reapAll {left : List NodeId}
    (hs : g.Sound checks locks) (hg : g = k.reapAll left)
    (hk : k.isAlive o = true) (ho : o ∈ locks ∨ ∀ n ∈ left, n ∈ locks) :
    g.isAlive o = true := by
  rcases ho with ho | hleft
  · exact hs.alive ho
  have hsheds : Sheds k g := hg ▸ sheds_reapAll k left
  rw [hg, reapAll_of_handles fun n hn => ?_]
  · exact hk
  · have hlocked := hleft n hn
    rw [← hsheds.node_eq (hs.alive hlocked)]
    exact Nat.lt_of_lt_of_le (List.count_pos_iff.mpr hlocked) (hs.kept n)

-- =========================================================== collections

namespace Collection

variable {c : Collection}

theorem room_of_fits (hwf : f.WellFormed) (hc : c.Fits f) (length : Nat) :
    f.Room c.owner c.slot length := by
  intro j _
  obtain ⟨s, hs, hcoll⟩ := hc
  exact .inr ⟨s, Fits.last ⟨s, hs, hcoll⟩ hwf, hs, hcoll⟩

theorem edited_apply {change : Change NodeId} {answer : ChangeAnswer}
    (hs : f.Sound checks locks) (hc : c.Fits f) (hcov : f.Covered)
    (ho : c.owner ∈ locks) (hns : ∀ n ∈ change.nodes, n ∈ locks)
    (hout : c.apply checks change f = .ok answer g) :
    Edited c.owner c.slot (change.entered (c.items f))
      (change.left (c.indexOf? f) (c.items f))
      (change.result (c.indexOf? f) (c.items f))
      (change.removes (c.indexOf? f) (c.items f)) f g := by
  have hcarried : Carried checks c.owner f (c.apply checks change f) :=
    carried_apply hs hc ho hns
  have hs' : g.Sound checks locks := hcarried.sound_of_ok hs hout
  obtain ⟨k, hx, hsheds⟩ := exchange_apply hs hc ho hns hout
  refine ⟨hx.calm hsheds.calm (hs'.alive ho),
    placed_apply hs hc hcov ho hns hout, Change.mem_left_of_removes,
    room_of_fits hs.toWellFormed hc _, fun n hn => ?_⟩
  exact hs'.alive (hns n (Change.mem_nodes_of_mem_entered hn))

/-- A pass, however it ended, has `Edited` its collection: nobody entered, and
the elements that left are those rejected. -/
theorem edited_sifts {calls : List Judgement} {pass : Pass}
    {stopped : Option Stop} {h : Forest}
    (hs : f.Sound checks locks) (hc : c.Fits f) (hcov : f.Covered)
    (ho : c.owner ∈ locks) (hidle : ∀ j ∈ calls, j.Idle checks locks)
    (hsifts : Sifts c (c.length f) ⟨0, 0, 0⟩ (f.beginTraversal c.owner)
      calls pass stopped h) :
    Edited c.owner c.slot [] (rejectedNodes calls)
      (keptNodes calls ++ (c.items f).drop calls.length)
      (fun k => ∃ j, calls[k]? = some j ∧ j.rejects = true) f
      (pass.finish checks c h).state := by
  obtain ⟨-, hnodes, -, hx, hplaced⟩ := hsifts.culled ho hs hc hcov hidle
  refine ⟨hx, hplaced, fun {k n} ⟨j, hj, hrejects⟩ hn => ?_,
    room_of_fits hs.toWellFormed hc _, fun n hn => by cases hn⟩
  have hnode : (calls.map Judgement.node)[k]? = some j.node := by
    rw [List.getElem?_map, hj]
    rfl
  rw [hnodes, List.getElem?_take] at hnode
  split at hnode
  · cases hn.symm.trans hnode
    exact List.mem_map.mpr
      ⟨j, List.mem_filter.mpr ⟨List.mem_of_getElem? hj, hrejects⟩, rfl⟩
  · cases hnode

/-- A filtering either answered an error and changed nothing, or has `Edited`
its collection as the pass did. -/
theorem edited_removeAll {calls : List Judgement} {out : Outcome Forest Nat}
    (hs : f.Sound checks locks) (hc : c.Fits f) (hcov : f.Covered)
    (ho : c.owner ∈ locks) (hidle : ∀ j ∈ calls, j.Idle checks locks)
    (hout : Filtered checks c f calls out) :
    (∃ e ev, out = .stop (.fault e) (f.emit ev))
      ∨ Edited c.owner c.slot [] (rejectedNodes calls)
        (keptNodes calls ++ (c.items f).drop calls.length)
        (fun k => ∃ j, calls[k]? = some j ∧ j.rejects = true) f
        out.state := by
  rcases hout.ends with hrefused | ⟨pass, stopped, g, hsifts, hstate⟩
  · exact .inl hrefused
  · rw [hstate]
    exact .inr (edited_sifts hs hc hcov ho hidle hsifts)

section

variable (hs : f.Sound checks locks) (hc : c.Fits f)
include hs hc

-- the owner need not be locked if what leaves is

theorem swaps_set {i : Nat} {n : NodeId} {u : Unit} (hn : n ∈ locks)
    (ho : c.owner ∈ locks ∨ ∀ m, (c.items f)[i]? = some m → m ∈ locks)
    (hout : c.set checks i n f = .ok u g) :
    SwapsAt c.owner ((Change.set i n).entered (c.items f))
      (fun j => j = c.slot + i ∧ (c.items f)[i]? ≠ some n) f g := by
  have hcarried : Carried checks c.owner f (c.set checks i n f) :=
    carried_set hs hc i (hs.alive hn)
  have hs' : g.Sound checks locks := hcarried.sound_of_ok hs hout
  obtain ⟨k, hx, hg⟩ := exchange_set hs hc (hs.alive hn) hout
  have hsheds : Sheds k g := hg ▸ sheds_reapAll k _
  have ho' := alive_of_reapAll hs' hg hx.account.owner
    (ho.imp_right fun hold m hm => by
      split at hm
      · cases hm
      · exact hold m (Option.mem_toList.mp hm))
  have hplaced : Placed c.owner c.slot
      ((Change.set i n).entered (c.items f)) (c.items f)
      ((c.items f).set i n)
      ((Change.set i n).removes (fun _ => none) (c.items f)) f g :=
    placed_set (hs.alive hn) hout
  have hedited : Edited c.owner c.slot
      ((Change.set i n).entered (c.items f)) _ _ _ f g :=
    ⟨hx.calm hsheds.calm ho', hplaced, Change.mem_left_of_removes,
      room_of_fits hs.toWellFormed hc _, fun m hm => ?_⟩
  refine ⟨_, (hedited.at ho').mono ?_, fun m hleft hentered => ?_⟩
  · rintro j ⟨k, rfl, rfl, hother⟩
    exact ⟨rfl, hother⟩
  · rw [Change.entered] at hentered
    split at hleft
    case isTrue => cases hleft
    case isFalse hother =>
      rw [if_neg hother] at hentered
      rw [List.mem_singleton.mp hentered] at hleft
      exact hother (Option.mem_toList.mp hleft)
  · have hmem : m ∈ (Change.set i n).nodes :=
      Change.mem_nodes_of_mem_entered hm
    rw [List.mem_singleton.mp hmem]
    exact hs'.alive hn

theorem edited_removeAt {i : Nat} {old : NodeId} (hcov : f.Covered)
    (ho : c.owner ∈ locks ∨ ∀ m, (c.items f)[i]? = some m → m ∈ locks)
    (hout : c.removeAt checks i f = .ok old g) :
    EditsAt c.owner [] [old] (fun j => j = c.slot + i) f g := by
  have hcarried : Carried checks c.owner f (c.removeAt checks i f) :=
    carried_removeAt hs hc i
  have hs' : g.Sound checks locks := hcarried.sound_of_ok hs hout
  obtain ⟨hold, k, hx, hg⟩ := exchange_removeAt hs hc hout
  have hsheds : Sheds k g := hg ▸ sheds_reapAll k _
  have ho' := alive_of_reapAll hs' hg hx.account.owner
    (ho.imp_right fun hlocked m hm => hlocked m
      (List.mem_singleton.mp hm ▸ hold))
  have hedited : Edited c.owner c.slot [] [old] _ (fun k => k = i) f g :=
    ⟨hx.calm hsheds.calm ho', placed_removeAt hs hc hcov hout,
      fun {j n} hj hn => ?_, room_of_fits hs.toWellFormed hc _,
      fun m hm => by cases hm⟩
  · refine (hedited.at ho').mono ?_
    rintro j ⟨k, rfl, rfl⟩
    rfl
  · cases hj
    cases hold.symm.trans hn
    exact .head _

end

end Collection

-- ================================================= operands and children

namespace Forest

theorem edited_setSlotChild {child : Option NodeId} {u : Unit}
    (hs : f.Sound checks locks) (halive : f.isAlive o = true)
    (hchild : ∀ c ∈ child, c ∈ locks)
    (ho : o ∈ locks ∨ ∀ m, (f.slot o i).head? = some m → m ∈ locks)
    (hout : setSlotChild checks o i child f = .ok u g) :
    g.isAlive o = true
      ∧ Edited o i (f.assignedTo o i child) (f.unassigned o i child)
        child.toList (fun _ => (f.slot o i).head? ≠ child) f g := by
  have hlive : ∀ c ∈ child, f.isAlive c = true :=
    fun c hc => hs.alive (hchild c hc)
  have hcarried : Carried checks o f (setSlotChild checks o i child f) :=
    carried_setSlotChild i halive hlive
  have hs' : g.Sound checks locks := hcarried.sound_of_ok hs hout
  obtain ⟨⟨s, hslot, hone⟩, -⟩ := setSlotChild_eq_ok hout
  obtain ⟨k, hx, hg⟩ :=
    exchange_setSlotChild hs.toWellFormed halive hlive hout
  have hsheds : Sheds k g := hg ▸ sheds_reapAll k _
  have ho' := alive_of_reapAll hs' hg hx.account.owner
    (ho.imp_right fun hold m hm => by
      rw [unassigned] at hm
      split at hm
      · cases hm
      · exact hold m (Option.mem_toList.mp hm))
  refine ⟨ho', hx.calm hsheds.calm ho',
    placed_setSlotChild hs.toWellFormed hlive hout,
    fun {j n} hother hn => ?_, fun j hj => .inl ?_, fun n hn => ?_⟩
  · rw [unassigned, if_neg hother,
      ← slot_eq_head hs.toWellFormed hslot hone]
    exact List.mem_of_getElem? hn
  · cases child with
    | none => cases hj
    | some c => exact Nat.lt_one_iff.mp hj
  · rw [assignedTo] at hn
    split at hn
    · cases hn
    · exact hs'.alive (hchild n (Option.mem_toList.mp hn))

/-- An assignment to an operand slot that succeeded exchanges its child
(`SwapsAt`). -/
theorem swaps_setSlotChild {child : Option NodeId} {u : Unit}
    (hs : f.Sound checks locks) (halive : f.isAlive o = true)
    (hchild : ∀ c ∈ child, c ∈ locks)
    (ho : o ∈ locks ∨ ∀ m, (f.slot o i).head? = some m → m ∈ locks)
    (hout : setSlotChild checks o i child f = .ok u g) :
    SwapsAt o (f.assignedTo o i child)
      (fun j => j = i ∧ (f.slot o i).head? ≠ child) f g := by
  obtain ⟨ho', hedited⟩ := edited_setSlotChild hs halive hchild ho hout
  obtain ⟨⟨s, hslot, hone⟩, -⟩ := setSlotChild_eq_ok hout
  refine ⟨f.unassigned o i child,
    ⟨ho', i, _, _, hedited, fun j k hloc hother => ?_⟩,
    fun m hleft hentered => ?_⟩
  · have hk := inner_eq_zero hloc hslot hone
    subst hk
    exact ⟨(locate?_eq_some hloc).2.1, hother⟩
  · rw [unassigned] at hleft
    rw [assignedTo] at hentered
    split at hleft
    case isTrue => cases hleft
    case isFalse hother =>
      rw [if_neg hother] at hentered
      have hnew := Option.mem_toList.mp hentered
      exact hother ((Option.mem_toList.mp hleft).trans hnew.symm)

/-- `setChild` that succeeded exchanges the child at global index `j`, in an
operand slot or in the collection. -/
theorem swaps_setChild {j : Nat} {m : NodeId} {u : Unit}
    (hs : f.Sound checks locks) (halive : f.isAlive o = true)
    (hm : m ∈ locks)
    (ho : o ∈ locks ∨ ∀ n, f.child? o j = some n → n ∈ locks)
    (hout : setChild checks o j m f = .ok u g) :
    SwapsAt o (if f.child? o j = some m then [] else [m])
      (fun k => k = j ∧ f.child? o j ≠ some m) f g := by
  unfold setChild at hout
  split at hout
  · cases hout
  next i inner hlocate =>
    have hloc : f.locate? o j = some (i, inner) := by
      split at hlocate
      · exact hlocate
      · cases hlocate
    have hchild : f.child? o j = (f.slot o i)[inner]? := by
      unfold child?
      rw [hloc]
      rfl
    have hj := (locate?_eq_some hloc).2.1
    rw [hchild] at ho ⊢
    split at hout
    next c hc =>
      obtain ⟨rfl, hfits⟩ := Collection.fits_at? hc
      rw [hj]
      exact Collection.swaps_set hs hfits hm ho hout
    next e _ =>
      obtain ⟨⟨s, hslot, hone⟩, -⟩ := setSlotChild_eq_ok hout
      have hinner := inner_eq_zero hloc hslot hone
      subst hinner
      rw [hj]
      rw [← List.head?_eq_getElem?] at ho ⊢
      exact swaps_setSlotChild hs halive (fun c hc => by cases hc; exact hm)
        ho hout

/-- `replaceWith` that succeeded exchanges `n` for `m` at the cached place of
`n` in its parent, which need not be locked. -/
theorem swaps_replaceWith {n m : NodeId} {u : Unit}
    (hs : f.Sound checks locks) (hn : n ∈ locks) (hm : m ∈ locks)
    (hout : replaceWith checks n m f = .ok u g) :
    ∃ o j, f.placeInParent? n = some (o, j)
      ∧ SwapsAt o (if n = m then [] else [m])
        (fun k => k = j ∧ n ≠ m) f g := by
  unfold replaceWith at hout
  split at hout
  · cases hout
  next p j hplace =>
    obtain ⟨hparent, hfind⟩ := placeInParent?_eq_some hplace
    have hchild := child?_of_findChild? hs.toWellFormed hfind
    refine ⟨p, j, hplace, ?_⟩
    have hswaps := swaps_setChild hs (parent?_eq_some_iff.mp hparent).2 hm
      (.inr fun k hk => by cases hk.symm.trans hchild; exact hn) hout
    simpa only [hchild, Option.some.injEq, ne_eq] using hswaps

theorem edited_removeFromParent {n : NodeId} {u : Unit}
    (hs : f.Sound checks locks) (hcov : f.Covered) (hn : n ∈ locks)
    (hout : removeFromParent checks n f = .ok u g) :
    ∃ o j left, f.placeInParent? n = some (o, j)
      ∧ EditsAt o [] left (fun k => k = j) f g := by
  unfold removeFromParent at hout
  split at hout
  · cases hout
  next p j hplace =>
    obtain ⟨hparent, hfind⟩ := placeInParent?_eq_some hplace
    have hchild := child?_of_findChild? hs.toWellFormed hfind
    split at hout
    · cases hout
    next i inner hlocate =>
      obtain ⟨i', inner', hlocate', hget⟩ := child?_eq_some.mp hchild
      cases hlocate.symm.trans hlocate'
      have hj := (locate?_eq_some hlocate).2.1
      split at hout
      next c hc =>
        obtain ⟨rfl, hfits⟩ := Collection.fits_at? hc
        obtain ⟨old, hremove, -⟩ := Outcome.map_eq_ok hout
        refine ⟨p, j, [old], hplace, ?_⟩
        rw [hj]
        exact Collection.edited_removeAt hs hfits hcov
          (.inr fun m hm => by cases hm.symm.trans hget; exact hn) hremove
      next =>
        obtain ⟨⟨s, hslot, hone⟩, -⟩ := setSlotChild_eq_ok hout
        have hinner := inner_eq_zero hlocate hslot hone
        subst hinner
        rw [← List.head?_eq_getElem?] at hget
        obtain ⟨left, hedits, -⟩ := swaps_setSlotChild hs
          (parent?_eq_some_iff.mp hparent).2 (fun c hc => by cases hc)
          (.inr fun m hm => by cases hm.symm.trans hget; exact hn) hout
        have hnone : f.assignedTo p i none = [] := by
          unfold assignedTo
          split <;> rfl
        rw [hnone] at hedits
        exact ⟨p, j, left, hplace,
          hedits.mono fun k hk => hk.1.trans hj.symm⟩

/-- A `Fill` is an edit of one slot in which nobody leaves. -/
theorem Fill.edited {n : NodeId} {ns : List NodeId}
    (hfg : Fill checks n f ns g) (hs : f.Sound checks locks)
    (hn : f.isAlive n = true) :
    ∃ i new removed, Edited n i ns [] new removed f g := by
  obtain ⟨hs', -, halive⟩ := hfg.keeps hs hn
  have hn' : g.isAlive n = true := (halive n).trans hn
  cases hfg with
  | operand i c hc hempty hout =>
      have hlive : ∀ m ∈ some c, f.isAlive m = true := by
        intro m hm
        cases hm
        exact hc
      have hother : (f.slot n i).head? ≠ some c := by
        rw [hempty]
        exact nofun
      have hentered : f.assignedTo n i (some c) = [c] := if_neg hother
      have hleft : f.unassigned n i (some c) = [] := by
        rw [unassigned, if_neg hother, hempty]
        rfl
      obtain ⟨k, hx, hg⟩ :=
        exchange_setSlotChild hs.toWellFormed hn hlive hout
      have hplaced := placed_setSlotChild hs.toWellFormed hlive hout
      have hsheds : Sheds k g := hg ▸ sheds_reapAll k _
      rw [hentered, hleft] at hx
      rw [hentered] at hplaced
      refine ⟨i, _, _, hx.calm hsheds.calm hn', hplaced,
        fun {j m} _ hm => ?_, fun j hj => .inl (Nat.lt_one_iff.mp hj),
        fun m hm => ?_⟩
      · rw [hempty] at hm
        cases hm
      · rw [List.mem_singleton.mp hm, halive]
        exact hc
  | range i _ hns hc hout =>
      exact ⟨i, _, _, Collection.exchange_addRange hs hc hns hout,
        Collection.placed_addRange hs.toWellFormed hc hns hout,
        fun h => h.elim, Collection.room_of_fits hs.toWellFormed hc _,
        fun m hm => (halive m).trans (hns m hm)⟩

end Forest

-- ============================================================ operations

namespace Operation

/-- Whether the operation may change slots. Creating a node without children
does not. -/
def edits : Operation → Bool
  | create .. | hold _ | drop _ | setOperand .. | flags _ | openCursor _
  | closeCursor _ => false
  | build _ _ ns => !ns.isEmpty
  | setSlotChild .. | setChild .. | replaceWith .. | removeFromParent _
  | change .. | removeAll .. | replaceCurrent .. | notify .. => true

/-- The node whose slot the operation edits. A node that is replaced or
removed is looked up in its parent; without one, nothing is edited. -/
def owner (f : Forest) : Operation → NodeId
  | create .. | build .. => ⟨f.size⟩
  | hold n | drop n | setOperand n _ | flags n | setSlotChild n ..
  | setChild n .. | notify n _ => n
  | replaceWith n _ | removeFromParent n => (f.parent? n).getD n
  | change c _ | removeAll c .. | openCursor c => c.owner
  | closeCursor cursor | replaceCurrent cursor _ => cursor.collection.owner

/-- Whether the operation exchanges single children, which no guard forbids. -/
def inPlace : Operation → Bool
  | setSlotChild .. | setChild .. | replaceWith .. | replaceCurrent .. => true
  | change _ (.set ..) => true
  | _ => false

/-- The nodes that the operation attaches to its owner if it succeeds from `f`.
-/
def entering (f : Forest) : Operation → List NodeId
  | build _ _ ns => ns
  | setSlotChild n i child => f.assignedTo n i child
  | setChild n i m => if f.child? n i = some m then [] else [m]
  | replaceWith n m => if n = m then [] else [m]
  | change c ch => ch.entered (c.items f)
  | replaceCurrent cursor n =>
      (cursor.index?.map fun i =>
        (Change.set i n).entered (cursor.collection.items f)).getD []
  | create .. | hold _ | drop _ | setOperand .. | flags _
  | removeFromParent _ | removeAll .. | openCursor _ | closeCursor _
  | notify .. => []

/-- The global child indices of its owner whose element the operation
removes or overwrites, if it is not refused. A judge decides which ones
are removed by a filtering, and some may be before it gives up. -/
def emptying (checks : Checks) (f : Forest) : Operation → Nat → Prop
  | setSlotChild n i child, j => j = i ∧ (f.slot n i).head? ≠ child
  | setChild n i m, j => j = i ∧ f.child? n i ≠ some m
  | replaceWith n m, j =>
      (f.placeInParent? n).map Prod.snd = some j ∧ n ≠ m
  | removeFromParent n, j => (f.placeInParent? n).map Prod.snd = some j
  | change c ch, j =>
      ∃ k, j = c.slot + k ∧ ch.removes (c.indexOf? f) (c.items f) k
  | removeAll c judge st, j =>
      ∃ k, j = c.slot + k
        ∧ ∃ call, (c.removalCalls checks judge (f, st))[k]? = some call
          ∧ call.rejects = true
  | replaceCurrent cursor n, j =>
      ∃ i, cursor.index? = some i ∧ j = cursor.collection.slot + i
        ∧ (cursor.collection.items f)[i]? ≠ some n
  | create .., _ | build .., _ | hold _, _ | drop _, _ | setOperand .., _
  | flags _, _ | openCursor _, _ | closeCursor _, _ | notify .., _ => False

/-- Whether the operation calls a judge: only `removeAll` does. -/
def filters : Operation → Bool
  | removeAll .. => true
  | _ => false

/-- An operation that does not filter has no calls, in any forest. -/
theorem calls_eq_nil {op : Operation} (hop : op.filters = false)
    (f : Forest) : op.calls checks f = [] := by
  cases op with
  | removeAll => cases hop
  | _ => rfl

end Operation

end InstructionTree
