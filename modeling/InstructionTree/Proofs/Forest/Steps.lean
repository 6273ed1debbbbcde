/-
Every edit that goes through a node is made of small steps of one owner.

`setSlotChild` is such an edit itself. `setChild`, `replaceWith` and
`removeFromParent` look a slot up and then run one edit of its owner.
`build` runs several edits of the node it creates; `fillSlots_ends` is
the induction over them, for any property that each of them keeps.
-/
import InstructionTree.Proofs.Collection.Steps

namespace InstructionTree.Forest

variable {checks : Checks} {locks : List NodeId} {f g : Forest}

-- ======================================================= operand slots

/-- A slot that passes `checkOperandSlot` takes one node. -/
theorem checkOperandSlot_ok {n : NodeId} {i : Nat} {u : Unit}
    (h : f.checkOperandSlot n i = .ok u) :
    ∃ s, (f.node n).opcode.slot? i = some s ∧ s.isCollection = false := by
  unfold checkOperandSlot at h
  dsimp only at h
  split at h
  · cases h
  next s hslot =>
    split at h
    · cases h
    next hone => exact ⟨s, hslot, by simpa using hone⟩

theorem isAlive_slotAssigned (n : NodeId) (i : Nat) (child : Option NodeId)
    (m : NodeId) : (f.slotAssigned n i child).isAlive m = f.isAlive m := by
  cases child with
  | none => exact isAlive_setSlot ..
  | some c =>
      exact (isAlive_setSlot ..).trans (isAlive_setPosition ..)

theorem touches_slotAssigned {n : NodeId} {i : Nat} {child : Option NodeId}
    (hchild : ∀ c ∈ child, f.isAlive c = true) :
    Touches checks n f (f.slotAssigned n i child) := by
  cases child with
  | none =>
      exact .single (.store i [] (fun c hc => by cases hc)
        fun s _ _ => Nat.zero_le _)
  | some c =>
      refine .tail (.single (.place c i)) (.store i [c] ?_ ?_)
      · intro m hm
        rw [List.mem_singleton.mp hm, isAlive_setPosition]
        exact hchild c rfl
      · exact fun s _ _ => Nat.le_refl _

theorem tried_attach? {n : NodeId} {child : Option NodeId}
    (hn : f.isAlive n = true) (hchild : ∀ c ∈ child, f.isAlive c = true) :
    Tried checks n f (attach? checks n child f) := by
  cases child with
  | none => exact .ok _ .refl
  | some c => exact tried_attach hn (hchild c rfl)

theorem carried_setSlotChild {n : NodeId} (i : Nat) {child : Option NodeId}
    (hn : f.isAlive n = true) (hchild : ∀ c ∈ child, f.isAlive c = true) :
    Carried checks n f (setSlotChild checks n i child f) := by
  unfold setSlotChild
  split
  · exact .refused _
  · dsimp only
    split
    · exact .idle _
    · have hattach : Tried checks n (f.slotAssigned n i child)
          (attach? checks n child (f.slotAssigned n i child)) :=
        tried_attach? ((isAlive_slotAssigned ..).trans hn)
          fun c hc => (isAlive_slotAssigned n i child c).trans (hchild c hc)
      have htried := hattach.after (touches_slotAssigned hchild)
      generalize (f.slot n i).head? = old
      cases hout : attach? checks n child (f.slotAssigned n i child) with
      | ok a g =>
          rw [hout] at htried
          cases htried with
          | ok _ hfg =>
              refine .done _ (hfg.trans ?_) (sheds_reapAll _ _)
              cases old with
              | none => exact .refl
              | some old => exact .single (.leave old)
      | stop why g =>
          rw [hout] at htried
          cases htried with
          | stop op hfg =>
              exact .broken op (hfg.trans (sheds_reapAll _ _).touches)

/-- `setSlotChild` at an empty slot has stored, entered and committed, and
freed nobody. -/
theorem setSlotChild_empty {n : NodeId} {i : Nat} {c : NodeId} {u : Unit}
    (hempty : f.slot n i = [])
    (hout : setSlotChild checks n i (some c) f = .ok u g) :
    g = (((f.setPosition c i).setSlot n i [c]).enter n c).commit n := by
  unfold setSlotChild at hout
  split at hout
  · cases hout
  · rw [hempty] at hout
    simp only [List.head?_nil, reduceCtorEq, if_false, attach?,
      slotAssigned] at hout
    obtain ⟨h, hnext, rfl⟩ := Outcome.always_eq_ok hout
    obtain ⟨k, hattach, rfl⟩ := Outcome.next_eq_ok hnext
    rw [(attach_eq_ok hattach).2]
    rfl

-- ======================================================= global indices

theorem placeInParent?_eq_some {n p : NodeId} {i : Nat}
    (h : f.placeInParent? n = some (p, i)) :
    f.parent? n = some p ∧ f.findChild? p n = some i := by
  unfold placeInParent? at h
  obtain ⟨q, hq, h⟩ := Option.bind_eq_some_iff.mp h
  obtain ⟨j, hj, h⟩ := Option.bind_eq_some_iff.mp h
  cases h
  exact ⟨hq, hj⟩

section

variable (hs : f.Sound checks locks)
include hs

theorem carried_setChild {n : NodeId} (i : Nat) {child : NodeId}
    (hn : f.isAlive n = true) (hchild : f.isAlive child = true) :
    Carried checks n f (setChild checks n i child f) := by
  unfold setChild
  split
  · exact .refused _
  next slot inner _ =>
    split
    next c hc =>
      obtain ⟨rfl, hfits⟩ := Collection.fits_at? hc
      exact Collection.carried_set hs hfits inner hchild
    · exact carried_setSlotChild slot hn fun c hc => by
        cases hc
        exact hchild

/-- `replaceWith` is `Carried` out at the parent. -/
theorem carried_replaceWith {n replacement : NodeId}
    (hr : f.isAlive replacement = true) :
    ∃ p, Carried checks p f (replaceWith checks n replacement f) := by
  unfold replaceWith
  split
  · exact ⟨n, .refused _⟩
  next p i hplace =>
    have hp := (placeInParent?_eq_some hplace).1
    exact ⟨p, carried_setChild hs i (parent?_eq_some_iff.mp hp).2 hr⟩

theorem carried_removeFromParent {n : NodeId} :
    ∃ p, Carried checks p f (removeFromParent checks n f) := by
  unfold removeFromParent
  split
  · exact ⟨n, .refused _⟩
  next p i hplace =>
    have hp := (placeInParent?_eq_some hplace).1
    refine ⟨p, ?_⟩
    split
    · exact .refused _
    next slot inner _ =>
      split
      next c hc =>
        obtain ⟨rfl, hfits⟩ := Collection.fits_at? hc
        exact (Collection.carried_removeAt hs hfits inner).map _
      · exact carried_setSlotChild slot (parent?_eq_some_iff.mp hp).2
          fun c hc => by cases hc

end

-- ============================================================== building

/-- One edit that fills a slot of the node `n` with the nodes listed: an
empty operand slot takes a child, or the collection takes all that are
left. -/
inductive Fill (checks : Checks) (n : NodeId) (f : Forest) :
    List NodeId → Forest → Prop where
  | operand (i : Nat) (c : NodeId) {g : Forest} (hc : f.isAlive c = true)
      (hempty : f.slot n i = [])
      (hout : setSlotChild checks n i (some c) f = .ok () g) :
      Fill checks n f [c] g
  | range (i : Nat) (ns : List NodeId) {g : Forest}
      (hns : ∀ c ∈ ns, f.isAlive c = true)
      (hc : Collection.Fits ⟨n, i⟩ f)
      (hout : Collection.addRange checks ⟨n, i⟩ ns f = .ok () g) :
      Fill checks n f ns g

/-- Several fills, and all the nodes that they placed, in order. -/
inductive Filled (checks : Checks) (n : NodeId) :
    Forest → List NodeId → Forest → Prop where
  | none {f : Forest} : Filled checks n f [] f
  | more {f g h : Forest} {ns rest : List NodeId}
      (hfg : Fill checks n f ns g) (hgh : Filled checks n g rest h) :
      Filled checks n f (ns ++ rest) h

/-- How filling `slots` with `children` ends: with the children that found
no slot, though every slot has its child; or on the check of an attach. -/
inductive Fills (checks : Checks) (n : NodeId) (f : Forest)
    (slots : List Slot) (children : List NodeId) :
    Outcome Forest (List NodeId) → Prop where
  | ok (placed rest : List NodeId) {g : Forest}
      (hfg : Filled checks n f placed g) (hall : children = placed ++ rest)
      (hfull : rest ≠ [] → placed.length = slots.length) :
      Fills checks n f slots children (.ok rest g)
  | stop (placed rest : List NodeId) (why : Stop) {g h : Forest}
      (hfg : Filled checks n f placed g) (hall : children = placed ++ rest)
      (hfew : placed.length ≤ slots.length)
      (hgh : Carried checks n g (.stop why h : Outcome Forest Unit)) :
      Fills checks n f slots children (.stop why h)

/-- A `Fill` keeps the forest sound, and frees nobody. -/
theorem Fill.keeps {n : NodeId} {ns : List NodeId}
    (hfg : Fill checks n f ns g) (hs : f.Sound checks locks)
    (hn : f.isAlive n = true) :
    g.Sound checks locks ∧ Ages f g ∧ ∀ m, g.isAlive m = f.isAlive m := by
  cases hfg with
  | operand i c hc hempty hout =>
      have hcarried : Carried checks n f
          (setSlotChild checks n i (some c) f) :=
        carried_setSlotChild i hn fun m hm => by cases hm; exact hc
      rw [hout] at hcarried
      refine ⟨hcarried.sound hs, hcarried.ages, fun m => ?_⟩
      rw [setSlotChild_empty hempty hout]
      simp
  | range i ns hns hc hout =>
      have hcarried : Carried checks n f
          (Collection.addRange checks ⟨n, i⟩ ns f) :=
        Collection.carried_addRange hs hc hns
      rw [hout] at hcarried
      obtain ⟨-, hbody⟩ := guarded_eq_ok hout
      obtain ⟨h, happend, rfl⟩ := Outcome.next_eq_ok hbody
      refine ⟨hcarried.sound hs, hcarried.ages, fun m => ?_⟩
      rw [isAlive_commit, Collection.isAlive_append happend]

/-- `Filled` keeps the forest sound, and frees nobody. -/
theorem Filled.keeps {n : NodeId} {placed : List NodeId}
    (hfg : Filled checks n f placed g) (hs : f.Sound checks locks)
    (hn : f.isAlive n = true) :
    g.Sound checks locks ∧ Ages f g ∧ ∀ m, g.isAlive m = f.isAlive m := by
  induction hfg with
  | none => exact ⟨hs, .refl _, fun _ => rfl⟩
  | more hstep _ ih =>
      obtain ⟨hs', hages, halive⟩ := hstep.keeps hs hn
      obtain ⟨hs'', hages', halive'⟩ := ih hs' ((halive n).trans hn)
      exact ⟨hs'', hages.trans hages', fun m => (halive' m).trans (halive m)⟩

/-- `Fills` of an operand slot and then of the others is `Fills` of all of
them. -/
theorem Fills.cons {n c : NodeId} {s : Slot} {slots : List Slot}
    {children : List NodeId} {out : Outcome Forest (List NodeId)}
    (hfill : Fill checks n f [c] g)
    (hends : Fills checks n g slots children out) :
    Fills checks n f (s :: slots) (c :: children) out := by
  cases hends with
  | ok placed rest hgh hall hfull =>
      refine .ok ([c] ++ placed) rest (.more hfill hgh) ?_ fun hne => ?_
      · rw [hall]
        rfl
      · exact congrArg (· + 1) (hfull hne)
  | stop placed rest why hgh hall hfew hhk =>
      refine .stop ([c] ++ placed) rest why (.more hfill hgh) ?_
        (Nat.succ_le_succ hfew) hhk
      rw [hall]
      rfl

/-- `setSlotChild` at an empty slot changes no other slot of the node. -/
theorem slot_setSlotChild_empty_ne {n c : NodeId} {i j : Nat} {u : Unit}
    (hempty : f.slot n i = [])
    (hout : setSlotChild checks n i (some c) f = .ok u g) (hne : j ≠ i) :
    g.slot n j = f.slot n j := by
  have hslots : (g.node n).slots
      = (((f.setPosition c i).setSlot n i [c]).node n).slots := by
    rw [setSlotChild_empty hempty hout, slots_commit, slots_enter]
  rw [slot_congr hslots, slot_setSlot_ne _ _ _ hne]
  exact slot_congr (slots_setPosition ..) j

/-- Filling is fills, if the slots that are left to fill are those from
slot `i` on, and are empty. -/
theorem fillSlots_ends {n : NodeId} :
    ∀ {slots : List Slot} {i : Nat} {children : List NodeId} {f : Forest},
      f.Sound checks locks → f.isAlive n = true →
      (f.node n).opcode.layout.drop i = slots →
      (∀ j, i ≤ j → f.slot n j = []) →
      (∀ c ∈ children, f.isAlive c = true) →
      Fills checks n f slots children
        (fillSlots checks n i slots children f) := by
  intro slots
  induction slots with
  | nil =>
      exact fun _ _ _ _ _ => .ok [] _ .none rfl fun _ => rfl
  | cons s slots ih =>
      intro i children f hs hn hlayout hempty hlive
      have hslot : (f.node n).opcode.slot? i = some s := by
        rw [Opcode.slot?, ← List.head?_drop, hlayout]
        rfl
      have hrest : (f.node n).opcode.layout.drop (i + 1) = slots := by
        rw [← List.drop_drop, hlayout]
        rfl
      unfold fillSlots
      split
      case isTrue hmany =>
        have hfits : Collection.Fits ⟨n, i⟩ f := ⟨s, hslot, hmany⟩
        have hcarried : Carried checks n f
            (Collection.addRange checks ⟨n, i⟩ children f) :=
          Collection.carried_addRange hs hfits hlive
        -- a collection is the last slot
        have hlast := Opcode.succ_eq_length_of_isCollection hslot hmany
        rw [List.drop_of_length_le (Nat.le_of_eq hlast.symm)] at hrest
        subst hrest
        split
        next g hout =>
          have hfilled : Filled checks n f (children ++ []) g :=
            .more (.range i children hlive hfits hout) .none
          rw [List.append_nil] at hfilled
          exact .ok children [] hfilled (List.append_nil _).symm
            fun h => absurd rfl h
        next why g hout =>
          rw [hout] at hcarried
          exact .stop [] children why .none rfl (Nat.zero_le _) hcarried
      case isFalse hone =>
        cases children with
        | nil => exact .ok [] [] .none rfl fun h => absurd rfl h
        | cons c children =>
            have hc : f.isAlive c = true := hlive c (.head _)
            have hcarried : Carried checks n f
                (setSlotChild checks n i (some c) f) :=
              carried_setSlotChild i hn fun m hm => by cases hm; exact hc
            dsimp only
            split
            next g hout =>
              have hfill : Fill checks n f [c] g :=
                .operand i c hc (hempty i (Nat.le_refl i)) hout
              obtain ⟨hs', hages, halive⟩ := hfill.keeps hs hn
              have hn' : g.isAlive n = true := (halive n).trans hn
              refine .cons hfill (ih hs' hn' ?_ (fun j hj => ?_)
                fun m hm => (halive m).trans (hlive m (.tail _ hm)))
              · rw [hages.opcode (f.index_lt_of_alive hn) hn']
                exact hrest
              · rw [slot_setSlotChild_empty_ne (hempty i (Nat.le_refl i))
                  hout (by omega)]
                exact hempty j (by omega)
            next why g hout =>
              rw [hout] at hcarried
              exact .stop [] _ why .none rfl (Nat.zero_le _) hcarried

/-- How building ends: with all children in slots of the new node; or
with slots for only the first of them, and the node freed again; or on the
check of an attach. `f` has the new node already. -/
inductive Builds (checks : Checks) (n : NodeId) (f : Forest)
    (slots : List Slot) (children : List NodeId) :
    Outcome Forest NodeId → Prop where
  | ok {g : Forest} (hfg : Filled checks n f children g) :
      Builds checks n f slots children (.ok n g)
  | refused (e : Fault) {g : Forest}
      (hfg : Filled checks n f (children.take slots.length) g) :
      Builds checks n f slots children (.stop (.fault e) (g.reap n))
  | stop (placed rest : List NodeId) (why : Stop) {g h : Forest}
      (hfg : Filled checks n f placed g) (hall : children = placed ++ rest)
      (hfew : placed.length ≤ slots.length)
      (hgh : Carried checks n g (.stop why h : Outcome Forest Unit)) :
      Builds checks n f slots children (.stop why (h.reap n))

theorem builds_build {op : Opcode} {x : Operand} {children : List NodeId}
    (hs : f.Sound checks locks)
    (hlive : ∀ c ∈ children, f.isAlive c = true) :
    Builds checks (f.alloc (Node.fresh op x)).1
      (f.alloc (Node.fresh op x)).2 op.layout children
      (build checks op x children f) := by
  have hs' := hs.alloc op x
  have hborn : (f.alloc (Node.fresh op x)).2.node
      (f.alloc (Node.fresh op x)).1 = Node.fresh op x := by
    rw [node_alloc, if_pos rfl]
  have hends : Fills checks (f.alloc (Node.fresh op x)).1
      (f.alloc (Node.fresh op x)).2 op.layout children
      (fillSlots checks (f.alloc (Node.fresh op x)).1 0 op.layout children
        (f.alloc (Node.fresh op x)).2) := by
    refine fillSlots_ends hs' (isAlive_alloc_self ..)
      (by rw [hborn]; rfl) (fun j _ => ?_) fun c hc => ?_
    · unfold slot Node.slot
      rw [hborn, Node.fresh, List.getElem?_map]
      cases op.layout[j]? <;> rfl
    · rw [isAlive_alloc]
      split
      · rfl
      · exact hlive c hc
  unfold build
  dsimp only
  generalize fillSlots checks (f.alloc (Node.fresh op x)).1 0 op.layout
    children (f.alloc (Node.fresh op x)).2 = out at hends ⊢
  cases hends with
  | ok placed rest hfg hall hfull =>
      cases rest with
      | nil =>
          rw [List.append_nil] at hall
          rw [hall]
          exact .ok hfg
      | cons c rest =>
          refine .refused _ ?_
          rw [hall, ← hfull (List.cons_ne_nil c rest), List.take_left]
          exact hfg
  | stop placed rest why hfg hall hfew hgh =>
      exact .stop placed rest why hfg hall hfew hgh

theorem Builds.keeps {n : NodeId} {slots : List Slot}
    {children : List NodeId} {out : Outcome Forest NodeId}
    (hout : Builds checks n f slots children out)
    (hs : f.Sound checks locks) (hn : f.isAlive n = true) :
    out.state.Sound checks locks ∧ Ages f out.state := by
  cases hout with
  | ok hfg =>
      obtain ⟨hs', hages, -⟩ := hfg.keeps hs hn
      exact ⟨hs', hages⟩
  | refused e hfg =>
      obtain ⟨hs', hages, -⟩ := hfg.keeps hs hn
      exact ⟨hs'.sheds (sheds_reap _ n), hages.trans (sheds_reap _ n).ages⟩
  | stop placed rest why hfg hall hfew hgh =>
      obtain ⟨hs', hages, -⟩ := hfg.keeps hs hn
      exact ⟨(hgh.sound hs').sheds (sheds_reap _ n),
        (hages.trans hgh.ages).trans (sheds_reap _ n).ages⟩

end InstructionTree.Forest
