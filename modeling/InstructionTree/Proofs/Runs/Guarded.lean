/-
Operations beside an open traversal.

An operation that makes no calls and counts no traversal (`single`) is
work on one node, and nothing else changes. If that node is being
traversed, its collection changes at most where the operation says that
it replaces an element (`replacement?`), and an operation that would do
more is refused (`Restructures`).
-/
import InstructionTree.Proofs.Collection.Guarded
import InstructionTree.Proofs.Runs.Edits

namespace InstructionTree

open Forest

variable {checks : Checks} {locks : List NodeId} {c : Collection}
  {f g : Forest} {op : Operation}

namespace Forest

-- ======================================================= borrowed references

/-- Two forests are equal if their reports, overdrafts, sizes and records are.
-/
theorem eq_of_get? (hevents : f.events = g.events)
    (hoverdrafts : f.overdrafts = g.overdrafts) (hsize : f.size = g.size)
    (hget : ∀ n, f.get? n = g.get? n) : f = g := by
  obtain ⟨cells, events, overdrafts⟩ := f
  obtain ⟨cells', events', overdrafts'⟩ := g
  have hcells : cells = cells' := by
    refine Array.ext hsize fun i hi hi' => ?_
    have hcell := hget ⟨i⟩
    unfold get? at hcell
    dsimp only at hcell
    rwa [Array.getElem?_eq_getElem hi, Array.getElem?_eq_getElem hi',
      Option.join_some, Option.join_some] at hcell
  dsimp only at hevents hoverdrafts
  rw [hcells, hevents, hoverdrafts]

/-- Releasing a node that has another handle only lowers its `handles`. -/
theorem release_of_kept {n : NodeId} (hn : 1 < (f.node n).handles) :
    f.release n
      = f.update n fun x => { x with handles := x.handles - 1 } := by
  have halive : f.isAlive n = true := alive_of_handles (by omega)
  unfold release
  rw [← reapAll_singleton]
  apply reapAll_of_handles
  intro m hm
  rw [List.mem_singleton.mp hm, node_update_self f halive]
  exact Nat.sub_pos_of_lt hn

theorem get?_holdAll (ns : List NodeId) (n : NodeId) :
    (f.holdAll ns).get? n = (f.get? n).map
      fun x => { x with handles := x.handles + ns.count n } := by
  induction ns generalizing f with
  | nil => exact Option.map_id'.symm
  | cons m rest ih =>
      refine (ih (f := f.hold m)).trans ?_
      rw [hold, get?_update]
      by_cases hn : n = m
      · rw [if_pos hn, hn, List.count_cons_self, Option.map_map]
        congr 1
        funext x
        show { x with handles := x.handles + 1 + rest.count m } = _
        rw [Nat.add_assoc, Nat.add_comm 1]
      · rw [if_neg hn, List.count_cons_of_ne (Ne.symm hn)]

/-- `releaseAll` of nodes that all have more handles than are given back frees
nobody, and only lowers `handles`. -/
theorem releaseAll_of_kept {ns : List NodeId}
    (hns : ∀ n ∈ ns, ns.count n < (f.node n).handles) :
    (f.releaseAll ns).events = f.events
      ∧ (f.releaseAll ns).size = f.size
      ∧ ∀ n, (f.releaseAll ns).get? n = (f.get? n).map
        fun x => { x with handles := x.handles - ns.count n } := by
  induction ns generalizing f with
  | nil => exact ⟨rfl, rfl, fun n => Option.map_id'.symm⟩
  | cons m rest ih =>
      have hm := hns m (.head _)
      rw [List.count_cons_self] at hm
      have hfirst := release_of_kept (f := f) (n := m) (by omega)
      have hkept : ∀ n ∈ rest,
          rest.count n < ((f.release m).node n).handles := by
        intro n hn
        have hcount := hns n (.tail _ hn)
        rw [hfirst]
        by_cases hnm : n = m
        · subst hnm
          rw [node_update_self f (alive_of_handles (by omega))]
          exact Nat.lt_sub_of_add_lt hm
        · rw [node_update_ne f hnm]
          rwa [List.count_cons_of_ne (Ne.symm hnm)] at hcount
      obtain ⟨hevents, hsize, hget⟩ := ih hkept
      refine ⟨hevents.trans ?_, hsize.trans ?_, fun n => (hget n).trans ?_⟩
      · rw [hfirst, events_update]
      · rw [hfirst, size_update]
      · rw [hfirst, get?_update]
        by_cases hn : n = m
        · rw [if_pos hn, hn, List.count_cons_self, Option.map_map]
          congr 1
          funext x
          show { x with handles := x.handles - 1 - rest.count m } = _
          rw [Nat.sub_sub, Nat.add_comm 1]
        · rw [if_neg hn, List.count_cons_of_ne (Ne.symm hn)]

theorem events_holdAll (ns : List NodeId) :
    (f.holdAll ns).events = f.events := by
  induction ns generalizing f with
  | nil => rfl
  | cons n rest ih => exact ih.trans (events_update _ ..)

/-- Taking references and giving them back is nothing, to somebody who is
kept anyway, whatever is reported in between. -/
theorem releaseAll_holdAll {ns : List NodeId} (hns : f.Referenced ns)
    (hcells : g.cells = (f.holdAll ns).cells) :
    g.releaseAll ns = { g with cells := f.cells } := by
  have hheld : ∀ n, g.get? n = (f.get? n).map
      fun x => { x with handles := x.handles + ns.count n } := by
    intro n
    rw [← get?_holdAll]
    unfold get?
    rw [hcells]
  have hkept : ∀ n ∈ ns, ns.count n < (g.node n).handles := by
    intro n hn
    have halive := get?_of_alive f (alive_of_handles (hns n hn))
    show ns.count n < ((g.get? n).getD default).handles
    rw [hheld, halive]
    exact Nat.lt_add_of_pos_left (hns n hn)
  obtain ⟨hgave, hsize, hget⟩ := releaseAll_of_kept hkept
  refine eq_of_get? hgave (calm_releaseAll ns).overdrafts ?_ fun n => ?_
  · rw [hsize]
    exact (congrArg Array.size hcells).trans (alike_holdAll ns).size
  · rw [hget n, hheld, Option.map_map]
    refine (congrArg (Option.map · (f.get? n)) (funext fun x => ?_)).trans
      Option.map_id'
    show { x with handles := x.handles + ns.count n - ns.count n } = x
    rw [Nat.add_sub_cancel]

theorem releaseAll_emit {ns : List NodeId} (e : Event)
    (hns : f.Referenced ns) :
    ((f.holdAll ns).emit e).releaseAll ns = f.emit e := by
  have hback : ((f.holdAll ns).emit e).releaseAll ns = _ :=
    releaseAll_holdAll hns rfl
  rw [hback]
  show Forest.mk f.cells ((f.holdAll ns).events.push e)
    (f.holdAll ns).overdrafts = f.emit e
  rw [events_holdAll, (alike_holdAll ns).overdrafts]
  rfl

theorem works_holdAll (ns : List NodeId) (p : NodeId) :
    Works p f (f.holdAll ns) := by
  induction ns generalizing f with
  | nil => exact .refl p f
  | cons n rest ih => exact (works_hold n p).trans ih

theorem works_releaseAll (ns : List NodeId) (p : NodeId) :
    Works p f (f.releaseAll ns) := by
  induction ns generalizing f with
  | nil => exact .refl p f
  | cons n rest ih => exact (works_release n p).trans ih

theorem works_flags (n p : NodeId) :
    Works p f (((f.flags? n).map Prod.snd).getD f) := by
  unfold flags?
  split
  · refine remembers_flagsWithin (.refl p) .trans (fun f n flags => ?_) _ n f
    refine works_update n ?_ ?_ ?_ p
    all_goals exact fun _ => rfl
  · exact .refl p f

-- ======================================================== looking things up

section

variable (hfg : Alike f g)
include hfg

theorem Alike.locate? (n : NodeId) (j : Nat) :
    g.locate? n j = f.locate? n j := by
  unfold Forest.locate?
  simp only [hfg.slots, hfg.opcode]

theorem Alike.placeInParent? (n : NodeId) :
    g.placeInParent? n = f.placeInParent? n := by
  unfold Forest.placeInParent? findChild? cachedChild? child? Forest.slot
    Node.slot
  simp only [hfg.parent?, hfg.link, hfg.position, hfg.slots, hfg.locate?]

theorem Alike.replacement? (n : NodeId) (j : Nat) (m : NodeId) :
    g.replacement? n j m = f.replacement? n j m := by
  unfold Forest.replacement? childCount
  simp only [hfg.slots, hfg.opcode, hfg.locate?]

end

theorem depth_holdAll (ns : List NodeId) (o : NodeId) :
    ((f.holdAll ns).node o).depth = (f.node o).depth := by
  unfold node
  rw [get?_holdAll]
  cases f.get? o <;> rfl

/-- `holdAll` changes no guard. -/
theorem isGuarded_holdAll (ns : List NodeId) (o : NodeId) :
    (f.holdAll ns).isGuarded checks o = f.isGuarded checks o := by
  unfold isGuarded
  rw [depth_holdAll]

end Forest

/-- `replaceCurrent` does to the elements of every collection `c` what
`Replacement.stored` says. -/
theorem items_replaceCurrent {cursor : Cursor} {n : NodeId}
    (hs : f.Sound checks locks) (hc : c.Fits f)
    (hd : cursor.collection.Fits f) (hn : f.isAlive n = true)
    (halive : (cursor.replaceCurrent checks n f).state.isAlive c.owner
      = true) :
    c.items (cursor.replaceCurrent checks n f).state
      = Replacement.stored c (c.items f)
        (cursor.index?.map fun i => ⟨cursor.collection, i, n⟩) := by
  by_cases howner : cursor.collection.owner = c.owner
  · obtain rfl := hc.unique hd hs.toWellFormed howner
    unfold Cursor.replaceCurrent at halive ⊢
    cases hindex : cursor.index? with
    | none => rfl
    | some i =>
        rw [hindex] at halive
        exact (Collection.items_set hd hs.toWellFormed i n halive).trans
          (if_pos rfl).symm
  · have hcarried : Carried checks cursor.collection.owner f
        (cursor.replaceCurrent checks n f) :=
      carried_replaceCurrent hs hd hn
    rw [Collection.items_works hcarried.works halive (Ne.symm howner),
      Replacement.stored_ne]
    intro x hx hcollection
    obtain ⟨i, -, rfl⟩ := Option.map_eq_some_iff.mp hx
    exact howner (congrArg Collection.owner hcollection)

namespace Operation

/-- Whether the operation makes no calls, and neither begins nor ends a
traversal nor gives notice. -/
def single : Operation → Bool
  | removeAll .. | openCursor _ | closeCursor _ | notify .. => false
  | _ => true

theorem unfiltered_of_single (hop : op.single = true) :
    op.filters = false := by
  cases op with
  | removeAll => cases hop
  | _ => rfl

/-- The element that the operation replaces in `f`, if it replaces one. -/
def replacement? (f : Forest) : Operation → Option Replacement
  | change c (.set i n) => some ⟨c, i, n⟩
  | setChild n j m => f.replacement? n j m
  | replaceWith n m =>
      (f.placeInParent? n).bind fun place => f.replacement? place.1 place.2 m
  | replaceCurrent cursor n =>
      cursor.index?.map fun i => ⟨cursor.collection, i, n⟩
  | _ => none

/-- Between `Alike` forests `op.replacement?` is the same. -/
theorem replacement?_alike (op : Operation) (hfg : Alike f g) :
    op.replacement? g = op.replacement? f := by
  cases op with
  | setChild | replaceWith =>
      simp only [replacement?, hfg.placeInParent?, hfg.replacement?]
  | change _ ch => cases ch <;> rfl
  | _ => rfl

/-- The `body` of a `single` operation `Works` on one node. -/
theorem works_body (hop : op.single = true) (hready : op.Ready locks f)
    (hs : f.Sound checks (op.keeps ++ locks)) :
    ∃ p, Works p f (op.body checks f).state := by
  cases op with
  | create a x => exact ⟨⟨f.size⟩, works_alloc f a x⟩
  | build a x ns =>
      rw [body, Outcome.state_map]
      exact ⟨⟨f.size⟩, works_build hs hready⟩
  | hold n => exact ⟨n, works_hold n n⟩
  | drop n => exact ⟨n, works_release n n⟩
  | setOperand n x =>
      refine ⟨n, works_update n ?_ ?_ ?_ n⟩
      all_goals exact fun _ => rfl
  | flags n => exact ⟨n, works_flags n n⟩
  | setSlotChild | setChild | replaceWith | removeFromParent | change
  | replaceCurrent =>
      obtain ⟨p, hout⟩ := carried_body hready hs rfl
      exact ⟨p, hout.works⟩
  | removeAll | openCursor | closeCursor | notify => cases hop

section

variable (hop : op.single = true) (hready : op.Ready locks f)
  (hs : f.Sound checks (op.keeps ++ locks)) (hc : c.Fits f)
  (hguard : f.isGuarded checks c.owner = true)
  (halive : (op.body checks f).state.isAlive c.owner = true)
include hop hready hs hc hguard halive

/-- To a collection that is being traversed the `body` of a `single` operation
does what `replacement?` says. -/
theorem items_body :
    c.items (op.body checks f).state
      = Replacement.stored c (c.items f) (op.replacement? f) := by
  have hunborn : c.owner ≠ ⟨f.size⟩ := by
    intro h
    have hold := f.index_lt_of_alive hc.alive
    rw [h] at hold
    exact Nat.lt_irrefl _ hold
  cases op with
  | create a x => exact (works_alloc f a x).slot_eq halive hunborn _
  | build a x ns =>
      rw [body, Outcome.state_map] at halive ⊢
      exact (works_build hs hready).slot_eq halive hunborn _
  | hold n => exact (works_hold n ⟨f.size⟩).slot_eq halive hunborn _
  | drop n => exact (works_release n ⟨f.size⟩).slot_eq halive hunborn _
  | setOperand n x =>
      have hworks : Works ⟨f.size⟩ f (f.setOperand n x) := by
        refine works_update n ?_ ?_ ?_ _
        all_goals exact fun _ => rfl
      exact hworks.slot_eq halive hunborn _
  | flags n => exact (works_flags n ⟨f.size⟩).slot_eq halive hunborn _
  | setSlotChild n i child =>
      by_cases hn : c.owner = n
      · subst hn
        exact items_setSlotChild hc halive
      · have hcarried : Carried checks n f
            (Forest.setSlotChild checks n i child f) :=
          carried_setSlotChild i hready.1 hready.2
        exact hcarried.works.slot_eq halive hn _
  | setChild n j m => exact items_setChild hs hc hready.1 hready.2 halive
  | replaceWith n m => exact items_replaceWith hs hc hready.2 halive
  | removeFromParent n =>
      exact items_removeFromParent hs hc hguard halive
  | change d ch =>
      obtain ⟨hd, hns⟩ := hready
      rw [body, Outcome.state_map] at halive ⊢
      by_cases howner : d.owner = c.owner
      · obtain rfl := hc.unique hd hs.toWellFormed howner
        cases hchange : ch.exchanges with
        | true =>
            cases ch with
            | set i n =>
                rw [Collection.apply, Outcome.state_map] at halive ⊢
                rw [Collection.items_set hd hs.toWellFormed i n halive]
                exact (if_pos rfl).symm
            | _ => cases hchange
        | false =>
            rw [Collection.apply_guarded hguard hchange]
            cases ch with
            | set => cases hchange
            | _ => rfl
      · have hcarried : Carried checks d.owner f (d.apply checks ch f) :=
          Collection.carried_apply hs hd (.head _) fun n hn =>
            List.mem_append_left _ (.tail _ hn)
        rw [Collection.items_works hcarried.works halive (Ne.symm howner),
          Replacement.stored_ne]
        intro x hx hcollection
        cases ch with
        | set i n =>
            cases hx
            exact howner (congrArg Collection.owner hcollection)
        | _ => cases hx
  | replaceCurrent cursor n =>
      exact items_replaceCurrent hs hc hready.1 hready.2 halive
  | removeAll | openCursor | closeCursor | notify => cases hop

end

/-- A `single` operation as a whole `Works` on one node. -/
theorem works_run (hop : op.single = true) (hready : op.Ready locks f)
    (hs : f.Sound checks locks) : ∃ p, Works p f (op.run checks f).state := by
  have hheld := alike_holdAll (f := f) op.keeps
  obtain ⟨p, hbody⟩ := works_body hop (hready.alike hheld)
    (hs.holdAll hready.keeps)
  refine ⟨p, ?_⟩
  rw [run, Outcome.state_always]
  exact ((works_holdAll op.keeps p).trans hbody).trans
    (works_releaseAll op.keeps p)

/-- To a collection that is being traversed a `single` operation does what
`replacement?` says. -/
theorem items_run (hop : op.single = true) (hready : op.Ready locks f)
    (hs : f.Sound checks locks) (hc : c.Fits f) (ho : c.owner ∈ locks)
    (hguard : f.isGuarded checks c.owner = true) :
    c.items (op.run checks f).state
      = Replacement.stored c (c.items f) (op.replacement? f) := by
  have hheld := alike_holdAll (f := f) op.keeps
  have hready' := hready.alike hheld
  have hs' := hs.holdAll hready.keeps
  have hnone : ∀ j ∈ op.calls checks (f.holdAll op.keeps),
      j.Keeps checks (op.keeps ++ locks) := by
    rw [op.calls_eq_nil (unfiltered_of_single hop)]
    intro j hj
    cases hj
  have hbody := (body_sound hready' hs' hnone).1
  have hrun := (run_sound hready hs hnone).1
  have hitems := items_body hop hready' hs' (hc.alike hheld)
    ((isGuarded_holdAll ..).trans hguard)
    (hbody.alive (List.mem_append_right _ ho))
  rw [op.replacement?_alike hheld] at hitems
  rw [run, Outcome.state_always] at hrun ⊢
  -- taking the references and giving them back is work on anybody else
  obtain ⟨p, hother⟩ := exists_ne c.owner
  have hstart : c.items (f.holdAll op.keeps) = c.items f :=
    slot_congr (hheld.slots c.owner) c.slot
  rw [Collection.items_works (works_releaseAll op.keeps p) (hrun.alive ho)
    hother.symm, hitems, hstart]

/-- The operations that would move or remove elements of `c`: changes but
`set`, filterings, and removals from the parent. -/
inductive Restructures (f : Forest) (c : Collection) : Operation → Prop
  | change {ch : Change NodeId} (hchange : ch.exchanges = false) :
      Restructures f c (.change c ch)
  | removeAll {σ : Type} (judge : Collection.Judge σ) (st : σ) :
      Restructures f c (.removeAll c judge st)
  | removeFromParent {n : NodeId} {j inner : Nat}
      (hplace : f.placeInParent? n = some (c.owner, j))
      (hlocate : f.locate? c.owner j = some (c.slot, inner)) :
      Restructures f c (.removeFromParent n)

section

variable (hop : op.Restructures f c) (hc : c.Fits f)
  (hguard : f.isGuarded checks c.owner = true)
include hop hc hguard

/-- An operation that restructures `c` is refused while the owner of `c` is
guarded, and makes no calls. -/
theorem Restructures.refused :
    op.run checks f = (refusal c.owner (f.holdAll op.keeps)).always
        (fun g => g.releaseAll op.keeps)
      ∧ op.calls checks (f.holdAll op.keeps) = [] := by
  have hheld := alike_holdAll (f := f) op.keeps
  have hguard' : (f.holdAll op.keeps).isGuarded checks c.owner = true :=
    (isGuarded_holdAll ..).trans hguard
  have hbody : op.body checks (f.holdAll op.keeps)
      = refusal c.owner (f.holdAll op.keeps) := by
    cases hop with
    | change hchange =>
        exact congrArg (Outcome.map _)
          (Collection.apply_guarded hguard' hchange)
    | removeAll judge st =>
        exact congrArg (Outcome.map _)
          (Collection.removeAll_guarded hguard' judge st).1
    | removeFromParent hplace hlocate =>
        exact removeFromParent_guarded (hc.alike hheld)
          ((hheld.placeInParent? _).trans hplace)
          ((hheld.locate? _ _).trans hlocate) hguard'
  constructor
  · rw [run, hbody]
  · cases hop with
    | removeAll judge st =>
        exact (Collection.removeAll_guarded hguard' judge st).2
    | change | removeFromParent => rfl

/-- Where what it mentions is `Referenced`, the refused operation leaves the
forest with the report alone. -/
theorem Restructures.run_eq (hheld : f.Referenced op.keeps) :
    op.run checks f = refusal c.owner f := by
  rw [(hop.refused hc hguard).1]
  have hsame := alike_holdAll (f := f) op.keeps
  unfold refusal
  rw [hsame.opcode, depth_holdAll, Outcome.always,
    releaseAll_emit _ hheld]

end

end Operation

end InstructionTree
