/-
Plain runs: no notices given directly, no broken contracts, and judges
that edit no slot.

In a plain run every operation either is `Calm`, or it edits one slot
(`EditsAt`), or it builds a node. So whatever these three keep holds in
every reachable forest (`Operation.body_cases`). That `slotRefs` covers the
positions a node is stored at is such an invariant (`Runs.covered`). It is
what cached places rest upon: a link is never dropped while the owner still
holds the node.
-/
import InstructionTree.Proofs.Runs.Edits

namespace InstructionTree

open Forest

variable {checks : Checks} {locks : List NodeId} {f g h : Forest}

namespace Forest

/-- `Calm` steps lead from a `Covered` forest to a `Covered` one. -/
theorem Calm.covered (hfg : Calm f g) (hwf : f.WellFormed)
    (hcov : f.Covered) : g.Covered := by
  intro n hn
  rw [hfg.slotRefs (.inl hn)]
  exact Nat.le_trans (hfg.holdCount_le n) (hcov.le hwf n)

/-- `Filled` with nobody placed is `Calm`. -/
theorem Filled.calm {n : NodeId} {placed : List NodeId}
    (hfg : Filled checks n f placed g) (hnone : placed = []) :
    Calm f g := by
  induction hfg with
  | none => exact .refl _
  | more hstep _ ih =>
      obtain ⟨rfl, rfl⟩ := List.append_eq_nil_iff.mp hnone
      refine Calm.trans ?_ (ih rfl)
      cases hstep with
      | range i _ _ _ hout =>
          obtain ⟨-, hbody⟩ := guarded_eq_ok hout
          obtain ⟨k, happend, rfl⟩ := Outcome.next_eq_ok hbody
          cases happend
          exact (alike_commit n).calm

/-- However building ends, it has filled the new node with some of the
children and then changed nothing that shows: with all of them, or with
some of the first ones. -/
theorem Builds.ends {n : NodeId} {slots : List Slot} {children : List NodeId}
    {out : Outcome Forest NodeId}
    (hout : Builds checks n f slots children out)
    (hunbroken : ∀ p s, out ≠ .stop (.panic p) s) :
    ∃ placed g, Filled checks n f placed g ∧ Calm g out.state
      ∧ ((∃ a, out = .ok a g ∧ placed = children)
        ∨ (∃ why h, out = .stop why h)
          ∧ ∀ {m}, m ∉ children.take slots.length → m ∉ placed) := by
  cases hout with
  | ok hfg => exact ⟨children, _, hfg, .refl _, .inl ⟨n, rfl, rfl⟩⟩
  | refused e hfg =>
      exact ⟨_, _, hfg, (sheds_reap _ _).calm,
        .inr ⟨⟨_, _, rfl⟩, fun hm => hm⟩⟩
  | stop placed rest why hfg hall hfew hgh =>
      have hwhy : ∀ p, why ≠ .panic p := by
        rintro p rfl
        exact hunbroken p _ rfl
      refine ⟨placed, _, hfg,
        (hgh.alike_of_stop hwhy).calm.trans (sheds_reap _ _).calm,
        .inr ⟨⟨_, _, rfl⟩, fun {m} hm hmem => hm ?_⟩⟩
      rw [hall, List.take_append, List.take_of_length_le hfew]
      exact List.mem_append_left _ hmem

end Forest

-- ====================================================== plain operations

/-- An operation of a plain run. While others are under way it must not be
about slots. -/
structure Plain (locks : List NodeId) (op : Operation) (f : Forest)
    (out : Outcome Forest Unit) : Prop where
  unforced : ∀ o r, op ≠ .notify o r
  /-- Only a judge may give up. -/
  unbroken : op.filters = false → ∀ p s, out ≠ .stop (.panic p) s
  quiet : locks ≠ [] → op.edits = false

namespace Operation

variable {op : Operation}

/-- An operation that does not edit does not filter. -/
theorem filters_eq_false (hquiet : op.edits = false) : op.filters = false := by
  cases op with
  | removeAll => cases hquiet
  | _ => rfl

/-- If `Forest.build` stops, the `body` of the operation stops alike. -/
theorem body_of_build {a : Opcode} {x : Operand} {ns : List NodeId}
    {why : Stop} {s : Forest}
    (hstop : Forest.build checks a x ns f = .stop why s) :
    (build a x ns).body checks f = .stop why s := by
  dsimp only [body]
  rw [hstop]
  rfl

/-- The `body` of an operation that does not edit, and does not panic, is
`Calm`. -/
theorem body_calm (hready : op.Ready locks f)
    (hs : f.Sound checks (op.keeps ++ locks)) (hquiet : op.edits = false)
    (hunbroken : ∀ p s, op.body checks f ≠ .stop (.panic p) s) :
    Calm f (op.body checks f).state := by
  cases op with
  | create op x => exact calm_alloc f op x
  | build op x ns =>
      have hnone : ns = [] := by simpa [edits] using hquiet
      subst hnone
      have hbuilds : Builds checks (f.alloc (Node.fresh op x)).1
          (f.alloc (Node.fresh op x)).2 op.layout []
          (Forest.build checks op x [] f) := builds_build hs hready
      obtain ⟨placed, g, hfilled, hend, hplaced⟩ :=
        hbuilds.ends fun p s hstop => hunbroken p s (body_of_build hstop)
      have hnobody : placed = [] := by
        rcases hplaced with ⟨-, -, rfl⟩ | ⟨-, hfew⟩
        · rfl
        · refine List.eq_nil_iff_forall_not_mem.mpr fun m => hfew ?_
          rw [List.take_nil]
          exact List.not_mem_nil
      rw [body, Outcome.state_map]
      exact ((calm_alloc f op x).trans (hfilled.calm hnobody)).trans hend
  | hold n => exact (alike_hold n).calm
  | drop n => exact calm_release f n
  | setOperand n x => exact (alike_setOperand n x).calm
  | flags n => exact (alike_flags n).calm
  | openCursor c =>
      exact Cursor.opening_with (.refl f)
        ((alike_beginTraversal c.owner).trans (alike_emit _)).calm
  | closeCursor cursor => exact (alike_close cursor).calm
  | setSlotChild | setChild | replaceWith | removeFromParent | change
  | removeAll | replaceCurrent | notify => cases hquiet

/-- An operation that does not edit, and does not panic, is `Calm` as a whole.
-/
theorem run_calm (hready : op.Ready locks f) (hs : f.Sound checks locks)
    (hquiet : op.edits = false)
    (hunbroken : ∀ p s, op.run checks f ≠ .stop (.panic p) s) :
    Calm f (op.run checks f).state := by
  have hheld := alike_holdAll (f := f) op.keeps
  have hbody := body_calm (hready.alike hheld) (hs.holdAll hready.keeps)
    hquiet fun p s hstop => hunbroken p _ (run_of_body hstop)
  rw [run, Outcome.state_always]
  exact (hheld.calm.trans hbody).trans (calm_releaseAll op.keeps)

/-- The nodes that the operation attaches to its owner: those `entering`, if it
was not refused. -/
def attached (checks : Checks) (f : Forest) (op : Operation) : List NodeId :=
  match op.body checks f with
  | .ok .. => op.entering f
  | .stop .. => []

/-- The global child indices of its owner whose element the operation
removes or overwrites. -/
def vacated (checks : Checks) (f : Forest) (op : Operation) (j : Nat) :
    Prop :=
  (op.filters = true ∨ ∃ g, op.body checks f = .ok () g)
    ∧ op.emptying checks f j

theorem attached_of_ok (hout : op.body checks f = .ok () g) :
    op.attached checks f = op.entering f := by
  rw [attached, hout]

theorem attached_of_entering (hnone : op.entering f = []) :
    op.attached checks f = [] := by
  unfold attached
  split
  · exact hnone
  · rfl

/-- The operation was refused: its `body` is `Alike` and attaches nobody. -/
def Idles (checks : Checks) (f : Forest) (op : Operation) : Prop :=
  Alike f (op.body checks f).state ∧ op.attached checks f = []

/-- An edit that did not panic `Idles`, or succeeded with `Q`. -/
private theorem idles_or {p : NodeId} {Q : Prop}
    (hcarried : Carried checks p f (op.body checks f))
    (hunbroken : ∀ p s, op.body checks f ≠ .stop (.panic p) s)
    (hok : ∀ {g}, op.body checks f = .ok () g → Q) :
    op.Idles checks f ∨ Q := by
  cases hout : op.body checks f with
  | ok u g => exact .inr (hok hout)
  | stop why g =>
      refine .inl ⟨?_, by rw [attached, hout]⟩
      rw [hout] at hcarried ⊢
      refine hcarried.alike_of_stop fun p => ?_
      rintro rfl
      exact hunbroken p g hout

/-- Where the `body` succeeds, those `entering` are those `attached`. -/
private theorem swaps_of_ok {o : NodeId} {gone : Nat → Prop}
    (hout : op.body checks f = .ok () g)
    (hswaps : SwapsAt o (op.entering f) gone f g)
    (hgone : ∀ j, gone j → op.emptying checks f j) :
    SwapsAt o (op.attached checks f) (op.vacated checks f) f
      (op.body checks f).state := by
  obtain ⟨left, hedits, hother⟩ := hswaps
  rw [attached_of_ok hout, hout]
  exact ⟨left, hedits.mono fun j hj => ⟨.inr ⟨g, hout⟩, hgone j hj⟩, hother⟩

/-- The `body` of an operation in place `Idles`, or is `SwapsAt` its owner. -/
theorem body_swapsAt (hready : op.Ready locks f)
    (hs : f.Sound checks (op.keeps ++ locks)) (hop : op.inPlace = true)
    (hunbroken : ∀ p s, op.body checks f ≠ .stop (.panic p) s) :
    op.Idles checks f
      ∨ SwapsAt (op.owner f) (op.attached checks f) (op.vacated checks f) f
        (op.body checks f).state := by
  cases op with
  | setSlotChild n i child =>
      have hchild : ∀ c ∈ child, c ∈ (setSlotChild n i child).keeps ++ locks :=
        fun c hc => .tail _ (List.mem_append_left _ (Option.mem_toList.mpr hc))
      exact idles_or (carried_setSlotChild i hready.1 hready.2) hunbroken
        fun hout => swaps_of_ok hout (swaps_setSlotChild hs hready.1 hchild
          (.inl (.head _)) hout) fun _ hj => hj
  | setChild n j m =>
      exact idles_or (carried_setChild hs j hready.1 hready.2) hunbroken
        fun hout => swaps_of_ok hout (swaps_setChild hs hready.1
          (.tail _ (.head _)) (.inl (.head _)) hout) fun _ hj => hj
  | replaceWith n m =>
      obtain ⟨p, hp⟩ : ∃ p, Carried checks p f
          (Forest.replaceWith checks n m f) := carried_replaceWith hs hready.2
      refine idles_or hp hunbroken fun {g} hout => ?_
      obtain ⟨o, j, hplace, hswaps⟩ :=
        swaps_replaceWith hs (.head _) (.tail _ (.head _)) hout
      have ho : (replaceWith n m).owner f = o := by
        rw [owner, (placeInParent?_eq_some hplace).1]
        rfl
      rw [ho]
      refine swaps_of_ok hout hswaps ?_
      rintro k ⟨rfl, hother⟩
      exact ⟨by rw [hplace]; rfl, hother⟩
  | change c ch =>
      cases ch with
      | set i n =>
          have hcarried : Carried checks c.owner f (c.set checks i n f) :=
            Collection.carried_set hs hready.1 i (hready.2 n (.head _))
          refine idles_or ((hcarried.map _).map _) hunbroken
            fun {g} hout => ?_
          obtain ⟨answer, hchange, -⟩ := Outcome.map_eq_ok hout
          obtain ⟨u, hset, -⟩ := Outcome.map_eq_ok hchange
          refine swaps_of_ok hout (Collection.swaps_set hs hready.1
            (.tail _ (.head _)) (.inl (.head _)) hset) ?_
          rintro j ⟨rfl, hother⟩
          exact ⟨i, rfl, rfl, hother⟩
      | add | addRange | insert | removeAt | remove | removeRange
      | swapRemoveAt | move | moveToEnd | clear | replaceList => cases hop
  | replaceCurrent cursor n =>
      refine idles_or (carried_replaceCurrent hs hready.1 hready.2)
        hunbroken fun {g} hout => ?_
      have hset := hout
      rw [body, Cursor.replaceCurrent] at hset
      cases hindex : cursor.index? with
      | none =>
          rw [hindex] at hset
          cases hset
      | some i =>
          rw [hindex] at hset
          have hentering : (replaceCurrent cursor n).entering f
              = (Change.set i n).entered (cursor.collection.items f) := by
            rw [entering, hindex]
            rfl
          refine swaps_of_ok hout (hentering ▸ Collection.swaps_set hs
            hready.1 (.tail _ (.head _)) (.inl (.head _)) hset) ?_
          rintro j ⟨rfl, hother⟩
          exact ⟨i, hindex, rfl, hother⟩
  | create | build | hold | drop | setOperand | flags | removeFromParent
  | removeAll | openCursor | closeCursor | notify => cases hop

/-- The `body` of an operation in place is `Alike`, or exchanges single
children of its owner. -/
theorem body_swaps (hready : op.Ready locks f)
    (hs : f.Sound checks (op.keeps ++ locks)) (hop : op.inPlace = true)
    (hunbroken : ∀ p s, op.body checks f ≠ .stop (.panic p) s) :
    Alike f (op.body checks f).state
      ∨ SwapsSlot (op.owner f) f (op.body checks f).state :=
  (body_swapsAt hready hs hop hunbroken).imp And.left SwapsAt.slot

/-- The `body` of an operation that edits, with idle calls and no panic,
`Idles` or is `EditsAt` its owner. -/
theorem body_editsAt (hready : op.Ready locks f)
    (hs : f.Sound checks (op.keeps ++ locks)) (hcov : f.Covered)
    (hidle : ∀ j ∈ op.calls checks f, j.Idle checks (op.keeps ++ locks))
    (hedits : op.edits = true) (hnotify : ∀ o r, op ≠ .notify o r)
    (hbuild : ∀ a x ns, op ≠ .build a x ns)
    (hunbroken : op.filters = false →
      ∀ p s, op.body checks f ≠ .stop (.panic p) s) :
    op.Idles checks f
      ∨ ∃ left, EditsAt (op.owner f) (op.attached checks f) left
        (op.vacated checks f) f (op.body checks f).state := by
  cases op with
  | build a x ns => exact absurd rfl (hbuild a x ns)
  | notify o r => exact absurd rfl (hnotify o r)
  | setSlotChild | setChild | replaceWith | replaceCurrent =>
      refine (body_swapsAt hready hs rfl (hunbroken rfl)).imp_right ?_
      rintro ⟨left, hedited, -⟩
      exact ⟨left, hedited⟩
  | removeFromParent n =>
      obtain ⟨p, hp⟩ : ∃ p, Carried checks p f
          (Forest.removeFromParent checks n f) := carried_removeFromParent hs
      refine idles_or hp (hunbroken rfl) fun {g} hout => ?_
      obtain ⟨o, j, left, hplace, hedited⟩ :=
        edited_removeFromParent hs hcov (.head _) hout
      have ho : (removeFromParent n).owner f = o := by
        rw [owner, (placeInParent?_eq_some hplace).1]
        rfl
      rw [ho, attached_of_ok hout, hout]
      refine ⟨left, hedited.mono ?_⟩
      rintro k rfl
      exact ⟨.inr ⟨g, hout⟩, by rw [emptying, hplace]; rfl⟩
  | change c ch =>
      have hns : ∀ n ∈ ch.nodes, n ∈ (change c ch).keeps ++ locks :=
        fun n hn => List.mem_append_left _ (.tail _ hn)
      have hcarried : Carried checks c.owner f (c.apply checks ch f) :=
        Collection.carried_apply hs hready.1 (.head _) hns
      refine idles_or (hcarried.map _) (hunbroken rfl) fun {g} hout => ?_
      obtain ⟨answer, hchange, -⟩ := Outcome.map_eq_ok hout
      have hedited := Collection.edited_apply hs hready.1 hcov (.head _) hns
        hchange
      have hs' := hcarried.sound hs
      rw [hchange] at hs'
      rw [attached_of_ok hout, hout]
      exact ⟨_, (hedited.at (hs'.alive (.head _))).mono
        fun j hj => ⟨.inr ⟨g, hout⟩, hj⟩⟩
  | removeAll c judge st =>
      have hfiltered := Collection.filtered_removeAll checks c judge f st
      have hs' := (hfiltered.sound (.head _) hs hready
        fun j hj => (hidle j hj).1).1
      have hedited := Collection.edited_removeAll hs hready hcov (.head _)
        hidle hfiltered
      have hnone : (removeAll c judge st).attached checks f = [] :=
        attached_of_entering rfl
      rw [Idles, hnone, body, Outcome.state_map]
      rcases hedited with ⟨e, ev, hstop⟩ | hedited
      · rw [hstop]
        exact .inl ⟨alike_emit ev, rfl⟩
      · exact .inr ⟨_, (hedited.at (hs'.alive (.head _))).mono
          fun j hj => ⟨.inl rfl, hj⟩⟩
  | create | hold | drop | setOperand | flags | openCursor | closeCursor =>
      cases hedits

/-- An operation of a plain run shows in no slot, or it builds a node, or it
edits one slot. -/
theorem body_cases (hready : op.Ready locks f)
    (hs : f.Sound checks (op.keeps ++ locks)) (hcov : f.Covered)
    (hidle : ∀ j ∈ op.calls checks f, j.Idle checks (op.keeps ++ locks))
    (hnotify : ∀ o r, op ≠ .notify o r)
    (hunbroken : op.filters = false →
      ∀ p s, op.body checks f ≠ .stop (.panic p) s) :
    (Calm f (op.body checks f).state ∧ op.attached checks f = [])
      ∨ (∃ a x ns, op = .build a x ns
        ∧ ∀ p s, Forest.build checks a x ns f ≠ .stop (.panic p) s)
      ∨ ∃ left, EditsAt (op.owner f) (op.attached checks f) left
        (op.vacated checks f) f (op.body checks f).state := by
  by_cases hbuild : ∃ a x ns, op = .build a x ns
  · obtain ⟨a, x, ns, rfl⟩ := hbuild
    exact .inr (.inl ⟨a, x, ns, rfl, fun p s hstop =>
      hunbroken rfl p s (body_of_build hstop)⟩)
  cases hedits : op.edits with
  | false =>
      refine .inl ⟨body_calm hready hs hedits
        (hunbroken (filters_eq_false hedits)), attached_of_entering ?_⟩
      cases op with
      | build a x ns => exact absurd ⟨a, x, ns, rfl⟩ hbuild
      | create | hold | drop | setOperand | flags | openCursor
      | closeCursor => rfl
      | _ => cases hedits
  | true =>
      refine (body_editsAt hready hs hcov hidle hedits hnotify
        (fun a x ns h => hbuild ⟨a, x, ns, h⟩) hunbroken).imp ?_ .inr
      exact fun hidles => ⟨hidles.1.calm, hidles.2⟩

end Operation

-- ============================================================ plain runs

/-- A plain run in a call, where locks are held, is `Calm`. -/
theorem Runs.calm (hfg : Runs checks Plain locks f g)
    (hs : f.Sound checks locks) (hlocks : locks ≠ []) : Calm f g := by
  induction hfg with
  | refl => exact .refl _
  | step hfg hready _ hpermit ih _ =>
      have hs' := (hfg.sound hs).1
      exact (ih hs hlocks).trans
        (Operation.run_calm hready hs' (hpermit.quiet hlocks)
          (hpermit.unbroken (Operation.filters_eq_false
            (hpermit.quiet hlocks))))

/-- So each call of a filtering in a plain run is `Idle`. -/
theorem Runs.idle {j : Collection.Judgement}
    (hrun : Runs checks Plain (j.node :: locks) j.before j.after) :
    j.Idle checks locks :=
  ⟨hrun.sound, fun hs => hrun.calm hs (List.cons_ne_nil _ _)⟩

theorem Runs.mono {permits fewer : Permit}
    (hfg : Runs checks fewer locks f g)
    (hfewer : ∀ {locks op f out}, fewer locks op f out →
      permits locks op f out) : Runs checks permits locks f g := by
  induction hfg with
  | refl => exact .refl
  | step _ hready _ hpermit ih ihcalls =>
      exact .step ih hready ihcalls (hfewer hpermit)

-- =============================================================== covered

theorem Forest.Filled.covered {n : NodeId} {placed : List NodeId}
    (hfg : Filled checks n f placed g) (hs : f.Sound checks locks)
    (hn : f.isAlive n = true) (hcov : f.Covered) : g.Covered := by
  induction hfg with
  | none => exact hcov
  | more hstep _ ih =>
      obtain ⟨hs', -, halive⟩ := hstep.keeps hs hn
      obtain ⟨i, new, removed, hedited⟩ := hstep.edited hs hn
      exact ih hs' ((halive n).trans hn)
        (hedited.exchange.covered hs.toWellFormed hcov)

/-- `build`, whether it succeeds or not, leads from a `Covered` forest to a
`Covered` one. -/
theorem Forest.covered_build {op : Opcode} {x : Operand}
    {children : List NodeId} (hs : f.Sound checks locks)
    (hlive : ∀ c ∈ children, f.isAlive c = true) (hcov : f.Covered)
    (hunbroken : ∀ p s, Forest.build checks op x children f
      ≠ .stop (.panic p) s) :
    (Forest.build checks op x children f).state.Covered := by
  have hs' := hs.alloc op x
  have hn : (f.alloc (Node.fresh op x)).2.isAlive
      (f.alloc (Node.fresh op x)).1 = true := isAlive_alloc_self ..
  have hcov' := (calm_alloc f op x).covered hs.toWellFormed hcov
  have hbuilds : Builds checks (f.alloc (Node.fresh op x)).1
      (f.alloc (Node.fresh op x)).2 op.layout children
      (Forest.build checks op x children f) := builds_build hs hlive
  obtain ⟨placed, g, hfilled, hend, -⟩ := hbuilds.ends hunbroken
  exact hend.covered (hfilled.keeps hs' hn).1.toWellFormed
    (hfilled.covered hs' hn hcov')

/-- The `body` of an operation leads from a `Covered` forest to a `Covered`
one. -/
theorem Operation.body_covered {op : Operation} (hready : op.Ready locks f)
    (hs : f.Sound checks (op.keeps ++ locks)) (hcov : f.Covered)
    (hidle : ∀ j ∈ op.calls checks f, j.Idle checks (op.keeps ++ locks))
    (hnotify : ∀ o r, op ≠ .notify o r)
    (hunbroken : op.filters = false →
      ∀ p s, op.body checks f ≠ .stop (.panic p) s) :
    (op.body checks f).state.Covered := by
  rcases body_cases hready hs hcov hidle hnotify hunbroken
    with ⟨hcalm, -⟩ | ⟨a, x, ns, rfl, hwhole⟩ | ⟨left, -, i, _, _, hedited, -⟩
  · exact hcalm.covered hs.toWellFormed hcov
  · rw [body, Outcome.state_map]
    exact covered_build hs hready hcov hwhole
  · exact hedited.exchange.covered hs.toWellFormed hcov

/-- An operation as a whole leads from a `Covered` forest to a `Covered` one.
-/
theorem Operation.run_covered {op : Operation} (hready : op.Ready locks f)
    (hs : f.Sound checks locks) (hcov : f.Covered)
    (hidle : ∀ j ∈ op.calls checks (f.holdAll op.keeps),
      j.Idle checks (op.keeps ++ locks))
    (hnotify : ∀ o r, op ≠ .notify o r)
    (hunbroken : op.filters = false →
      ∀ p s, op.run checks f ≠ .stop (.panic p) s) :
    (op.run checks f).state.Covered := by
  have hheld := alike_holdAll (f := f) op.keeps
  have hready' := hready.alike hheld
  have hs' := hs.holdAll hready.keeps
  have hbody := Operation.body_covered hready' hs'
    (hheld.calm.covered hs.toWellFormed hcov) hidle hnotify
    fun hfilters p s hstop =>
      hunbroken hfilters p _ (Operation.run_of_body hstop)
  have hwf := (Operation.body_sound hready' hs'
    fun j hj => (hidle j hj).1).1.toWellFormed
  rw [Operation.run, Outcome.state_always]
  exact (calm_releaseAll op.keeps).covered hwf hbody

/-- A plain run leads from a `Covered` forest to a `Covered` one. -/
theorem Runs.covered (hfg : Runs checks Plain locks f g)
    (hs : f.Sound checks locks) (hcov : f.Covered) : g.Covered := by
  induction hfg with
  | refl => exact hcov
  | step hfg hready hcalls hpermit ih _ =>
      exact Operation.run_covered hready (hfg.sound hs).1 (ih hs hcov)
        (fun j hj => (hcalls j hj).idle) hpermit.unforced hpermit.unbroken

theorem Forest.covered_empty : Covered ∅ := fun n hn => by
  rw [isAlive, get?_empty] at hn
  cases hn

theorem Runs.covered_of_empty (hf : Runs checks Plain [] ∅ f) :
    f.Covered :=
  hf.covered (sound_empty checks) covered_empty

end InstructionTree
