/-
A version says whether somebody has to look again.

Who remembers the version of a node, and finds it again later, need not
look at its slots: they hold the same nodes in the same order, whatever
happened in between, filterings and failures included
(`Journeys.tracks`). This needs that no attach broke off, and that nobody
counts traversals but cursors and filterings, since an edit that breaks
off is not committed.

One edit raises one version by one, or none, and when it raises none is
known beforehand (`Operation.idle`), unless it is refused. Operations that
are no edits raise none.
-/
import InstructionTree.Proofs.Collection.Versions
import InstructionTree.Proofs.Runs.Balance
import InstructionTree.Proofs.Runs.Lasting

namespace InstructionTree

open Forest Collection

variable {checks : Checks} {locks : List NodeId} {f g : Forest}
  {n m o p : NodeId} {c : Collection} {op : Operation} {u : Unit}

-- ================================================= operands and children

namespace Forest

theorem raises_setSlotChild {i : Nat} {child : Option NodeId}
    (hn : f.isAlive n = true) (hchild : ∀ c ∈ child, f.isAlive c = true)
    (hout : setSlotChild checks n i child f = .ok u g) :
    Raises n (if (f.slot n i).head? = child then 0 else 1) f g := by
  obtain ⟨-, hends⟩ := setSlotChild_eq_ok hout
  rcases hends with ⟨hsame, hg⟩ | ⟨hother, k, hattach, hg⟩
  · rw [hg, if_pos hsame]
    exact .refl n f
  · have htried : Tried checks n (f.slotAssigned n i child)
        (attach? checks n child (f.slotAssigned n i child)) :=
      tried_attach? ((isAlive_slotAssigned ..).trans hn)
        fun c hc => (isAlive_slotAssigned n i child c).trans (hchild c hc)
    have hstored : Touches checks n f (f.slotAssigned n i child) :=
      touches_slotAssigned hchild
    rw [hattach] at htried
    have hleft : Raises n 0 k (k.detach? n (f.slot n i).head?) := by
      cases (f.slot n i).head? with
      | none => exact .refl n k
      | some old => exact raises_detach n old n
    rw [hg, if_neg hother]
    cases htried with
    | ok _ hfk =>
        have hentered : Raises n 0 f k :=
          (hstored.raises n).trans (hfk.raises n)
        exact ((hentered.trans hleft).trans (raises_commit n)).trans
          ((sheds_reapAll ..).raises n)

theorem raises_setChild {j : Nat} (hs : f.Sound checks locks)
    (hn : f.isAlive n = true) (hm : f.isAlive m = true)
    (hout : setChild checks n j m f = .ok u g) :
    Raises n (if f.child? n j = some m then 0 else 1) f g := by
  unfold setChild at hout
  split at hout
  · cases hout
  next i inner hlocate =>
    have hloc : f.locate? n j = some (i, inner) := by
      split at hlocate
      · exact hlocate
      · cases hlocate
    have hchild : f.child? n j = (f.slot n i)[inner]? := by
      unfold child?
      rw [hloc]
      rfl
    rw [hchild]
    split at hout
    next c hc =>
      obtain ⟨rfl, hfits⟩ := Collection.fits_at? hc
      exact Collection.raises_set hs hfits hm hout
    next =>
      obtain ⟨⟨s, hslot, hone⟩, -⟩ := setSlotChild_eq_ok hout
      have hinner := inner_eq_zero hloc hslot hone
      subst hinner
      rw [← List.head?_eq_getElem?]
      exact raises_setSlotChild hn (fun c hc => by cases hc; exact hm) hout

theorem raises_replaceWith (hs : f.Sound checks locks)
    (hm : f.isAlive m = true) (hout : replaceWith checks n m f = .ok u g) :
    Raises ((f.parent? n).getD n) (if n = m then 0 else 1) f g := by
  unfold replaceWith at hout
  split at hout
  · cases hout
  next p j hplace =>
    obtain ⟨hparent, hfind⟩ := placeInParent?_eq_some hplace
    have hraises : Raises p (if f.child? p j = some m then 0 else 1) f g :=
      raises_setChild hs (parent?_eq_some_iff.mp hparent).2 hm hout
    rw [child?_of_findChild? hs.toWellFormed hfind] at hraises
    simp only [Option.some.injEq] at hraises
    rw [hparent]
    exact hraises

theorem raises_removeFromParent (hs : f.Sound checks locks)
    (hout : removeFromParent checks n f = .ok u g) :
    Raises ((f.parent? n).getD n) 1 f g := by
  unfold removeFromParent at hout
  split at hout
  · cases hout
  next p j hplace =>
    obtain ⟨hparent, hfind⟩ := placeInParent?_eq_some hplace
    have hchild := child?_of_findChild? hs.toWellFormed hfind
    rw [hparent]
    split at hout
    · cases hout
    next i inner hlocate =>
      obtain ⟨i', inner', hlocate', hget⟩ := child?_eq_some.mp hchild
      cases hlocate.symm.trans hlocate'
      split at hout
      next c hc =>
        obtain ⟨rfl, hfits⟩ := Collection.fits_at? hc
        obtain ⟨old, hremove, -⟩ := Outcome.map_eq_ok hout
        exact Collection.raises_removeAt hs hfits hremove
      next =>
        obtain ⟨⟨s, hslot, hone⟩, -⟩ := setSlotChild_eq_ok hout
        have hinner := inner_eq_zero hlocate hslot hone
        subst hinner
        have hother : (f.slot p i).head? ≠ none := by
          rw [List.head?_eq_getElem?, hget]
          exact nofun
        have hraises : Raises p _ f g := raises_setSlotChild
          (parent?_eq_some_iff.mp hparent).2 (fun c hc => by cases hc) hout
        rw [if_neg hother] at hraises
        exact hraises

theorem raises_flags (n p : NodeId) :
    Raises p 0 f (((f.flags? n).map Prod.snd).getD f) := by
  unfold flags?
  split
  · refine remembers_flagsWithin (R := Raises p 0) (.refl p) .trans
      (fun f n flags => ?_) _ n f
    refine raises_update n ?_ ?_ p
    all_goals exact fun _ => rfl
  · exact .refl p f

end Forest

-- ============================================================ operations

namespace Operation

/-- Whether the edit finds what it would store already there. -/
def idle (f : Forest) : Operation → Bool
  | setSlotChild n i child => decide ((f.slot n i).head? = child)
  | setChild n i m => decide (f.child? n i = some m)
  | replaceWith n m => decide (n = m)
  | change c ch => ch.idle c f
  | replaceCurrent cursor n => decide (cursor.current? f = some n)
  | _ => false

/-- Whether the edit is committed: it succeeds, and is not `idle`. -/
def commits (checks : Checks) (f : Forest) (op : Operation) : Bool :=
  match op.run checks f with
  | .ok _ _ => !op.idle f
  | .stop _ _ => false

/-- Between `Alike` forests `op.idle` is the same. -/
theorem idle_alike (op : Operation) (hfg : Alike f g) :
    op.idle g = op.idle f := by
  have hslot : ∀ o i, g.slot o i = f.slot o i :=
    fun o i => slot_congr (hfg.slots o) i
  have hitems : ∀ c : Collection, c.items g = c.items f :=
    fun c => hslot c.owner c.slot
  cases op with
  | setSlotChild n i child => simp only [idle, hslot]
  | setChild n i m =>
      have hchild : g.child? n i = f.child? n i := by
        unfold child?
        simp only [hfg.locate?, hslot]
      exact congrArg (fun child => decide (child = some m)) hchild
  | change c ch =>
      have hcontains : ∀ n, c.contains g n = c.contains f n := by
        intro n
        unfold contains indexOf? cachedIndex?
        simp only [hfg.link, hfg.position, hitems]
      cases ch <;> simp only [idle, Change.idle, hitems, hcontains]
  | replaceCurrent cursor n =>
      have hcurrent : cursor.current? g = cursor.current? f := by
        unfold Cursor.current?
        rw [hitems]
      exact congrArg (fun current => decide (current = some n)) hcurrent
  | _ => rfl

/-- The `body` of an edit that succeeded raises the version of its owner by
one, or by none if it was `idle`. -/
theorem raises_body (hready : op.Ready locks f)
    (hs : f.Sound checks (op.keeps ++ locks)) (hedit : op.isEdit = true)
    (hout : op.body checks f = .ok u g) :
    Raises (op.owner f) (if op.idle f = true then 0 else 1) f g := by
  cases op with
  | setSlotChild n i child =>
      simpa only [idle, owner, decide_eq_true_eq]
        using raises_setSlotChild hready.1 hready.2 hout
  | setChild n i m =>
      simpa only [idle, owner, decide_eq_true_eq]
        using raises_setChild hs hready.1 hready.2 hout
  | replaceWith n m =>
      simpa only [idle, owner, decide_eq_true_eq]
        using raises_replaceWith hs hready.2 hout
  | removeFromParent n => exact raises_removeFromParent hs hout
  | change c ch =>
      obtain ⟨answer, happly, -⟩ := Outcome.map_eq_ok hout
      exact raises_apply hs hready.1 (.head _)
        (fun n hn => List.mem_append_left _ (.tail _ hn)) happly
  | replaceCurrent cursor n =>
      have hreplace : cursor.replaceCurrent checks n f = .ok u g := hout
      unfold Cursor.replaceCurrent at hreplace
      cases hindex : cursor.index? with
      | none =>
          rw [hindex] at hreplace
          cases hreplace
      | some i =>
          rw [hindex] at hreplace
          have hcurrent : cursor.current? f
              = (cursor.collection.items f)[i]? := by
            unfold Cursor.current?
            rw [hindex]
            rfl
          have hraises := raises_set hs hready.1 hready.2 hreplace
          simpa only [idle, owner, hcurrent, decide_eq_true_eq] using hraises
  | create | build | hold | drop | setOperand | flags | removeAll
  | openCursor | closeCursor | notify => cases hedit

/-- The `hold`s and releases around a `body` raise no version. -/
private theorem raises_kept {k : Nat}
    (hbody : Raises p k (f.holdAll op.keeps)
      (op.body checks (f.holdAll op.keeps)).state) :
    Raises p k f (op.run checks f).state := by
  have hall := ((raises_holdAll op.keeps p).trans hbody).trans
    (raises_releaseAll (f := (op.body checks (f.holdAll op.keeps)).state)
      op.keeps p)
  rw [run, Outcome.state_always]
  simpa only [Nat.zero_add, Nat.add_zero] using hall

/-- An edit raises the version of its owner by one if it `commits`, and by none
otherwise, unless it broke off on the check of an attach. -/
theorem raises_edit (hready : op.Ready locks f) (hs : f.Sound checks locks)
    (hedit : op.isEdit = true)
    (hwhole : ∀ a g, op.run checks f ≠ .stop (.panic (.notATree a)) g) :
    Raises (op.owner f) (if op.commits checks f = true then 1 else 0) f
      (op.run checks f).state := by
  have hheld := alike_holdAll (f := f) op.keeps
  have hready' := hready.alike hheld
  have hs' := hs.holdAll hready.keeps
  apply raises_kept
  cases hbody : op.body checks (f.holdAll op.keeps) with
  | ok u g =>
      have hraises := raises_body hready' hs' hedit hbody
      rw [op.owner_alike hheld, op.idle_alike hheld] at hraises
      have hcommits : op.commits checks f = !op.idle f := by
        unfold commits run
        rw [hbody]
        rfl
      rw [hcommits]
      cases hidle : op.idle f with
      | true =>
          rw [hidle] at hraises
          exact hraises
      | false =>
          rw [hidle] at hraises
          exact hraises
  | stop why g =>
      have hcommits : op.commits checks f = false := by
        unfold commits
        rw [run_of_body hbody]
      obtain ⟨o, hcarried⟩ := carried_body hready' hs' hedit
      rw [hcommits]
      rw [hbody] at hcarried
      cases why with
      | fault e => exact hcarried.raises_of_fault.none _
      | panic p =>
          cases hcarried with
          | broken a => exact absurd (run_of_body hbody) (hwhole a _)

/-- A `single` operation that is no edit raises no version. -/
theorem raises_other (hready : op.Ready locks f) (hs : f.Sound checks locks)
    (hop : op.single = true) (hedit : op.isEdit = false) (p : NodeId) :
    Raises p 0 f (op.run checks f).state := by
  apply raises_kept
  cases op with
  | create a x => exact raises_alloc a x p
  | build a x ns =>
      have hheld := alike_holdAll (f := f) ns
      have hlive : ∀ n ∈ ns, (f.holdAll ns).isAlive n = true :=
        fun n hn => (hheld.alive n).trans (hready n hn)
      rw [body, Outcome.state_map]
      exact raises_build (hs.holdAll hready) hlive p
  | hold n => exact raises_hold n p
  | drop n => exact raises_release n p
  | setOperand n x =>
      refine raises_update n ?_ ?_ p
      all_goals exact fun _ => rfl
  | flags n => exact raises_flags n p
  | setSlotChild | setChild | replaceWith | removeFromParent | change
  | replaceCurrent => cases hedit
  | removeAll | openCursor | closeCursor | notify => cases hop

/-- A `steady` operation that did not break off on the check of an attach
`Tracks`: a node with the same version has the same slots. -/
theorem tracks_steady (hready : op.Ready locks f) (hs : f.Sound checks locks)
    (hop : op.steady = true)
    (hwhole : ∀ a g, op.run checks f ≠ .stop (.panic (.notATree a)) g) :
    Tracks (fun _ => False) f (op.run checks f).state := by
  have hheld := alike_holdAll (f := f) op.keeps
  have hready' := hready.alike hheld
  have hs' := hs.holdAll hready.keeps
  have hwhole' : ∀ a g, op.body checks (f.holdAll op.keeps)
      ≠ .stop (.panic (.notATree a)) g :=
    fun a g hbody => hwhole a _ (run_of_body hbody)
  have hkept : Tracks (fun _ => False) f (f.holdAll op.keeps) :=
    hheld.calm.tracks (raises_holdAll op.keeps default)
  have hgave : ∀ g : Forest,
      Tracks (fun _ => False) g (g.releaseAll op.keeps) :=
    fun g => (calm_releaseAll op.keeps).tracks
      (raises_releaseAll op.keeps default)
  have hbody : Tracks (fun _ => False) (f.holdAll op.keeps)
      (op.body checks (f.holdAll op.keeps)).state := by
    cases op with
    | setSlotChild | setChild | replaceWith | removeFromParent | change
    | replaceCurrent =>
        obtain ⟨o, hcarried⟩ := carried_body hready' hs' rfl
        exact hcarried.tracks hwhole'
    | create a x =>
        exact (calm_alloc _ a x).tracks (raises_alloc a x default)
    | build a x ns =>
        rw [body, Outcome.state_map]
        exact tracks_build hs' hready'
    | hold n => exact (alike_hold n).calm.tracks (raises_hold n default)
    | drop n => exact (calm_release _ n).tracks (raises_release n default)
    | setOperand n x =>
        refine (alike_setOperand n x).calm.tracks
          (raises_update n ?_ ?_ default)
        all_goals exact fun _ => rfl
    | flags n => exact (alike_flags n).calm.tracks (raises_flags n default)
    | notify o r =>
        cases r with
        | attach n =>
            cases hattach : Forest.attach checks o n f with
            | ok u g =>
                have hg := (attach_eq_ok hattach).2
                show Tracks _ f (Forest.attach checks o n f).state
                rw [hattach, hg]
                exact (raises_enter o n default).tracks
                  fun _ _ _ => slots_enter ..
            | stop why g =>
                show Tracks _ f (Forest.attach checks o n f).state
                have htried : Tried checks o f (Forest.attach checks o n f) :=
                  tried_attach hready.1 (hready.2 n (.head _))
                rw [hattach] at htried
                cases htried with
                | stop a => exact absurd hattach (hwhole' a g)
        | detach n =>
            exact (raises_detach o n default).tracks
              fun _ _ _ => slots_detach ..
        | commit =>
            exact (Tracks.refl _ f).commit
        | requireUntraversed =>
            have hcarried : Carried checks o f
                (requireUntraversed checks o f) := carried_requireUntraversed
            exact hcarried.tracks hwhole'
        | beginTraversal | endTraversal => cases hop
    | removeAll | openCursor | closeCursor => cases hop
  rw [run, Outcome.state_always]
  exact (hkept.trans hbody).trans (hgave _)

end Operation

-- =================================================================== deeds

theorem Cursor.raises_close (cursor : Cursor) (p : NodeId) :
    Raises p 0 f (cursor.close checks f).state :=
  cursor.close_with (fun _ hfg => hfg.trans (raises_emit _ p))
    (raises_endTraversal _ p)

/-- A cursor that is opened, moved or closed shows in no slot, and raises
no version. -/
theorem Deed.unnoticed {deed : Deed} (hdeed : ∀ op, deed ≠ .act op)
    (busy : List NodeId) (w : World) (p : NodeId) :
    Calm w.forest (deed.run checks busy w).forest
      ∧ Raises p 0 w.forest (deed.run checks busy w).forest := by
  have hmoved : ∀ i k, Calm w.forest (w.move i k).forest
      ∧ Raises p 0 w.forest (w.move i k).forest := by
    intro i k
    unfold World.move
    split
    · exact ⟨.refl _, .refl p _⟩
    · exact ⟨.refl _, .refl p _⟩
  cases deed with
  | act op => exact absurd rfl (hdeed op)
  | start c =>
      refine Deed.run_start_with (P := fun v => Calm w.forest v.forest
        ∧ Raises p 0 w.forest v.forest) ⟨.refl _, .refl p _⟩ fun _ => ?_
      exact ⟨(World.alike_opened w c _).calm,
        ((raises_beginTraversal c.owner p).trans (raises_emit _ p)).trans
          (raises_hold c.owner p)⟩
  | next i => exact hmoved i _
  | reset i => exact hmoved i _
  | close i =>
      show Calm w.forest (w.close checks i).forest
        ∧ Raises p 0 w.forest (w.close checks i).forest
      unfold World.close
      split
      · exact ⟨.refl _, .refl p _⟩
      next x _ =>
        exact ⟨(alike_close x.cursor).calm.trans (calm_release _ x.owner),
          (x.cursor.raises_close p).trans (raises_release x.owner p)⟩

-- ================================================================ journeys

/-- The permit of operations that do not end with `notATree`. -/
def Unbroken : Permit := fun _ _ _ out =>
  ∀ a g, out ≠ .stop (.panic (.notATree a)) g

/-- The permit of operations that do not edit. -/
def Unedited : Permit := fun _ op _ _ => op.edits = false

variable {stack : List Frame} {u w : World}

/-- On an `Unbroken` journey, a node that lives on with the same version has
the same slots. -/
theorem Journeys.tracks (huw : Journeys checks Unbroken stack u w)
    (hu : u.Tallied checks (passes stack) (kept stack)) :
    Tracks (fun _ => False) u.forest w.forest := by
  induction huw with
  | refl => exact .refl _ _
  | @step stack u v deed huv hfeasible hpermit ih =>
      have hv := (huv.lasts (World.lasting_tallied checks Unbroken) hu).1
      refine (ih hu).trans ?_
      by_cases hdeed : ∃ op, deed = .act op
      · obtain ⟨op, rfl⟩ := hdeed
        exact Operation.tracks_steady hfeasible.2 hv.sound hfeasible.1
          hpermit
      · have hunnoticed : Calm v.forest (deed.run checks _ v).forest ∧ _ :=
          Deed.unnoticed (fun op hop => hdeed ⟨op, hop⟩) (passes stack) v
            default
        exact hunnoticed.1.tracks hunnoticed.2
  | @filter stack u v σ c judge st walks huv hc hwalks hcalls _ ih ihcalls =>
      have hP := World.lasting_tallied checks Unbroken
      obtain ⟨hv, -⟩ := huv.lasts hP hu
      obtain ⟨hbefore, ⟨g, hend⟩, -⟩ := hP.filtering hv hc hwalks rfl
        fun k j hk hj => (hcalls k j hk).lasts hP hj
      have hfiltered := tracks_removeAll hend fun j hj => by
        obtain ⟨k, hk⟩ := List.mem_iff_getElem?.mp hj
        exact ihcalls k j hk (hbefore k j hk)
      refine (ih hu).trans ?_
      rw [Operation.run, Outcome.state_always, Operation.body,
        Outcome.state_map]
      exact ((tracks_hold c.owner).trans hfiltered).trans
        (tracks_release _ c.owner)

/-- An `Unedited` journey raises no version. -/
theorem Journeys.raises (huw : Journeys checks Unedited stack u w)
    (hu : u.Tallied checks (passes stack) (kept stack)) (p : NodeId) :
    Raises p 0 u.forest w.forest := by
  induction huw with
  | refl => exact .refl p _
  | @step stack u v deed huv hfeasible hpermit ih =>
      have hv := (huv.lasts (World.lasting_tallied checks Unedited) hu).1
      suffices hraises : Raises p 0 v.forest
          (deed.run checks (passes stack) v).forest from
        (ih hu).trans hraises
      by_cases hdeed : ∃ op, deed = .act op
      · obtain ⟨op, rfl⟩ := hdeed
        have hquiet : op.edits = false := hpermit
        have hsingle : op.single = true ∧ op.isEdit = false := by
          have hsteady := hfeasible.1
          cases op with
          | create | build | hold | drop | setOperand | flags =>
              exact ⟨rfl, rfl⟩
          | setSlotChild | setChild | replaceWith | removeFromParent
          | change | replaceCurrent | notify => cases hquiet
          | removeAll | openCursor | closeCursor => cases hsteady
        exact Operation.raises_other hfeasible.2 hv.sound hsingle.1
          hsingle.2 p
      · exact (Deed.unnoticed (fun op hop => hdeed ⟨op, hop⟩) _ v p).2
  | filter _ _ _ _ hpermit => cases hpermit

/-- A filtering whose calls are `Unedited` raises the version of the owner by
one if it rejected, and no other version. -/
theorem World.Tallied.raises_removeAll {σ : Type} {judge : Judge σ} {st : σ}
    {walks : Nat → List Walk}
    (hw : w.Tallied checks (passes stack) (kept stack))
    (hc : c.Fits w.forest) (hwalks : walks 0 = w.walks)
    (hcalls : ∀ k j, (c.removalCalls checks judge
        (w.forest.hold c.owner, st))[k]? = some j →
      Journeys checks Unedited (⟨c.owner, j.node⟩ :: stack)
        ⟨j.before, walks k⟩ ⟨j.after, walks (k + 1)⟩) :
    Raises c.owner
      (if (c.removalCalls checks judge (w.forest.hold c.owner, st)).any
        Judgement.rejects = true then 1 else 0) w.forest
      ((Operation.removeAll c judge st).run checks w.forest).state := by
  have hP := World.lasting_tallied checks Unedited
  obtain ⟨hbefore, ⟨g, hend⟩, -⟩ := hP.filtering hw hc hwalks rfl
    fun k j hk hj => (hcalls k j hk).lasts hP hj
  apply Operation.raises_kept
  rw [Operation.body, Outcome.state_map]
  apply Collection.raises_removeAll hend
  intro j hj
  obtain ⟨k, hk⟩ := List.mem_iff_getElem?.mp hj
  exact (hcalls k j hk).raises (hbefore k j hk) c.owner

-- ============================================================= the theorem

/-- Between two points of an `Unbroken` journey: equal versions mean equal
slots, and each edit raises one version by one if it `commits`, and none
otherwise. -/
theorem Arrives.version_counts_edits (hu : Arrives checks Unbroken stack u)
    (huw : Journeys checks Unbroken stack u w) :
    -- who has the same version has the same slots
    (∀ n, u.forest.isAlive n = true → w.forest.isAlive n = true →
      (w.forest.node n).version = (u.forest.node n).version →
      (w.forest.node n).slots = (u.forest.node n).slots)
    -- an edit raises one version by one, and no other
    ∧ (∀ op : Operation, op.isEdit = true →
      (Deed.act op).Feasible (kept stack) w →
      (∀ a g, op.run checks w.forest ≠ .stop (.panic (.notATree a)) g) →
      let g := (op.run checks w.forest).state
      ∀ n, w.forest.isAlive n = true → g.isAlive n = true →
        (g.node n).version = (w.forest.node n).version
          + if n = op.owner w.forest ∧ op.commits checks w.forest = true
            then 1 else 0)
    -- so does a filtering that rejects something, whatever stops it then
    ∧ (∀ {σ : Type} (c : Collection) (judge : Judge σ) (st : σ)
        (walks : Nat → List Walk), c.Fits w.forest → walks 0 = w.walks →
      let calls := c.removalCalls checks judge (w.forest.hold c.owner, st)
      let g := ((Operation.removeAll c judge st).run checks w.forest).state
      (∀ k j, calls[k]? = some j →
        Journeys checks Unedited (⟨c.owner, j.node⟩ :: stack)
          ⟨j.before, walks k⟩ ⟨j.after, walks (k + 1)⟩) →
      ∀ n, w.forest.isAlive n = true → g.isAlive n = true →
        (g.node n).version = (w.forest.node n).version
          + if n = c.owner ∧ calls.any Judgement.rejects = true
            then 1 else 0)
    -- nobody else raises any
    ∧ ∀ deed : Deed, deed.Feasible (kept stack) w →
      (∀ op, deed = .act op → op.single = true ∧ op.isEdit = false) →
      let g := (deed.run checks (passes stack) w).forest
      ∀ n, w.forest.isAlive n = true → g.isAlive n = true →
        (g.node n).version = (w.forest.node n).version := by
  have hw : Arrives checks Unbroken stack w := hu.journeys huw
  have htallied := hw.tallied
  have hcommitted : ∀ {p : NodeId} {b : Bool} {g : Forest},
      Raises p (if b = true then 1 else 0) w.forest g →
      ∀ n, w.forest.isAlive n = true → g.isAlive n = true →
        (g.node n).version = (w.forest.node n).version
          + if n = p ∧ b = true then 1 else 0 := by
    intro p b g hraises n hf hg
    rw [hraises.version hf hg, ite_and]
  refine ⟨fun n hf hg => (huw.tracks hu.tallied).slots hf hg not_false,
    fun op hedit hfeasible hwhole => ?_,
    fun c judge st walks hc hwalks hcalls => ?_,
    fun deed hfeasible hdeed n => ?_⟩
  · exact hcommitted (Operation.raises_edit hfeasible.2 htallied.sound hedit
      hwhole)
  · exact hcommitted (htallied.raises_removeAll hc hwalks hcalls)
  · by_cases hact : ∃ op, deed = .act op
    · obtain ⟨op, rfl⟩ := hact
      obtain ⟨hsingle, hedit⟩ := hdeed op rfl
      exact (Operation.raises_other hfeasible.2 htallied.sound hsingle hedit
        default).version_eq
    · exact (Deed.unnoticed (fun op hop => hact ⟨op, hop⟩) _ w
        default).2.version_eq

/-- Between two looks at a block, an element was replaced and put back:
nobody can tell from the slots, but from the version. A judge that rejects
one element and gives up raises it again. -/
theorem Arrives.version_counts_edits_of_quitting :
    let c : Collection := ⟨⟨0⟩, 0⟩
    let before : List Deed :=
      [.act (.create .block .none), .act (.hold ⟨0⟩),
        .act (.create .nop .none), .act (.hold ⟨1⟩),
        .act (.create .ret .none), .act (.hold ⟨2⟩),
        .act (.change c (.addRange [⟨1⟩, ⟨1⟩]))]
    let between : List Deed :=
      [.act (.change c (.set 1 ⟨2⟩)), .act (.change c (.set 1 ⟨1⟩))]
    let u := World.after .strict before ⟨∅, []⟩
    let w := World.after .strict between u
    let op : Operation := .removeAll c (quittingJudge 1) 0
    let g := (op.run .strict w.forest).state
    (w.forest.node ⟨0⟩).slots = (u.forest.node ⟨0⟩).slots
      ∧ (w.forest.node ⟨0⟩).version = (u.forest.node ⟨0⟩).version + 2
      ∧ (w.forest.node ⟨1⟩).slots = (u.forest.node ⟨1⟩).slots
      ∧ op.run .strict w.forest = .stop (.panic .judgeFailed) g
      ∧ (g.node ⟨0⟩).version = (w.forest.node ⟨0⟩).version + 1 := by
  intro c before between u w op g
  have hpermits : ∀ locks (op : Operation) f g, op.single = true →
      Unbroken locks op f (.ok () g) := fun _ _ _ _ _ _ _ h => by cases h
  have hu : Arrives .strict Unbroken [] u :=
    .here (Journeys.of_finishes hpermits (by decide +kernel)
      (by decide +kernel))
  have huw : Journeys .strict Unbroken [] u w :=
    .of_finishes hpermits (by decide +kernel) (by decide +kernel)
  obtain ⟨hsame, -, hfiltered, -⟩ := Arrives.version_counts_edits hu huw
  have hjudged : ∀ j ∈ c.removalCalls .strict (quittingJudge 1)
      (w.forest.hold ⟨0⟩, 0), j.after = j.before := by decide +kernel
  have hraised := hfiltered c (quittingJudge 1) 0 (fun _ => w.walks)
    (by decide +kernel) rfl (fun k j hj => ?_) ⟨0⟩ (by decide +kernel)
    (by decide +kernel)
  · refine ⟨by decide +kernel, by decide +kernel, ?_, by decide +kernel, ?_⟩
    · exact hsame ⟨1⟩ (by decide +kernel) (by decide +kernel)
        (by decide +kernel)
    · exact hraised.trans (by decide +kernel)
  · rw [hjudged j (List.mem_of_getElem? hj)]
    exact .refl

end InstructionTree
