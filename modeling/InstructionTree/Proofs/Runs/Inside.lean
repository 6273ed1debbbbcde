/-
Cursors that are opened inside of a filtering.

While a pass is under way its owner is traversed, so its calls can not
restructure the collection, and neither can other filterings inside of
them. What is stored can change in three ways: a call replaces an element,
the pass displaces one between two calls, or it takes out what was
rejected in the end. A cursor that a call opened finds what it should as
long as nothing was displaced while it was open (`World.Inside`).

When the pass ends with cursors open on its owner, they are not waited
for: the elements that were rejected are taken out under them
(`Arrives.compacts_inside`).
-/
import InstructionTree.Proofs.Collection.Stored
import InstructionTree.Proofs.Runs.Enumeration

namespace InstructionTree

open Forest Collection

variable {checks : Checks} {c : Collection} {f g h : Forest} {p : NodeId}
  {locks busy : List NodeId} {w : World} {size : Nat} {calm : Prop}

-- =================================================================== staying

/-- A collection has `size` elements, and had as many whenever a cursor was
opened that is open on it. If all was calm, the cursors stand where they
should. -/
structure World.Stays (c : Collection) (size : Nat) (calm : Prop)
    (w : World) : Prop where
  length : c.length w.forest = size
  opened : ∀ x ∈ w.walks, x.owner = c.owner → x.opened.length = size
  steady : calm → ∀ x ∈ w.walks, x.owner = c.owner → x.Steady w.forest

/-- The invariant of calls while `c` is being filtered: the world is `Sane`,
`c` fits, its owner is busy, and `Stays` holds of the walks on it. -/
structure World.Inside (checks : Checks) (c : Collection) (size : Nat)
    (calm : Prop) (busy locks : List NodeId) (w : World) : Prop where
  sane : w.Sane checks busy locks
  fits : c.Fits w.forest
  filtered : c.owner ∈ busy
  stays : w.Stays c size calm

/-- A walk in a `Sane` world whose owner is that of `c` walks `c`: an owner has
one collection at most. -/
theorem World.Sane.collection_eq (hw : w.Sane checks busy locks)
    (hc : c.Fits w.forest) {x : Walk} (hx : x ∈ w.walks)
    (howner : x.owner = c.owner) : x.collection = c :=
  hc.unique (hw.fits x hx) hw.sound.toWellFormed howner

/-- `Stays` is kept by a step that changes no element of `c`. -/
theorem World.Stays.same (hw : w.Stays c size calm)
    (hwalks : ∀ x ∈ w.walks, x.owner = c.owner → x.collection = c)
    (hitems : c.items g = c.items w.forest) :
    World.Stays c size calm ⟨g, w.walks⟩ where
  length := (congrArg List.length hitems).trans hw.length
  opened := hw.opened
  steady hcalm x hx howner := by
    refine (hw.steady hcalm x hx howner).same ?_
    rw [hwalks x hx howner]
    exact hitems

namespace World.Inside

variable (hw : w.Inside checks c size calm busy locks)
include hw

theorem guarded (hchecks : checks.enforced = true) :
    w.forest.isGuarded checks c.owner = true :=
  hw.sane.guarded_of_mem hchecks
    (List.mem_append_right _ hw.filtered)

theorem locked : c.owner ∈ w.owners ++ locks :=
  List.mem_append_right _ (hw.sane.held _ hw.filtered)

/-- `Inside` is kept by a step that changes no element of `c`, if the world is
`Sane` after it and the owner is still busy. -/
theorem same {walked more : List NodeId}
    (hg : World.Sane checks walked more ⟨g, w.walks⟩)
    (hages : Ages w.forest g) (hfiltered : c.owner ∈ walked)
    (hitems : c.items g = c.items w.forest) :
    World.Inside checks c size calm walked more ⟨g, w.walks⟩ where
  sane := hg
  fits := hw.fits.ages hages (hg.alive_busy hfiltered)
  filtered := hfiltered
  stays := hw.stays.same (fun _ => hw.sane.collection_eq hw.fits) hitems

/-- `Inside` is kept by `Works` on a node other than the owner. -/
theorem works {more : List NodeId}
    (hg : World.Sane checks busy more ⟨g, w.walks⟩)
    (hfg : Works p w.forest g) (hp : c.owner ≠ p) :
    World.Inside checks c size calm busy more ⟨g, w.walks⟩ :=
  hw.same hg hfg.ages hw.filtered
    (items_works hfg (hg.alive_busy hw.filtered) hp)

/-- `Inside` is kept between `Alike` forests. -/
theorem alike {walked more : List NodeId}
    (hg : World.Sane checks walked more ⟨g, w.walks⟩)
    (hfg : Alike w.forest g) (hfiltered : c.owner ∈ walked) :
    World.Inside checks c size calm walked more ⟨g, w.walks⟩ :=
  hw.same hg hfg.ages hfiltered (slot_congr (hfg.slots c.owner) c.slot)

/-- `Inside` is kept by a `single` operation, which replaces at most one
element. -/
theorem act (hchecks : checks.enforced = true) {op : Operation}
    (hop : op.single = true)
    (hready : op.Ready (w.owners ++ locks) w.forest) :
    World.Inside checks c size calm busy locks
      ⟨(op.run checks w.forest).state,
        w.walks.map (Walk.replaced (op.replacement? w.forest))⟩ := by
  have hsane := hw.sane.act hchecks hop hready
  have hages : Ages w.forest (op.run checks w.forest).state :=
    (hw.sane.toTallied.act (op.steady_of_single hop) hready).2
  have hitems := Operation.items_run hop hready hw.sane.sound hw.fits
    hw.locked (hw.guarded hchecks)
  refine ⟨hsane, hw.fits.ages hages (hsane.alive_busy hw.filtered),
    hw.filtered, ?_, ?_, ?_⟩
  · refine (congrArg List.length hitems).trans ?_
    rw [Replacement.length_stored]
    exact hw.stays.length
  · intro y hy howner
    obtain ⟨x, hx, rfl⟩ := List.mem_map.mp hy
    exact hw.stays.opened x hx howner
  · intro hcalm y hy howner
    obtain ⟨x, hx, rfl⟩ := List.mem_map.mp hy
    refine (hw.stays.steady hcalm x hx howner).replaced ?_
    rw [hw.sane.collection_eq hw.fits hx howner]
    exact hitems

/-- `Inside` is kept when a cursor is opened, on `c` as on any other
collection. -/
theorem opened {d : Collection} (hd : d.Fits w.forest)
    (hroom : w.forest.isSpent checks d.owner = false) :
    (w.opened d (!busy.contains d.owner)).Inside checks c size calm busy
      locks := by
  have halike := alike_opened w d (!busy.contains d.owner)
  have hitems : ∀ b : Collection,
      b.items (w.opened d (!busy.contains d.owner)).forest
        = b.items w.forest :=
    fun b => slot_congr (halike.slots b.owner) b.slot
  refine ⟨hw.sane.opened hd hroom, hw.fits.alike halike,
    hw.filtered, ?_, ?_, ?_⟩
  · exact (congrArg List.length (hitems c)).trans hw.stays.length
  · intro x hx howner
    rcases List.mem_append.mp hx with hx | hx
    · exact hw.stays.opened x hx howner
    · obtain rfl := List.mem_singleton.mp hx
      obtain rfl := hw.fits.unique hd hw.sane.sound.toWellFormed howner
      exact hw.stays.length
  · intro hcalm x hx howner
    rcases List.mem_append.mp hx with hx | hx
    · exact (hw.stays.steady hcalm x hx howner).same (hitems _)
    · obtain rfl := List.mem_singleton.mp hx
      exact (Walk.Steady.start d _ w.forest).same (hitems d)

/-- `Inside` is kept when the cursor at `i` is asked for its next element. -/
theorem moved (i : Nat) :
    (w.move i (Walk.next w.forest)).Inside checks c size calm busy locks := by
  have hsane := hw.sane.moved i
  unfold World.move at hsane ⊢
  cases hi : w.walks[i]? with
  | none => exact hw
  | some x =>
      rw [hi] at hsane
      have hx : x ∈ w.walks := List.mem_of_getElem? hi
      have hsame : (x.next w.forest).owner = x.owner :=
        congrArg Collection.owner (x.cursor.collection_next w.forest)
      refine ⟨hsane, hw.fits, hw.filtered, hw.stays.length, ?_, ?_⟩
      · intro y hy howner
        rcases List.mem_or_eq_of_mem_set hy with hy | rfl
        · exact hw.stays.opened y hy howner
        · exact hw.stays.opened x hx (hsame.symm.trans howner)
      · intro hcalm y hy howner
        rcases List.mem_or_eq_of_mem_set hy with hy | rfl
        · exact hw.stays.steady hcalm y hy howner
        · exact (hw.stays.steady hcalm x hx (hsame.symm.trans howner)).next

/-- `Inside` is kept when the cursor at `i` is closed. -/
theorem closed (i : Nat) :
    (w.close checks i).Inside checks c size calm busy locks := by
  have hsane := hw.sane.closed i
  unfold World.close at hsane ⊢
  cases hi : w.walks[i]? with
  | none => exact hw
  | some x =>
      rw [hi] at hsane
      have hend : Alike w.forest (x.cursor.close checks w.forest).state :=
        alike_close x.cursor
      -- letting go of the owner is work on anybody else
      obtain ⟨p, hother⟩ := exists_ne c.owner
      have hitems : c.items
          ((x.cursor.close checks w.forest).state.release x.owner)
            = c.items w.forest := by
        rw [items_works (works_release x.owner p)
          (hsane.alive_busy hw.filtered) hother.symm]
        exact slot_congr (hend.slots c.owner) c.slot
      have hstays := hw.stays.same
        (fun _ => hw.sane.collection_eq hw.fits) hitems
      refine ⟨hsane, hw.fits.ages (hend.ages.trans (ages_release ..))
        (hsane.alive_busy hw.filtered), hw.filtered,
        hstays.length, ?_, ?_⟩
      · exact fun y hy => hstays.opened y (List.mem_of_mem_eraseIdx hy)
      · exact fun hcalm y hy =>
          hstays.steady hcalm y (List.mem_of_mem_eraseIdx hy)

end World.Inside

/-- `Inside` lasts on `Touring` journeys, so it holds at the end of every call.
-/
theorem World.lasting_inside (hchecks : checks.enforced = true)
    (c : Collection) (size : Nat) (calm : Prop) :
    World.Lasting checks Touring (World.Inside checks c size calm) where
  tallied hw := hw.sane.toTallied
  does {busy locks w} deed hw hfeasible hpermit := by
    cases deed with
    | act op =>
        rcases hpermit with hfilters | hsingle
        · rw [op.unfiltered_of_steady hfeasible.1] at hfilters
          cases hfilters
        · exact hw.act hchecks hsingle hfeasible.2
    | start d =>
        exact Deed.run_start_with hw fun hroom => hw.opened hfeasible hroom
    | next i => exact hw.moved i
    | reset i =>
        rw [Deed.reset_enforced hchecks]
        exact hw
    | close i => exact hw.closed i
  hold hw hn := hw.alike (hw.sane.hold hn) (alike_hold _) hw.filtered
  release {_ _ f walks n} hw hheld := by
    obtain ⟨p, hother⟩ := exists_ne c.owner
    exact hw.works (hw.sane.release hheld) (works_release n p) hother.symm
  report hw e := hw.alike (hw.sane.report e) (alike_emit e) hw.filtered
  begun hw hp hguard := hw.alike (hw.sane.begun hchecks hp hguard)
    (alike_beginTraversal _) (.tail _ hw.filtered)
  touches {_ _ f walks p g} hw hbegins hfg := by
    obtain ⟨_, v, hv, hguard⟩ := hbegins
    refine hw.works (hw.sane.touches (.head _) hfg) hfg.works ?_
    rintro rfl
    rw [hv.guarded hchecks] at hguard
    cases hguard
  ended {_ _ f walks p g} hw hbegins hend := by
    obtain ⟨_, v, hv, -⟩ := hbegins
    have halike := alike_endTraversal (f := f) checks p
    rw [hend] at halike
    exact hw.alike (hw.sane.ended hend) halike hv.filtered
  commit hw := hw.alike hw.sane.commit (alike_commit _) hw.filtered

-- ==================================================================== a pass

/-- Before call `k` nothing was displaced while a cursor was open on `o`. -/
def Undisturbed (calls : List Judgement) (walks : Nat → List Walk)
    (o : NodeId) (k : Nat) : Prop :=
  ∀ i < k, displaces calls i = true → ∀ x ∈ walks (i + 1), x.owner ≠ o

/-- If no call rejects, then every call is `Undisturbed`: nothing was displaced
before it. -/
theorem undisturbed_of_kept {calls : List Judgement}
    (hnone : calls.any Judgement.rejects = false)
    (walks : Nat → List Walk) (o : NodeId) (k : Nat) :
    Undisturbed calls walks o k := by
  intro i _ hdisplaces
  rw [displaces, Bool.and_eq_true] at hdisplaces
  obtain ⟨j, hj, hrejects⟩ := List.any_eq_true.mp hdisplaces.2
  rw [List.any_eq_false] at hnone
  exact absurd hrejects (hnone j (List.mem_of_mem_take hj))

section

variable {stack : List Frame} {walks : Nat → List Walk} {count : Nat}
  {last : Pass} {calls : List Judgement} {stopped : Option Stop}

/-- A run of a pass, from call to call: all stays as it should, until
something is displaced while a cursor is open. -/
theorem Collection.Sifts.stays
    (hsifts : Sifts c count ⟨0, 0, 0⟩ f calls last stopped h)
    (hf : c.length f = size) (hclosed : ∀ x ∈ walks 0, x.owner ≠ c.owner)
    (hbefore : ∀ k j, calls[k]? = some j →
      World.Sane checks (c.owner :: busy) (j.node :: locks)
          ⟨j.before, walks k⟩ ∧ c.Fits j.before)
    (hend : h.isAlive c.owner = true)
    (hcalls : ∀ k j, calls[k]? = some j → ∀ calm,
      World.Inside checks c size calm (c.owner :: busy) (j.node :: locks)
        ⟨j.before, walks k⟩ →
      World.Inside checks c size calm (c.owner :: busy) (j.node :: locks)
        ⟨j.after, walks (k + 1)⟩) :
    ∀ k ≤ calls.length,
      World.Stays c size (Undisturbed calls walks c.owner k)
        ⟨Judgement.following h (calls.drop k), walks k⟩ := by
  have halive : ∀ k,
      (Judgement.following h (calls.drop k)).isAlive c.owner = true := by
    intro k
    cases hk : calls[k]? with
    | none =>
        rw [List.drop_eq_nil_of_le (List.getElem?_eq_none_iff.mp hk)]
        exact hend
    | some j =>
        obtain ⟨hlt, rfl⟩ := List.getElem?_eq_some_iff.mp hk
        rw [List.drop_eq_getElem_cons hlt]
        exact (hbefore k _ hk).2.alive
  intro k
  induction k with
  | zero =>
      intro _
      have hitems : c.items (Judgement.following h calls) = c.items f :=
        slot_congr (hsifts.following.slots c.owner) c.slot
      exact ⟨(congrArg List.length hitems).trans hf,
        fun x hx howner => absurd howner (hclosed x hx),
        fun _ x hx howner => absurd howner (hclosed x hx)⟩
  | succ k ih =>
      intro hlt
      have hstays := ih (Nat.le_of_lt hlt)
      have hj : calls[k]? = some calls[k] := List.getElem?_eq_getElem hlt
      rw [List.drop_eq_getElem_cons hlt] at hstays
      obtain ⟨hsane, hfits⟩ := hbefore k _ hj
      have hafter := hcalls k _ hj _ ⟨hsane, hfits, .head _, hstays⟩
      obtain ⟨hlength, hitems⟩ := hsifts.hands_on rfl hj
        hafter.sane.sound.toWellFormed hafter.fits (halive (k + 1))
      refine ⟨hlength.trans hafter.stays.length, hafter.stays.opened,
        fun hcalm x hx howner => ?_⟩
      have hcalm' : Undisturbed calls walks c.owner k :=
        fun i hi => hcalm i (Nat.lt_succ_of_lt hi)
      refine (hafter.stays.steady hcalm' x hx howner).same ?_
      rw [hafter.sane.collection_eq hafter.fits hx howner]
      refine hitems fun hkeeps => ⟨rfl, ?_⟩
      -- a cursor is open, so nothing is displaced
      cases hany : (calls.take k).any Judgement.rejects with
      | false => rfl
      | true =>
          refine absurd howner (hcalm k (Nat.lt_succ_self k) ?_ x hx)
          rw [displaces, hj, hany, Bool.and_true]
          exact hkeeps

/-- The end of a pass takes out as many elements as were rejected, and leaves
the elements as they are if none was. -/
theorem Collection.Sifts.ends
    (hsifts : Sifts c count ⟨0, 0, 0⟩ f calls last stopped h)
    (hwf : h.WellFormed) (hc : c.Fits h) (hcount : c.length h = count)
    (halive : (last.finish checks c h).state.isAlive c.owner = true) :
    c.length (last.finish checks c h).state
        + calls.countP Judgement.rejects = count
      ∧ (calls.any Judgement.rejects = false →
        c.items (last.finish checks c h).state = c.items h) := by
  have hend : Alike (last.compact c h) (last.finish checks c h).state :=
    alike_finish last
  have hitems : c.items (last.finish checks c h).state
      = c.items (last.compact c h) := slot_congr (hend.slots c.owner) c.slot
  have hjudged := hsifts.judged_le
  have hrejected := hsifts.rejected_eq
  rw [Nat.zero_add] at hjudged hrejected
  obtain ⟨hlength, hsame⟩ := (hsifts.balanced rfl).compact hwf hc
    (hjudged.trans_eq hcount.symm) ((hend.alive _).symm.trans halive)
  refine ⟨?_, fun hnone => hitems.trans (hsame ?_)⟩
  · rw [← hrejected, ← hcount, ← hlength]
    exact congrArg (· + last.rejected) (congrArg List.length hitems)
  · rw [hrejected, List.countP_eq_zero]
    exact List.any_eq_false.mp hnone

variable {σ : Type} {judge : Judge σ} {st : σ}

variable (hchecks : checks.enforced = true)
  (hw : w.Sane checks (passes stack) (kept stack)) (hc : c.Fits w.forest)
  (hguard : w.forest.isGuarded checks c.owner = false)
  (hwalks : walks 0 = w.walks)
  (hmade : c.removalCalls checks judge (w.forest.hold c.owner, st) = calls)
  (hcalls : ∀ k j, calls[k]? = some j →
    Journeys checks Touring (⟨c.owner, j.node⟩ :: stack)
      ⟨j.before, walks k⟩ ⟨j.after, walks (k + 1)⟩)
include hchecks hw hc hguard hwalks hmade hcalls

/-- A pass whose calls are tours: in all of them, and after the last one,
all stays as it should until something is displaced while a cursor is
open. -/
theorem World.Sane.sifting :
    (∀ k j, calls[k]? = some j →
      World.Inside checks c (c.length w.forest)
        (Undisturbed calls walks c.owner k) (c.owner :: passes stack)
        (j.node :: c.owner :: kept stack) ⟨j.before, walks k⟩)
    ∧ ∃ last stopped h,
      Sifts c (c.length w.forest) ⟨0, 0, 0⟩
        ((w.forest.hold c.owner).beginTraversal c.owner) calls last stopped h
      ∧ World.Inside checks c (c.length w.forest)
        (Undisturbed calls walks c.owner calls.length)
        (c.owner :: passes stack) (c.owner :: kept stack)
        ⟨h, walks calls.length⟩
      ∧ ((Operation.removeAll c judge st).run checks w.forest).state
        = (last.finish checks c h).state.release c.owner := by
  have hP : World.Lasting checks Touring (World.Sane checks) :=
    World.lasting_sane hchecks
  have hguard' : (w.forest.hold c.owner).isGuarded checks c.owner = false :=
    (isGuarded_holdAll (f := w.forest) [c.owner] c.owner).trans hguard
  have hbegun := hP.begun (hP.hold hw hc.alive) (.head _) hguard'
  have halike := (alike_hold (f := w.forest) c.owner).trans
    (alike_beginTraversal c.owner)
  have hfits := hc.alike halike
  have hstart : ∀ {g : Forest}, Alike w.forest g →
      c.length g = c.length w.forest := fun hg =>
    congrArg List.length (slot_congr (hg.slots c.owner) c.slot)
  have hclosed : ∀ x ∈ walks 0, x.owner ≠ c.owner := by
    intro x hx howner
    rw [hwalks] at hx
    exact hw.closed_of_unguarded hchecks hguard (howner ▸ owner_mem hx)
  obtain ⟨last, stopped, h, hsifts, -, hstate⟩ :=
    removeAll_unguarded checks c judge st hguard'
  rw [hmade, hstart (alike_hold c.owner)] at hsifts
  obtain ⟨hbefore, hafter⟩ := hP.sifted hbegun ⟨_, w, hw, hguard⟩ hfits
    hwalks hsifts fun k j hk _ hj => (hcalls k j hk).lasts hP hj
  obtain ⟨hlast, hages⟩ := hafter (Nat.le_refl _)
  have hlastfits := hfits.ages hages (hlast.alive_busy (.head _))
  have hknown : ∀ k j, calls[k]? = some j →
      World.Sane checks (c.owner :: passes stack)
          (j.node :: c.owner :: kept stack) ⟨j.before, walks k⟩
        ∧ c.Fits j.before := by
    intro k j hk
    obtain ⟨hsane, hages⟩ := hbefore k j hk
      (Nat.le_of_lt (List.getElem?_eq_some_iff.mp hk).1)
    exact ⟨hsane, hfits.ages hages (hsane.alive_busy (.head _))⟩
  have hstays := hsifts.stays (hstart halike) hclosed hknown hlastfits.alive
    fun k j hk calm hj => ((hcalls k j hk).lasts
      (World.lasting_inside hchecks c _ calm) hj).1
  refine ⟨fun k j hk => ?_, last, stopped, h, hsifts, ?_, ?_⟩
  · obtain ⟨hlt, rfl⟩ := List.getElem?_eq_some_iff.mp hk
    have hstay := hstays k (Nat.le_of_lt hlt)
    rw [List.drop_eq_getElem_cons hlt] at hstay
    exact ⟨(hknown k _ hk).1, (hknown k _ hk).2, .head _, hstay⟩
  · have hstay := hstays calls.length (Nat.le_refl _)
    rw [List.drop_length] at hstay
    exact ⟨hlast, hlastfits, .head _, hstay⟩
  · rw [Operation.run, Outcome.state_always, Operation.body,
      Outcome.state_map]
    exact congrArg (Forest.release · c.owner) hstate

/-- The cursors on `c` that are open when its filtering has ended: what they
were opened on, and what is stored under them now. -/
theorem World.Sane.sifted {x : Walk} (hx : x ∈ walks calls.length)
    (howner : x.owner = c.owner) :
    let out := ((Operation.removeAll c judge st).run checks w.forest).state
    x.collection = c ∧ x.opened.length = c.length w.forest
      ∧ c.length out + calls.countP Judgement.rejects = c.length w.forest
      ∧ (calls.any Judgement.rejects = false → x.Steady out) := by
  intro out
  obtain ⟨-, last, stopped, h, hsifts, hinside, hout⟩ :=
    hw.sifting hchecks hc hguard hwalks hmade hcalls
  have hcollection := hinside.sane.collection_eq hinside.fits hx howner
  have hP : World.Lasting checks Touring (World.Sane checks) :=
    World.lasting_sane hchecks
  obtain ⟨g, hfinish, -, hdone⟩ := hP.finished hinside.sane
    ⟨_, w, hw, hguard⟩ hinside.fits last
  rw [hfinish] at hout
  -- the cursor keeps the owner alive
  have hg : g.isAlive c.owner = true := by
    rw [← howner]
    exact (hdone.fits x hx).alive
  have halive : (g.release c.owner).isAlive c.owner = true := by
    have hkept := hP.release hdone hw.held
    rw [← howner]
    rw [← howner] at hkept
    exact (hkept.fits x hx).alive
  obtain ⟨hlength, hsame⟩ := hsifts.ends hinside.sane.sound.toWellFormed
    hinside.fits hinside.stays.length
    (show (last.finish checks c _).state.isAlive c.owner = true by
      rw [hfinish]
      exact hg)
  rw [hfinish] at hlength hsame
  obtain ⟨p, hother⟩ := exists_ne c.owner
  have hitems : c.items out = c.items g := by
    show c.items ((Operation.removeAll c judge st).run checks
      w.forest).state = _
    rw [hout]
    exact items_works (works_release c.owner p) halive hother.symm
  refine ⟨hcollection, hinside.stays.opened x hx howner, ?_, fun hnone => ?_⟩
  · exact (congrArg (List.length · + _) hitems).trans hlength
  · refine (hinside.stays.steady (undisturbed_of_kept hnone walks c.owner _)
      x hx howner).same ?_
    rw [hcollection]
    exact hitems.trans (hsame hnone)

end

-- ============================================================= the theorem

/-- Of all that a client can do next, nothing changes the length of the
collection or moves an element: an operation replaces one element at most,
and structural edits are refused. -/
structure World.Holds (checks : Checks) (locks : List NodeId)
    (c : Collection) (w : World) : Prop where
  replaces : ∀ op : Operation, op.single = true →
    op.Ready (w.owners ++ locks) w.forest →
    c.items (op.run checks w.forest).state
      = Replacement.stored c (c.items w.forest) (op.replacement? w.forest)
  refuses : ∀ op : Operation, op.Restructures w.forest c →
    op.calls checks (w.forest.holdAll op.keeps) = []
    ∧ op.run checks w.forest = (refusal c.owner
        (w.forest.holdAll op.keeps)).always fun g => g.releaseAll op.keeps

/-- In a `Sane` world a collection whose owner is guarded `Holds`: nothing but
replacements changes it. -/
theorem World.Sane.holds (hw : w.Sane checks busy locks)
    (hguard : w.forest.isGuarded checks c.owner = true)
    (hc : c.Fits w.forest) (ho : c.owner ∈ w.owners ++ locks) :
    w.Holds checks locks c where
  replaces _ hop hready :=
    Operation.items_run hop hready hw.sound hc ho hguard
  refuses _ hop := ⟨(hop.refused hc hguard).2, (hop.refused hc hguard).1⟩

/-- A filtering whose calls are tours, and the cursors that are opened in
them on its owner. -/
theorem Arrives.enumerates_inside (hchecks : checks.enforced = true)
    {stack : List Frame} {w : World} (hw : Arrives checks Touring stack w)
    {σ : Type} {c : Collection} {judge : Judge σ} {st : σ}
    {walks : Nat → List Walk} (hc : c.Fits w.forest)
    (hguard : w.forest.isGuarded checks c.owner = false)
    (hwalks : walks 0 = w.walks)
    (hcalls : ∀ k j, (c.removalCalls checks judge
        (w.forest.hold c.owner, st))[k]? = some j →
      Journeys checks Touring (⟨c.owner, j.node⟩ :: stack)
        ⟨j.before, walks k⟩ ⟨j.after, walks (k + 1)⟩) :
    let calls := c.removalCalls checks judge (w.forest.hold c.owner, st)
    let out := ((Operation.removeAll c judge st).run checks w.forest).state
    -- wherever a call leads, also into further filterings, nobody changes
    -- the length of the collection, and cursors find it as it was, as long
    -- as the pass displaces nothing between two calls under a cursor
    (∀ k j, calls[k]? = some j → ∀ frames v,
      Within checks Touring (⟨c.owner, j.node⟩ :: stack)
        ⟨j.before, walks k⟩ frames v →
      v.Holds checks (kept frames) c ∧ c.length v.forest = c.length w.forest
      ∧ ∀ x ∈ v.walks, x.owner = c.owner →
        x.opened.length = c.length w.forest
        ∧ (Undisturbed calls walks c.owner k → x.Steady v.forest))
    -- in the end it loses what was rejected, whoever walks it
    ∧ (∀ x ∈ walks calls.length, x.owner = c.owner →
      c.length out + calls.countP Judgement.rejects = x.opened.length
      ∧ (calls.any Judgement.rejects = false → x.Steady out))
    -- and from then on nobody moves it while a cursor is open
    ∧ ∀ frames v,
      Within checks Touring stack ⟨out, walks calls.length⟩ frames v →
      ∀ x ∈ v.walks, v.Holds checks (kept frames) x.collection := by
  intro calls out
  have hP : World.Lasting checks Touring (World.Sane checks) :=
    World.lasting_sane hchecks
  have hsane : w.Sane checks (passes stack) (kept stack) :=
    Within.lasts hw hP (.empty checks)
  obtain ⟨hbefore, -⟩ := hsane.sifting hchecks hc hguard hwalks rfl hcalls
  obtain ⟨-, -, hout⟩ := hP.filtering hsane hc hwalks rfl
    fun k j hk hj => (hcalls k j hk).lasts hP hj
  refine ⟨fun k j hj frames v hv => ?_, fun x hx howner => ?_,
    fun frames v hv x hx => ?_⟩
  · have hinside := hv.lasts (World.lasting_inside hchecks c _ _)
      (hbefore k j hj)
    exact ⟨hinside.sane.holds (hinside.guarded hchecks) hinside.fits
        hinside.locked, hinside.stays.length, fun x hx howner =>
      ⟨hinside.stays.opened x hx howner,
        fun hcalm => hinside.stays.steady hcalm x hx howner⟩⟩
  · obtain ⟨-, hopened, hlength, hsteady⟩ := hsane.sifted hchecks hc hguard
      hwalks rfl hcalls hx howner
    exact ⟨hlength.trans hopened.symm, hsteady⟩
  · have hlater := hv.lasts hP hout.1
    exact hlater.holds (hlater.guarded hchecks hx)
      (hlater.fits x hx) (List.mem_append_left _ (World.owner_mem hx))

/-- A judge that opens a cursor on `c` and rejects what it is shown. -/
def walkingJudge (c : Collection) : Judge Unit := fun _ s =>
  .ok true ((Cursor.start c s.1).2.hold c.owner, s.2)

/-- The cursors before call `k`, if the only call opens one at `f`. -/
def walkedOnce (c : Collection) (f : Forest) (k : Nat) : List Walk :=
  if k = 0 then [] else [Walk.start c false f]

/-- If there is one call, and it opens a cursor on `c`, the walks before and
after it are those of `walkedOnce`. -/
theorem Journeys.walkedOnce {permits : Permit} {stack : List Frame}
    {calls : List Judgement} {n : NodeId} (hc : c.Fits f)
    (hroom : f.isSpent checks c.owner = false)
    (hcalls : calls.map (fun j => (j.node, j.before, j.after))
      = [(n, f, (Cursor.start c f).2.hold c.owner)]) :
    ∀ k j, calls[k]? = some j →
      Journeys checks permits (⟨c.owner, j.node⟩ :: stack)
        ⟨j.before, walkedOnce c f k⟩ ⟨j.after, walkedOnce c f (k + 1)⟩ := by
  intro k j hj
  have hcall := congrArg (fun list => list[k]?) hcalls
  rw [List.getElem?_map, hj, Option.map_some] at hcall
  cases k with
  | succ k => cases hcall
  | zero =>
      have hsame := Option.some.inj hcall
      obtain ⟨hnode, hends⟩ := Prod.mk.inj hsame
      obtain ⟨hbefore, hafter⟩ := Prod.mk.inj hends
      have hstart : Journeys checks permits (⟨c.owner, n⟩ :: stack)
          ⟨f, []⟩ ((Deed.start c).run checks
            (passes (⟨c.owner, n⟩ :: stack)) ⟨f, []⟩) := .start hc
      have hopened : (Deed.start c).run checks
          (passes (⟨c.owner, n⟩ :: stack)) ⟨f, []⟩
            = World.opened ⟨f, []⟩ c false := by
        rw [Deed.run, Cursor.opening, unlessSpent, hroom]
        simp [passes]
      rw [hopened] at hstart
      rw [hnode, hbefore, hafter]
      exact hstart

/-- A block with one element. -/
def World.single : World :=
  World.after .strict
    [.act (.create .block .none), .act (.hold ⟨0⟩),
      .act (.create .ret .none), .act (.hold ⟨1⟩),
      .act (.change ⟨⟨0⟩, 0⟩ (.add ⟨1⟩))] ⟨∅, []⟩

/-- The cursor that `walkingJudge` opens on it. -/
def Walk.single : Walk := ⟨⟨⟨⟨0⟩, 0⟩, .notStarted⟩, [⟨1⟩], [⟨1⟩], 0, false⟩

/-- The filtering of `World.single` with `walkingJudge` makes one call, in
which the cursor is opened. -/
private theorem walkedOnce_single :
    let c : Collection := ⟨⟨0⟩, 0⟩
    let w := World.single
    Journeys .strict Touring [] ⟨∅, []⟩ w ∧ w.walks = [] ∧ c.Fits w.forest
      ∧ w.forest.isGuarded .strict ⟨0⟩ = false
      ∧ ∃ first, c.Fits first ∧ first.isSpent .strict ⟨0⟩ = false
        ∧ Walk.start c false first = Walk.single
        ∧ (c.removalCalls .strict (walkingJudge c) (w.forest.hold ⟨0⟩, ())).map
            (fun j => (j.node, j.before, j.after))
          = [(⟨1⟩, first, (Cursor.start c first).2.hold ⟨0⟩)] := by
  intro c w
  have hallows : World.Allows .strict
      [.act (.create .block .none), .act (.hold ⟨0⟩),
        .act (.create .ret .none), .act (.hold ⟨1⟩),
        .act (.change c (.add ⟨1⟩))] ⟨∅, []⟩ := by decide +kernel
  have hw : Journeys .strict Touring [] ⟨∅, []⟩ w :=
    Journeys.of_allows hallows
  exact ⟨hw, by decide +kernel, by decide +kernel, by decide +kernel,
    ((w.forest.hold ⟨0⟩).beginTraversal ⟨0⟩).hold ⟨1⟩, by decide +kernel,
    by decide +kernel, by decide +kernel, by decide +kernel⟩

/-- In the call the cursor finds the element; in the end the collection has
lost it. -/
theorem Arrives.enumerates_inside_single :
    let c : Collection := ⟨⟨0⟩, 0⟩
    let w := World.single
    let calls := c.removalCalls .strict (walkingJudge c)
      (w.forest.hold ⟨0⟩, ())
    let out := ((Operation.removeAll c (walkingJudge c) ()).run .strict
      w.forest).state
    (∃ j, calls[0]? = some j ∧ Walk.single.Steady j.after)
      ∧ c.length out + 1 = Walk.single.opened.length := by
  intro c w calls out
  obtain ⟨hw, hclosed, hfits, hguard, first, hfirst, hroom, hopened,
    hmade⟩ := walkedOnce_single
  have hrejects : calls.countP Judgement.rejects = 1 := by decide +kernel
  have hcalls : ∀ k j, calls[k]? = some j →
      Journeys .strict Touring [⟨c.owner, j.node⟩]
        ⟨j.before, walkedOnce c first k⟩
        ⟨j.after, walkedOnce c first (k + 1)⟩ :=
    Journeys.walkedOnce hfirst hroom hmade
  have hlength := congrArg List.length hmade
  rw [List.length_map] at hlength
  obtain ⟨hinside, hend, -⟩ := Arrives.enumerates_inside rfl (.here hw) hfits
    hguard hclosed.symm hcalls
  obtain ⟨j, hj⟩ : ∃ j, calls[0]? = some j :=
    ⟨_, List.getElem?_eq_getElem (hlength ▸ Nat.zero_lt_one)⟩
  have hopen : ∀ k, walkedOnce c first (k + 1) = [Walk.single] := by
    intro k
    rw [← hopened]
    rfl
  constructor
  · refine ⟨j, hj, ?_⟩
    obtain ⟨-, -, hsteady⟩ := hinside 0 j hj _ _ (.here (hcalls 0 j hj))
    refine (hsteady Walk.single ?_ rfl).2 fun i hi => absurd hi i.not_lt_zero
    show Walk.single ∈ walkedOnce c first (0 + 1)
    rw [hopen]
    exact .head _
  · rw [hlength, List.length_singleton] at hend
    have hx : Walk.single ∈ walkedOnce c first 1 := by
      rw [hopen]
      exact .head _
    rw [← hrejects]
    exact (hend Walk.single hx rfl).1

/-- Filtering `World.single` with `walkingJudge` takes the element out though
the cursor on it is open. -/
theorem Arrives.compacts_inside :
    let c : Collection := ⟨⟨0⟩, 0⟩
    let out := ((Operation.removeAll c (walkingJudge c) ()).run .strict
      World.single.forest).state
    Arrives .strict Touring [] ⟨out, [Walk.single]⟩
      ∧ (out.node ⟨0⟩).depth.shown = 1 ∧ Walk.single.opened = [⟨1⟩]
      ∧ c.items World.single.forest = [⟨1⟩] ∧ c.items out = []
      ∧ (Walk.single.cursor.next out).1 = none := by
  intro c out
  obtain ⟨hw, hclosed, hfits, -, first, hfirst, hroom, hopened, hmade⟩ :=
    walkedOnce_single
  have hlength := congrArg List.length hmade
  rw [List.length_map] at hlength
  have hall := hw.filter hfits hclosed.symm
    (Journeys.walkedOnce hfirst hroom hmade) (.inl rfl)
  rw [hlength] at hall
  refine ⟨.here ?_, by decide +kernel, rfl, by decide +kernel,
    by decide +kernel, by decide +kernel⟩
  rw [← hopened]
  exact hall

end InstructionTree
