/-
Traversals are counted.

The depth of a node is the number of cursors that are open on its
collection and of filterings of it that are under way (`World.Tallied`),
with checks or without, as far as its counter can tell (`Tells`): without
checks it starts over when one traversal more is opened than it can count.
Nobody but cursors and filterings counts: a steady operation works on one
node and counts nothing, whether it is done, or refused, or breaks off.
What was counted in can be counted out, so a cursor that is open can be
closed (`World.Tallied.closes`), and a pass that was begun can be ended
(`World.Tallied.ended`).
-/
import InstructionTree.Proofs.Runs.Journeys

namespace InstructionTree

open Forest Collection

variable {checks : Checks} {f g : Forest} {n o p : NodeId} {c : Collection}
  {locks : List NodeId} {op : Operation}

-- ============================================================= traversals

namespace Forest

/-- An edit that was `Carried` out never panics with `unbalancedTraversal`. -/
theorem Carried.balanced {α : Type} {out : Outcome Forest α}
    (hout : Carried checks o f out) (a : Opcode) (g : Forest) :
    out ≠ .stop (.panic (.unbalancedTraversal a)) g := by
  rintro rfl
  cases hout

end Forest

namespace Operation

/-- A `steady` operation `Works` on one node. -/
theorem works_steady (hop : op.steady = true) (hready : op.Ready locks f)
    (hs : f.Sound checks locks) : ∃ p, Works p f (op.run checks f).state := by
  cases op with
  | notify o r =>
      refine ⟨o, ?_⟩
      rw [run, Outcome.state_always]
      show Works o f (r.deliver checks o f).state
      cases r with
      | attach n =>
          have htried : Tried checks o f (Forest.attach checks o n f) :=
            tried_attach hready.1 (hready.2 n (.head _))
          exact htried.touches.works
      | detach n =>
          have htouches : Touches checks o f (f.detach o n) :=
            .single (.leave n)
          exact htouches.works
      | commit => exact works_commit o o
      | requireUntraversed =>
          have hcarried : Carried checks o f (requireUntraversed checks o f) :=
            carried_requireUntraversed
          exact hcarried.works
      | beginTraversal | endTraversal => cases hop
  | removeAll | openCursor | closeCursor => cases hop
  | create | build | hold | drop | setOperand | flags | setSlotChild
  | setChild | replaceWith | removeFromParent | change | replaceCurrent =>
      exact works_run rfl hready hs

end Operation

namespace Cursor

theorem collection_next (cursor : Cursor) (f : Forest) :
    (cursor.next f).2.collection = cursor.collection := by
  unfold next moveTo
  split
  · split <;> rfl
  · split <;> rfl
  · rfl

theorem collection_reset (checks : Checks) (cursor : Cursor) :
    ((cursor.reset checks).toOption.getD cursor).collection
      = cursor.collection := by
  unfold reset
  split
  · rfl
  · split <;> rfl

end Cursor

-- ================================================================= tallied

/-- Traversals are counted, while the owners `busy` are being filtered and
`locks` are held. -/
structure World.Tallied (checks : Checks) (busy locks : List NodeId)
    (w : World) : Prop where
  sound : w.forest.Sound checks (w.owners ++ locks)
  held : ∀ p ∈ busy, p ∈ locks
  depth : ∀ {o}, w.forest.isAlive o = true →
    Tells checks (w.owners.count o + busy.count o) (w.forest.node o).depth
  fits : ∀ x ∈ w.walks, x.collection.Fits w.forest

/-- Opening a cursor leaves the forest `Alike`. -/
theorem World.alike_opened (w : World) (c : Collection) (free : Bool) :
    Alike w.forest (w.opened c free).forest :=
  ((alike_beginTraversal c.owner).trans (alike_emit _)).trans
    (alike_hold c.owner)

theorem World.owner_mem {w : World} {x : Walk} (hx : x ∈ w.walks) :
    x.owner ∈ w.owners :=
  List.mem_map_of_mem hx

namespace World.Tallied

variable {busy : List NodeId} {w : World}

/-- The world without nodes and cursors is `Tallied`. -/
theorem empty (checks : Checks) : World.Tallied checks [] [] ⟨∅, []⟩ where
  sound := sound_empty checks
  held _ hp := by cases hp
  depth ho := by
    rw [isAlive, get?_empty] at ho
    cases ho
  fits _ hx := by cases hx

section

variable (hw : w.Tallied checks busy locks)
include hw

theorem alive_busy (hp : p ∈ busy) : w.forest.isAlive p = true :=
  hw.sound.alive (List.mem_append_right _ (hw.held p hp))

/-- `Tells` holds of every owner, alive or not: an identity that is not alive
has no cursor and no pass. -/
theorem tells (o : NodeId) :
    Tells checks (w.owners.count o + busy.count o)
      (w.forest.node o).depth := by
  cases ho : w.forest.isAlive o with
  | true => exact hw.depth ho
  | false =>
      have hclosed : o ∉ w.owners := by
        intro hmem
        have halive := hw.sound.alive (List.mem_append_left _ hmem)
        rw [ho] at halive
        cases halive
      have hidle : o ∉ busy := by
        intro hmem
        have halive := hw.alive_busy hmem
        rw [ho] at halive
        cases halive
      rw [node_of_not_alive _ ho, List.count_eq_zero.mpr hclosed,
        List.count_eq_zero.mpr hidle]
      exact .zero

/-- With checks on, an owner with a cursor or a pass has a `depth` that shows
more than 0. -/
theorem traversed (hp : p ∈ w.owners ++ busy)
    (hchecks : checks.enforced = true) :
    0 < (w.forest.node p).depth.shown := by
  rw [(hw.tells p).shown_eq hchecks, ← List.count_append]
  exact List.count_pos_iff.mpr hp

/-- With checks on, an owner with a cursor or a pass is guarded. -/
theorem guarded_of_mem (hchecks : checks.enforced = true)
    (hp : p ∈ w.owners ++ busy) : w.forest.isGuarded checks p = true := by
  unfold isGuarded
  rw [hchecks, Bool.true_and]
  exact bne_iff_ne.mpr (Nat.ne_of_gt (hw.traversed hp hchecks))

/-- With checks on, the owner of an open cursor is guarded. -/
theorem guarded (hchecks : checks.enforced = true) {x : Walk}
    (hx : x ∈ w.walks) : w.forest.isGuarded checks x.owner = true :=
  hw.guarded_of_mem hchecks (List.mem_append_left _ (owner_mem hx))

/-- Work on some node counts no traversal, whatever the cursors do in
their collections meanwhile. -/
theorem works {walks : List Walk} (hwalks : walks.map Walk.collection
      = w.walks.map Walk.collection)
    (hfg : Works p w.forest g) {more : List NodeId}
    (hg : g.Sound checks (w.owners ++ more)) (hheld : ∀ q ∈ busy, q ∈ more) :
    World.Tallied checks busy more ⟨g, walks⟩ := by
  have howners : World.owners ⟨g, walks⟩ = w.owners := by
    have hmapped := congrArg (List.map Collection.owner) hwalks
    rwa [List.map_map, List.map_map] at hmapped
  constructor
  case sound =>
    rw [howners]
    exact hg
  case held => exact hheld
  case depth =>
    intro o ho
    rw [howners, hfg.depth (.inl ho)]
    exact hw.tells o
  case fits =>
    intro y hy
    have hmem : y.collection ∈ w.walks.map Walk.collection := by
      rw [← hwalks]
      exact List.mem_map_of_mem hy
    obtain ⟨x, hx, hsame⟩ := List.mem_map.mp hmem
    rw [← hsame]
    exact (hw.fits x hx).ages hfg.ages
      (hg.alive (List.mem_append_left _ (owner_mem hx)))

end

-- ------------------------------------------------------------ small steps

private theorem unlocked (hw : w.Tallied checks busy (n :: locks)) :
    w.forest.Sound checks (n :: (w.owners ++ locks)) :=
  hw.sound.mono fun m => Nat.le_of_eq (List.perm_middle.count_eq m).symm

theorem hold (hw : w.Tallied checks busy locks)
    (hn : w.forest.isAlive n = true) :
    World.Tallied checks busy (n :: locks) ⟨w.forest.hold n, w.walks⟩ := by
  refine hw.works rfl (works_hold n n) ?_ fun q hq => .tail _ (hw.held q hq)
  exact (hw.sound.hold hn).mono fun m =>
    Nat.le_of_eq (List.perm_middle.count_eq m)

theorem release (hw : w.Tallied checks busy (n :: locks))
    (hheld : ∀ q ∈ busy, q ∈ locks) :
    World.Tallied checks busy locks ⟨w.forest.release n, w.walks⟩ :=
  hw.works rfl (works_release n n) hw.unlocked.unlock hheld

theorem touches (hw : w.Tallied checks busy locks)
    (hfg : Touches checks p w.forest g) :
    World.Tallied checks busy locks ⟨g, w.walks⟩ :=
  hw.works rfl hfg.works (hfg.sound hw.sound) hw.held

theorem commit (hw : w.Tallied checks busy locks) :
    World.Tallied checks busy locks ⟨w.forest.commit p, w.walks⟩ :=
  hw.works rfl (works_commit p p) (hw.sound.alike (alike_commit p)) hw.held

theorem report (hw : w.Tallied checks busy locks) (e : Event) :
    World.Tallied checks busy locks ⟨w.forest.emit e, w.walks⟩ :=
  hw.works rfl (works_emit e ⟨0⟩) (hw.sound.alike (alike_emit e)) hw.held

/-- `beginTraversal` keeps a world `Tallied`, with the owner among the busy,
where its counter has room. -/
theorem begun (hw : w.Tallied checks busy locks) (hp : p ∈ locks)
    (hroom : w.forest.isSpent checks p = false) :
    World.Tallied checks (p :: busy) locks
      ⟨w.forest.beginTraversal p, w.walks⟩ := by
  have halive : w.forest.isAlive p = true :=
    hw.sound.alive (List.mem_append_right _ hp)
  have halike := alike_beginTraversal (f := w.forest) p
  constructor
  case sound => exact hw.sound.alike halike
  case held =>
    intro q hq
    rcases List.mem_cons.mp hq with rfl | hq
    · exact hp
    · exact hw.held q hq
  case depth =>
    intro o _
    refine ((hw.tells o).begun halive hroom).of_eq ?_
    rw [← List.singleton_append (l := busy), List.count_append]
    show _ = w.owners.count o + _
    omega
  case fits => exact fun x hx => (hw.fits x hx).alike halike

/-- `endTraversal` of a busy owner succeeds, and keeps the world `Tallied` with
the owner less busy. -/
theorem ended (hw : w.Tallied checks (p :: busy) locks) :
    ∃ g, endTraversal checks p w.forest = .ok () g ∧ Alike w.forest g
      ∧ World.Tallied checks busy locks ⟨g, w.walks⟩ := by
  obtain ⟨g, hend, halike, hlowered⟩ :=
    endTraversal_counted (hw.alive_busy (.head _))
      (hw.traversed (List.mem_append_right _ (.head _)))
  refine ⟨g, hend, halike, ?_⟩
  constructor
  case sound => exact hw.sound.alike halike
  case held =>
    intro q hq
    exact hw.held q (.tail _ hq)
  case depth =>
    intro o _
    refine ((hw.tells o).lowered (hlowered o)).of_eq ?_
    rw [← List.singleton_append (l := busy), List.count_append]
    show _ = w.owners.count o + _
    omega
  case fits => exact fun x hx => (hw.fits x hx).alike halike

-- ------------------------------------------------------------------- deeds

/-- A `steady` operation keeps a world `Tallied`, however it ends. -/
theorem act (hw : w.Tallied checks busy locks) (hop : op.steady = true)
    (hready : op.Ready (w.owners ++ locks) w.forest) :
    World.Tallied checks busy locks ⟨(op.run checks w.forest).state,
        w.walks.map (Walk.replaced (op.replacement? w.forest))⟩
      ∧ Ages w.forest (op.run checks w.forest).state := by
  have hcalls : ∀ j ∈ op.calls checks (w.forest.holdAll op.keeps),
      j.Keeps checks (op.keeps ++ (w.owners ++ locks)) := by
    rw [op.calls_eq_nil (Operation.unfiltered_of_steady hop)]
    intro j hj
    cases hj
  obtain ⟨hs, hages⟩ := Operation.run_sound hready hw.sound hcalls
  obtain ⟨p, hworks⟩ := Operation.works_steady hop hready hw.sound
  refine ⟨hw.works ?_ hworks hs hw.held, hages⟩
  rw [List.map_map]
  rfl

/-- Opening a cursor keeps a world `Tallied`, where the counter of the owner
has room. -/
theorem opened (hw : w.Tallied checks busy locks) (hc : c.Fits w.forest)
    (hroom : w.forest.isSpent checks c.owner = false) (free : Bool) :
    (w.opened c free).Tallied checks busy locks := by
  have hstart : Alike w.forest (Cursor.start c w.forest).2 :=
    (alike_beginTraversal c.owner).trans (alike_emit _)
  have halike := alike_opened w c free
  have howners : (w.opened c free).owners = w.owners ++ [c.owner] := by
    unfold World.owners World.opened
    rw [List.map_append]
    rfl
  have hheld := (hw.sound.alike hstart).hold (hc.alike hstart).alive
  constructor
  case sound =>
    rw [howners]
    apply hheld.mono
    intro n
    simp only [List.count_append, List.count_cons, List.count_nil]
    omega
  case held => exact hw.held
  case depth =>
    intro o _
    have hsame : ((w.opened c free).forest.node o).depth
        = ((w.forest.beginTraversal c.owner).node o).depth :=
      depth_holdAll [c.owner] o
    rw [hsame, howners, List.count_append]
    exact ((hw.tells o).begun hc.alive hroom).of_eq (by omega)
  case fits =>
    intro x hx
    rcases List.mem_append.mp hx with hx | hx
    · exact (hw.fits x hx).alike halike
    · obtain rfl := List.mem_singleton.mp hx
      exact hc.alike halike

/-- Moving the cursor at `i` within its collection keeps a world `Tallied`. -/
theorem moved (hw : w.Tallied checks busy locks) {k : Walk → Walk}
    (hk : ∀ x, (k x).collection = x.collection) (i : Nat) :
    (w.move i k).Tallied checks busy locks
      ∧ Ages w.forest (w.move i k).forest := by
  unfold World.move
  cases hx : w.walks[i]? with
  | none => exact ⟨hw, .refl _⟩
  | some x =>
      obtain ⟨hlt, hget⟩ := List.getElem?_eq_some_iff.mp hx
      refine ⟨hw.works ?_ (.refl x.owner _) hw.sound hw.held, .refl _⟩
      have hi : i < (w.walks.map Walk.collection).length := by
        rwa [List.length_map]
      have hsame : (w.walks.map Walk.collection)[i] = x.collection :=
        (List.getElem_map Walk.collection).trans
          (congrArg Walk.collection hget)
      rw [List.map_set, hk, ← hsame]
      exact List.set_getElem_self hi

private theorem closed_some (hw : w.Tallied checks busy locks) {i : Nat}
    {x : Walk} (hx : w.walks[i]? = some x) :
    (∃ g, x.cursor.close checks w.forest = .ok () g)
      ∧ World.Tallied checks busy locks
        ⟨(x.cursor.close checks w.forest).state.release x.owner,
          w.walks.eraseIdx i⟩ := by
  obtain ⟨hlt, hget⟩ := List.getElem?_eq_some_iff.mp hx
  have hmem : x ∈ w.walks := List.mem_of_getElem? hx
  -- the cursor is counted among the open ones, the others stay
  have hcount : ∀ o, w.owners.count o
      = [x.owner].count o + ((w.walks.eraseIdx i).map Walk.owner).count o := by
    intro o
    have hperm := (List.getElem_cons_eraseIdx_perm hlt).map Walk.owner
    rw [hget] at hperm
    rw [World.owners, ← hperm.count_eq, List.map_cons, ← List.singleton_append,
      List.count_append]
  obtain ⟨g, hend, halike, hlowered⟩ := endTraversal_counted
    (hw.fits x hmem).alive
    (hw.traversed (List.mem_append_left _ (owner_mem hmem)))
  obtain ⟨e, hclose⟩ : ∃ e, x.cursor.close checks w.forest
      = .ok () (g.emit e) := by
    unfold Cursor.close
    rw [hend]
    exact ⟨_, rfl⟩
  rw [hclose]
  refine ⟨⟨_, rfl⟩, ?_⟩
  have hgone : Alike w.forest (g.emit e) := halike.trans (alike_emit e)
  have hgave : Works x.owner (g.emit e) ((g.emit e).release x.owner) :=
    works_release x.owner x.owner
  have hsound : ((g.emit e).release x.owner).Sound checks
      ((w.walks.eraseIdx i).map Walk.owner ++ locks) := by
    apply Sound.unlock
    apply (hw.sound.alike hgone).mono
    intro n
    have hn := hcount n
    simp only [List.count_cons, List.count_append, List.count_nil] at hn ⊢
    omega
  constructor
  case sound => exact hsound
  case held => exact hw.held
  case depth =>
    intro o ho
    have hn := hcount o
    show Tells checks (((w.walks.eraseIdx i).map Walk.owner).count o
      + busy.count o) (((g.emit e).release x.owner).node o).depth
    rw [hgave.depth (.inl ho)]
    have hless : Tells checks (w.owners.count o + busy.count o
        - [x.owner].count o) ((g.emit e).node o).depth :=
      (hw.tells o).lowered (hlowered o)
    exact hless.of_eq (by omega)
  case fits =>
    intro z hz
    have hfits := (hw.fits z (List.mem_of_mem_eraseIdx hz)).alike hgone
    exact hfits.ages hgave.ages
      (hsound.alive (List.mem_append_left _ (List.mem_map_of_mem hz)))

/-- In a `Tallied` world `close` of an open cursor succeeds. -/
theorem closes (hw : w.Tallied checks busy locks) {x : Walk}
    (hx : x ∈ w.walks) :
    ∃ g, x.cursor.close checks w.forest = .ok () g := by
  obtain ⟨i, hi⟩ := List.mem_iff_getElem?.mp hx
  exact (hw.closed_some hi).1

/-- Closing the cursor at `i` keeps a world `Tallied`. -/
theorem closed (hw : w.Tallied checks busy locks) (i : Nat) :
    (w.close checks i).Tallied checks busy locks
      ∧ Ages w.forest (w.close checks i).forest := by
  unfold World.close
  cases hx : w.walks[i]? with
  | none => exact ⟨hw, .refl _⟩
  | some x =>
      refine ⟨(hw.closed_some hx).2, ?_⟩
      exact (alike_close x.cursor).ages.trans (ages_release ..)

/-- Every deed that is feasible keeps a world `Tallied`. -/
theorem does (hw : w.Tallied checks busy locks) {deed : Deed}
    (hfeasible : deed.Feasible locks w) :
    (deed.run checks busy w).Tallied checks busy locks
      ∧ Ages w.forest (deed.run checks busy w).forest := by
  cases deed with
  | act op => exact hw.act hfeasible.1 hfeasible.2
  | start c =>
      constructor
      · exact Deed.run_start_with hw fun hroom => hw.opened hfeasible hroom _
      · exact Deed.run_start_with (P := fun v => Ages w.forest v.forest)
          (.refl _) fun _ => (alike_opened w c _).ages
  | next i =>
      refine hw.moved (fun x => ?_) i
      exact Cursor.collection_next x.cursor w.forest
  | reset i =>
      refine hw.moved (fun x => ?_) i
      exact Cursor.collection_reset checks x.cursor
  | close i => exact hw.closed i

end World.Tallied

end InstructionTree
