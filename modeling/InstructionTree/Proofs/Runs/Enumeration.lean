/-
Enumeration under the guard.

A filtering is a traversal like any other, and in its calls there may be
further ones. It never begins on an owner with an open cursor
(`World.Sane.begun`), so what it moves is nobody's business but its own.
With that every journey without notices keeps a world sane
(`World.lasting_sane`), and an open cursor finds the collection as long as
it was, with the elements that were stored last, however many other
cursors, edits and filterings came in between (`Arrives.enumerates`).

That is about cursors that are opened between two operations. A program
that hands out nodes to be stored runs in the middle of one, after the
guard was asked. If it opens a cursor, the collection changes under it
(`Collection.draw_under_cursor`).
-/
import InstructionTree.Proofs.Runs.Cursors
import InstructionTree.Proofs.Runs.Drawing
import InstructionTree.Proofs.Runs.Lasting

namespace InstructionTree

open Forest Collection

variable {checks : Checks} {f g : Forest} {n o p : NodeId} {c : Collection}

namespace World.Sane

variable {busy locks : List NodeId} {w : World}

/-- The world without nodes and cursors is `Sane`. -/
theorem empty (checks : Checks) : World.Sane checks [] [] ⟨∅, []⟩ :=
  ⟨.empty checks, fun _ hx => by cases hx⟩

/-- A forest that is alike keeps a world sane, if its traversals are
counted and no free cursor has an owner in `walked`. -/
private theorem alike (hw : w.Sane checks busy locks)
    {walked : List NodeId} (hg : World.Tallied checks walked locks
      ⟨g, w.walks⟩)
    (hfg : Alike w.forest g)
    (halone : ∀ x ∈ w.walks, x.free = true → x.owner ∉ walked) :
    World.Sane checks walked locks ⟨g, w.walks⟩ :=
  ⟨hg, fun x hx => { (hw.stands x hx).alike hfg with alone := halone x hx }⟩

theorem hold (hw : w.Sane checks busy locks)
    (hn : w.forest.isAlive n = true) :
    World.Sane checks busy (n :: locks) ⟨w.forest.hold n, w.walks⟩ :=
  hw.works (works_hold n _) hw.ne_of_unborn (hw.toTallied.hold hn).sound
    fun q hq => .tail _ (hw.held q hq)

theorem release (hw : w.Sane checks busy (n :: locks))
    (hheld : ∀ q ∈ busy, q ∈ locks) :
    World.Sane checks busy locks ⟨w.forest.release n, w.walks⟩ :=
  hw.works (works_release n _) hw.ne_of_unborn
    (hw.toTallied.release hheld).sound hheld

theorem report (hw : w.Sane checks busy locks) (e : Event) :
    World.Sane checks busy locks ⟨w.forest.emit e, w.walks⟩ :=
  hw.works (works_emit e _) hw.ne_of_unborn (hw.toTallied.report e).sound
    hw.held

/-- `Touches` of an owner that is being filtered keep a world `Sane`: no free
walk is on it. -/
theorem touches (hw : w.Sane checks busy locks) (hp : p ∈ busy)
    (hfg : Touches checks p w.forest g) :
    World.Sane checks busy locks ⟨g, w.walks⟩ :=
  hw.works hfg.works (hw.ne_of_busy hp) (hfg.sound hw.sound) hw.held

theorem commit (hw : w.Sane checks busy locks) :
    World.Sane checks busy locks ⟨w.forest.commit p, w.walks⟩ :=
  hw.works (works_commit p _) hw.ne_of_unborn hw.toTallied.commit.sound
    hw.held

/-- With checks on, an owner whose guard is down has no open cursor. -/
theorem closed_of_unguarded (hw : w.Sane checks busy locks)
    (hchecks : checks.enforced = true)
    (hguard : w.forest.isGuarded checks o = false) : o ∉ w.owners := by
  intro hmem
  obtain ⟨x, hx, rfl⟩ := List.mem_map.mp hmem
  rw [hw.toTallied.guarded hchecks hx] at hguard
  cases hguard

/-- With checks on and the guard down, beginning the pass on `p` keeps a world
`Sane`, with `p` among the busy. -/
theorem begun (hw : w.Sane checks busy locks)
    (hchecks : checks.enforced = true) (hp : p ∈ locks)
    (hguard : w.forest.isGuarded checks p = false) :
    World.Sane checks (p :: busy) locks
      ⟨w.forest.beginTraversal p, w.walks⟩ := by
  have hclosed := hw.closed_of_unguarded hchecks hguard
  refine hw.alike (hw.toTallied.begun hp (isSpent_of_unguarded hguard))
    (alike_beginTraversal p) ?_
  intro x hx hfree hbusy
  rcases List.mem_cons.mp hbusy with hsame | hbusy
  · exact hclosed (hsame ▸ owner_mem hx)
  · exact (hw.stands x hx).alone hfree hbusy

theorem ended (hw : w.Sane checks (p :: busy) locks)
    (hend : endTraversal checks p w.forest = .ok () g) :
    World.Sane checks busy locks ⟨g, w.walks⟩ := by
  obtain ⟨h, hended, halike, hclosed⟩ := hw.toTallied.ended
  rw [hended] at hend
  cases hend
  refine hw.alike hclosed halike ?_
  intro x hx hfree hbusy
  exact (hw.stands x hx).alone hfree (.tail _ hbusy)

end World.Sane

-- ================================================================= lasting

variable {stack : List Frame} {v w : World} {x : Walk}

section

variable (hchecks : checks.enforced = true)
include hchecks

/-- `World.Sane` lasts on journeys whose operations are `Touring`: every step,
call and end of a filtering keeps it. -/
theorem World.lasting_sane :
    World.Lasting checks Touring (World.Sane checks) where
  tallied hw := hw.toTallied
  does {_ _ _} deed hw hfeasible hpermit := by
    apply hw.does hchecks
    cases deed with
    | act op =>
        rcases hpermit with hfilters | hsingle
        · rw [op.unfiltered_of_steady hfeasible.1] at hfilters
          cases hfilters
        · exact ⟨hsingle, hfeasible.2⟩
    | start c => exact hfeasible
    | next | reset | close => trivial
  hold hw := hw.hold
  release hw := hw.release
  report hw := hw.report
  begun hw := hw.begun hchecks
  touches hw _ := hw.touches (.head _)
  ended hw _ := hw.ended
  commit hw := hw.commit

/-- Every world at which `Touring` journeys arrive is `Sane`, in the middle of
a filtering as well. -/
theorem Arrives.sane (hw : Arrives checks Touring stack w) :
    w.Sane checks (passes stack) (kept stack) :=
  Within.lasts hw (World.lasting_sane hchecks) (.empty checks)

-- ============================================================= enumeration

/-- A cursor that was opened while its owner was not being filtered, as
long as it is open. -/
theorem Arrives.enumerates (hw : Arrives checks Touring stack w)
    (hx : x ∈ w.walks) (hfree : x.free = true) :
    -- the collection is as long as it was, with all replacements since
    (∀ d : Collection, d.Fits w.forest → d.owner = x.owner →
      d.items w.forest = x.stored ∧ d.length w.forest = x.opened.length)
    -- an edit of an element is a replacement
    ∧ (∀ op : Operation, op.single = true →
      op.Ready (w.owners ++ kept stack) w.forest →
      x.collection.items (op.run checks w.forest).state
        = Replacement.stored x.collection x.stored
          (op.replacement? w.forest))
    -- the next element is the one that is stored at its index now
    ∧ (x.cursor.next w.forest).1 = x.stored[x.asked]?
    ∧ ((x.cursor.next w.forest).1.isSome ↔ x.asked < x.opened.length)
    ∧ x.cursor.index? = (if 0 < x.asked ∧ x.asked ≤ x.opened.length
        then some (x.asked - 1) else none)
    ∧ x.cursor.remaining w.forest = x.opened.length - x.asked
    -- no structural edit gets through
    ∧ (∀ op : Operation, op.Restructures w.forest x.collection →
      op.calls checks (w.forest.holdAll op.keeps) = []
      ∧ op.run checks w.forest = (refusal x.owner
          (w.forest.holdAll op.keeps)).always (fun g => g.releaseAll op.keeps)
      ∧ (w.forest.Referenced op.keeps →
        op.run checks w.forest = refusal x.owner w.forest))
    -- and no client is asked for nodes to store
    ∧ ∀ (σ : Type) (kind : Draw) (source : Source σ) (st : σ),
      x.collection.draw checks kind source (w.forest, st)
        = (refusal x.owner w.forest).mapState fun g => (g, st) := by
  have hsane := hw.sane hchecks
  have hstands := hsane.stands x hx
  have hfits := hsane.fits x hx
  have hguard : w.forest.isGuarded checks x.owner = true :=
    hsane.guarded hchecks hx
  have hsteady := hstands.steady hfree
  have hstored := hsteady.stored
  have hlength := hsteady.length_eq
  have hplace : x.cursor.place
      = .after x.asked (x.collection.length w.forest) := by
    rw [hlength]
    exact hsteady.place
  have hnext : (x.cursor.next w.forest).1 = x.stored[x.asked]? := by
    rw [Cursor.next_after hplace, ← hstored]
  refine ⟨?_, ?_, hnext, ?_, ?_, ?_, ?_, fun _ _ _ _ => draw_guarded hguard⟩
  · intro d hd howner
    obtain rfl := hfits.unique hd hsane.sound.toWellFormed howner
    exact ⟨hstored, hlength⟩
  · intro op hop hready
    rw [← hstored]
    exact Operation.items_run hop hready hsane.sound hfits
      (List.mem_append_left _ (World.owner_mem hx)) hguard
  · rw [hnext, ← hsteady.length]
    simp
  · rw [Cursor.index?_after hplace, hlength]
  · rw [Cursor.remaining_after hplace, hlength]
  · intro op hop
    obtain ⟨hrun, hnone⟩ := hop.refused hfits hguard
    exact ⟨hnone, hrun, hop.run_eq hfits hguard⟩

end

/-- The second of two cursors, after the first one was closed, an element
ahead of it was exchanged, and an edit was refused. -/
theorem Arrives.enumerates_beside_closed :
    let c : Collection := ⟨⟨0⟩, 0⟩
    let deeds : List Deed :=
      [.act (.create .block .none), .act (.hold ⟨0⟩),
        .act (.create .nop .none), .act (.hold ⟨1⟩),
        .act (.create .nop .none), .act (.hold ⟨2⟩),
        .act (.create .nop .none), .act (.hold ⟨3⟩),
        .act (.change c (.addRange [⟨1⟩, ⟨2⟩])), .start c, .start c,
        .close 0, .next 0, .act (.change c (.set 1 ⟨3⟩)),
        .act (.change c .clear)]
    let w := World.after .strict deeds ⟨∅, []⟩
    ∃ x ∈ w.walks, x.opened = [⟨1⟩, ⟨2⟩] ∧ x.cursor.index? = some 0
      ∧ (x.cursor.next w.forest).1 = some ⟨3⟩
      ∧ (Operation.change c (.removeAt 0)).run .strict w.forest
        = refusal ⟨0⟩ w.forest := by
  intro c deeds w
  have hallows : World.Allows .strict deeds ⟨∅, []⟩ := by decide +kernel
  have hw : Arrives .strict Touring [] w := .here (.of_allows hallows)
  obtain ⟨-, -, hnext, -, hindex, -, hrefused, -⟩ := Arrives.enumerates rfl
    hw (x := ⟨⟨c, .at 0⟩, [⟨1⟩, ⟨2⟩], [⟨1⟩, ⟨3⟩], 1, true⟩)
    (by decide +kernel) rfl
  refine ⟨_, by decide +kernel, rfl, hindex, hnext, ?_⟩
  exact (hrefused _ (.change rfl)).2.2 (by decide +kernel)

/-- A client that does some deeds when it is asked for nodes, and hands out
`ns`. -/
def World.handingOut (checks : Checks) (deeds : List Deed)
    (ns : List NodeId) : Source (List Walk) := fun s =>
  let w := World.after checks deeds ⟨s.1, s.2⟩
  .ok ns (w.forest, w.walks)

/-- Two ways for a collection to change under an open cursor. A client is
asked for nodes, opens a cursor on the collection, and hands out a node: it
is appended. Or the traversal of one cursor was ended by notice before
another cursor was opened: when the first one is closed, the guard of the
second is gone. -/
theorem Collection.draw_under_cursor :
    let c : Collection := ⟨⟨0⟩, 0⟩
    let block : List Deed :=
      [.act (.create .block .none), .act (.hold ⟨0⟩)]
    let w := World.after .strict block ⟨∅, []⟩
    (let opens : List Deed :=
      [.start c, .act (.create .nop .none), .act (.hold ⟨1⟩)]
    let source := World.handingOut .strict opens [⟨1⟩]
    World.Allows .strict (block ++ opens) ⟨∅, []⟩
      ∧ ∃ f x, c.draw .strict .addRange source (w.forest, w.walks)
          = .ok () (f, [x])
        ∧ x.free = true ∧ x.opened = []
        ∧ f.isGuarded .strict ⟨0⟩ = true
        ∧ c.items f = [⟨1⟩] ∧ (x.cursor.next f).1 = some ⟨1⟩)
    ∧ (let opens : List Deed :=
        [.act (.create .nop .none), .act (.hold ⟨1⟩), .start c]
      let v := World.after .strict opens w
      let notice : Operation := .notify ⟨0⟩ .endTraversal
      let told : World := ⟨(notice.run .strict v.forest).state, v.walks⟩
      let adds : List Deed :=
        [.start c, .close 0, .act (.change c (.add ⟨1⟩))]
      let u := World.after .strict adds told
      World.Allows .strict (block ++ opens) ⟨∅, []⟩
        ∧ notice.Ready [] v.forest ∧ told.Allows .strict adds
        ∧ ∃ x ∈ u.walks, x.free = true ∧ x.opened = []
          ∧ c.items u.forest = [⟨1⟩]) := by
  intro c block w
  constructor
  · intro opens source
    let s := (c.draw .strict .addRange source (w.forest, w.walks)).state
    exact ⟨by decide +kernel, s.1, ⟨⟨c, .notStarted⟩, [], [], 0, true⟩,
      by decide +kernel, rfl, rfl, by decide +kernel, by decide +kernel,
      by decide +kernel⟩
  · intro opens v notice told adds u
    exact ⟨by decide +kernel, by decide +kernel, by decide +kernel,
      ⟨⟨c, .notStarted⟩, [], [], 0, true⟩, by decide +kernel, rfl, rfl,
      by decide +kernel⟩

end InstructionTree
