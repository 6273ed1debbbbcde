/-
Open cursors.

A cursor that was asked for the next element so and so often stands where
that takes it (`Cursor.next_after`), as long as the collection keeps its
length. That it does is what the guard is for. It counts: the depth of a
node is the number of cursors that are open on its collection and of
filterings of it that are under way (`World.Sane`). So no cursor that is
closed early can open the guard of another one.

This file proves it for all that a client does except for filtering. A
cursor that was opened inside of a filtering of its owner is counted, but
no more is said of it: the pass may end while it is open, and take
elements out.
-/
import InstructionTree.Proofs.Runs.Traversals

namespace InstructionTree

open Forest Collection

variable {checks : Checks} {f g : Forest} {n o p : NodeId}

-- ================================================================ walking

/-- Where a cursor over `length` elements is after `asked` steps. -/
def Cursor.Place.after (asked length : Nat) : Cursor.Place :=
  if asked = 0 then .notStarted
  else if asked ≤ length then .at (asked - 1)
  else .exhausted

namespace Cursor

variable {cursor : Cursor} {asked : Nat}

/-- With checks on, `reset` fails and leaves the cursor where it is. -/
theorem reset_enforced (hchecks : checks.enforced = true) :
    (cursor.reset checks).toOption.getD cursor = cursor := by
  unfold reset
  rw [if_pos hchecks]
  split <;> rfl

/-- `moveTo` at index `asked` answers the element there, and leaves the cursor
at the place after `asked + 1` steps. -/
theorem moveTo_after (cursor : Cursor) (f : Forest) (asked : Nat) :
    cursor.moveTo f asked = ((cursor.collection.items f)[asked]?,
      ⟨cursor.collection,
        Place.after (asked + 1) (cursor.collection.length f)⟩) := by
  unfold moveTo Place.after length
  cases hn : (cursor.collection.items f)[asked]? with
  | none =>
      have hge := List.getElem?_eq_none_iff.mp hn
      rw [if_neg (Nat.succ_ne_zero _), if_neg (by omega)]
  | some n =>
      have hlt := (List.getElem?_eq_some_iff.mp hn).1
      rw [if_neg (Nat.succ_ne_zero _), if_pos (Nat.succ_le_of_lt hlt),
        Nat.add_sub_cancel]

variable (hplace : cursor.place = .after asked (cursor.collection.length f))
include hplace

theorem next_after :
    cursor.next f = ((cursor.collection.items f)[asked]?,
      ⟨cursor.collection,
        Place.after (asked + 1) (cursor.collection.length f)⟩) := by
  unfold next
  rw [hplace]
  unfold Place.after
  by_cases hzero : asked = 0
  · subst hzero
    exact moveTo_after cursor f 0
  · by_cases hle : asked ≤ cursor.collection.length f
    · rw [if_neg hzero, if_pos hle]
      have hstep : asked - 1 + 1 = asked := by omega
      dsimp only
      rw [hstep]
      exact moveTo_after cursor f asked
    · have hnone : (cursor.collection.items f)[asked]? = none :=
        List.getElem?_eq_none_iff.mpr (Nat.le_of_lt (Nat.lt_of_not_le hle))
      have hsame : (⟨cursor.collection, .exhausted⟩ : Cursor) = cursor := by
        unfold Place.after at hplace
        rw [if_neg hzero, if_neg hle] at hplace
        rw [← hplace]
      rw [if_neg hzero, if_neg hle, if_neg (Nat.succ_ne_zero _),
        if_neg (by omega), hnone, hsame]

theorem index?_after :
    cursor.index? = if 0 < asked ∧ asked ≤ cursor.collection.length f
      then some (asked - 1) else none := by
  unfold index?
  rw [hplace]
  unfold Place.after
  by_cases hzero : asked = 0
  · rw [if_pos hzero, if_neg (by omega)]
  · by_cases hle : asked ≤ cursor.collection.length f
    · rw [if_neg hzero, if_pos hle, if_pos (by omega)]
    · rw [if_neg hzero, if_neg hle, if_neg (by omega)]

theorem remaining_after :
    cursor.remaining f = cursor.collection.length f - asked := by
  unfold remaining
  rw [hplace]
  unfold Place.after
  by_cases hzero : asked = 0
  · rw [if_pos hzero, hzero]
    rfl
  · by_cases hle : asked ≤ cursor.collection.length f
    · rw [if_neg hzero, if_pos hle]
      have hstep : asked - 1 + 1 = asked := by omega
      dsimp only
      rw [hstep]
    · rw [if_neg hzero, if_neg hle]
      dsimp only
      omega

end Cursor

/-- With checks on, a `reset` deed leaves the world as it is. -/
theorem Deed.reset_enforced (hchecks : checks.enforced = true) (i : Nat)
    (busy : List NodeId) (w : World) :
    (Deed.reset i).run checks busy w = w := by
  have hstays : Walk.reset checks = id := by
    funext x
    unfold Walk.reset
    rw [Cursor.reset_enforced hchecks]
    rfl
  rw [Deed.run, hstays]
  unfold World.move
  cases hx : w.walks[i]? with
  | none => rfl
  | some x =>
      obtain ⟨hlt, rfl⟩ := List.getElem?_eq_some_iff.mp hx
      exact congrArg (World.mk w.forest) (List.set_getElem_self hlt)

-- ================================================================== sanity

/-- The elements are those that were there when the cursor was opened, with
all replacements since, and it stands where as many steps take it. -/
structure Walk.Steady (x : Walk) (f : Forest) : Prop where
  length : x.stored.length = x.opened.length
  stored : x.collection.items f = x.stored
  place : x.cursor.place = .after x.asked x.opened.length

namespace Walk.Steady

variable {x : Walk}

theorem start (c : Collection) (free : Bool) (f : Forest) :
    (Walk.start c free f).Steady f :=
  ⟨rfl, rfl, rfl⟩

theorem length_eq (hx : x.Steady f) :
    x.collection.length f = x.opened.length := by
  rw [Collection.length, hx.stored, hx.length]

/-- A walk that is `Steady` in `f` is `Steady` in every `g` that has the same
elements in its collection. -/
theorem same (hx : x.Steady f)
    (hitems : x.collection.items g = x.collection.items f) : x.Steady g where
  length := hx.length
  stored := hitems.trans hx.stored
  place := hx.place

/-- After `next` the walk is `Steady` again: the element it answered is the one
after the last. -/
theorem next (hx : x.Steady f) : (x.next f).Steady f := by
  have hsame : (x.next f).collection = x.collection :=
    Cursor.collection_next x.cursor f
  constructor
  case length => exact hx.length
  case stored =>
    rw [hsame]
    exact hx.stored
  case place =>
    have hlength := hx.length_eq
    have hplace := hx.place
    rw [← hlength] at hplace
    have hafter := congrArg (fun y => y.2.place) (Cursor.next_after hplace)
    rwa [hlength] at hafter

/-- If `g` has the elements of `f` with the replacement `r` made, the walk with
`r` recorded is `Steady` in `g`. -/
theorem replaced (hx : x.Steady f) {r : Option Replacement}
    (hitems : x.collection.items g
      = Replacement.stored x.collection (x.collection.items f) r) :
    (x.replaced r).Steady g where
  length := (Replacement.length_stored ..).trans hx.length
  stored := by
    rw [Walk.replaced, ← hx.stored]
    exact hitems
  place := hx.place

end Walk.Steady

/-- What holds of an open cursor while the owners `busy` are being
filtered: if it was opened outside of all filterings of its owner, the
owner is not in `busy`, and the cursor is steady. -/
structure Walk.Stands (busy : List NodeId) (x : Walk) (f : Forest) :
    Prop where
  alone : x.free = true → x.owner ∉ busy
  steady : x.free = true → x.Steady f

namespace Walk.Stands

variable {busy : List NodeId} {x : Walk}

/-- Between forests that are alike all slots are the same, so a cursor
stands in both. -/
theorem alike (hx : x.Stands busy f) (hfg : Alike f g) :
    x.Stands busy g where
  alone := hx.alone
  steady hfree := (hx.steady hfree).same (slot_congr (hfg.slots _) _)

/-- Work on a node `p` leaves the slots of all others, so a cursor stands
as before unless its owner is `p`. -/
theorem works (hx : x.Stands busy f) (hfg : Works p f g)
    (halive : g.isAlive x.owner = true)
    (hp : x.free = true → x.owner ≠ p) : x.Stands busy g where
  alone := hx.alone
  steady hfree := (hx.steady hfree).same
    (Collection.items_works hfg halive (hp hfree))

/-- After `next` a walk that stands still stands: the cursor is one element
further. -/
theorem next (hx : x.Stands busy f) : (x.next f).Stands busy f := by
  have hsame : (x.next f).collection = x.collection :=
    Cursor.collection_next x.cursor f
  constructor
  case alone =>
    show x.free = true → (x.next f).collection.owner ∉ busy
    rw [hsame]
    exact hx.alone
  case steady => exact fun hfree => (hx.steady hfree).next

end Walk.Stands

/-- Traversals are counted, and cursors stand where they should, while the
owners `busy` are being filtered and `locks` are held. -/
structure World.Sane (checks : Checks) (busy locks : List NodeId)
    (w : World) : Prop extends World.Tallied checks busy locks w where
  stands : ∀ x ∈ w.walks, x.Stands busy w.forest

namespace World.Sane

variable {busy locks : List NodeId} {w : World} {walks : List Walk}

/-- Work on a node `p` keeps a world sane, if no free cursor has `p` for its
owner. -/
theorem works (hw : w.Sane checks busy locks)
    (hfg : Works p w.forest g)
    (hp : ∀ x ∈ w.walks, x.free = true → x.owner ≠ p) {more : List NodeId}
    (hg : g.Sound checks (w.owners ++ more)) (hheld : ∀ q ∈ busy, q ∈ more) :
    World.Sane checks busy more ⟨g, w.walks⟩ := by
  refine ⟨hw.toTallied.works rfl hfg hg hheld, fun x hx => ?_⟩
  exact (hw.stands x hx).works hfg
    (hg.alive (List.mem_append_left _ (owner_mem hx))) (hp x hx)

/-- A walk opened while its owner was not being filtered (`free`) has an owner
outside `busy`. -/
theorem ne_of_busy (hw : w.Sane checks busy locks) (hp : p ∈ busy) :
    ∀ x ∈ w.walks, x.free = true → x.owner ≠ p := by
  rintro x hx hfree rfl
  exact (hw.stands x hx).alone hfree hp

/-- The identity that is handed out next, `⟨w.forest.size⟩`, is the owner of no
free walk. -/
theorem ne_of_unborn (hw : w.Sane checks busy locks) :
    ∀ x ∈ w.walks, x.free = true → x.owner ≠ ⟨w.forest.size⟩ := by
  intro x hx _ hsame
  have hold : x.owner.index < w.forest.size :=
    w.forest.index_lt_of_alive (hw.fits x hx).alive
  rw [hsame] at hold
  exact Nat.lt_irrefl _ hold

/-- An operation that is `single` keeps a world `Sane`, with the replacement it
makes recorded in all walks. -/
theorem act (hw : w.Sane checks busy locks)
    (hchecks : checks.enforced = true) {op : Operation}
    (hop : op.single = true)
    (hready : op.Ready (w.owners ++ locks) w.forest) :
    World.Sane checks busy locks ⟨(op.run checks w.forest).state,
        w.walks.map (Walk.replaced (op.replacement? w.forest))⟩ := by
  obtain ⟨htallied, -⟩ := hw.toTallied.act (op.steady_of_single hop) hready
  refine ⟨htallied, fun y hy => ?_⟩
  obtain ⟨x, hx, rfl⟩ := List.mem_map.mp hy
  have hstands := hw.stands x hx
  have hlocked : x.owner ∈ w.owners ++ locks :=
    List.mem_append_left _ (owner_mem hx)
  have hguard : w.forest.isGuarded checks x.owner = true :=
    hw.guarded hchecks hx
  refine ⟨hstands.alone, fun hfree => ?_⟩
  exact (hstands.steady hfree).replaced
    (Operation.items_run hop hready hw.sound (hw.fits x hx) hlocked hguard)

/-- Opening a cursor keeps a world `Sane`, where the counter of the owner has
room. -/
theorem opened (hw : w.Sane checks busy locks) {c : Collection}
    (hc : c.Fits w.forest) (hroom : w.forest.isSpent checks c.owner = false) :
    (w.opened c (!busy.contains c.owner)).Sane checks busy locks := by
  refine ⟨hw.toTallied.opened hc hroom _, fun x hx => ?_⟩
  have halike := alike_opened w c (!busy.contains c.owner)
  rcases List.mem_append.mp hx with hx | hx
  · exact (hw.stands x hx).alike halike
  · obtain rfl := List.mem_singleton.mp hx
    have halone : (!busy.contains c.owner) = true → c.owner ∉ busy := by
      simp
    have hstarted : (Walk.start c (!busy.contains c.owner) w.forest).Stands
        busy w.forest :=
      ⟨halone, fun _ => .start c _ _⟩
    exact hstarted.alike halike

/-- Asking the cursor at `i` for its next element keeps a world `Sane`. -/
theorem moved (hw : w.Sane checks busy locks) (i : Nat) :
    (w.move i (Walk.next w.forest)).Sane checks busy locks := by
  have hsame : ∀ x, (Walk.next w.forest x).collection = x.collection :=
    fun x => x.cursor.collection_next w.forest
  refine ⟨(hw.toTallied.moved hsame i).1, fun y hy => ?_⟩
  unfold World.move at hy ⊢
  cases hx : w.walks[i]? with
  | none =>
      rw [hx] at hy
      exact hw.stands y hy
  | some x =>
      rw [hx] at hy
      rcases List.mem_or_eq_of_mem_set hy with hy | rfl
      · exact hw.stands y hy
      · exact (hw.stands x (List.mem_of_getElem? hx)).next

/-- Closing the cursor at `i` keeps a world `Sane`. -/
theorem closed (hw : w.Sane checks busy locks) (i : Nat) :
    (w.close checks i).Sane checks busy locks := by
  have htallied := (hw.toTallied.closed i).1
  refine ⟨htallied, fun y hy => ?_⟩
  unfold World.close at hy htallied ⊢
  cases hx : w.walks[i]? with
  | none =>
      rw [hx] at hy
      exact hw.stands y hy
  | some x =>
      rw [hx] at hy htallied
      -- letting go of the owner is work on anybody else
      obtain ⟨p, hother⟩ := exists_ne y.owner
      have hend : Alike w.forest (x.cursor.close checks w.forest).state :=
        alike_close x.cursor
      have hstands := (hw.stands y (List.mem_of_mem_eraseIdx hy)).alike hend
      exact hstands.works (works_release x.owner p)
        (htallied.fits y hy).alive fun _ => hother.symm

/-- With checks on, every deed that the client is ready for keeps a world
`Sane`. -/
theorem does (hw : w.Sane checks busy locks)
    (hchecks : checks.enforced = true) {deed : Deed}
    (hready : deed.Ready locks w) :
    (deed.run checks busy w).Sane checks busy locks := by
  cases deed with
  | act op => exact hw.act hchecks hready.1 hready.2
  | start c => exact Deed.run_start_with hw fun hroom => hw.opened hready hroom
  | next i => exact hw.moved i
  | reset i =>
      rw [Deed.reset_enforced hchecks]
      exact hw
  | close i => exact hw.closed i

end World.Sane

end InstructionTree
