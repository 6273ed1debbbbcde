/-
Climbing ends, at every moment.

Three climbs follow the links upwards: `ancestors` lists them, the check
of an attach looks for the child on the way up from the owner, and a
commit forgets caches on its way. In the forest they count their steps
and stop at the number of identities. This file is about the climbs
without a count: `Way` is the first, and `Forgets` the last. Where no
chain of links is endless, they end, and end where the counted ones do
(`ClimbsEnd`).

# Moments

An operation climbs while it works, on forests that no client ever sees:
the attach of an edit runs after the edit has stored, and a commit after
children left. `Move` lists what a forest can go through from one such
moment to the next, with the entering that an attach allows and the
commit as moves of their own. A sound forest stays sound through all of
them (`Moves.sound`), so every moment after it is one where climbs end.
-/
import InstructionTree.Proofs.Forest.Steps
import Mathlib.Order.WellFounded

namespace InstructionTree.Forest

variable {checks : Checks} {o : NodeId} {f g h : Forest}

-- ============================================================== climbs

/-- Forgetting caches from a node upwards until one has none, or the way
up is over: the climb of a commit, without a count of its steps. -/
inductive Forgets : Option NodeId → Forest → Forest → Prop where
  | over {f : Forest} : Forgets none f f
  | known {f : Forest} {n : NodeId} (hnone : (f.node n).cached = none) :
      Forgets (some n) f f
  | up {f g : Forest} {n : NodeId} (hsome : (f.node n).cached ≠ none)
      (hrest : Forgets (f.parent? n) (f.dropCache n) g) :
      Forgets (some n) f g

/-- Everything that climbs along parents from a node of `f` comes to an end. -/
structure ClimbsEnd (f : Forest) : Prop where
  /-- No chain of parents is endless. -/
  wellFounded : WellFounded fun p n => f.parent? n = some p
  /-- What is listed is the whole way up. -/
  listed : ∀ n, f.Way n (f.ancestors n)
  /-- Nobody reports an endless way. -/
  ends : ∀ n, f.climbEnds n = true
  /-- Looking for a node on the way up finds it if it is there. -/
  found : ∀ n a, f.isDescendantOf n a = true
    ↔ Relation.ReflTransGen (fun c p => f.parent? c = some p) n a
  /-- The check of an attach fails for the owner and what is above it. -/
  checked : ∀ o c, f.breaksTree .strict o c = true
    ↔ Relation.ReflTransGen (fun c p => f.parent? c = some p) o c
  /-- Forgetting caches comes to its end. -/
  forgets : ∀ n, Forgets (f.parent? n) (f.dropCache n) (f.invalidate n)

/-- `climbEndsWithin` as many steps as the way has nodes answers `true`. -/
theorem Way.climbEndsWithin {n : NodeId} {l : List NodeId} (hl : f.Way n l) :
    ∀ {steps : Nat}, l.length ≤ steps → f.climbEndsWithin steps n = true := by
  induction hl with
  | @root n hp =>
      intro steps _
      cases steps with
      | zero =>
          rw [Forest.climbEndsWithin, hp]
          rfl
      | succ steps => simp only [Forest.climbEndsWithin, hp]
  | @up n p rest hp _ ih =>
      intro steps hle
      cases steps with
      | zero => exact absurd hle (Nat.not_succ_le_zero _)
      | succ steps =>
          simp only [Forest.climbEndsWithin, hp]
          exact ih (Nat.le_of_succ_le_succ hle)

/-- `dropCache` changes no parent. -/
theorem parent?_dropCache (m n : NodeId) :
    (f.dropCache m).parent? n = f.parent? n :=
  (alike_update (f := f) m (k := fun x => { x with cached := none })
    (fun _ => rfl) fun _ => Nat.le_refl _).parent? n

/-- Along a way that ends, the counted climb is the climb. The caches may
have changed since the way was looked at, but no link. -/
theorem Way.forgets {n : NodeId} {l : List NodeId} (hl : f.Way n l) :
    ∀ {steps : Nat} {g : Forest}, l.length ≤ steps →
      (∀ m, g.parent? m = f.parent? m) →
      Forgets (f.parent? n) g (dropCachesFrom steps (f.parent? n) g) := by
  induction hl with
  | @root n hp =>
      intro steps g _ _
      rw [hp]
      cases steps with
      | zero => exact .over
      | succ steps => exact .over
  | @up n p rest hp _ ih =>
      intro steps g hle hsame
      cases steps with
      | zero => exact absurd hle (Nat.not_succ_le_zero _)
      | succ steps =>
          rw [hp, dropCachesFrom]
          cases hcached : (g.node p).cached with
          | none => exact .known hcached
          | some flags =>
              refine .up (by simp [hcached]) ?_
              show Forgets (g.parent? p) (g.dropCache p)
                (dropCachesFrom steps (g.parent? p) (g.dropCache p))
              rw [hsame p]
              refine ih (Nat.le_of_succ_le_succ hle) fun m => ?_
              rw [parent?_dropCache, hsame m]

/-- If every node is `Rooted`, every climb ends. -/
theorem climbsEnd_of_rooted (hall : ∀ n, f.Rooted n) : f.ClimbsEnd := by
  have hway : ∀ n, f.Way n (f.ancestors n) := by
    intro n
    obtain ⟨l, hl⟩ := hall n
    rw [hl.ancestors_eq]
    exact hl
  refine ⟨⟨fun n => ?_⟩, hway, fun n => ?_, fun n a => ?_, fun o c => ?_,
    fun n => ?_⟩
  · -- each step up shortens the way that is left
    obtain ⟨l, hl⟩ := hall n
    induction hl with
    | root hp =>
        refine ⟨_, fun q hq => ?_⟩
        cases hp.symm.trans hq
    | up hp _ ih =>
        refine ⟨_, fun q hq => ?_⟩
        cases hp.symm.trans hq
        exact ih
  · exact (hway n).climbEndsWithin (hway n).length_le
  · exact isDescendantOf_iff (hall n)
  · exact isDescendantOf_iff (hall o)
  · exact (hway n).forgets (hway n).length_le fun m => parent?_dropCache n m

-- =============================================================== moves

/-- One step of what an operation does to a forest. -/
inductive Move (checks : Checks) (f : Forest) : Forest → Prop where
  /-- An edit stores, places, frees a loose node, lets a child leave, or
  lets one enter that passed the check. -/
  | touch {o : NodeId} {g : Forest} (hfg : Touch checks o f g) :
      Move checks f g
  /-- A record changes where neither shapes nor versions show it: in its
  operand, handles, traversals or cache. -/
  | note (n : NodeId) (k : Node → Node) (hshape : ∀ x, (k x).shape = x.shape)
      (hversion : ∀ x, (k x).version = x.version) :
      Move checks f (f.update n k)
  | report (e : Event) : Move checks f (f.emit e)
  | commit (n : NodeId) : Move checks f (f.commit n)
  | birth (op : Opcode) (x : Operand) :
      Move checks f (f.alloc (Node.fresh op x)).2

/-- Moves one after the other. -/
abbrev Moves (checks : Checks) : Forest → Forest → Prop :=
  Relation.ReflTransGen (Move checks)

/-- An update that keeps the shape of a record changes no parent. -/
theorem parent?_note {k : Node → Node} (hshape : ∀ x, (k x).shape = x.shape)
    (m n : NodeId) : (f.update m k).parent? n = f.parent? n := by
  have hlink : ((f.update m k).node n).link = (f.node n).link :=
    congrArg Shape.link (f.field_update hshape m n)
  unfold parent?
  rw [hlink]
  congr 1
  exact funext fun p => isAlive_update ..

/-- A `Move` keeps a forest sound, as long as nothing is locked. -/
theorem Move.sound (hfg : Move checks f g) (hs : f.Sound checks []) :
    g.Sound checks [] := by
  cases hfg with
  | touch hfg => exact hfg.sound hs
  | note n k hshape =>
      refine ⟨hs.toWellFormed.update n
        (fun x => congrArg Shape.opcode (hshape x))
        (fun x => congrArg Shape.slots (hshape x)) fun p hp => ?_,
        fun m => Nat.zero_le _, fun hchecks m => ?_⟩
      · exact hs.known ((congrArg Shape.link (hshape _)).symm.trans hp)
      · refine (hs.rooted hchecks m).mono fun c p hp => ?_
        rwa [parent?_note hshape] at hp
  | report e => exact hs.alike (alike_emit e)
  | commit n => exact hs.alike (alike_commit n)
  | birth op x => exact hs.alloc op x

namespace Moves

theorem sound (hfg : Moves checks f g) (hs : f.Sound checks []) :
    g.Sound checks [] := by
  induction hfg with
  | refl => exact hs
  | tail _ hstep ih => exact hstep.sound ih

/-- With checks on, `ClimbsEnd` holds after all `Moves` from a sound forest. -/
theorem climbsEnd (hfg : Moves .strict f g) (hs : f.Sound .strict []) :
    g.ClimbsEnd :=
  climbsEnd_of_rooted ((hfg.sound hs).rooted rfl)

theorem of_touches (hfg : Touches checks o f g) : Moves checks f g :=
  Relation.ReflTransGen.mono (fun _ _ hstep => .touch hstep) _ _ hfg

theorem of_sheds (hfg : Sheds f g) : Moves checks f g :=
  of_touches (o := default) hfg.touches

theorem hold (n : NodeId) : Moves checks f (f.hold n) :=
  .single (.note n _ (fun _ => rfl) fun _ => rfl)

theorem release (n : NodeId) : Moves checks f (f.release n) := by
  have hnote : Moves checks f
      (f.update n fun x => { x with handles := x.handles - 1 }) :=
    .single (.note n _ (fun _ => rfl) fun _ => rfl)
  exact hnote.trans (of_sheds (sheds_reap _ n))

theorem holdAll (ns : List NodeId) : Moves checks f (f.holdAll ns) := by
  induction ns generalizing f with
  | nil => exact .refl
  | cons n rest ih => exact (hold n).trans ih

theorem releaseAll (ns : List NodeId) : Moves checks f (f.releaseAll ns) := by
  induction ns generalizing f with
  | nil => exact .refl
  | cons n rest ih => exact (release n).trans ih

theorem beginTraversal (n : NodeId) : Moves checks f (f.beginTraversal n) :=
  .single (.note n _ (fun _ => rfl) fun _ => rfl)

theorem endTraversal (n : NodeId) :
    Moves checks f (endTraversal checks n f).state := by
  unfold Forest.endTraversal
  split
  · exact .refl
  · exact .single (.note n _ (fun _ => rfl) fun _ => rfl)

/-- A program that was `Tried` is made of moves. -/
theorem of_tried {α : Type} {out : Outcome Forest α}
    (hout : Tried checks o f out) : Moves checks f out.state :=
  of_touches hout.touches

/-- An edit that was `Carried` out is made of moves, however it ended. -/
theorem of_carried {α : Type} {out : Outcome Forest α}
    (hout : Carried checks o f out) : Moves checks f out.state := by
  cases hout with
  | idle a => exact .refl
  | refused e => exact .refl
  | guarded e ev => exact .single (.report ev)
  | done a hfg hgh =>
      exact ((of_touches hfg).tail (.commit o)).trans (of_sheds hgh)
  | broken op hfg => exact of_touches hfg

end Moves

-- ============================================================ building

theorem Fill.moves {n : NodeId} {ns : List NodeId}
    (hfg : Fill checks n f ns g) {locks : List NodeId}
    (hs : f.Sound checks locks) (hn : f.isAlive n = true) :
    Moves checks f g := by
  cases hfg with
  | operand i c hc hempty hout =>
      have hcarried : Carried checks n f
          (setSlotChild checks n i (some c) f) :=
        carried_setSlotChild i hn fun m hm => by cases hm; exact hc
      rw [hout] at hcarried
      exact Moves.of_carried hcarried
  | range i ns hns hc hout =>
      have hcarried : Carried checks n f
          (Collection.addRange checks ⟨n, i⟩ ns f) :=
        Collection.carried_addRange hs hc hns
      rw [hout] at hcarried
      exact Moves.of_carried hcarried

theorem Filled.moves {n : NodeId} {placed : List NodeId}
    (hfg : Filled checks n f placed g) {locks : List NodeId}
    (hs : f.Sound checks locks) (hn : f.isAlive n = true) :
    Moves checks f g := by
  induction hfg with
  | none => exact .refl
  | more hstep _ ih =>
      obtain ⟨hs', -, halive⟩ := hstep.keeps hs hn
      exact (hstep.moves hs hn).trans (ih hs' ((halive n).trans hn))

/-- Building is made of moves, slot by slot. -/
theorem Builds.moves {n : NodeId} {slots : List Slot}
    {children : List NodeId} {out : Outcome Forest NodeId}
    (hout : Builds checks n f slots children out) {locks : List NodeId}
    (hs : f.Sound checks locks) (hn : f.isAlive n = true) :
    Moves checks f out.state := by
  cases hout with
  | ok hfg => exact hfg.moves hs hn
  | refused e hfg =>
      exact (hfg.moves hs hn).trans (Moves.of_sheds (sheds_reap _ n))
  | stop placed rest why hfg hall hfew hgh =>
      exact ((hfg.moves hs hn).trans (Moves.of_carried hgh)).trans
        (Moves.of_sheds (sheds_reap _ n))

end InstructionTree.Forest
