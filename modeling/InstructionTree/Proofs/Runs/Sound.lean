/-
Every run keeps the forest sound.

This is about all runs there are: with notices given directly, with judges
that edit what they judge, and with operations that broke off. What holds
of a forest for no other reason than that it was reached is `Sound`, and
`Ages` relates it to where the run started.
-/
import InstructionTree.Proofs.Runs.Operation

namespace InstructionTree

variable {checks : Checks} {locks : List NodeId} {f g : Forest}

namespace Forest

-- =============================================================== handles

theorem alike_holdAll (ns : List NodeId) : Alike f (f.holdAll ns) := by
  induction ns generalizing f with
  | nil => exact .refl f
  | cons n rest ih => exact (alike_hold n).trans ih

/-- `holdAll` of live nodes adds them to the locks of a sound forest. -/
theorem Sound.holdAll {ns : List NodeId} (hs : f.Sound checks locks)
    (hns : ∀ n ∈ ns, f.isAlive n = true) :
    (f.holdAll ns).Sound checks (ns ++ locks) := by
  induction ns generalizing f locks with
  | nil => exact hs
  | cons n rest ih =>
      refine (ih (hs.hold (hns n (.head _))) fun m hm => ?_).mono fun m => ?_
      · exact (isAlive_hold ..).trans (hns m (.tail _ hm))
      · exact Nat.le_of_eq (List.perm_middle.count_eq m).symm

/-- `releaseAll` takes the nodes off the locks of a sound forest. -/
theorem Sound.releaseAll {ns : List NodeId}
    (hs : f.Sound checks (ns ++ locks)) :
    (f.releaseAll ns).Sound checks locks := by
  induction ns generalizing f with
  | nil => exact hs
  | cons n rest ih => exact ih hs.unlock

theorem ages_releaseAll (ns : List NodeId) : Ages f (f.releaseAll ns) := by
  induction ns generalizing f with
  | nil => exact .refl f
  | cons n rest ih => exact (ages_release f n).trans ih

-- ================================================================= flags

/-- A reflexive and transitive relation that every write of a cache keeps is
kept by `flagsWithin`. -/
theorem remembers_flagsWithin {R : Forest → Forest → Prop}
    (hrefl : ∀ f, R f f) (htrans : ∀ {f g h}, R f g → R g h → R f h)
    (hcached : ∀ f n flags,
      R f (f.update n fun x => { x with cached := some flags })) :
    ∀ (height : Nat) (n : NodeId) (f : Forest),
      R f (flagsWithin height n f).2 := by
  intro height
  induction height with
  | zero => exact fun _ f => hrefl f
  | succ height ih =>
      have hfold : ∀ (ns : List NodeId) (acc : Flags × Forest),
          R acc.2 (ns.foldl (inherit (flagsWithin height)) acc).2 := by
        intro ns
        induction ns with
        | nil => exact fun acc => hrefl acc.2
        | cons n rest hrest =>
            exact fun acc => htrans (ih n acc.2)
              (hrest (inherit (flagsWithin height) acc n))
      intro n f
      unfold flagsWithin
      dsimp only
      split
      · exact hrefl f
      · have hbelow := hfold (f.node n).children
          ((f.node n).opcode.directFlags, f)
        generalize (f.node n).children.foldl (inherit (flagsWithin height))
          ((f.node n).opcode.directFlags, f) = acc at hbelow ⊢
        split
        · exact htrans hbelow (hcached _ _ _)
        next last _ =>
          exact htrans (htrans hbelow (ih last acc.2)) (hcached _ _ _)

/-- `flagsWithin` leaves a forest `Alike`. -/
theorem alike_flagsWithin (height : Nat) (n : NodeId) (f : Forest) :
    Alike f (flagsWithin height n f).2 :=
  remembers_flagsWithin .refl .trans
    (fun _ n _ => alike_update n (fun _ => rfl) fun _ => Nat.le_refl _)
    height n f

theorem alike_flags (n : NodeId) :
    Alike f (((f.flags? n).map Prod.snd).getD f) := by
  unfold flags?
  split
  · exact alike_flagsWithin f.size n f
  · exact .refl f

end Forest

open Forest

-- ============================================================ operations

/-- What holds before and after `beginTraversal` holds after `openTraversal`.
-/
theorem openTraversal_with {R : Forest → Prop} {o : NodeId}
    (hidle : R f) (hbegun : R (f.beginTraversal o)) :
    R (openTraversal checks o f).state := by
  unfold openTraversal unlessSpent
  split
  · exact hidle
  · exact hbegun

/-- What holds before and after `Cursor.start` holds after a cursor was opened,
or was not. -/
theorem Cursor.opening_with {R : Forest → Prop} {c : Collection}
    (hidle : R f) (hstart : R (start c f).2) :
    R ((Operation.openCursor c).body checks f).state := by
  rw [Operation.body, Outcome.state_map]
  unfold opening unlessSpent
  split
  · exact hidle
  · exact hstart

theorem Notice.deliver_sound {o : NodeId} {r : Notice}
    (hs : f.Sound checks locks) (ho : f.isAlive o = true)
    (hr : ∀ n ∈ r.nodes, f.isAlive n = true) :
    (r.deliver checks o f).state.Sound checks locks
      ∧ Ages f (r.deliver checks o f).state := by
  cases r with
  | attach n =>
      have htried : Tried checks o f (Forest.attach checks o n f) :=
        tried_attach ho (hr n (.head _))
      exact ⟨htried.sound hs, htried.touches.ages⟩
  | detach n =>
      have htouches : Touches checks o f (f.detach o n) := .single (.leave n)
      exact ⟨hs.detach o n, htouches.ages⟩
  | commit => exact ⟨hs.alike (alike_commit o), (alike_commit o).ages⟩
  | beginTraversal =>
      have hbegin : Alike f (openTraversal checks o f).state :=
        openTraversal_with (.refl f) (alike_beginTraversal o)
      exact ⟨hs.alike hbegin, hbegin.ages⟩
  | endTraversal =>
      have hend := alike_endTraversal (f := f) checks o
      exact ⟨hs.alike hend, hend.ages⟩
  | requireUntraversed =>
      have hcarried : Carried checks o f
          (Forest.requireUntraversed checks o f) := carried_requireUntraversed
      exact ⟨hcarried.sound hs, hcarried.ages⟩

/-- What holds after `endTraversal`, and with any report added, holds after
`close`. -/
theorem Cursor.close_with {R : Forest → Prop} (cursor : Cursor)
    (hreport : ∀ {g} (e : Event), R g → R (g.emit e))
    (hend : R (endTraversal checks cursor.collection.owner f).state) :
    R (cursor.close checks f).state := by
  show R (Outcome.next _ _).state
  cases hout : endTraversal checks cursor.collection.owner f with
  | ok u g =>
      rw [hout] at hend
      exact hreport _ hend
  | stop why g =>
      rw [hout] at hend
      exact hend

/-- Closing a cursor leaves a forest `Alike`. -/
theorem alike_close (cursor : Cursor) :
    Alike f (cursor.close checks f).state :=
  cursor.close_with (fun _ hfg => hfg.trans (alike_emit _))
    (alike_endTraversal checks cursor.collection.owner)

theorem carried_replaceCurrent {cursor : Cursor} {n : NodeId}
    (hs : f.Sound checks locks) (hc : cursor.collection.Fits f)
    (hn : f.isAlive n = true) :
    Carried checks cursor.collection.owner f
      (cursor.replaceCurrent checks n f) := by
  unfold Cursor.replaceCurrent
  cases cursor.index? with
  | none => exact .refused _
  | some i => exact Collection.carried_set hs hc i hn

namespace Operation

variable {op : Operation}

/-- If the `body` of an operation stops, the operation stops for the same
reason, after the releases. -/
theorem run_of_body {why : Stop} {s : Forest}
    (hstop : op.body checks (f.holdAll op.keeps) = .stop why s) :
    op.run checks f = .stop why (s.releaseAll op.keeps) := by
  rw [run, hstop]
  rfl

/-- All nodes that an operation `keeps` are alive, if it is ready. -/
theorem Ready.keeps (hready : op.Ready locks f) :
    ∀ n ∈ op.keeps, f.isAlive n = true := by
  cases op with
  | build _ _ ns => exact hready
  | setSlotChild n _ child =>
      intro m hm
      rcases List.mem_cons.mp hm with rfl | hm
      · exact hready.1
      · exact hready.2 m (Option.mem_toList.mp hm)
  | setChild n _ m | replaceWith n m =>
      intro k hk
      rcases List.mem_cons.mp hk with rfl | hk
      · exact hready.1
      · rw [List.mem_singleton.mp hk]
        exact hready.2
  | removeFromParent n =>
      intro m hm
      rw [List.mem_singleton.mp hm]
      exact hready
  | change c ch =>
      intro m hm
      rcases List.mem_cons.mp hm with rfl | hm
      · exact hready.1.alive
      · exact hready.2 m hm
  | removeAll c _ _ =>
      intro m hm
      rw [List.mem_singleton.mp hm]
      exact Collection.Fits.alive hready
  | replaceCurrent cursor n =>
      intro m hm
      rcases List.mem_cons.mp hm with rfl | hm
      · exact hready.1.alive
      · rw [List.mem_singleton.mp hm]
        exact hready.2
  | create | hold | drop | setOperand | flags | openCursor | closeCursor
  | notify => exact fun _ hm => by cases hm

/-- An operation that is ready in `f` is ready in every `g` that is `Alike`. -/
theorem Ready.alike (hready : op.Ready locks f) (hfg : Alike f g) :
    op.Ready locks g := by
  have hfits : ∀ {c : Collection}, c.Fits f → c.Fits g :=
    fun hc => hc.alike hfg
  cases op with
  | create => trivial
  | drop n => exact Nat.lt_of_lt_of_le hready (hfg.handles n)
  | build => exact fun n hn => (hfg.alive n).trans (hready n hn)
  | hold n | setOperand n | flags n | removeFromParent n =>
      exact (hfg.alive n).trans hready
  | setSlotChild n _ child =>
      exact ⟨(hfg.alive n).trans hready.1,
        fun m hm => (hfg.alive m).trans (hready.2 m hm)⟩
  | setChild n _ m | replaceWith n m =>
      exact ⟨(hfg.alive n).trans hready.1, (hfg.alive m).trans hready.2⟩
  | change c ch =>
      exact ⟨hfits hready.1,
        fun m hm => (hfg.alive m).trans (hready.2 m hm)⟩
  | removeAll | openCursor | closeCursor => exact hfits hready
  | replaceCurrent _ n =>
      exact ⟨hfits hready.1, (hfg.alive n).trans hready.2⟩
  | notify o r =>
      exact ⟨(hfg.alive o).trans hready.1,
        fun m hm => (hfg.alive m).trans (hready.2 m hm)⟩

/-- Whether the operation is one edit of one owner, by which it succeeds or
fails as a whole. -/
def isEdit : Operation → Bool
  | setSlotChild .. | setChild .. | replaceWith .. | removeFromParent _
  | change .. | replaceCurrent .. => true
  | _ => false

theorem carried_body (hready : op.Ready locks f)
    (hs : f.Sound checks (op.keeps ++ locks)) (hedit : op.isEdit = true) :
    ∃ o, Carried checks o f (op.body checks f) := by
  cases op with
  | setSlotChild n i child =>
      exact ⟨n, carried_setSlotChild i hready.1 hready.2⟩
  | setChild n i m => exact ⟨n, carried_setChild hs i hready.1 hready.2⟩
  | replaceWith n m => exact carried_replaceWith hs hready.2
  | removeFromParent n => exact carried_removeFromParent hs
  | change c ch =>
      exact ⟨c.owner, (Collection.carried_apply hs hready.1 (.head _)
        fun n hn => List.mem_append_left _ (.tail _ hn)).map _⟩
  | replaceCurrent cursor n =>
      exact ⟨_, carried_replaceCurrent hs hready.1 hready.2⟩
  | create | build | hold | drop | setOperand | flags | removeAll
  | openCursor | closeCursor | notify => cases hedit

/-- The `body` of an operation keeps the forest sound, and uses no identity
twice, if its calls back keep it sound. -/
theorem body_sound (hready : op.Ready locks f)
    (hs : f.Sound checks (op.keeps ++ locks))
    (hcalls : ∀ j ∈ op.calls checks f, j.Keeps checks (op.keeps ++ locks)) :
    (op.body checks f).state.Sound checks (op.keeps ++ locks)
      ∧ Ages f (op.body checks f).state := by
  have halike : ∀ {k : Forest}, Alike f k →
      k.Sound checks (op.keeps ++ locks) ∧ Ages f k :=
    fun hfk => ⟨hs.alike hfk, hfk.ages⟩
  cases hedit : op.isEdit with
  | true =>
      obtain ⟨o, hout⟩ := carried_body hready hs hedit
      exact ⟨hout.sound hs, hout.ages⟩
  | false =>
      cases op with
      | create op x => exact ⟨hs.alloc op x, ages_alloc f _⟩
      | build op x ns =>
          have hbuilds : Builds checks (f.alloc (Node.fresh op x)).1
              (f.alloc (Node.fresh op x)).2 op.layout ns
              (Forest.build checks op x ns f) := builds_build hs hready
          rw [body, Outcome.state_map]
          obtain ⟨hs', hages⟩ := hbuilds.keeps (hs.alloc op x)
            (isAlive_alloc_self ..)
          exact ⟨hs', (ages_alloc f _).trans hages⟩
      | hold n => exact halike (alike_hold n)
      | drop n => exact ⟨hs.release hready, ages_release f n⟩
      | setOperand n x => exact halike (alike_setOperand n x)
      | flags n => exact halike (alike_flags n)
      | removeAll c judge st =>
          rw [body, Outcome.state_map]
          have hfiltered := Collection.filtered_removeAll checks c judge f st
          exact hfiltered.sound (.head _) hs hready hcalls
      | openCursor c =>
          exact halike (Cursor.opening_with (.refl f)
            ((alike_beginTraversal c.owner).trans (alike_emit _)))
      | closeCursor cursor => exact halike (alike_close cursor)
      | notify o r => exact Notice.deliver_sound hs hready.1 hready.2
      | setSlotChild | setChild | replaceWith | removeFromParent | change
      | replaceCurrent => cases hedit

/-- An operation as a whole keeps the forest sound, and uses no identity twice.
-/
theorem run_sound (hready : op.Ready locks f) (hs : f.Sound checks locks)
    (hcalls : ∀ j ∈ op.calls checks (f.holdAll op.keeps),
      j.Keeps checks (op.keeps ++ locks)) :
    (op.run checks f).state.Sound checks locks
      ∧ Ages f (op.run checks f).state := by
  have hheld := alike_holdAll (f := f) op.keeps
  obtain ⟨hs', hages⟩ := body_sound (hready.alike hheld)
    (hs.holdAll hready.keeps) hcalls
  rw [run, Outcome.state_always]
  exact ⟨hs'.releaseAll,
    (hheld.ages.trans hages).trans (ages_releaseAll op.keeps)⟩

end Operation

-- ================================================================== runs

theorem Runs.sound {permits : Permit} (hfg : Runs checks permits locks f g)
    (hs : f.Sound checks locks) : g.Sound checks locks ∧ Ages f g := by
  induction hfg with
  | refl => exact ⟨hs, .refl _⟩
  | step _ hready _ _ ih ihcalls =>
      obtain ⟨hs', hages⟩ := ih hs
      obtain ⟨hs'', hages'⟩ := Operation.run_sound hready hs' ihcalls
      exact ⟨hs'', hages.trans hages'⟩

/-- Every forest that a run from the empty one reaches is sound. -/
theorem Runs.sound_of_empty {permits : Permit}
    (hf : Runs checks permits [] ∅ f) : f.Sound checks [] :=
  (hf.sound (sound_empty checks)).1

end InstructionTree
