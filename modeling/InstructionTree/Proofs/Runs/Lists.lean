/-
A collection is a plain list.

Whoever edits a collection, through whatever handles, and whatever happens
elsewhere in between: its elements are those of a plain list that takes
the same requests and gives the same answers (`Edits.replays`). How the
edits do it, by rotating windows, exchanging elements in place or looking
up remembered places, does not show.

A client keeps the owner alive all along. What it does in between is a
plain run that leaves the elements alone; a judge of a filtering answers,
and edits nothing.

# Views

A client looks at the elements in several ways. `Shows` says of all of
them that they see the same list.
-/
import InstructionTree.Proofs.Collection.Lists
import InstructionTree.Proofs.Runs.Cursors

namespace InstructionTree

open Forest Collection

variable {checks : Checks} {locks : List NodeId} {c : Collection}
  {f g : Forest}

-- ================================================================= views

namespace Collection

/-- Everything that can be read of `c` in `f` is what the list `xs` says. -/
structure Shows (c : Collection) (f : Forest) (xs : List NodeId) : Prop where
  items : c.items f = xs
  length : c.length f = xs.length
  /-- Every element by its index, and no other. -/
  get : ∀ i, c.get? f i = match xs[i]? with
    | some n => .ok n
    | none => .error (.outOfBounds i xs.length)
  first : (c.items f).head? = xs.head?
  last : (c.items f).getLast? = xs.getLast?
  /-- The elements are the last children of the owner. -/
  children : f.children c.owner
    = ((f.node c.owner).slots.take c.slot).flatten ++ xs
  child : ∀ i, f.child? c.owner (c.base + i) = xs[i]?
  /-- A new cursor meets them all. -/
  cursor : (Cursor.start c f).1.rest (Cursor.start c f).2
    = (xs, ⟨c, .exhausted⟩)

/-- What a cursor takes from where it is, if it asks once more than there
are elements ahead. -/
theorem takeNext_after (count : Nat) {asked : Nat} {cursor : Cursor}
    (hplace : cursor.place = .after asked (cursor.collection.length f))
    (hcount : cursor.collection.length f - asked + 1 = count) :
    Cursor.takeNext f count cursor
      = ((cursor.collection.items f).drop asked,
        ⟨cursor.collection, .exhausted⟩) := by
  induction count generalizing asked cursor with
  | zero => cases hcount
  | succ count ih =>
      rw [Cursor.takeNext, Cursor.next_after hplace]
      cases hn : (cursor.collection.items f)[asked]? with
      | none =>
          have hge := List.getElem?_eq_none_iff.mp hn
          have hpast : ¬ asked + 1 ≤ cursor.collection.length f := by
            unfold Collection.length
            omega
          rw [List.drop_of_length_le hge]
          simp [Cursor.Place.after, hpast]
      | some n =>
          obtain ⟨hlt, hget⟩ := List.getElem?_eq_some_iff.mp hn
          have hleft : cursor.collection.length f - (asked + 1) + 1
              = count := by
            unfold Collection.length at hcount ⊢
            omega
          have hrest : Cursor.takeNext f count ⟨cursor.collection,
              .after (asked + 1) (cursor.collection.length f)⟩
              = ((cursor.collection.items f).drop (asked + 1),
                ⟨cursor.collection, .exhausted⟩) := ih rfl hleft
          rw [List.drop_eq_getElem_cons hlt, hget]
          simp [hrest]

/-- A collection that fits shows its `items`. -/
theorem shows_items (hwf : f.WellFormed) (hc : c.Fits f) :
    c.Shows f (c.items f) := by
  have hlast := hc.last hwf
  have hbound := hc.bound hwf
  refine ⟨rfl, rfl, fun i => rfl, rfl, rfl, ?_, fun i => ?_, ?_⟩
  · have hsplit := List.take_append_drop c.slot (f.node c.owner).slots
    have hslot : (f.node c.owner).slots.drop c.slot = [c.items f] := by
      rw [List.drop_eq_getElem_cons hbound,
        List.drop_of_length_le (Nat.le_of_eq hlast.symm)]
      show [(f.node c.owner).slots[c.slot]]
        = [((f.node c.owner).slots[c.slot]?).getD []]
      rw [List.getElem?_eq_getElem hbound]
      rfl
    rw [hslot] at hsplit
    rw [children_eq]
    nth_rewrite 1 [← hsplit]
    simp
  · obtain ⟨s, hs, hmany⟩ := hc
    have hlocate : f.locate? c.owner (c.slot + i) = some (c.slot, i) :=
      locate?_add hbound (.inr ⟨s, hlast, hs, hmany⟩)
    show (f.locate? c.owner (c.slot + i)).bind _ = _
    rw [hlocate]
    rfl
  · have hitems : c.items (Cursor.start c f).2 = c.items f :=
      slot_congr (((alike_beginTraversal c.owner).trans
        (alike_emit _)).slots c.owner) c.slot
    have htaken : (Cursor.start c f).1.rest (Cursor.start c f).2
        = ((c.items (Cursor.start c f).2).drop 0, ⟨c, .exhausted⟩) :=
      takeNext_after _ rfl rfl
    rwa [hitems, List.drop_zero] at htaken

end Collection

-- ================================================================= edits

/-- Edits of a collection through any handles of its owner, one after the
other, with the answers they got. -/
inductive Edits (checks : Checks) (c : Collection) (f : Forest) :
    List Entry → Forest → Prop where
  | refl : Edits checks c f [] f
  /-- A plain run that leaves the elements of `c` as they are, and its owner
  held. -/
  | beside {log : List Entry} {g h : Forest} (hfg : Edits checks c f log g)
      (hgh : Runs checks Plain [] g h)
      (hheld : 0 < (h.node c.owner).handles)
      (hsame : c.items h = c.items g) : Edits checks c f log h
  | change {log : List Entry} {g : Forest} {d : Collection}
      {ch : Change NodeId} {answer : Except Fault ChangeAnswer}
      (hfg : Edits checks c f log g) (hd : d.owner = c.owner)
      (hready : (Operation.change d ch).Ready [c.owner] g)
      (hanswer : (d.apply checks ch
        (g.holdAll (Operation.change d ch).keeps)).answer? = some answer) :
      Edits checks c f (log ++ [⟨.change ch, g.isGuarded checks c.owner,
          answer.map .change⟩])
        ((Operation.change d ch).run checks g).state
  /-- A filtering whose judge answers each call, and edits nothing in it. -/
  | filter {log : List Entry} {g : Forest} {d : Collection} {σ : Type}
      {judge : Judge σ} {st : σ} {answer : Except Fault Nat}
      (hfg : Edits checks c f log g) (hd : d.owner = c.owner)
      (hready : (Operation.removeAll d judge st).Ready [c.owner] g)
      (hcalls : ∀ j ∈ d.removalCalls checks judge (g.holdAll [d.owner], st),
        Runs checks Plain (j.node :: [d.owner, c.owner]) j.before j.after
        ∧ ∃ yes, j.verdict = .ok yes j.after)
      (hanswer : (d.removeAll checks judge
        (g.holdAll [d.owner], st)).answer? = some answer) :
      Edits checks c f
        (log ++ [⟨.filter ((d.removalCalls checks judge
            (g.holdAll [d.owner], st)).map fun j => (j.node, j.rejects)),
          g.isGuarded checks c.owner, answer.map .count⟩])
        ((Operation.removeAll d judge st).run checks g).state

/-- The invariant between edits: the forest is sound and covered, `c` fits, and
the client holds its owner. -/
structure Collection.Kept (checks : Checks) (c : Collection) (f : Forest) :
    Prop where
  sound : f.Sound checks [c.owner]
  covered : f.Covered
  fits : c.Fits f

namespace Collection.Kept

/-- In a sound and covered forest where `c` fits and its owner has a handle,
`Kept` holds. -/
theorem of_held (hs : f.Sound checks []) (hcov : f.Covered) (hc : c.Fits f)
    (hheld : 0 < (f.node c.owner).handles) : c.Kept checks f := by
  have hlocked : f.Sound checks [c.owner].dedup :=
    hs.lock fun n hn => (List.mem_singleton.mp hn).symm ▸ hheld
  rw [List.dedup_eq_self.mpr (List.nodup_singleton _)] at hlocked
  exact ⟨hlocked, hcov, hc⟩

/-- A plain run keeps all this, if the client does not let go of the
owner. -/
theorem runs (hf : c.Kept checks f) (hfg : Runs checks Plain [] f g)
    (hheld : 0 < (g.node c.owner).handles) : c.Kept checks g := by
  have hs : f.Sound checks [] := hf.sound.mono fun n => Nat.zero_le _
  obtain ⟨hs', hages⟩ := hfg.sound hs
  exact .of_held hs' (hfg.covered hs hf.covered)
    (hf.fits.ages hages (alive_of_handles hheld)) hheld

/-- `Kept` is kept by an operation that gave an answer. -/
theorem run {op : Operation} {α : Type} {answer : Except Fault α}
    {out : Outcome Forest α} (hf : c.Kept checks f)
    (hready : op.Ready [c.owner] f)
    (hidle : ∀ j ∈ op.calls checks (f.holdAll op.keeps),
      j.Idle checks (op.keeps ++ [c.owner]))
    (hnotify : ∀ o r, op ≠ .notify o r)
    (hbody : op.body checks (f.holdAll op.keeps) = out.map fun _ => ())
    (hanswer : out.answer? = some answer) :
    c.Kept checks (op.run checks f).state := by
  obtain ⟨hs, hages⟩ := Operation.run_sound hready hf.sound
    fun j hj => (hidle j hj).1
  refine ⟨hs, Operation.run_covered hready hf.sound hf.covered hidle
      hnotify fun _ p s hstop => ?_,
    hf.fits.ages hages (hs.alive (.head _))⟩
  have hnone : (op.run checks f).answer? = none := by
    rw [hstop]
    rfl
  rw [Operation.run, Outcome.answer?_always, hbody, Outcome.answer?_map,
    hanswer] at hnone
  cases hnone

/-- `holdAll` changes no element of `c`. -/
theorem items_holdAll (ns : List NodeId) :
    c.items (f.holdAll ns) = c.items f :=
  slot_congr ((alike_holdAll ns).slots c.owner) c.slot

/-- Giving back what an operation mentions changes no element of `c`. -/
theorem items_run {op : Operation}
    (hs : (op.body checks (f.holdAll op.keeps)).state.Sound checks
      (op.keeps ++ [c.owner])) :
    c.items (op.run checks f).state
      = c.items (op.body checks (f.holdAll op.keeps)).state := by
  rw [Operation.run, Outcome.state_always]
  exact items_of_calm (calm_releaseAll op.keeps)
    (hs.alive (List.mem_append_right _ (.head _)))
    (hs.releaseAll.alive (.head _))

section

variable (hf : c.Kept checks f)
include hf

/-- A change of `c` that gave an answer is a step of the list: `Entry.Plays`
from the elements before to those after. -/
theorem change {ch : Change NodeId} {answer : Except Fault ChangeAnswer}
    (hready : (Operation.change c ch).Ready [c.owner] f)
    (hanswer : (c.apply checks ch
      (f.holdAll (Operation.change c ch).keeps)).answer? = some answer) :
    Entry.Plays (c.items f) ⟨.change ch, f.isGuarded checks c.owner,
        answer.map .change⟩
        (c.items ((Operation.change c ch).run checks f).state)
      ∧ c.Kept checks ((Operation.change c ch).run checks f).state := by
  have hheld := alike_holdAll (f := f) (Operation.change c ch).keeps
  have hready' := hready.alike hheld
  have hs := hf.sound.holdAll hready.keeps
  have hbody := (Operation.body_sound hready' hs
    fun j hj => by cases hj).1
  refine ⟨?_, hf.run hready (fun j hj => by cases hj)
    (fun _ _ h => by cases h) rfl hanswer⟩
  have hplays := plays_apply hs hready'.1 (.head _)
    (fun n hn => List.mem_append_left _ (.tail _ hn)) hanswer
  rw [items_run hbody, Operation.body, Outcome.state_map]
  rwa [items_holdAll, isGuarded_holdAll] at hplays

/-- A filtering of `c` that gave an answer is a step of the list. -/
theorem filter {σ : Type} {judge : Judge σ} {st : σ}
    {answer : Except Fault Nat}
    (hready : (Operation.removeAll c judge st).Ready [c.owner] f)
    (hcalls : ∀ j ∈ c.removalCalls checks judge (f.holdAll [c.owner], st),
      Runs checks Plain (j.node :: [c.owner, c.owner]) j.before j.after
      ∧ ∃ yes, j.verdict = .ok yes j.after)
    (hanswer : (c.removeAll checks judge
      (f.holdAll [c.owner], st)).answer? = some answer) :
    Entry.Plays (c.items f)
        ⟨.filter ((c.removalCalls checks judge
            (f.holdAll [c.owner], st)).map fun j => (j.node, j.rejects)),
          f.isGuarded checks c.owner, answer.map .count⟩
        (c.items ((Operation.removeAll c judge st).run checks f).state)
      ∧ c.Kept checks ((Operation.removeAll c judge st).run checks f).state
    := by
  have hheld := alike_holdAll (f := f) [c.owner]
  have hready' := hready.alike hheld
  have hs : (f.holdAll [c.owner]).Sound checks ([c.owner] ++ [c.owner]) :=
    hf.sound.holdAll hready.keeps
  have hidle : ∀ j ∈ c.removalCalls checks judge (f.holdAll [c.owner], st),
      j.Idle checks ([c.owner] ++ [c.owner]) :=
    fun j hj => (hcalls j hj).1.idle
  have hbody : ((Operation.removeAll c judge st).body checks
      (f.holdAll [c.owner])).state.Sound checks ([c.owner] ++ [c.owner]) :=
    (Operation.body_sound hready' hs fun j hj => (hidle j hj).1).1
  rw [← Outcome.answer?_mapState Prod.fst] at hanswer
  refine ⟨?_, hf.run hready hidle (fun _ _ h => by cases h) rfl
    hanswer⟩
  rw [Outcome.answer?_mapState] at hanswer
  have hplays := plays_removeAll hs hready' (hheld.calm.covered
    hf.sound.toWellFormed hf.covered) (.head _) hidle
    (fun j hj => (hcalls j hj).2) hanswer
  rw [items_run hbody, Operation.body, Outcome.state_map]
  rwa [items_holdAll, isGuarded_holdAll] at hplays

/-- Moving an element that is there works, unless the owner is guarded, and
opens and closes no traversal. -/
theorem move {a b : Nat} (hopen : f.isGuarded checks c.owner = false)
    (ha : a < c.length f) (hb : b < c.length f) :
    ∃ g, Edits checks c f
        [⟨.change (.move a b), false, .ok (.change .done)⟩] g
      ∧ (ListEdit.change (.move a b)).Makes (c.items f) (.change .done)
        (c.items g)
      ∧ c.Kept checks g ∧ g.isGuarded checks c.owner = false := by
  have hready : (Operation.change c (.move a b)).Ready [c.owner] f :=
    ⟨hf.fits, fun n hn => by cases hn⟩
  have hlength : c.length (f.holdAll [c.owner]) = c.length f :=
    congrArg List.length (items_holdAll [c.owner])
  obtain ⟨n, hn⟩ := exists_getElem? (hlength.symm ▸ ha)
  have hanswer : (c.apply checks (.move a b)
      (f.holdAll [c.owner])).answer? = some (.ok .done) := by
    simp [apply, Collection.move, guarded_of_open _
      ((isGuarded_holdAll [c.owner] c.owner).trans hopen), hn, hlength, hb,
      Outcome.map, Outcome.answer?]
  obtain ⟨hplays, hkept⟩ := hf.change hready hanswer
  have hedit := Edits.refl.change rfl hready hanswer
  rw [hopen] at hplays hedit
  refine ⟨_, hedit, ?_, hkept, ?_⟩
  · cases hplays with
    | done _ hmakes => exact hmakes
  · -- moving counts no traversal
    obtain ⟨p, hworks⟩ := Operation.works_run rfl hready hf.sound
    unfold isGuarded at hopen ⊢
    rwa [hworks.depth (.inl (hkept.sound.alive (.head _)))]

end

end Collection.Kept

namespace Edits

variable {log : List Entry}

theorem trans {more : List Entry} {h : Forest}
    (hfg : Edits checks c f log g) (hgh : Edits checks c g more h) :
    Edits checks c f (log ++ more) h := by
  induction hgh with
  | refl =>
      rw [List.append_nil]
      exact hfg
  | beside _ hrun hheld hsame ih => exact ih.beside hrun hheld hsame
  | change _ hd hready hanswer ih =>
      rw [← List.append_assoc]
      exact ih.change hd hready hanswer
  | filter _ hd hready hcalls hanswer ih =>
      rw [← List.append_assoc]
      exact ih.filter hd hready hcalls hanswer

/-- `Edits` of `c` replay their log on the list of elements, and `Kept` holds
at their end. -/
theorem plays (hrun : Edits checks c f log g) (hf : c.Kept checks f) :
    Replays (c.items f) log (c.items g) ∧ c.Kept checks g := by
  induction hrun with
  | refl => exact ⟨.refl, hf⟩
  | beside _ hgh hheld hsame ih =>
      obtain ⟨hplays, hg⟩ := ih
      rw [hsame]
      exact ⟨hplays, hg.runs hgh hheld⟩
  | change _ hd hready hanswer ih =>
      obtain ⟨hplays, hg⟩ := ih
      obtain rfl := hg.fits.unique hready.1 hg.sound.toWellFormed hd
      obtain ⟨hentry, hkept⟩ := hg.change hready hanswer
      exact ⟨hplays.step hentry, hkept⟩
  | filter _ hd hready hcalls hanswer ih =>
      obtain ⟨hplays, hg⟩ := ih
      obtain rfl := hg.fits.unique hready hg.sound.toWellFormed hd
      obtain ⟨hentry, hkept⟩ := hg.filter hready hcalls hanswer
      exact ⟨hplays.step hentry, hkept⟩

/-- A collection is a plain list: in every forest that a plain run reached,
edits of it through any handles, with anything in between that leaves it
alone, are answered like the list answers them, and leave what the list
holds then. All views show it, and moving an element and moving it back
is nothing. -/
theorem replays (hf : Runs checks Plain [] ∅ f) (hc : c.Fits f)
    (hheld : 0 < (f.node c.owner).handles) (hrun : Edits checks c f log g) :
    Replays (c.items f) log (c.items g)
    ∧ c.Shows g (c.items g)
    ∧ ∀ a b, a < c.length g → b < c.length g →
      g.isGuarded checks c.owner = false →
      ∃ h, Edits checks c g
          [⟨.change (.move a b), false, .ok (.change .done)⟩,
            ⟨.change (.move b a), false, .ok (.change .done)⟩] h
        ∧ c.items h = c.items g := by
  obtain ⟨hplays, hg⟩ := hrun.plays
    (.of_held hf.sound_of_empty hf.covered_of_empty hc hheld)
  refine ⟨hplays, shows_items hg.sound.toWellFormed hg.fits,
    fun a b ha hb hopen => ?_⟩
  obtain ⟨k, hthere, hmoved, hk, hopen'⟩ := hg.move hopen ha hb
  have hlength : c.length k = c.length g := hmoved.length_move
  obtain ⟨h, hback, hrestored, -⟩ :=
    hk.move hopen' (hlength.symm ▸ hb) (hlength.symm ▸ ha)
  exact ⟨h, hthere.trans hback, hmoved.move_back hrestored⟩

/-- A block that holds a node twice: an insertion past the end, and then a
filtering that rejects the node in between. -/
theorem replays_of_twice :
    let c : Collection := ⟨⟨0⟩, 0⟩
    let ops : List Operation :=
      [.create .block .none, .hold ⟨0⟩, .create .nop .none, .hold ⟨1⟩,
        .create .nop .none, .hold ⟨2⟩, .change c (.addRange [⟨1⟩, ⟨2⟩, ⟨1⟩])]
    let f := played .strict ops ∅
    let log : List Entry :=
      [⟨.change (.insert 7 ⟨2⟩), false, .error (.outOfBounds 7 3)⟩,
        ⟨.filter [(⟨1⟩, false), (⟨2⟩, true), (⟨1⟩, false)], false,
          .ok (.count 1)⟩]
    ∃ g, Edits .strict c f log g
      ∧ Replays [⟨1⟩, ⟨2⟩, ⟨1⟩] log [⟨1⟩, ⟨1⟩]
      ∧ c.Shows g [⟨1⟩, ⟨1⟩]
      ∧ ∃ h, Edits .strict c g
          [⟨.change (.move 0 1), false, .ok (.change .done)⟩,
            ⟨.change (.move 1 0), false, .ok (.change .done)⟩] h
        ∧ c.items h = c.items g := by
  intro c ops f log
  have hplays : Plays .strict (fun _ _ => true) [] ops ∅ := by
    decide +kernel
  have hf : Runs .strict Plain [] ∅ f :=
    hplays.runs (fun hop _ => hop.plain) .refl
  let first : Operation := .change c (.insert 7 ⟨2⟩)
  let judge : Judge Unit := fun n s => .ok (n == ⟨2⟩) s
  let second : Operation := .removeAll c judge ()
  let k := (first.run .strict f).state
  let calls := c.removalCalls .strict judge (k.holdAll [c.owner], ())
  have hopen : f.isGuarded .strict c.owner = false := by decide +kernel
  have hinsert : (c.apply .strict (.insert 7 ⟨2⟩)
      (f.holdAll first.keeps)).answer? = some (.error (.outOfBounds 7 3)) := by
    decide +kernel
  have hfirst := (Edits.refl (f := f)).change (c := c) rfl
    (by decide +kernel : first.Ready [c.owner] f) hinsert
  rw [hopen] at hfirst
  have hpure : ∀ i : Fin calls.length, calls[i].after = calls[i].before
      ∧ calls[i].verdict = .ok calls[i].rejects calls[i].after := by
    decide +kernel
  have hcalls : ∀ j ∈ calls,
      Runs .strict Plain (j.node :: [c.owner, c.owner]) j.before j.after
      ∧ ∃ yes, j.verdict = .ok yes j.after := by
    intro j hj
    obtain ⟨i, hi, rfl⟩ := List.mem_iff_getElem.mp hj
    obtain ⟨hsame, hverdict⟩ := hpure ⟨i, hi⟩
    exact ⟨hsame ▸ .refl, _, hverdict⟩
  have hfilter : (c.removeAll .strict judge
      (k.holdAll [c.owner], ())).answer? = some (.ok 1) := by
    decide +kernel
  have hopen' : k.isGuarded .strict c.owner = false := by decide +kernel
  have hjudged : (calls.map fun j => (j.node, j.rejects))
      = [(⟨1⟩, false), (⟨2⟩, true), (⟨1⟩, false)] := by decide +kernel
  have hrun := hfirst.filter rfl
    (by decide +kernel : second.Ready [c.owner] k) hcalls hfilter
  rw [hopen', hjudged] at hrun
  obtain ⟨hreplays, hshows, hmoves⟩ :=
    replays hf (by decide +kernel) (by decide +kernel) hrun
  have hitems : c.items f = [⟨1⟩, ⟨2⟩, ⟨1⟩] := by decide +kernel
  have hitems' : c.items (second.run .strict k).state = [⟨1⟩, ⟨1⟩] := by
    decide +kernel
  rw [hitems, hitems'] at hreplays
  rw [hitems'] at hshows
  exact ⟨_, hrun, hreplays, hshows,
    hmoves 0 1 (by decide +kernel) (by decide +kernel) (by decide +kernel)⟩

end Edits

end InstructionTree
