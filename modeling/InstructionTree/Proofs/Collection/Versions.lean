/-
Versions and the edits of a collection.

A successful edit commits its owner exactly once, except where there was
nothing to do: an element is replaced by itself, or a node to be removed
or moved is not there (`Change.idle`).

# A filtering

A pass stores elements while it runs and commits, if it does, in the end.
So the owner is late from the moment on when it stores something that was
not there before. That is the first element that it keeps after one that
it rejected; until then an element that is kept changes places with
itself. But who rejected anything commits.
-/
import InstructionTree.Proofs.Collection.Stored
import InstructionTree.Proofs.Collection.Success
import InstructionTree.Proofs.Forest.Versions

namespace InstructionTree

open Forest

variable {checks : Checks} {c : Collection} {f g h : Forest}
  {n p : NodeId} {locks : List NodeId}

/-- Whether the change would store what is stored already. -/
def Change.idle (c : Collection) (f : Forest) : Change NodeId → Bool
  | set i n => decide ((c.items f)[i]? = some n)
  | remove n | moveToEnd n => !c.contains f n
  | add _ | addRange _ | insert .. | removeAt _ | removeRange ..
  | swapRemoveAt _ | clear | move .. | replaceList _ => false

namespace Collection

-- ================================================================== edits

/-- Small steps of the owner, `enter` and `commit` raise its version by one. -/
private theorem raises_entered (hfg : Touches checks c.owner f g) :
    Raises c.owner 1 f ((g.enter c.owner n).commit c.owner) :=
  ((hfg.raises c.owner).trans (raises_enter c.owner n c.owner)).trans
    (raises_commit c.owner)

section

variable (hs : f.Sound checks locks) (hc : c.Fits f)
include hs hc

theorem raises_set {i : Nat} {u : Unit} (hn : f.isAlive n = true)
    (hout : c.set checks i n f = .ok u g) :
    Raises c.owner (if (c.items f)[i]? = some n then 0 else 1) f g := by
  obtain ⟨old, hold, hends⟩ := set_eq_ok hout
  rcases hends with ⟨hsame, hg⟩ | ⟨hother, hg⟩
  · rw [hg, if_pos (hsame ▸ hold)]
    exact .refl c.owner f
  · have hne : ¬ (c.items f)[i]? = some n := by
      rw [hold]
      exact fun hsame => hother (Option.some.inj hsame)
    have hstored : Touches checks c.owner f (c.overwritten f i n) :=
      touches_overwritten hs.toWellFormed hc i hn
    have hleft : Raises c.owner 0 f
        (((c.overwritten f i n).enter c.owner n).detach c.owner old) :=
      ((hstored.raises c.owner).trans (raises_enter ..)).trans
        (raises_detach ..)
    have hdone := (hleft.trans (raises_commit c.owner)).trans
      ((sheds_reap _ old).raises c.owner)
    rw [hg, if_neg hne]
    exact hdone

theorem raises_removeAt {i : Nat} {old : NodeId}
    (hout : c.removeAt checks i f = .ok old g) : Raises c.owner 1 f g := by
  obtain ⟨-, hg⟩ := removeAt_eq_ok hout
  have hfg : Touches checks c.owner f (c.erased f i old) :=
    touches_erased hs.toWellFormed hc i old
  rw [hg]
  exact hfg.raises_committed (sheds_reap _ old)

theorem raises_move {a b : Nat} {u : Unit}
    (hout : c.move checks a b f = .ok u g) : Raises c.owner 1 f g := by
  obtain ⟨n, hn, -, hg⟩ := move_eq_ok hout
  have hfg : Touches checks c.owner f (c.moved f a b n) :=
    touches_moved hs.toWellFormed hc a b (List.mem_of_getElem? hn)
  rw [hg]
  exact hfg.raises_committed .refl

/-- A change that succeeded raises the version of its owner by one, or by none
if it was `idle`. -/
theorem raises_apply {change : Change NodeId} {answer : ChangeAnswer}
    (ho : c.owner ∈ locks) (hns : ∀ n ∈ change.nodes, n ∈ locks)
    (hout : c.apply checks change f = .ok answer g) :
    Raises c.owner (if change.idle c f = true then 0 else 1) f g := by
  have hwf := hs.toWellFormed
  have hlive : ∀ n ∈ change.nodes, f.isAlive n = true :=
    fun n hn => hs.alive (hns n hn)
  cases change with
  | set i n =>
      obtain ⟨u, hset, -⟩ := Outcome.map_eq_ok hout
      simpa only [Change.idle, decide_eq_true_eq]
        using raises_set hs hc (hlive n (.head _)) hset
  | add n =>
      obtain ⟨u, hadd, -⟩ := Outcome.map_eq_ok hout
      have hfg : Touches checks c.owner f (c.pushed f n) :=
        touches_appended hwf hc (c.length f) (hlive n (.head _))
      rw [add_eq_ok hadd]
      exact raises_entered hfg
  | addRange ns =>
      obtain ⟨u, hadd, -⟩ := Outcome.map_eq_ok hout
      obtain ⟨k, happend, hg⟩ := addRange_eq_ok hadd
      have htried := tried_append hs hc hlive
      rw [Change.nodes, happend] at htried
      cases htried with
      | ok _ hfg =>
          rw [hg]
          exact hfg.raises_committed .refl
  | insert i n =>
      obtain ⟨u, hinsert, -⟩ := Outcome.map_eq_ok hout
      obtain ⟨-, hg⟩ := insert_eq_ok hinsert
      have hfg : Touches checks c.owner f (c.inserted f i n) :=
        touches_inserted hwf hc i (hlive n (.head _))
      rw [hg]
      exact raises_entered hfg
  | removeAt i =>
      obtain ⟨old, hremove, -⟩ := Outcome.map_eq_ok hout
      exact raises_removeAt hs hc hremove
  | remove n =>
      obtain ⟨yes, hremove, -⟩ := Outcome.map_eq_ok hout
      have hidle : Change.idle c f (.remove n)
          = !(c.indexOf? f n).isSome := rfl
      rw [hidle]
      rcases remove_eq_ok hremove with ⟨hnone, hg⟩ | ⟨i, old, hfound, hat⟩
      · rw [hnone, hg]
        exact .refl c.owner f
      · rw [hfound]
        exact raises_removeAt hs hc hat
  | removeRange i count =>
      obtain ⟨u, hremove, -⟩ := Outcome.map_eq_ok hout
      obtain ⟨-, hg⟩ := removeRange_eq_ok hremove
      rw [hg]
      exact (touches_erasedRange ho hs hc i count).raises_committed .refl
  | swapRemoveAt i =>
      obtain ⟨old, hremove, -⟩ := Outcome.map_eq_ok hout
      obtain ⟨last, -, hlast, hg⟩ := swapRemoveAt_eq_ok hremove
      have hfg : Touches checks c.owner f (c.swapErased f i old last) :=
        touches_swapErased hwf hc i old last (List.mem_of_getLast? hlast)
      rw [hg]
      exact hfg.raises_committed (sheds_reap _ old)
  | clear =>
      obtain ⟨u, hclear, -⟩ := Outcome.map_eq_ok hout
      rw [clear_eq_ok hclear]
      have hfg : Touches checks c.owner f (c.cleared f) := touches_cleared hc
      exact hfg.raises_committed (sheds_reapAll _ _)
  | move a b =>
      obtain ⟨u, hmove, -⟩ := Outcome.map_eq_ok hout
      exact raises_move hs hc hmove
  | moveToEnd n =>
      obtain ⟨yes, hmove, -⟩ := Outcome.map_eq_ok hout
      have hidle : Change.idle c f (.moveToEnd n)
          = !(c.indexOf? f n).isSome := rfl
      rw [hidle]
      rcases moveToEnd_eq_ok hmove with ⟨hnone, hg⟩ | ⟨i, hfound, hat⟩
      · rw [hnone, hg]
        exact .refl c.owner f
      · rw [hfound]
        exact raises_move hs hc hat
  | replaceList ns =>
      obtain ⟨u, hreplace, -⟩ := Outcome.map_eq_ok hout
      obtain ⟨k, hover, hg⟩ := replaceList_eq_ok hreplace
      have htried := tried_overwrite hs hc ho 0 hns
      rw [Change.nodes, hover] at htried
      cases htried with
      | ok _ hfk =>
          have hs' := hfk.sound hs
          have hfg : Touches checks c.owner f _ :=
            hfk.trans (touches_discard ho ns.length
            ((c.items k).length - ns.length) hs'
            (hc.touches hfk (hs'.alive ho)))
          rw [hg]
          exact hfg.raises_committed .refl

end

-- ============================================================== a filtering

section

variable {late : NodeId → Prop} {pass : Pass}

theorem raises_setItems (items : List NodeId) (p : NodeId) :
    Raises p 0 f (c.setItems f items) := by
  refine raises_update c.owner ?_ ?_ p
  all_goals exact fun _ => rfl

theorem raises_renumber (old new : Nat) (n p : NodeId) :
    Raises p 0 f (c.renumber f old new n) := by
  have htouches : Touches .lax c.owner f (c.renumber f old new n) :=
    touches_renumber old new n
  exact htouches.raises p

theorem raises_renumberFrom (old : Nat → Nat) (i : Nat) (ns : List NodeId)
    (p : NodeId) : Raises p 0 f (c.renumberFrom old i ns f) := by
  have htouches : Touches .lax c.owner f (c.renumberFrom old i ns f) :=
    touches_renumberFrom old i ns
  exact htouches.raises p

theorem raises_keep (n : NodeId) (pass : Pass) (p : NodeId) :
    Raises p 0 f (c.keep n pass f).2 := by
  unfold keep
  dsimp only
  split
  · exact (raises_renumber ..).trans (raises_setItems ..)
  · exact raises_renumber ..

theorem raises_compact (pass : Pass) (p : NodeId) :
    Raises p 0 f (pass.compact c f) := by
  obtain ⟨zone, -, hcompact⟩ := compact_eq (c := c) (f := f) pass rfl rfl
  rw [hcompact]
  exact ((raises_setItems _ p).trans ((sheds_reapAll _ zone).raises p)).trans
    (raises_renumberFrom ..)

/-- `setItems` tracks if the owner is late, or the elements are those that are
stored. -/
theorem tracks_setItems {items : List NodeId}
    (hitems : ¬ late c.owner → items = c.items f) :
    Tracks late f (c.setItems f items) := by
  refine (raises_setItems items default).tracks fun {n} hf _ hn => ?_
  by_cases hsame : n = c.owner
  · subst hsame
    have hstored : (f.node c.owner).slots.set c.slot
        (((f.node c.owner).slots[c.slot]?).getD [])
          = (f.node c.owner).slots := by
      rcases Nat.lt_or_ge c.slot (f.node c.owner).slots.length with hlt | hge
      · rw [List.getElem?_eq_getElem hlt, Option.getD_some,
          List.set_getElem_self]
      · exact List.set_eq_of_length_le hge
    rw [hitems hn, setItems, slots_setSlot_self f _ _ hf]
    exact hstored
  · exact slots_setSlot_ne f _ _ hsame

theorem tracks_renumber (old new : Nat) (n : NodeId) :
    Tracks late f (c.renumber f old new n) := by
  refine (raises_renumber old new n default).tracks fun _ _ _ => ?_
  exact c.field_renumber (F := Node.slots) (fun _ _ => rfl) f old new n _

theorem tracks_renumberFrom (old : Nat → Nat) (i : Nat) (ns : List NodeId) :
    Tracks late f (c.renumberFrom old i ns f) := by
  refine (raises_renumberFrom old i ns default).tracks fun _ _ _ => ?_
  exact c.field_renumberFrom (F := Node.slots) (fun _ _ => rfl) old _ i ns f

theorem tracks_reject (n : NodeId) (pass : Pass) :
    Tracks late f (c.reject n pass f).2 :=
  (raises_detach c.owner n default).tracks fun _ _ _ => slots_detach ..

/-- During a pass the owner is late once something was rejected. -/
def Pass.Late (pass : Pass) (c : Collection) (n : NodeId) : Prop :=
  n = c.owner ∧ 0 < pass.rejected

/-- Where the owner is not late, `kept` equals `judged`. -/
private theorem level (hpass : pass.Balanced)
    (hlate : ¬ pass.Late c c.owner) : pass.kept = pass.judged :=
  hpass.level (Nat.eq_zero_of_not_pos fun hsome => hlate ⟨rfl, hsome⟩)

theorem tracks_keep (hpass : pass.Balanced) (n : NodeId) :
    Tracks (pass.Late c) f (c.keep n pass f).2 := by
  have hplaced : Tracks (pass.Late c) f
      (c.renumber f pass.judged pass.kept n) := tracks_renumber _ _ n
  unfold keep
  dsimp only
  split
  next first second hfirst hsecond =>
    refine hplaced.trans (tracks_setItems fun hlate => ?_)
    generalize c.items (c.renumber f pass.judged pass.kept n) = items
      at hfirst hsecond ⊢
    rw [level hpass hlate] at hfirst ⊢
    obtain ⟨hlt, rfl⟩ := List.getElem?_eq_some_iff.mp hsecond
    obtain ⟨-, rfl⟩ := List.getElem?_eq_some_iff.mp hfirst
    rw [List.set_getElem_self, List.set_getElem_self]
  · exact hplaced

theorem tracks_compact (hpass : pass.Balanced) :
    Tracks (pass.Late c) f (pass.compact c f) := by
  obtain ⟨zone, -, hcompact⟩ := compact_eq (c := c) (f := f) pass rfl rfl
  rw [hcompact]
  refine ((tracks_setItems fun hlate => ?_).trans
    (sheds_reapAll _ zone).tracks).trans (tracks_renumberFrom _ _ _)
  rw [level hpass hlate, Nat.min_eq_right (Nat.min_le_left ..),
    List.take_append_drop]

/-- `finish` that succeeded ends the lateness of the owner: it commits if
anything was rejected. -/
theorem tracks_finish {u : Unit} (hpass : pass.Balanced)
    (hfg : Tracks (pass.Late c) f g)
    (hfinish : pass.finish checks c g = .ok u h) :
    Tracks (fun _ => False) f h := by
  obtain ⟨k, hend, hh⟩ := Outcome.next_eq_ok hfinish
  have hclosed : Tracks (pass.Late c) f k := by
    have halike := alike_endTraversal (f := pass.compact c g) checks c.owner
    have hraises : Raises default 0 (pass.compact c g)
        (endTraversal checks c.owner (pass.compact c g)).state :=
      raises_endTraversal c.owner default
    rw [hend] at halike hraises
    exact (hfg.trans (tracks_compact hpass)).trans (halike.calm.tracks hraises)
  rw [hh]
  split
  case isTrue hnone =>
    refine hclosed.mono fun n hlate => ?_
    exact Nat.lt_irrefl 0 (hnone ▸ hlate.2)
  case isFalse =>
    have howner : Tracks (· = c.owner) f k := hclosed.mono fun n hlate =>
      hlate.1
    exact howner.commit

/-- A pass whose calls track is tracked, with the owner late once something was
rejected. -/
theorem Sifts.tracks {count : Nat} {last : Pass} {calls : List Judgement}
    {stopped : Option Stop}
    (hsifts : Sifts c count pass g calls last stopped h)
    (hpass : pass.Balanced)
    (hcalls : ∀ j ∈ calls, Tracks (fun _ => False) j.before j.after)
    (hfg : Tracks (pass.Late c) f g) :
    Tracks (last.Late c) f h := by
  -- a call, with the lock on the element under judgement
  have hcalled : ∀ {pass : Pass} {g k : Forest} {n : NodeId}
      {out : Outcome Forest Bool}, Tracks (pass.Late c) f g →
      Tracks (fun _ => False) (g.hold n) out.state →
      Tracks (pass.Late c) out.state k →
      Tracks (pass.Late c) f (k.release n) := by
    intro pass g k n out hfg hcall hk
    exact (((hfg.trans (tracks_hold n)).trans
      (hcall.mono fun _ hnone => hnone.elim)).trans hk).trans
        (tracks_release k n)
  have hmore : ∀ {pass next : Pass} {g : Forest},
      pass.rejected ≤ next.rejected → Tracks (pass.Late c) f g →
      Tracks (next.Late c) f g := by
    intro pass next g hle hg
    exact hg.mono fun n hlate => ⟨hlate.1, Nat.lt_of_lt_of_le hlate.2 hle⟩
  induction hsifts with
  | full | short => exact hfg
  | failed => exact hcalled hfg (hcalls _ (.head _)) (.refl _ _)
  | @rejected _ pass _ _ _ _ n _ _ _ _ ih =>
      refine ih (hpass.reject n _) (fun j hj => hcalls j (.tail _ hj)) ?_
      exact hmore (Nat.le_succ _)
        (hcalled hfg (hcalls _ (.head _)) (tracks_reject n pass))
  | @kept _ pass next _ _ g _ _ n _ _ _ hkeep _ ih =>
      have hsame : pass.rejected ≤ next.rejected := by
        rw [keep_eq_some hkeep]
      have hstored : Tracks (pass.Late c) g (c.keep n pass g).2 :=
        tracks_keep hpass n
      rw [hkeep] at hstored
      refine ih (hpass.keep hkeep) (fun j hj => hcalls j (.tail _ hj)) ?_
      exact hmore hsame (hcalled hfg (hcalls _ (.head _)) hstored)
  | @lost _ pass _ g _ n _ hkeep =>
      have hstored : Tracks (pass.Late c) g (c.keep n pass g).2 :=
        tracks_keep hpass n
      rw [hkeep] at hstored
      exact hcalled hfg (hcalls _ (.head _)) hstored

/-- `finish` that succeeded raises the version of the owner by one, or by none
if nothing was rejected. -/
theorem raises_finish {u : Unit}
    (hfinish : pass.finish checks c g = .ok u h) :
    Raises c.owner (if pass.rejected = 0 then 0 else 1) g h := by
  obtain ⟨k, hend, hh⟩ := Outcome.next_eq_ok hfinish
  have hclosed : Raises c.owner 0 (pass.compact c g)
      (endTraversal checks c.owner (pass.compact c g)).state :=
    raises_endTraversal c.owner c.owner
  rw [hend] at hclosed
  have hcompacted := (raises_compact pass c.owner).trans hclosed
  rw [hh]
  split
  · exact hcompacted
  · exact hcompacted.trans (raises_commit c.owner)

/-- A pass whose calls raise no version raises none. -/
theorem Sifts.raises {count : Nat} {last : Pass} {calls : List Judgement}
    {stopped : Option Stop}
    (hsifts : Sifts c count pass g calls last stopped h)
    (hcalls : ∀ j ∈ calls, Raises p 0 j.before j.after) :
    Raises p 0 g h := by
  have hcalled : ∀ {g k : Forest} {n : NodeId} {out : Outcome Forest Bool},
      Raises p 0 (g.hold n) out.state → Raises p 0 out.state k →
      Raises p 0 g (k.release n) := by
    intro g k n out hcall hk
    exact (((raises_hold n p).trans hcall).trans hk).trans
      (raises_release n p)
  induction hsifts with
  | full | short => exact .refl p _
  | failed => exact hcalled (hcalls _ (.head _)) (.refl p _)
  | @rejected _ pass _ _ g _ n _ _ _ _ ih =>
      have hleft : Raises p 0 g (c.reject n pass g).2 :=
        raises_detach c.owner n p
      exact (hcalled (hcalls _ (.head _)) hleft).trans
        (ih fun j hj => hcalls j (.tail _ hj))
  | @kept _ pass next _ _ g _ _ n _ _ _ hkeep _ ih =>
      have hstored : Raises p 0 g (c.keep n pass g).2 :=
        raises_keep n pass p
      rw [hkeep] at hstored
      exact (hcalled (hcalls _ (.head _)) hstored).trans
        (ih fun j hj => hcalls j (.tail _ hj))
  | @lost _ pass _ g _ n _ hkeep =>
      have hstored : Raises p 0 g (c.keep n pass g).2 :=
        raises_keep n pass p
      rw [hkeep] at hstored
      exact hcalled (hcalls _ (.head _)) hstored

end

section

variable {σ : Type} {judge : Judge σ} {st : σ}
  (hend : c.removalEnd checks judge (f, st) = .ok () g)
include hend

/-- `removeAll` whose calls track is tracked. -/
theorem tracks_removeAll
    (hcalls : ∀ j ∈ c.removalCalls checks judge (f, st),
      Tracks (fun _ => False) j.before j.after) :
    Tracks (fun _ => False) f
      ((c.removeAll checks judge (f, st)).mapState Prod.fst).state := by
  cases hguard : f.isGuarded checks c.owner with
  | true =>
      rw [(removeAll_guarded hguard judge st).1]
      exact (alike_emit _).calm.tracks (raises_emit _ default)
  | false =>
      obtain ⟨pass, stopped, k, hsifts, hfinish, hstate⟩ :=
        removeAll_unguarded checks c judge st hguard
      rw [hend] at hfinish
      have hbegun : Tracks (Pass.Late ⟨0, 0, 0⟩ c) f
          (f.beginTraversal c.owner) :=
        (alike_beginTraversal c.owner).calm.tracks
          (raises_beginTraversal c.owner default)
      have hlast := hsifts.tracks rfl hcalls hbegun
      rw [hstate, ← hfinish]
      exact tracks_finish (hsifts.balanced rfl) hlast hfinish.symm

/-- A whole filtering, if its calls raise no versions: it is committed if
one of them rejected its element, however it ended. -/
theorem raises_removeAll
    (hcalls : ∀ j ∈ c.removalCalls checks judge (f, st),
      Raises c.owner 0 j.before j.after) :
    Raises c.owner
      (if (c.removalCalls checks judge (f, st)).any Judgement.rejects = true
        then 1 else 0) f
      ((c.removeAll checks judge (f, st)).mapState Prod.fst).state := by
  cases hguard : f.isGuarded checks c.owner with
  | true =>
      obtain ⟨hrefused, hnone⟩ := removeAll_guarded hguard judge st
      rw [hrefused, hnone]
      exact raises_emit _ c.owner
  | false =>
      obtain ⟨pass, stopped, k, hsifts, hfinish, hstate⟩ :=
        removeAll_unguarded checks c judge st hguard
      rw [hend] at hfinish
      have hlast := ((raises_beginTraversal c.owner c.owner).trans
        (hsifts.raises hcalls)).trans (raises_finish hfinish.symm)
      have hcount : pass.rejected = 0
          ↔ (c.removalCalls checks judge (f, st)).any Judgement.rejects
            = false := by
        rw [hsifts.rejected_eq, Nat.zero_add, List.countP_eq_zero,
          List.any_eq_false]
      rw [hstate, ← hfinish]
      cases hany : (c.removalCalls checks judge (f, st)).any
          Judgement.rejects with
      | true =>
          rw [if_neg fun hnone => by simp [hcount.mp hnone] at hany] at hlast
          exact hlast
      | false =>
          rw [if_pos (hcount.mpr hany)] at hlast
          exact hlast

end

end Collection

end InstructionTree
