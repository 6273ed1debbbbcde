/-
What a pass stores, whatever its calls do.

Between two calls a pass leaves the elements where the first of them left
them, with one exception: an element that is kept after others were
rejected changes places with the first of those (`Collection.displaces`).
The length stays as it is until the pass ends. Then the rejected zone is
taken out, so the collection loses as many elements as were rejected
(`Pass.Balanced.compact`).
-/
import InstructionTree.Proofs.Collection.Guarded

namespace InstructionTree.Collection

open Forest

variable {c : Collection} {f g h : Forest} {n : NodeId} {count : Nat}
  {pass last : Pass} {calls : List Judgement} {stopped : Option Stop}

-- =============================================================== balance

/-- `kept` and `rejected` add up to `judged`. -/
def Pass.Balanced (pass : Pass) : Prop :=
  pass.kept + pass.rejected = pass.judged

/-- A balanced pass that rejected nothing has `kept` equal to `judged`. -/
theorem Pass.Balanced.level (hpass : pass.Balanced)
    (hnone : pass.rejected = 0) : pass.kept = pass.judged := by
  unfold Balanced at hpass
  omega

theorem Pass.Balanced.reject (hpass : pass.Balanced) (n : NodeId)
    (f : Forest) : (c.reject n pass f).1.Balanced := by
  unfold Balanced Collection.reject at *
  dsimp only
  omega

theorem Pass.Balanced.keep (hpass : pass.Balanced) {next : Pass}
    (hkeep : c.keep n pass f = (some next, g)) : next.Balanced := by
  rw [keep_eq_some hkeep]
  unfold Balanced at *
  dsimp only
  omega

theorem Sifts.balanced (hsifts : Sifts c count pass f calls last stopped h)
    (hpass : pass.Balanced) : last.Balanced := by
  induction hsifts with
  | full | short | failed | lost => exact hpass
  | rejected _ _ ih => exact ih (hpass.reject _ _)
  | kept _ hkeep _ ih => exact ih (hpass.keep hkeep)

/-- A pass of `count` steps judges at most `count` more elements. -/
theorem Sifts.judged_le (hsifts : Sifts c count pass f calls last stopped h) :
    last.judged ≤ pass.judged + count := by
  induction hsifts with
  | full | short | failed | lost => omega
  | rejected _ _ ih =>
      unfold reject at ih
      dsimp only at ih
      omega
  | kept _ hkeep _ ih =>
      rw [keep_eq_some hkeep] at ih
      dsimp only at ih
      omega

-- ================================================================ between

/-- Whether the call answered `false`. -/
def Judgement.keeps (j : Judgement) : Bool :=
  match j.verdict with
  | .ok answer _ => !answer
  | .stop _ _ => false

/-- The forest that the first of the calls is shown; `h` if there is none. -/
def Judgement.following (h : Forest) : List Judgement → Forest
  | [] => h
  | j :: _ => j.before

/-- Whether call `k` keeps its element after others were rejected. -/
def displaces (calls : List Judgement) (k : Nat) : Bool :=
  (calls[k]?).any Judgement.keeps && (calls.take k).any Judgement.rejects

/-- `keep` changes no length, and no element where `kept` equals `judged`. -/
theorem items_keep {next : Option Pass}
    (hkeep : c.keep n pass f = (next, g)) (hwf : f.WellFormed)
    (hc : c.Fits f) :
    (c.items g).length = (c.items f).length
      ∧ (pass.kept = pass.judged → c.items g = c.items f) := by
  obtain rfl : (c.keep n pass f).2 = g := congrArg Prod.snd hkeep
  unfold keep
  dsimp only
  rw [items_renumber]
  split
  next first second hfirst hsecond =>
    have halive : (c.renumber f pass.judged pass.kept n).isAlive c.owner
        = true := (isAlive_renumber ..).trans hc.alive
    have hbound : c.slot < ((c.renumber f pass.judged pass.kept n).node
        c.owner).slots.length := by
      rw [c.field_renumber (F := Node.slots) fun _ _ => rfl]
      exact hc.bound hwf
    dsimp only
    rw [items_setItems halive hbound]
    refine ⟨by rw [List.length_set, List.length_set], fun hlevel => ?_⟩
    rw [hlevel] at hfirst ⊢
    obtain ⟨hlt, rfl⟩ := List.getElem?_eq_some_iff.mp hsecond
    obtain ⟨-, rfl⟩ := List.getElem?_eq_some_iff.mp hfirst
    rw [List.set_getElem_self, List.set_getElem_self]
  · exact ⟨by rw [items_renumber], fun _ => items_renumber ..⟩

/-- From the start of a pass to its first call the forest stays `Alike`. -/
theorem Sifts.following (hsifts : Sifts c count pass f calls last stopped h) :
    Alike f (Judgement.following h calls) := by
  cases hsifts with
  | full | short => exact .refl f
  | failed | rejected | kept | lost => exact alike_hold _

/-- From what a call left to what the next one is shown: the length is the
same, and so are the elements unless the call was kept behind a rejection. -/
theorem Sifts.hands_on (hsifts : Sifts c count pass f calls last stopped h)
    (hpass : pass.Balanced) {k : Nat} {j : Judgement}
    (hj : calls[k]? = some j) (hwf : j.after.WellFormed)
    (hc : c.Fits j.after)
    (halive : (Judgement.following h (calls.drop (k + 1))).isAlive c.owner
      = true) :
    c.length (Judgement.following h (calls.drop (k + 1))) = c.length j.after
      ∧ ((j.keeps = true →
          pass.rejected = 0 ∧ (calls.take k).any Judgement.rejects = false) →
        c.items (Judgement.following h (calls.drop (k + 1)))
          = c.items j.after) := by
  -- letting go of the element is work on anybody but the owner
  obtain ⟨p, hother⟩ := exists_ne c.owner
  have hreleased : ∀ {g : Forest} {n : NodeId},
      (g.release n).isAlive c.owner = true →
      c.items (g.release n) = c.items g :=
    fun hg => items_works (works_release _ p) hg hother.symm
  have hnext : ∀ {g k : Forest}, Alike g k → c.items k = c.items g :=
    fun hgk => slot_congr (hgk.slots c.owner) c.slot
  induction hsifts generalizing k with
  | full | short => cases hj
  | failed =>
      cases k with
      | succ k => cases hj
      | zero =>
          cases hj
          exact ⟨congrArg List.length (hreleased halive),
            fun _ => hreleased halive⟩
  | @rejected _ pass _ _ g h n rest _ _ hrest ih =>
      cases k with
      | zero =>
          cases hj
          have hfollowing := hrest.following
          have hitems : c.items (Judgement.following h rest) = c.items g := by
            rw [hnext hfollowing,
              hreleased ((hfollowing.alive _).symm.trans halive)]
            exact slot_congr (slots_detach ..) c.slot
          exact ⟨congrArg List.length hitems, fun _ => hitems⟩
      | succ k =>
          obtain ⟨hlength, hitems⟩ := ih (hpass.reject n g) hj halive
          refine ⟨hlength, fun hcalm => hitems fun hkeeps => ?_⟩
          have hnone := (hcalm hkeeps).2
          rw [List.take_succ_cons, List.any_cons] at hnone
          cases hnone
  | @kept _ pass next _ _ g k' h n rest _ _ hkeep hrest ih =>
      cases k with
      | zero =>
          cases hj
          have hfollowing := hrest.following
          obtain ⟨hlength, hlevel⟩ := items_keep hkeep hwf hc
          have hitems : c.items (Judgement.following h rest) = c.items k' := by
            rw [hnext hfollowing,
              hreleased ((hfollowing.alive _).symm.trans halive)]
          refine ⟨(congrArg List.length hitems).trans hlength, fun hcalm => ?_⟩
          exact hitems.trans (hlevel (hpass.level (hcalm rfl).1))
      | succ k =>
          obtain ⟨hlength, hitems⟩ := ih (hpass.keep hkeep) hj halive
          refine ⟨hlength, fun hcalm => hitems fun hkeeps => ?_⟩
          obtain ⟨hzero, hnone⟩ := hcalm hkeeps
          rw [keep_eq_some hkeep]
          exact ⟨hzero, hnone⟩
  | @lost _ pass _ g k' n _ hkeep =>
      cases k with
      | succ k => cases hj
      | zero =>
          cases hj
          obtain ⟨hlength, hlevel⟩ := items_keep hkeep hwf hc
          have hitems := hreleased halive
          refine ⟨(congrArg List.length hitems).trans hlength, fun hcalm => ?_⟩
          exact hitems.trans (hlevel (hpass.level (hcalm rfl).1))

-- =================================================================== end

/-- `compact` takes out the elements between `kept` and `judged`. -/
theorem items_compact (hwf : f.WellFormed) (hc : c.Fits f) (pass : Pass)
    (halive : (pass.compact c f).isAlive c.owner = true) :
    c.items (pass.compact c f)
      = (c.items f).take (min pass.kept (min pass.judged (c.length f)))
        ++ (c.items f).drop (min pass.judged (c.length f)) := by
  obtain ⟨zone, -, hcompact⟩ := compact_eq (c := c) (f := f) pass rfl rfl
  rw [hcompact, isAlive_renumberFrom] at halive
  rw [hcompact, items_renumberFrom, items_sheds (sheds_reapAll _ zone) halive,
    items_setItems hc.alive (hc.bound hwf)]

/-- `compact` of a balanced pass makes the collection shorter by `rejected`,
and leaves it as it is if that is 0. -/
theorem Pass.Balanced.compact (hpass : pass.Balanced) (hwf : f.WellFormed)
    (hc : c.Fits f) (hjudged : pass.judged ≤ c.length f)
    (halive : (pass.compact c f).isAlive c.owner = true) :
    c.length (pass.compact c f) + pass.rejected = c.length f
      ∧ (pass.rejected = 0 → c.items (pass.compact c f) = c.items f) := by
  have hitems := items_compact hwf hc pass halive
  have hkept : pass.kept ≤ pass.judged := by
    unfold Balanced at hpass
    omega
  rw [Nat.min_eq_left hjudged, Nat.min_eq_left hkept] at hitems
  constructor
  · unfold length at hjudged ⊢
    unfold Balanced at hpass
    rw [hitems, List.length_append, List.length_take, List.length_drop]
    omega
  · intro hnone
    rw [hitems, hpass.level hnone, List.take_append_drop]

end InstructionTree.Collection
