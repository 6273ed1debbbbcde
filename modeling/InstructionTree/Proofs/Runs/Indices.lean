/-
Global child indices, wherever a client looks.

Whatever was done to a forest, every node has the slots of its layout and
no operand slot holds more than one node. So all that reads through global
child indices agrees, by `Forest/Indices`: also in the calls of a judge,
after notices of attaching and detaching, and after edits that broke off.

# Replacing a child

An index can be written exactly if it can be read. What is written is read
back there, and at no other index anything is read that was not before:
the one slot that is stored gets the new node at its inner index, and
keeps its length unless it is an operand slot, which takes one index
anyway.
-/
import InstructionTree.Proofs.Collection.Contract
import InstructionTree.Proofs.Collection.Exchanges
import InstructionTree.Proofs.Forest.Indices
import InstructionTree.Proofs.Runs.Faults

namespace InstructionTree

open Forest

variable {checks : Checks} {locks : List NodeId} {f g : Forest}
  {n m : NodeId} {i j k : Nat}

namespace Forest

-- ================================================================ storing

/-- An edit that was not refused was done, or broke off on the check of an
attach. -/
theorem Carried.ok_or_broke {α : Type} {out : Outcome Forest α}
    (hout : Carried checks n f out) (hnone : out.fault? = none) :
    (∃ a g, out = .ok a g) ∨ out.Broke := by
  cases hout with
  | idle a => exact .inl ⟨a, f, rfl⟩
  | done a => exact .inl ⟨a, _, rfl⟩
  | broken op => exact .inr ⟨op, _, rfl⟩
  | refused => cases hnone
  | guarded => cases hnone

/-- At a place of `n`, `setChild` is `Collection.set` in a collection and
`setSlotChild` in an operand slot. -/
theorem setChild_of_hasPlace (checks : Checks) (hwf : f.WellFormed)
    (hplace : f.HasPlace n (j, k)) (m : NodeId) :
    ∃ s, (f.node n).opcode.slot? j = some s
      ∧ setChild checks n (j + k) m f
        = if s.isCollection then Collection.set checks ⟨n, j⟩ k m f
          else setSlotChild checks n j (some m) f := by
  obtain ⟨hi, hlocate⟩ := hwf.locate?_iff.mpr ⟨hplace, rfl⟩
  obtain ⟨s, hs, -⟩ := hplace
  refine ⟨s, hs, ?_⟩
  unfold setChild
  rw [if_pos hi, hlocate]
  cases hmany : s.isCollection with
  | true => simp only [at?_of_collection hs hmany, if_true]
  | false =>
      simp only [(at?_of_operand hs hmany).1, Bool.false_eq_true, if_false]

/-- `setChild` of the child that is there already does nothing. -/
theorem setChild_self (hwf : f.WellFormed)
    (hchild : f.child? n i = some m) :
    setChild checks n i m f = .ok () f := by
  obtain ⟨⟨j, k⟩, -, hplace, rfl⟩ :=
    hwf.exists_place (hwf.lt_childCount hchild)
  rw [hwf.child?_of_hasPlace hplace] at hchild
  obtain ⟨s, hs, hset⟩ := setChild_of_hasPlace checks hwf hplace m
  rw [hset]
  split
  case isTrue =>
    unfold Collection.set
    rw [show (Collection.items ⟨n, j⟩ f)[k]? = some m from hchild]
    exact if_pos rfl
  case isFalse hone =>
    have hone := Bool.eq_false_iff.mpr hone
    have hlt := (List.getElem?_eq_some_iff.mp hchild).1
    have hzero : k = 0 := by
      have := hwf.arity hs hone
      omega
    rw [hzero, ← List.head?_eq_getElem?] at hchild
    unfold setSlotChild
    rw [checkOperandSlot_eq, (at?_of_operand hs hone).2]
    exact if_pos hchild

section

variable (hs : f.Sound checks locks) (hn : n ∈ locks) (hm : m ∈ locks)
include hs hn hm

/-- A `setChild` that succeeded is an `Exchange` in the slot of the place. -/
theorem exchange_setChild {u : Unit} (hplace : f.HasPlace n (j, k))
    (hout : setChild checks n (j + k) m f = .ok u g) :
    ∃ s entered left, (f.node n).opcode.slot? j = some s
      ∧ Exchange n j entered left
        (if s.isCollection then (f.slot n j).set k m else [m]) f g := by
  have hm := hs.alive hm
  have hcarried : Carried checks n f (setChild checks n (j + k) m f) :=
    carried_setChild hs (j + k) (hs.alive hn) hm
  have halive : g.isAlive n = true := (hcarried.sound_of_ok hs hout).alive hn
  obtain ⟨s, hslot, hset⟩ :=
    setChild_of_hasPlace checks hs.toWellFormed hplace m
  rw [hset] at hout
  refine ⟨s, ?_⟩
  split at hout
  case isTrue hmany =>
    rw [if_pos hmany]
    have hfits : (⟨n, j⟩ : Collection).Fits f := ⟨s, hslot, hmany⟩
    obtain ⟨h, hx, rfl⟩ := Collection.exchange_set hs hfits hm hout
    exact ⟨_, _, hslot, hx.calm (sheds_reapAll h _).calm halive⟩
  case isFalse hone =>
    rw [if_neg hone]
    obtain ⟨h, hx, rfl⟩ := exchange_setSlotChild hs.toWellFormed
      (hs.alive hn) (fun c hc => Option.some.inj hc ▸ hm) hout
    exact ⟨_, _, hslot, hx.calm (sheds_reapAll h _).calm halive⟩

/-- After a `setChild` that succeeded, `child?` reads the new child at `i` and
the old ones elsewhere. -/
theorem child?_setChild {u : Unit}
    (hout : setChild checks n i m f = .ok u g) :
    i < f.childCount n ∧ g.child? n i = some m
      ∧ g.childCount n = f.childCount n
      ∧ ∀ j, j ≠ i → g.child? n j = f.child? n j := by
  have hcarried : Carried checks n f (setChild checks n i m f) :=
    carried_setChild hs i (hs.alive hn) (hs.alive hm)
  have hs' : g.Sound checks locks := hcarried.sound_of_ok hs hout
  have hi : i < f.childCount n := by
    unfold setChild at hout
    by_cases hi : i < f.childCount n
    · exact hi
    · rw [if_neg hi] at hout
      cases hout
  obtain ⟨⟨j, k⟩, hlocate, hplace, hij⟩ := hs.toWellFormed.exists_place hi
  rw [hij] at hout
  obtain ⟨s, entered, left, hslot, hx⟩ :=
    exchange_setChild hs hn hm hplace hout
  have hspan : k < span (s, f.slot n j) := by
    obtain ⟨s', hslot', hk⟩ := hplace
    cases hslot.symm.trans hslot'
    exact hk
  have hself := hx.account.slot_self
  refine ⟨hi, ?_, ?_, fun l hl => ?_⟩
  · rw [child?_of_locate? ((hx.locate?_eq i).trans hlocate), hself]
    unfold span at hspan
    split at hspan
    case isTrue hmany =>
      rw [if_pos hmany]
      exact List.getElem?_set_self hspan
    case isFalse hone =>
      rw [if_neg hone, Nat.lt_one_iff.mp hspan]
      rfl
  · refine hs.toWellFormed.childCount_congr hs'.toWellFormed
      (hx.account.ages.opcode (f.index_lt_of_alive hx.account.source)
        hx.account.owner) fun j' s' hslot' hmany => ?_
    by_cases hj : j' = j
    · subst hj
      cases hslot.symm.trans hslot'
      rw [hself, if_pos hmany, List.length_set]
    · rw [hx.account.slot_ne hj]
  · cases hother : f.locate? n l with
    | none =>
        unfold child?
        rw [hx.locate?_eq, hother]
        rfl
    | some place =>
        obtain ⟨j', k'⟩ := place
        rw [child?_of_locate? ((hx.locate?_eq l).trans hother),
          child?_of_locate? hother]
        by_cases hj : j' = j
        case neg => rw [hx.account.slot_ne hj]
        -- the same slot, so another inner index, and it is a collection
        subst hj
        have hsum := (locate?_eq_some hother).2.1
        have hne : k ≠ k' := by omega
        rw [hself]
        split
        case isTrue => exact List.getElem?_set_ne hne
        case isFalse hone =>
          have hone := Bool.eq_false_iff.mpr hone
          have hzero := inner_eq_zero hlocate hslot hone
          have hzero' := inner_eq_zero hother hslot hone
          exact absurd (hzero.trans hzero'.symm) hne

/-- `setChild` is out of bounds exactly from `childCount` on; below it, it
succeeds or breaks off on the check of an attach. -/
theorem setChild_total :
    (f.childCount n ≤ i → setChild checks n i m f
      = .stop (.fault (.outOfBounds i (f.childCount n))) f)
    ∧ (i < f.childCount n → (∃ g, setChild checks n i m f = .ok () g)
      ∨ (setChild checks n i m f).Broke) := by
  have hset : (setChild checks n i m f).Refuses f (f.childFault? n i) :=
    refuses_setChild hs.toWellFormed n i m
  unfold childFault? at hset
  refine ⟨fun hi => ?_, fun hi => ?_⟩
  · rwa [if_pos hi] at hset
  · rw [if_neg (Nat.not_le.mpr hi)] at hset
    have hcarried : Carried checks n f (setChild checks n i m f) :=
      carried_setChild hs i (hs.alive hn) (hs.alive hm)
    exact (hcarried.ok_or_broke hset).imp_left fun ⟨_, g, hg⟩ => ⟨g, hg⟩

end

end Forest

-- =================================================================== seen

namespace Sees

variable {permits : Permit}

/-- Every node has exactly the slots of its layout, an operand slot holds
one node or none, and everything that reads or writes global child indices
means the same ones by them: where they lead, which child is there, all
children in order, the elements of a collection, and the child that is
replaced. This holds wherever a client is. -/
theorem indices_agree (hf : Sees checks permits locks f) (n : NodeId) :
    (f.node n).slots.length = (f.node n).opcode.layout.length
    ∧ (∀ j s, (f.node n).opcode.slot? j = some s →
      s.isCollection = false → (f.slot n j).length ≤ 1)
    -- where the indices lead
    ∧ Set.BijOn (f.locate? n) {i | i < f.childCount n}
      (some '' {place | f.HasPlace n place})
    -- what is read there
    ∧ (∀ j k, f.HasPlace n (j, k) → f.child? n (j + k) = (f.slot n j)[k]?)
    ∧ (∀ i, f.child? n i = none ↔ f.childCount n ≤ i
      ∨ ∃ s, (f.node n).opcode.slot? i = some s ∧ s.isCollection = false
        ∧ f.slot n i = [])
    ∧ f.children n = (List.range (f.childCount n)).filterMap (f.child? n)
    ∧ (∀ c : Collection, c.Fits f → c.owner = n → ∀ j,
      c.get? f j = match f.child? n (c.base + j) with
        | some m => .ok m
        | none => .error (.outOfBounds j (c.length f)))
    -- what is written there
    ∧ ∀ m i, f.Referenced [n, m] →
      (f.childCount n ≤ i → setChild checks n i m f
        = .stop (.fault (.outOfBounds i (f.childCount n))) f)
      ∧ (i < f.childCount n → (∃ g, setChild checks n i m f = .ok () g)
        ∨ (setChild checks n i m f).Broke)
      ∧ (∀ g, setChild checks n i m f = .ok () g →
        g.child? n i = some m ∧ g.childCount n = f.childCount n
        ∧ ∀ j, j ≠ i → g.child? n j = f.child? n j)
      ∧ (f.child? n i = some m → setChild checks n i m f = .ok () f) := by
  have hs : f.Sound checks locks := hf.sound
  have hwf := hs.toWellFormed
  refine ⟨hwf.layout n, fun j s => hwf.arity, hwf.bijOn_locate? n,
    fun j k => hwf.child?_of_hasPlace, fun i => hwf.child?_eq_none,
    hwf.children_eq_filterMap n, fun c hc howner j => ?_,
    fun m i hheld => ?_⟩
  · rw [← howner, hwf.child?_base_add hc]
    rfl
  · obtain ⟨hlocked, hn, hm⟩ := hf.lock hheld
    obtain ⟨hpast, hwithin⟩ := setChild_total (i := i) hlocked hn hm
    exact ⟨hpast, hwithin,
      fun g hout => (child?_setChild hlocked hn hm hout).2,
      setChild_self hwf⟩

/-- A switch with two sections and no value: its first index is empty and
can be written, and then the sections are where they were. -/
theorem indices_agree_of_switch :
    let c : Collection := ⟨⟨0⟩, 1⟩
    let ops : List Operation :=
      [.create .switch .none, .hold ⟨0⟩, .create .switchCase .none,
        .hold ⟨1⟩, .create .switchCase .none, .hold ⟨2⟩,
        .create .loadLocal .none, .hold ⟨3⟩,
        .change c (.addRange [⟨1⟩, ⟨2⟩])]
    let f := played .strict ops ∅
    ∃ g, Sees .strict Plain [] f ∧ f.childCount ⟨0⟩ = 3
      ∧ f.child? ⟨0⟩ 0 = none ∧ f.children ⟨0⟩ = [⟨1⟩, ⟨2⟩]
      ∧ setChild .strict ⟨0⟩ 0 ⟨3⟩ f = .ok () g
      ∧ g.child? ⟨0⟩ 0 = some ⟨3⟩ ∧ g.childCount ⟨0⟩ = 3
      ∧ g.child? ⟨0⟩ 1 = some ⟨1⟩ := by
  intro c ops f
  have hplays : Plays .strict (fun _ _ => true) [] ops ∅ := by decide
  have hf : Sees .strict Plain [] f :=
    .between (hplays.runs (fun hop _ => hop.plain) .refl)
  have hcount : f.childCount ⟨0⟩ = 3 := by decide
  have hheld : f.Referenced [⟨0⟩, ⟨3⟩] := by decide
  have hsecond : f.child? ⟨0⟩ 1 = some ⟨1⟩ := by decide
  have hout : setChild .strict ⟨0⟩ 0 ⟨3⟩ f
      = .ok () (setChild .strict ⟨0⟩ 0 ⟨3⟩ f).state := by decide
  obtain ⟨-, -, -, -, hempty, hall, -, hwrite⟩ := Sees.indices_agree hf ⟨0⟩
  obtain ⟨-, -, hdone, -⟩ := hwrite ⟨3⟩ 0 hheld
  obtain ⟨hread, hsame, hothers⟩ := hdone _ hout
  exact ⟨_, hf, hcount,
    (hempty 0).mpr (.inr ⟨⟨.value, .one⟩, by decide⟩),
    hall.trans (by decide), hout, hread, hsame.trans hcount,
    (hothers 1 Nat.one_ne_zero).trans hsecond⟩

end Sees

end InstructionTree
