/-
Removing what a test rejects, in one pass and in a loop.

A test answers by the node, in the forest of the moment, and changes nothing.
It is `Steady` if its answers rest on what edits of the owner retain: opcodes,
operands, and the slots of other nodes. The loop (`removeEach`) removes each
rejected element when it comes to it, and shifts all that follow every time.
`removeAll` shows the elements to a judge, moves survivors to the front, and
shifts nobody else until the end. In both a steady test answers as it would
have before the first removal.

Both shrink the collection in the sense of `Shrinks`, with the same survivors
and the same shifts (`sieve`): after `k` elements were judged, an element that
was kept is at the index of as many survivors, and what was not judged is
behind all survivors. For the loop this is one `pastRange` after another
(`sieve_rejected`), for the pass it is the index that `newIndex` gives
(`sieve_length`).

# Who is freed

While the pass runs, the elements only change their order (`Shuffled`): a
rejected node is still stored, and so is the node under judgement, which the
pass holds for a while. So giving that back frees nobody, and all that is
freed is freed by the compaction.
-/
import InstructionTree.Proofs.Collection.Shrinking

namespace InstructionTree.Collection

open Forest

variable {checks : Checks} {locks : List NodeId} {c : Collection}
  {f g h : Forest} {n p : NodeId} {i j k count : Nat}
  {rejects : NodeId → Bool} {l : List NodeId}

-- ===================================================================== tests

/-- What a test answers about a node, in the forest that is shown to it. -/
abbrev Test := NodeId → Forest → Bool

/-- The test looks at nothing that edits of `p` change: a live node gets the
same answer in whatever retains the forest. -/
def Test.Steady (p : NodeId) (test : Test) : Prop :=
  ∀ {f g : Forest} {n : NodeId}, Retains p f g → g.isAlive n = true →
    test n g = test n f

/-- A test that looks at identity, opcode and operand of the node. -/
def Test.ofNode (rejects : NodeId → Opcode → Operand → Bool) : Test :=
  fun n f => rejects n (f.node n).opcode (f.node n).operand

theorem Test.steady_ofNode (rejects : NodeId → Opcode → Operand → Bool)
    (p : NodeId) : (Test.ofNode rejects).Steady p := by
  intro f g n hfg hn
  unfold ofNode
  rw [hfg.opcode_eq hn, hfg.operand hn]

-- ================================================================== the loop

/-- Looks at the elements from `i` on and removes those that are rejected,
in at most `count` steps. Answers how many these were. -/
def removeEach (checks : Checks) (c : Collection) (test : Test) :
    Nat → Nat → Edit Nat
  | 0, _, f => .ok 0 f
  | count + 1, i, f =>
      match (c.items f)[i]? with
      | none => .ok 0 f
      | some n =>
          if test n f then
            match c.removeAt checks i f with
            | .ok _ f => (removeEach checks c test count i f).map (· + 1)
            | .stop why f => .stop why f
          else removeEach checks c test count (i + 1) f

variable {test : Test}

theorem removeEach_end (hi : (c.items f)[i]? = none) (count : Nat) :
    c.removeEach checks test count i f = .ok 0 f := by
  cases count with
  | zero => rfl
  | succ count => rw [removeEach, hi]

theorem removeEach_kept (hi : (c.items f)[i]? = some n)
    (hn : test n f = false) (count : Nat) :
    c.removeEach checks test (count + 1) i f
      = c.removeEach checks test count (i + 1) f := by
  rw [removeEach, hi]
  dsimp only
  rw [if_neg (by rw [hn]; exact Bool.false_ne_true)]

theorem removeEach_rejected (hi : (c.items f)[i]? = some n)
    (hn : test n f = true) {old : NodeId}
    (hout : c.removeAt checks i f = .ok old g) (count : Nat) :
    c.removeEach checks test (count + 1) i f
      = (c.removeEach checks test count i g).map (· + 1) := by
  rw [removeEach, hi]
  dsimp only
  rw [if_pos hn, hout]

-- ================================================================= the sieve

/-- Where the element at `j` is once `k` elements were judged. -/
def sieve (rejects : NodeId → Bool) (l : List NodeId) (k j : Nat) :
    Option Nat :=
  if j < k then
    if (l[j]?).any rejects then none
    else some ((l.take j).countP fun n => !rejects n)
  else some ((l.take k).countP (fun n => !rejects n) + (j - k))

theorem sieve_zero (j : Nat) : sieve rejects l 0 j = some j := by
  unfold sieve
  rw [if_neg (Nat.not_lt_zero j), List.take_zero, List.countP_nil,
    Nat.zero_add, Nat.sub_zero]

/-- An element that is not rejected has an index in the `sieve`. -/
theorem exists_sieve (hn : l[j]? = some n) (hstays : rejects n = false) :
    ∃ i, sieve rejects l k j = some i := by
  unfold sieve
  split
  · exact ⟨_, by rw [hn, Option.any_some, hstays, if_neg Bool.false_ne_true]⟩
  · exact ⟨_, rfl⟩

/-- `countP` of the front of a list with one more element. -/
theorem countP_take_succ (p : NodeId → Bool) (hn : l[k]? = some n) :
    (l.take (k + 1)).countP p
      = (l.take k).countP p + if p n then 1 else 0 := by
  rw [List.take_add_one, hn, List.countP_append]
  congr 1
  exact List.countP_singleton

/-- An element that is kept changes nothing in the `sieve`. -/
theorem sieve_kept (hn : l[k]? = some n) (hkept : rejects n = false)
    (j : Nat) : sieve rejects l (k + 1) j = sieve rejects l k j := by
  have hcount := countP_take_succ (fun n => !rejects n) hn
  rw [hkept, Bool.not_false, if_pos rfl] at hcount
  unfold sieve
  rcases Nat.lt_trichotomy j k with hlt | rfl | hgt
  · rw [if_pos hlt, if_pos (Nat.lt_succ_of_lt hlt)]
  · rw [if_pos (Nat.lt_succ_self j), if_neg (Nat.lt_irrefl j), hn,
      Option.any_some, hkept, if_neg Bool.false_ne_true, Nat.sub_self,
      Nat.add_zero]
  · rw [if_neg (by omega), if_neg (by omega), hcount]
    congr 1
    omega

/-- An element that is rejected takes its index out of the `sieve`, behind the
survivors so far. -/
theorem sieve_rejected (hn : l[k]? = some n) (hgone : rejects n = true)
    (j : Nat) :
    (sieve rejects l k j).bind
        (pastRange ((l.take k).countP fun n => !rejects n) 1)
      = sieve rejects l (k + 1) j := by
  have hcount := countP_take_succ (fun n => !rejects n) hn
  rw [hgone, Bool.not_true, if_neg Bool.false_ne_true, Nat.add_zero] at hcount
  unfold sieve
  rcases Nat.lt_trichotomy j k with hlt | rfl | hgt
  · rw [if_pos hlt, if_pos (Nat.lt_succ_of_lt hlt)]
    have hend := Nat.lt_trans hlt (List.getElem?_eq_some_iff.mp hn).1
    have hj := List.getElem?_eq_getElem hend
    cases hx : rejects l[j] with
    | true => rw [hj, Option.any_some, if_pos hx, Option.bind_none]
    | false =>
        -- a survivor itself, so there are fewer of them before it
        have hnext := countP_take_succ (fun n => !rejects n) hj
        have hle : (l.take (j + 1)).countP (fun n => !rejects n)
            ≤ (l.take k).countP fun n => !rejects n :=
          (List.take_sublist_take_left hlt).countP_le
        rw [hx, Bool.not_false, if_pos rfl] at hnext
        rw [hj, Option.any_some, hx, if_neg Bool.false_ne_true,
          Option.bind_some, pastRange, if_pos (by omega)]
  · rw [if_pos (Nat.lt_succ_self j), if_neg (Nat.lt_irrefl j), hn,
      Option.any_some, if_pos hgone, Option.bind_some, Nat.sub_self]
    unfold pastRange
    rw [if_neg (by omega), if_pos (by omega)]
  · rw [if_neg (by omega), if_neg (by omega), hcount, Option.bind_some]
    unfold pastRange
    rw [if_neg (by omega), if_neg (by omega)]
    congr 1
    omega

-- ============================================================= one by one

/-- `filter` of the front of a list with one more element. -/
private theorem filter_take_succ (p : NodeId → Bool) (hn : l[k]? = some n) :
    (l.take (k + 1)).filter p
      = (l.take k).filter p ++ if p n then [n] else [] := by
  rw [List.take_add_one, hn, List.filter_append]
  congr 1
  exact List.filter_cons

/-- The loop after `k` elements were judged: the survivors so far are there,
and behind them what was not judged. -/
structure Swept (checks : Checks) (locks : List NodeId) (c : Collection)
    (rejects : NodeId → Bool) (f : Forest) (k : Nat) (g : Forest) : Prop
    extends Removes checks locks c
      ((c.items f).filter fun n => !rejects n)
      (((c.items f).take k).filter rejects) (sieve rejects (c.items f) k)
      f g where
  within : k ≤ (c.items f).length
  items : c.items g = ((c.items f).take k).filter (fun n => !rejects n)
    ++ (c.items f).drop k

namespace Swept

theorem start (hs : f.Sound checks locks) (hc : c.Fits f) :
    Swept checks locks c rejects f 0 f where
  toRemoves := by
    rw [funext sieve_zero]
    exact .start hs hc
  within := Nat.zero_le _
  items := rfl

variable (hg : Swept checks locks c rejects f k g)
include hg

/-- The element that is tested next is at the index behind the survivors. -/
theorem next : (c.items g)[((c.items f).take k).countP fun n => !rejects n]?
    = (c.items f)[k]? := by
  rw [hg.items, List.countP_eq_length_filter,
    List.getElem?_append_right (Nat.le_refl _), Nat.sub_self,
    List.getElem?_drop, Nat.add_zero]

/-- `Swept` up to `k` is swept up to `k + 1`, if the element at `k` is kept. -/
theorem kept (hn : (c.items f)[k]? = some n) (hkept : rejects n = false) :
    Swept checks locks c rejects f (k + 1) g := by
  obtain ⟨hlt, hget⟩ := List.getElem?_eq_some_iff.mp hn
  have hfront := filter_take_succ (fun n => !rejects n) hn
  have hleft := filter_take_succ rejects hn
  rw [hkept, Bool.not_false, if_pos rfl] at hfront
  rw [hkept, if_neg Bool.false_ne_true, List.append_nil] at hleft
  refine { toRemoves := ?_, within := hlt, items := ?_ }
  · rw [hleft, funext (sieve_kept hn hkept)]
    exact hg.toRemoves
  · rw [hfront, hg.items, List.drop_eq_getElem_cons hlt, hget,
      List.append_assoc]
    rfl

/-- If the element at `k` is rejected, `removeAt` of it succeeds, and leads to
`Swept` up to `k + 1`. -/
theorem rejected (hwf : f.WellFormed) (hcov : f.Covered) (hc : c.Fits f)
    (ho : c.owner ∈ locks) (hopen : f.isGuarded checks c.owner = false)
    (hn : (c.items f)[k]? = some n) (hgone : rejects n = true) :
    ∃ h, c.removeAt checks
        (((c.items f).take k).countP fun n => !rejects n) g = .ok n h
      ∧ Swept checks locks c rejects f (k + 1) h := by
  obtain ⟨hlt, hget⟩ := List.getElem?_eq_some_iff.mp hn
  have hfront := filter_take_succ (fun n => !rejects n) hn
  have hleft := filter_take_succ rejects hn
  rw [hgone, Bool.not_true, if_neg Bool.false_ne_true, List.append_nil]
    at hfront
  rw [hgone, if_pos rfl] at hleft
  have herase : (c.items g).eraseIdx
      (((c.items f).take k).countP fun n => !rejects n)
        = ((c.items f).take k).filter (fun n => !rejects n)
          ++ (c.items f).drop (k + 1) := by
    rw [hg.items, List.countP_eq_length_filter,
      List.eraseIdx_append_of_length_le (Nat.le_refl _), Nat.sub_self,
      List.drop_eq_getElem_cons hlt, List.eraseIdx_zero, List.tail_cons]
  obtain ⟨h, hout, hitems, hh⟩ := hg.removeAt hwf hcov hc ho hopen
    (hg.next.trans hn) fun m hm => by
      -- who survives is not the one that is taken out
      obtain ⟨hmem, hstays⟩ := List.mem_filter.mp hm
      rw [← List.take_append_drop (k + 1) (c.items f)] at hmem
      rw [herase, ← hfront]
      rcases List.mem_append.mp hmem with hmem | hmem
      · exact List.mem_append_left _ (List.mem_filter.mpr ⟨hmem, hstays⟩)
      · exact List.mem_append_right _ hmem
  rw [funext (sieve_rejected hn hgone), ← hleft] at hh
  refine ⟨h, hout, { toRemoves := hh, within := hlt, items := ?_ }⟩
  rw [hitems, herase, hfront]

/-- So the loop comes to its end, however far it has come, if its test
answers `rejects` in all that retains `f`. -/
theorem removeEach (hwf : f.WellFormed) (hcov : f.Covered) (hc : c.Fits f)
    (ho : c.owner ∈ locks) (hopen : f.isGuarded checks c.owner = false)
    (htest : ∀ {g n}, Retains c.owner f g → g.isAlive n = true →
      test n g = rejects n)
    (hcount : (c.items f).length ≤ k + count) :
    ∃ h, c.removeEach checks test count
        (((c.items f).take k).countP fun n => !rejects n) g
          = .ok (((c.items f).drop k).countP rejects) h
      ∧ Swept checks locks c rejects f (c.items f).length h := by
  induction count generalizing k g with
  | zero =>
      obtain rfl : k = (c.items f).length :=
        Nat.le_antisymm hg.within hcount
      rw [List.drop_length]
      exact ⟨g, rfl, hg⟩
  | succ count ih =>
      have hnext := hg.next
      cases hn : (c.items f)[k]? with
      | none =>
          obtain rfl : k = (c.items f).length :=
            Nat.le_antisymm hg.within (List.getElem?_eq_none_iff.mp hn)
          rw [List.drop_length, removeEach_end (hnext.trans hn)]
          exact ⟨g, rfl, hg⟩
      | some n =>
          have hfront := countP_take_succ (fun n => !rejects n) hn
          have hanswer : test n g = rejects n := htest hg.retained
            (alive_of_mem_items hg.sound.toWellFormed
              (List.mem_of_getElem? (hnext.trans hn)))
          obtain ⟨hlt, hget⟩ := List.getElem?_eq_some_iff.mp hn
          rw [List.drop_eq_getElem_cons hlt, hget, List.countP_cons]
          cases hgone : rejects n with
          | false =>
              obtain ⟨h, hout, hh⟩ := ih (hg.kept hn hgone) (by omega)
              rw [hfront, hgone, Bool.not_false, if_pos rfl] at hout
              rw [removeEach_kept (hnext.trans hn) (hanswer.trans hgone),
                hout]
              exact ⟨h, rfl, hh⟩
          | true =>
              obtain ⟨m, hremove, hm⟩ :=
                hg.rejected hwf hcov hc ho hopen hn hgone
              obtain ⟨h, hout, hh⟩ := ih hm (by omega)
              rw [hfront, hgone, Bool.not_true, if_neg Bool.false_ne_true,
                Nat.add_zero] at hout
              rw [removeEach_rejected (hnext.trans hn) (hanswer.trans hgone)
                hremove, hout]
              exact ⟨h, rfl, hh⟩

end Swept

-- ================================================================ the calls

/-- A call that answers `rejects`, and does nothing else. -/
def Judgement.Pure (rejects : NodeId → Bool) (j : Judgement) : Prop :=
  j.verdict = .ok (rejects j.node) j.before

/-- A call that answers what the test does in the forest it is shown, and
changes nothing. -/
def Judgement.Tests (test : Test) (j : Judgement) : Prop :=
  j.Pure fun n => test n j.before

namespace Judgement.Pure

variable {j : Judgement} (hj : j.Pure rejects)
include hj

theorem rejects_eq : j.rejects = rejects j.node := by
  rw [Judgement.rejects, hj]

theorem after_eq : j.after = j.before := by
  rw [Judgement.after, hj]
  rfl

theorem idle : j.Idle checks locks := by
  unfold Judgement.Idle Judgement.Keeps
  rw [hj.after_eq]
  exact ⟨fun hs => ⟨hs, .refl _⟩, fun _ => .refl _⟩

end Judgement.Pure

variable {σ : Type} {judge : Judge σ}

/-- If the judge answers as the test does, all its calls `Tests`. -/
theorem judgements_test (hjudge : ∀ n s, judge n s = .ok (test n s.1) s) :
    ∀ (count : Nat) (pass : Pass) (f : Forest) (st : σ),
      ∀ j ∈ c.judgements judge count pass (f, st), j.Tests test
  | 0, _, _, _, j, hj => by cases hj
  | count + 1, pass, f, st, j, hj => by
      unfold judgements at hj
      cases hn : (c.items f)[pass.judged]? with
      | none =>
          rw [hn] at hj
          cases hj
      | some n =>
          rw [hn] at hj
          dsimp only at hj
          rw [hjudge] at hj
          rcases List.mem_cons.mp hj with rfl | hj
          · rfl
          cases hgone : test n (f.hold n) with
          | true =>
              rw [hgone] at hj
              exact judgements_test hjudge count _ _ st j hj
          | false =>
              rw [hgone] at hj
              dsimp only at hj
              split at hj
              · exact judgements_test hjudge count _ _ st j hj
              · cases hj

theorem removalCalls_test (hjudge : ∀ n s, judge n s = .ok (test n s.1) s)
    (f : Forest) (st : σ) :
    ∀ j ∈ c.removalCalls checks judge (f, st), j.Tests test := by
  unfold removalCalls
  split
  · exact fun j hj => by cases hj
  · exact judgements_test hjudge _ _ _ st

section

variable {calls : List Judgement} (hpure : ∀ j ∈ calls, j.Pure rejects)
include hpure

theorem keptNodes_of_pure :
    keptNodes calls
      = (calls.map Judgement.node).filter fun n => !rejects n := by
  unfold keptNodes
  rw [List.filter_map]
  congr 1
  exact List.filter_congr fun j hj => by
    rw [(hpure j hj).rejects_eq, Function.comp_apply]

theorem rejectedNodes_of_pure :
    rejectedNodes calls = (calls.map Judgement.node).filter rejects := by
  unfold rejectedNodes
  rw [List.filter_map]
  congr 1
  exact List.filter_congr fun j hj => (hpure j hj).rejects_eq

theorem countP_rejects_of_pure :
    calls.countP Judgement.rejects
      = (calls.map Judgement.node).countP rejects := by
  rw [List.countP_map]
  exact List.countP_congr fun j hj => by
    rw [(hpure j hj).rejects_eq, Function.comp_apply]

theorem any_rejects_of_pure :
    calls.any Judgement.rejects = (calls.map Judgement.node).any rejects := by
  rw [Bool.eq_iff_iff, List.any_eq_true, List.any_eq_true]
  constructor
  · rintro ⟨j, hj, hgone⟩
    exact ⟨j.node, List.mem_map_of_mem hj, (hpure j hj).rejects_eq ▸ hgone⟩
  · rintro ⟨n, hn, hgone⟩
    obtain ⟨j, hj, rfl⟩ := List.mem_map.mp hn
    exact ⟨j, hj, (hpure j hj).rejects_eq.trans hgone⟩

/-- If `sieve` gives an element an index, that is its `newIndex`, and its call
did not reject. -/
theorem sieve_length (hnodes : calls.map Judgement.node = l)
    (hi : l[i]? = some n)
    (hk : sieve rejects l l.length i = some k) :
    k = newIndex calls i
      ∧ ∀ j, calls[i]? = some j → j.rejects = false := by
  have hlt := (List.getElem?_eq_some_iff.mp hi).1
  unfold sieve at hk
  rw [if_pos hlt, hi, Option.any_some] at hk
  split at hk
  · cases hk
  next hstays =>
    cases hk
    have hlen : calls.length = l.length := by
      rw [← hnodes, List.length_map]
    constructor
    · have hfront := keptNodes_of_pure
        (fun j hj => hpure j (List.mem_of_mem_take hj) : ∀ j ∈ calls.take i,
          j.Pure rejects)
      have hindex := newIndex_length (calls.take i)
      have hsame : newIndex (calls.take i) (calls.take i).length
          = newIndex calls i := by
        rw [List.length_take_of_le (by omega), newIndex, newIndex,
          List.take_take, Nat.min_self]
      rw [← hsame, hindex, hfront, List.countP_eq_length_filter, ← hnodes,
        List.map_take]
    · intro j hj
      have hnode : l[i]? = some j.node := by
        rw [← hnodes, List.getElem?_map, hj]
        rfl
      cases hi.symm.trans hnode
      rw [(hpure j (List.mem_of_getElem? hj)).rejects_eq]
      exact Bool.eq_false_iff.mpr hstays

end

-- ============================================================ during the pass

theorem shuffled_keep (n : NodeId) (pass : Pass) :
    Shuffled f (c.keep n pass f).2 := by
  have hmoved : Shuffled f (c.renumber f pass.judged pass.kept n) :=
    shuffled_renumberFrom (fun _ => pass.judged) pass.kept [n]
  unfold keep
  dsimp only
  rw [items_renumber]
  split
  next first second hfirst hsecond =>
    obtain ⟨hlt, rfl⟩ := List.getElem?_eq_some_iff.mp hfirst
    obtain ⟨hlt', rfl⟩ := List.getElem?_eq_some_iff.mp hsecond
    refine hmoved.trans (shuffled_setSlot fun x => ?_)
    rw [(List.set_set_perm hlt hlt').mem_iff, hmoved.slots]
    rfl
  · exact hmoved

variable {calls done : List Judgement} {pass last : Pass}
  {stopped : Option Stop}

/-- A pass of pure calls is `Shuffled`: elements change places, and nothing
else changes. -/
theorem Sifts.shuffled (hsifts : Sifts c count pass f calls last stopped h)
    (hpure : ∀ j ∈ calls, j.Pure rejects)
    (hlive : ∀ n ∈ c.items f, f.isAlive n = true) : Shuffled f h := by
  have hstep : ∀ {f g k : Forest} {n : NodeId},
      (∀ m ∈ c.items f, f.isAlive m = true) → n ∈ c.items f →
      g = f.hold n → Shuffled g k → Shuffled f (k.release n)
        ∧ ∀ m ∈ c.items (k.release n), (k.release n).isAlive m = true := by
    rintro f g k n hlive hn rfl hk
    have hback := shuffled_release hk (hlive n hn) hn
    refine ⟨hback, fun m hm => ?_⟩
    rw [hback.alive]
    exact hlive m ((hback.slots _ _ m).mp hm)
  induction hsifts with
  | full | short => exact .refl _
  | failed => cases hpure _ (.head _)
  | @rejected _ _ _ f g _ n _ _ hn _ ih =>
      obtain ⟨hback, hlive'⟩ := hstep hlive (List.mem_of_getElem? hn)
        (hpure _ (.head _)).after_eq (shuffled_detach c.owner n)
      exact hback.trans (ih (fun j hj => hpure j (.tail _ hj)) hlive')
  | @kept _ pass _ _ f g k _ n _ _ hn hkeep _ ih =>
      have hkept := shuffled_keep (c := c) (f := g) n pass
      rw [hkeep] at hkept
      obtain ⟨hback, hlive'⟩ := hstep hlive (List.mem_of_getElem? hn)
        (hpure _ (.head _)).after_eq hkept
      exact hback.trans (ih (fun j hj => hpure j (.tail _ hj)) hlive')
  | @lost _ pass f g k n hn hkeep =>
      have hkept := shuffled_keep (c := c) (f := g) n pass
      rw [hkeep] at hkept
      exact (hstep hlive (List.mem_of_getElem? hn)
        (hpure _ (.head _)).after_eq hkept).1

/-- A pass of pure calls keeps the forest sound, and `Works` on the owner: no
traversal begins or ends. -/
theorem Sifts.works (hsifts : Sifts c count pass f calls last stopped h)
    (ho : c.owner ∈ locks) (hs : f.Sound checks locks) (hc : c.Fits f)
    (hpure : ∀ j ∈ calls, j.Pure rejects) :
    h.Sound checks locks ∧ Works c.owner f h := by
  refine (hsifts.sound_with ho hs hc Works.ages Works.trans
    (fun _ n => works_hold n c.owner) (fun _ n => works_release n c.owner)
    Touches.works fun j hj hsound => ?_).2
  rw [(hpure j hj).after_eq]
  exact ⟨hsound, .refl c.owner j.before⟩

/-- Calls that only make a test are shown forests that retain the first one.
So their answers are those that the test has there. -/
theorem Sifts.pure (hsifts : Sifts c count pass f calls last stopped h)
    (ho : c.owner ∈ locks) (hs : f.Sound checks locks) (hc : c.Fits f)
    (htests : ∀ j ∈ calls, j.Tests test)
    (htest : ∀ {g n}, Retains c.owner f g → g.isAlive n = true →
      test n g = rejects n) : ∀ j ∈ calls, j.Pure rejects := by
  obtain ⟨hshown, -⟩ := hsifts.sound_with ho hs hc Retains.toAges
    Retains.trans (fun _ n => retains_hold n c.owner)
    (fun _ n => retains_release n c.owner) Touches.retains
    fun j hj hsound => by
      rw [(htests j hj).after_eq]
      exact ⟨hsound, .refl c.owner j.before⟩
  intro j hj
  obtain ⟨hsound, hretained⟩ := hshown j hj
  have hverdict : j.verdict = .ok (test j.node j.before) j.before :=
    htests j hj
  rw [Judgement.Pure, hverdict, htest hretained (hsound.alive (.head _))]

section

variable (ho : c.owner ∈ locks) (hs : f.Sound checks locks) (hc : c.Fits f)
  (hopen : f.isGuarded checks c.owner = false)
  (hjudge : ∀ n s, judge n s = .ok (test n s.1) s)
  (htest : test.Steady c.owner) (st : σ)
include ho hs hc hopen hjudge htest

/-- With a steady test, each call answers what the test says in the forest at
the start of the filtering. -/
theorem removalCalls_pure :
    ∀ j ∈ c.removalCalls checks judge (f, st),
      j.Pure fun n => test n f := by
  have hbegin := alike_beginTraversal (f := f) c.owner
  obtain ⟨pass, stopped, g, hsifts, -⟩ :=
    removeAll_unguarded checks c judge st hopen
  exact hsifts.pure ho (hs.alike hbegin) (hc.alike hbegin)
    (removalCalls_test hjudge f st) fun hretained =>
      htest ((retains_beginTraversal c.owner c.owner).trans hretained)

/-- With a steady test, the end of the pass succeeds. -/
theorem removalEnd_of_steady :
    ∃ g, c.removalEnd checks judge (f, st) = .ok () g := by
  have hbegin := alike_beginTraversal (f := f) c.owner
  have hs0 := hs.alike hbegin
  obtain ⟨pass, stopped, k, hsifts, hend, -⟩ :=
    removeAll_unguarded checks c judge st hopen
  obtain ⟨hk, hworks⟩ := hsifts.works ho hs0 (hc.alike hbegin)
    (removalCalls_pure ho hs hc hopen hjudge htest st)
  have hcompact : Touches checks c.owner k (pass.compact c k) :=
    touches_compact hk.toWellFormed
      (hc.ages (hbegin.ages.trans hworks.ages) (hk.alive ho)) pass
  have halive := (hcompact.sound hk).alive ho
  have hcounted : checks.enforced = true →
      0 < ((pass.compact c k).node c.owner).depth.shown := by
    intro hchecks
    have hzero := shown_of_unguarded hchecks hopen
    rw [(hworks.trans hcompact.works).depth (.inl halive),
      depth_beginTraversal hc.alive, if_pos rfl,
      Counter.shown_next (Counter.isFull_of_shown_zero hzero)]
    exact Nat.succ_pos _
  obtain ⟨g, hclosed, -⟩ := endTraversal_counted halive hcounted
  rw [hend]
  unfold Pass.finish
  rw [hclosed]
  exact ⟨_, rfl⟩

end

-- ================================================================ its end

/-- A place that is none of the collection is met by no test of the pass. -/
theorem Sifts.apart
    (hsifts : Sifts c (c.length f) ⟨0, 0, 0⟩ (f.beginTraversal c.owner)
      calls pass stopped g)
    (ho : c.owner ∈ locks) (hs : f.Sound checks locks) (hc : c.Fits f)
    (hcov : f.Covered) (hidle : ∀ j ∈ calls, j.Idle checks locks)
    (hn : Apart c f n) (hspared : (pass.finish checks c g).state.Spared n) :
    ((pass.finish checks c g).state.node n).position
      = (f.node n).position := by
  obtain ⟨done, hp, hr, -⟩ := hsifts.passed_with ho hs hc hcov hidle
    (fun _ g => g.Spared n → (g.node n).position = (f.node n).position)
    (fun hr hgh hh => (hgh.position hh).trans (hr (hgh.ages.spared hh)))
    (fun _ hr _ _ hh => (position_detach ..).trans
      (hr (spared_update.mp hh)))
    (fun {_ pass _ g _ j} hp hr _ _ hkeep hh => by
      obtain ⟨-, items, rfl⟩ := keep_stores hkeep
      have hg := spared_renumber (spared_update.mp hh)
      have hstill := hn.stays hp.account hg (hr hg)
      rw [setItems, position_setSlot]
      exact (hstill.renumberFrom (fun _ => pass.judged) pass.kept
        [j.node]).trans (hr hg))
    fun _ => rfl
  have hend : Alike (pass.compact c g) (pass.finish checks c g).state :=
    alike_finish pass
  rw [hend.calm.position hspared]
  have hcompacted := hend.calm.ages.spared hspared
  obtain ⟨zone, -, hcompact⟩ := hp.compacted
  rw [hcompact] at hcompacted ⊢
  generalize hk : (c.setItems g (keptNodes done
    ++ (c.items f).drop done.length)).reapAll zone = k at hcompacted ⊢
  have hspared' := spared_renumberFrom hcompacted
  rw [← hk] at hspared'
  obtain ⟨hg, hposition, hlink⟩ := shown_stored hspared'
  rw [hk, hr hg] at hposition
  rw [hk] at hlink
  have hstill : Apart c k n := by
    rcases hn.stays hp.account hg (hr hg) with hother | hplace
    · exact .inl (by rwa [hlink])
    · exact .inr (by rwa [hposition, ← hr hg])
  rw [hstill.renumberFrom, hposition]

/-- `compact` after pure calls `Thins` the collection: it lets go of the
rejected zone, and of nothing else. -/
theorem Passed.thins (hp : Passed c f done pass g) (hfg : Shuffled f g) :
    Thins c.owner c.slot (keptNodes done ++ (c.items f).drop done.length)
      f [] (pass.compact c g) := by
  obtain ⟨zone, hitems, hcompact⟩ := hp.compacted
  have hstart : Thins c.owner c.slot
      (keptNodes done ++ (c.items f).drop done.length) f [] g :=
    .shuffle .start hfg
  rw [hcompact]
  refine ((hstart.store (fun _ hm => hm) (fun m hm => ?_)
    (fun _ hm => by cases hm) fun m hm => ?_).reapAll fun m hm => ?_).shuffle
      (shuffled_renumberFrom ..)
  · change m ∈ c.items g
    rw [hitems, List.append_assoc]
    rcases List.mem_append.mp hm with hm | hm
    · exact List.mem_append_left _ hm
    · exact List.mem_append_right _ (List.mem_append_right _ hm)
  · change m ∈ c.items g at hm
    rw [hitems, List.append_assoc] at hm
    rcases List.mem_append.mp hm with hm | hm
    · exact .inl (List.mem_append_left _ hm)
    · exact (List.mem_append.mp hm).symm.imp_left
        (List.mem_append_right _)
  · refine (hfg.slots c.owner c.slot m).mp ?_
    change m ∈ c.items g
    rw [hitems, List.append_assoc]
    exact List.mem_append_right _ (List.mem_append_left _ hm)

theorem shuffled_finish (pass : Pass) :
    Shuffled (pass.compact c f) (pass.finish checks c f).state := by
  have hclosed := shuffled_endTraversal (f := pass.compact c f) checks c.owner
  unfold Pass.finish
  cases hend : endTraversal checks c.owner (pass.compact c f) with
  | stop why g =>
      rw [hend] at hclosed
      exact hclosed
  | ok u g =>
      rw [hend] at hclosed
      rw [Outcome.next, Outcome.state]
      split
      · exact hclosed
      · exact hclosed.trans (shuffled_commit c.owner)

section

variable
  (hsifts : Sifts c (c.length f) ⟨0, 0, 0⟩ (f.beginTraversal c.owner)
    calls pass stopped g)
  (ho : c.owner ∈ locks) (hs : f.Sound checks locks) (hc : c.Fits f)
  (hcov : f.Covered) (hpure : ∀ j ∈ calls, j.Pure rejects)
include hsifts ho hs hc hcov hpure

/-- A pass of pure calls is stopped by nothing, and judges all elements. -/
theorem Sifts.completes :
    stopped = none ∧ calls.map Judgement.node = c.items f := by
  have hidle : ∀ j ∈ calls, j.Idle checks locks :=
    fun j hj => (hpure j hj).idle
  obtain ⟨-, hall, hlast⟩ := hsifts.concludes ho hs hc hcov hidle
  obtain ⟨-, hnodes, -⟩ := hsifts.culled ho hs hc hcov hidle
  cases stopped with
  | none => exact ⟨rfl, by rwa [hall rfl, List.take_length] at hnodes⟩
  | some why =>
      obtain ⟨j, m, hj, hverdict⟩ := hlast why rfl
      cases hverdict.symm.trans (hpure j (List.mem_of_getLast? hj))

/-- While the pass runs only the order changes, and then it lets go of what
was rejected. -/
theorem Sifts.thins :
    Thins c.owner c.slot ((c.items f).filter fun n => !rejects n) f []
      (pass.finish checks c g).state := by
  have hidle : ∀ j ∈ calls, j.Idle checks locks :=
    fun j hj => (hpure j hj).idle
  obtain ⟨rfl, hnodes⟩ := hsifts.completes ho hs hc hcov hpure
  obtain ⟨done, hp, hends⟩ := hsifts.passed ho hs hc hcov hidle
  obtain ⟨rfl, hall⟩ := hends.all rfl
  have hlen := hall (Nat.le_add_left _ _)
  have hs0 := hs.alike (alike_beginTraversal (f := f) c.owner)
  have hshuffled : Shuffled f g :=
    (shuffled_beginTraversal c.owner).trans (hsifts.shuffled hpure
      fun n hn => alive_of_mem_items hs0.toWellFormed hn)
  have hlast : Shuffled (pass.compact c g) (pass.finish checks c g).state :=
    shuffled_finish pass
  have hthins := (hp.thins hshuffled).shuffle hlast
  rwa [hlen, List.drop_length, List.append_nil, keptNodes_of_pure hpure,
    hnodes] at hthins

/-- After pure calls `finish` leaves the elements that are not rejected, and
`Shrinks` the collection to them. -/
theorem Sifts.shrinks :
    c.items (pass.finish checks c g).state
        = ((c.items f).filter fun n => !rejects n)
      ∧ Shrinks c ((c.items f).filter fun n => !rejects n)
        ((c.items f).filter rejects)
        (sieve rejects (c.items f) (c.items f).length) f
        (pass.finish checks c g).state := by
  have hidle : ∀ j ∈ calls, j.Idle checks locks :=
    fun j hj => (hpure j hj).idle
  have hthins := hsifts.thins ho hs hc hcov hpure
  obtain ⟨rfl, hnodes⟩ := hsifts.completes ho hs hc hcov hpure
  have hlen : calls.length = (c.items f).length := by
    rw [← hnodes, List.length_map]
  obtain ⟨hended, -⟩ := hsifts.ended_sound ho hs hc fun j hj => (hidle j hj).1
  have hwf' := hended.toWellFormed
  obtain ⟨-, -, -, hx, -⟩ := hsifts.culled ho hs hc hcov hidle
  rw [hlen, List.drop_length, List.append_nil, keptNodes_of_pure hpure,
    rejectedNodes_of_pure hpure, hnodes] at hx
  have hitems := items_of_exchange hx
  refine ⟨hitems, hitems ▸ hx, hthins, fun hn hapart => ?_,
    fun {n i m} hn hm => ?_⟩
  · exact hsifts.apart ho hs hc hcov hidle hapart (.inl hn)
  · obtain ⟨rfl, hstays⟩ := sieve_length hpure hnodes hn.here hm
    have hstored := getElem?_newIndex
      (by rw [hnodes, hlen, List.take_length]) hn.here hstays
    rw [hlen, List.drop_length, List.append_nil, keptNodes_of_pure hpure,
      hnodes, ← hitems] at hstored
    have hmem := Forest.mem_children_of_mem_slot _
      (List.mem_of_getElem? hstored)
    have hplace := hsifts.ridden ho hs hc hcov hidle hn.here hn.link hn.place
      hstays (.inl (hwf'.closed hmem))
    exact ⟨hx.linked hs.toWellFormed hcov hwf'.closed List.not_mem_nil hmem
      hn.link, hstored, hplace⟩

end

/-- A filtering by a steady test answers how many elements it rejects,
commits if there are any, and shrinks the collection to the survivors. -/
theorem shrinks_removeAll (ho : c.owner ∈ locks) (hs : f.Sound checks locks)
    (hc : c.Fits f) (hcov : f.Covered)
    (hopen : f.isGuarded checks c.owner = false)
    (hjudge : ∀ n s, judge n s = .ok (test n s.1) s)
    (htest : test.Steady c.owner) (st : σ) :
    let rejects := fun n => test n f
    ∃ g, (c.removeAll checks judge (f, st)).mapState Prod.fst
        = .ok ((c.items f).countP rejects) g
      ∧ c.items g = ((c.items f).filter fun n => !rejects n)
      ∧ Raises c.owner (if (c.items f).any rejects = true then 1 else 0) f g
      ∧ Shrinks c ((c.items f).filter fun n => !rejects n)
        ((c.items f).filter rejects)
        (sieve rejects (c.items f) (c.items f).length) f g := by
  intro rejects
  obtain ⟨g, hend⟩ :=
    removalEnd_of_steady ho hs hc hopen hjudge htest st
  obtain ⟨pass, stopped, k, hsifts, hfinish, hout⟩ :=
    removeAll_ended checks c judge st hopen hend
  have hpure : ∀ j ∈ c.removalCalls checks judge (f, st), j.Pure rejects :=
    removalCalls_pure ho hs hc hopen hjudge htest st
  have hraises := raises_removeAll hend fun j hj => by
    rw [(hpure j hj).after_eq]
    exact .refl c.owner j.before
  obtain ⟨rfl, hnodes⟩ := hsifts.completes ho hs hc hcov hpure
  have hcount := hsifts.rejected_eq
  rw [Nat.zero_add, countP_rejects_of_pure hpure, hnodes] at hcount
  obtain ⟨hitems, hshrinks⟩ := hsifts.shrinks ho hs hc hcov hpure
  rw [hfinish, Outcome.state] at hitems hshrinks
  rw [hout, any_rejects_of_pure hpure, hnodes, Outcome.state] at hraises
  exact ⟨g, hcount ▸ hout, hitems, hraises, hshrinks⟩

-- =============================================================== right places

section

variable {rejects : NodeId → Bool} {n p : NodeId}

/-- A place that is accurate is `Apart`, or the element that it leads to has
an index in the `sieve`, if it is not rejected. -/
theorem apart_or_sieve (hwf : f.WellFormed) (hc : c.Fits f)
    (hn : f.Accurate n p) (hstays : p = c.owner → rejects n = false) :
    Apart c f n ∨ ∃ j k, LeadsTo c f n j
      ∧ sieve rejects (c.items f) (c.items f).length j = some k := by
  rcases leadsTo_or_apart hwf hc hn with ⟨hp, j, hj⟩ | hapart
  · obtain ⟨k, hk⟩ := exists_sieve hj.here (hstays hp)
    exact .inr ⟨j, k, hj, hk⟩
  · exact .inl hapart

theorem count_filter_eq_zero (l : List NodeId) (hgone : rejects n = true) :
    (l.filter fun n => !rejects n).count n = 0 := by
  refine List.count_eq_zero.mpr fun hmem => ?_
  have hstays : (!rejects n) = true := (List.mem_filter.mp hmem).2
  rw [hgone] at hstays
  cases hstays

/-- If the place of `n` is accurate, or `n` occurs once at most, then the
place follows the `sieve`, or what is kept has `n` once at most. -/
theorem apart_or_sieve_or_once (hwf : f.WellFormed) (hc : c.Fits f)
    (hn : (∃ p, f.Accurate n p) ∨ (c.items f).count n ≤ 1) :
    Apart c f n
      ∨ (∃ j k, LeadsTo c f n j
        ∧ sieve rejects (c.items f) (c.items f).length j = some k)
      ∨ ((c.items f).filter fun n => !rejects n).count n ≤ 1 := by
  rcases hn with ⟨p, hn⟩ | honce
  · cases hgone : rejects n with
    | false =>
        rcases apart_or_sieve hwf hc hn fun _ => hgone with h | h
        · exact .inl h
        · exact .inr (.inl h)
    | true =>
        exact .inr (.inr ((count_filter_eq_zero _ hgone).trans_le zero_le_one))
  · exact .inr (.inr ((List.filter_sublist.count_le n).trans honce))

end

end InstructionTree.Collection
