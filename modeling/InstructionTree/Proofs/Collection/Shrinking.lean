/-
Collections that lose elements, and nothing else.

Elements may be taken out one at a time, with a shift of all that follow
each time, or many at once, with one shift. `Shrinks` says what any such
work has done: its books, whom it let go of, and what became of the cached
places. Two ways that leave the same elements, with the same books and the
same shifts, differ in no counter, no link, no parent, no place that was
right, and no answer about one (`Shrinks.indexOf?_eq`).

# Places

A place that is right either leads to an element (`LeadsTo`) or is none of
this collection (`Apart`). The first follows its element through every
shift, and `goes` says where to; the second is never touched. Any other place
is stale. It may be met by some test or other on one way and not on another
one, so nothing is said about it.
-/
import InstructionTree.Proofs.Collection.Compaction
import InstructionTree.Proofs.Collection.Lists
import InstructionTree.Proofs.Collection.Versions
import InstructionTree.Proofs.Forest.Thinning
import InstructionTree.Proofs.Forest.Works

namespace InstructionTree.Collection

open Forest

variable {checks : Checks} {locks kept left more new due items : List NodeId}
  {c : Collection} {f g h k : Forest} {n p old : NodeId}
  {i j m count times : Nat} {goes goes' : Nat → Option Nat}

-- =================================================================== places

/-- The cached place of `n` leads to the element at `j`, and that is `n`. -/
structure LeadsTo (c : Collection) (f : Forest) (n : NodeId) (j : Nat) :
    Prop where
  link : (f.node n).link = some c.owner
  here : (c.items f)[j]? = some n
  place : (f.node n).position = c.base + j

/-- The cached place of `n` is none of this collection. -/
def Apart (c : Collection) (f : Forest) (n : NodeId) : Prop :=
  (f.node n).link ≠ some c.owner ∨ (f.node n).position < c.base

/-- A node whose place is accurate has a place that leads to an element of `c`,
or one `Apart`. -/
theorem leadsTo_or_apart (hwf : f.WellFormed) (hc : c.Fits f)
    (hn : f.Accurate n p) :
    (p = c.owner ∧ ∃ j, LeadsTo c f n j) ∨ Apart c f n := by
  obtain ⟨hparent, hchild⟩ := hn
  have hlink := (parent?_eq_some_iff.mp hparent).1
  by_cases hp : p = c.owner
  case neg =>
    exact .inr (.inl fun h => hp (Option.some.inj (hlink.symm.trans h)))
  subst hp
  obtain ⟨s, k, hlocate, hk⟩ := child?_eq_some.mp hchild
  obtain ⟨hlt, hsum, hinner⟩ := locate?_eq_some hlocate
  have hlast := hc.last hwf
  by_cases hs : s = c.slot
  · subst hs
    exact .inl ⟨rfl, k, hlink, hk, hsum⟩
  · -- an operand slot before the collection has one index only
    refine .inr (.inr ?_)
    rcases hinner with rfl | ⟨-, hend, -⟩
    · unfold base
      omega
    · omega

theorem LeadsTo.indexOf? (hn : LeadsTo c f n j) :
    c.indexOf? f n = some j := by
  have hindex : (f.node n).position - c.base = j := by
    rw [hn.place, Nat.add_sub_cancel_left]
  unfold Collection.indexOf? cachedIndex?
  dsimp only
  rw [hindex, if_pos ⟨hn.link, by rw [hn.place]; exact Nat.le_add_right ..,
    hn.here⟩]
  rfl

theorem Apart.indexOf? (hn : Apart c f n) :
    c.indexOf? f n = (c.items f).findIdx? fun m => m == n := by
  unfold Collection.indexOf? cachedIndex?
  dsimp only
  rw [if_neg, Option.none_or]
  rintro ⟨hlink, hle, -⟩
  rcases hn with hne | hlt
  · exact hne hlink
  · omega

/-- For a node that occurs once at most, `indexOf?` is `List.findIdx?`. -/
theorem indexOf?_eq_findIdx? (honce : (c.items f).count n ≤ 1) :
    c.indexOf? f n = (c.items f).findIdx? fun m => m == n := by
  cases hfound : c.indexOf? f n with
  | none =>
      have hnone := indexOf?_eq_none hfound
      symm
      rw [List.findIdx?_eq_none_iff]
      intro m hm
      exact beq_false_of_ne fun hmn => hnone (hmn ▸ hm)
  | some i =>
      have hi := getElem?_of_indexOf? hfound
      obtain ⟨hlt, hget⟩ := List.getElem?_eq_some_iff.mp hi
      symm
      refine List.findIdx?_eq_some_iff_getElem.mpr
        ⟨hlt, by rw [hget]; exact beq_self_eq_true n, fun j hj hat => ?_⟩
      have hfirst : (c.items f)[j]? = some n := by
        rw [List.getElem?_eq_getElem (by omega), eq_of_beq hat]
      have htwice := two_le_count hj hfirst hi
      omega

/-- `renumberFrom` leaves the position of a node that is `Apart`. -/
theorem Apart.renumberFrom (hn : Apart c f n) (old : Nat → Nat) (i : Nat)
    (ns : List NodeId) :
    ((c.renumberFrom old i ns f).node n).position = (f.node n).position := by
  rcases position_renumberFrom (c := c) old n ns i f with
    ⟨hsame, -⟩ | ⟨howner, -⟩
  · exact hsame
  · rcases hn with hne | hlt
    · exact absurd howner hne
    · exact position_renumberFrom_ne old n ns i f fun m _ => by omega

/-- A node stays `Apart` through an account in which nobody entered, if its
position stays. -/
theorem Apart.stays (hn : Apart c f n)
    (hg : Account c.owner c.slot f [] left items g) (hspared : g.Spared n)
    (hposition : (g.node n).position = (f.node n).position) :
    Apart c g n := by
  rcases hn with hlink | hplace
  · refine .inl ?_
    rcases hg.stayed hspared List.not_mem_nil with hstays | ⟨howner, -⟩
    · rwa [hstays]
    · exact absurd howner hlink
  · exact .inr (by rwa [hposition])

/-- `renumberFrom` is `Shuffled`: it changes no slot, link or counter. -/
theorem shuffled_renumberFrom (old : Nat → Nat) (i : Nat) (ns : List NodeId) :
    Shuffled f (c.renumberFrom old i ns f) :=
  shuffled_of_eq (c.isAlive_renumberFrom _ · _ _ f)
    (c.field_renumberFrom (F := Node.handles) (fun _ _ => rfl) _ · _ _ f)
    (c.field_renumberFrom (F := Node.slots) (fun _ _ => rfl) _ · _ _ f)

-- =================================================================== shifts

/-- Where the element at `j` is after `count` elements from `i` on were
taken out. -/
def pastRange (i count j : Nat) : Option Nat :=
  if j < i then some j
  else if j < i + count then none
  else some (j - count)

theorem pastRange_zero (i j : Nat) : pastRange i 0 j = some j := by
  unfold pastRange
  split_ifs
  · rfl
  · omega
  · rfl

/-- `pastRange` of `count`, and of one more at the same index, is `pastRange`
of `count + 1`. -/
theorem pastRange_succ (i count j : Nat) :
    (pastRange i count j).bind (pastRange i 1)
      = pastRange i (count + 1) j := by
  unfold pastRange
  by_cases hbefore : j < i
  · rw [if_pos hbefore, if_pos hbefore, Option.bind_some, if_pos hbefore]
  rw [if_neg hbefore, if_neg hbefore]
  by_cases hin : j < i + count
  · rw [if_pos hin, if_pos (by omega), Option.bind_none]
  rw [if_neg hin, Option.bind_some, if_neg (by omega)]
  by_cases hnext : j - count < i + 1
  · rw [if_pos hnext, if_pos (by omega)]
  · rw [if_neg hnext, if_neg (by omega)]
    congr 1

theorem getElem?_pastRange {l : List NodeId} (hj : l[j]? = some n)
    (hm : pastRange i count j = some m) :
    (l.take i ++ l.drop (i + count))[m]? = some n := by
  have hlt := (List.getElem?_eq_some_iff.mp hj).1
  unfold pastRange at hm
  split_ifs at hm with hbefore hin
  · cases hm
    rw [List.getElem?_append_left (by rw [List.length_take]; omega),
      List.getElem?_take, if_pos hbefore, hj]
  · cases hm
    have hlen : (l.take i).length = i := List.length_take_of_le (by omega)
    rw [List.getElem?_append_right (by omega), hlen, List.getElem?_drop, ← hj]
    congr 1
    omega

/-- `renumberFrom` behind a range that is taken out gives a place that leads to
an element its index past the range. -/
theorem position_pastRange {l : List NodeId} (hcount : 0 < count)
    (hlink : (k.node n).link = some c.owner)
    (hplace : (k.node n).position = c.base + j) (hj : l[j]? = some n)
    (hm : pastRange i count j = some m) :
    ((c.renumberFrom (fun j => j + count) i (l.drop (i + count)) k).node
      n).position = c.base + m := by
  unfold pastRange at hm
  split_ifs at hm with hbefore hin
  · cases hm
    -- all tests are at indices behind
    rw [position_renumberFrom_ne, hplace]
    intro m _
    omega
  · cases hm
    have hwindow : (l.drop (i + count))[j - count - i]? = some n := by
      rw [List.getElem?_drop, ← hj]
      congr 1
      omega
    rw [position_renumberFrom_left hcount _ i (j - count - i) k hwindow hlink
      (by rw [hplace]; congr 1; omega)]
    congr 1
    omega

-- ================================================================ shrinking

/-- From `f` to `g`, the collection lost `left` and nothing else, none of
`kept` among them. An element that was at `j` is at `goes j` now, if that is
an index, and its place still leads to it. -/
structure Shrinks (c : Collection) (kept left : List NodeId)
    (goes : Nat → Option Nat) (f g : Forest) : Prop where
  books : Exchange c.owner c.slot [] left (c.items g) f g
  thinned : Thins c.owner c.slot kept f [] g
  apart : ∀ {n}, g.isAlive n = true → Apart c f n →
    (g.node n).position = (f.node n).position
  follows : ∀ {n j k}, LeadsTo c f n j → goes j = some k → LeadsTo c g n k

namespace Shrinks

theorem start (hwf : f.WellFormed) (hc : c.Fits f) :
    Shrinks c kept [] some f f where
  books := exchange_start hwf hc
  thinned := .start
  apart _ _ := rfl
  follows hn hj := by
    cases hj
    exact hn

/-- Elements are taken out, which leads to `k`. Then all that follow are
shifted, the edit is committed, and `due` let go of. -/
theorem shift (hg : Shrinks c kept left goes f g) (hwf : f.WellFormed)
    (hcov : f.Covered) (ho : c.owner ∈ locks) (hs : g.Sound checks locks)
    (hcount : 0 < count) (hgk : Touches checks c.owner g k)
    (hposition : ∀ {n}, k.isAlive n = true →
      (k.node n).position = (g.node n).position)
    (hx : Exchange c.owner c.slot [] (left ++ more)
      ((c.items g).take i ++ (c.items g).drop (i + count)) f k)
    (hthins : Thins c.owner c.slot kept f due k)
    (hdue : ∀ n ∈ due, n ∈ c.items f)
    (hh : h = ((c.renumberFrom (fun j => j + count) i
      ((c.items g).drop (i + count)) k).commit c.owner).reapAll due) :
    c.items h = (c.items g).take i ++ (c.items g).drop (i + count)
      ∧ Shrinks c kept (left ++ more)
        (fun j => (goes j).bind (pastRange i count)) f h := by
  have hk := hgk.sound hs
  generalize hr : c.renumberFrom (fun j => j + count) i
    ((c.items g).drop (i + count)) k = r at hh
  have hkr : Touches checks c.owner k r :=
    hr ▸ touches_renumberFrom (fun j => j + count) i _
  have hsheds : Sheds (r.commit c.owner) h := hh ▸ sheds_reapAll _ due
  have hcalm : Calm r h := (alike_commit c.owner).calm.trans hsheds.calm
  have hs' := ((hkr.sound hk).alike (alike_commit c.owner)).sheds hsheds
  have hlive : ∀ {n}, h.isAlive n = true → k.isAlive n = true := by
    intro n hn
    have hrn := hsheds.survivor hn
    rw [isAlive_commit] at hrn
    exact hkr.survivor hrn
  have hxr : Exchange c.owner c.slot [] (left ++ more)
      ((c.items g).take i ++ (c.items g).drop (i + count)) f r :=
    hr ▸ exchange_renumberFrom _ i _ hx
  have hxh := hxr.calm hcalm (hs'.alive ho)
  have hitems := items_of_exchange hxh
  refine ⟨hitems, by rwa [hitems], ?_, fun {n} hn hapart => ?_,
    fun {n j m} hn hm => ?_⟩
  · have hshuffled : Shuffled k r :=
      hr ▸ shuffled_renumberFrom (fun j => j + count) i _
    rw [hh]
    exact ((hthins.shuffle hshuffled).shuffle
      (shuffled_commit c.owner)).reapAll hdue
  · have hkn := hlive hn
    have hsame : (k.node n).position = (f.node n).position :=
      (hposition hkn).trans (hg.apart (hgk.survivor hkn) hapart)
    have hstill := hapart.stays hx.account (.inl hkn) hsame
    rw [hcalm.position (.inl hn), ← hr, hstill.renumberFrom, hsame]
  · obtain ⟨j', hj', hpast⟩ := Option.bind_eq_some_iff.mp hm
    have hgn := hg.follows hn hj'
    have hhere := getElem?_pastRange hgn.here hpast
    have hmem := List.mem_of_getElem? hhere
    have hkn := hk.closed (hx.mem_children hmem)
    have hhn := hs'.closed (hxh.mem_children hmem)
    have hlinkk := hx.linked hwf hcov hk.closed List.not_mem_nil
      (hx.mem_children hmem) hn.link
    refine ⟨hxh.linked hwf hcov hs'.closed List.not_mem_nil
      (hxh.mem_children hmem) hn.link, hitems ▸ hhere, ?_⟩
    rw [hcalm.position (.inl hhn), ← hr]
    exact position_pastRange hcount hlinkk
      ((hposition hkn).trans hgn.place) hgn.here hpast

/-- A node that is `Apart` before `Shrinks` is so after it. -/
theorem apart_of_apart (hg : Shrinks c kept left goes f g)
    (hn : Apart c f n) : Apart c g n := by
  cases hgn : g.isAlive n with
  | false =>
      refine .inl ?_
      rw [node_of_not_alive g hgn]
      exact nofun
  | true => exact hn.stays hg.books.account (.inl hgn) (hg.apart hgn hn)

-- =============================================================== agreement

section

variable (hg : Shrinks c kept left goes f g)
  (hh : Shrinks c kept left goes' f h) (hsame : c.items h = c.items g)
  (hend : ∀ n ∈ c.items g, n ∈ kept)
include hg hh hsame hend

theorem isAlive_eq (n : NodeId) : h.isAlive n = g.isAlive n :=
  hg.thinned.isAlive_eq hh.thinned hend
    (fun m hm => hend m (hsame ▸ hm : m ∈ c.items g)) n

/-- A field that two such ways leave equal in live nodes is equal in all. -/
theorem field_eq {α : Type _} (F : Node → α) (n : NodeId)
    (hlive : g.isAlive n = true → h.isAlive n = true →
      F (h.node n) = F (g.node n)) : F (h.node n) = F (g.node n) := by
  have halive := hg.isAlive_eq hh hsame hend n
  cases hgn : g.isAlive n with
  | false =>
      rw [node_of_not_alive h (halive.trans hgn), node_of_not_alive g hgn]
  | true => exact hlive hgn (halive.trans hgn)

theorem slotRefs_eq (hwf : f.WellFormed) (hcov : f.Covered) (n : NodeId) :
    (h.node n).slotRefs = (g.node n).slotRefs :=
  hg.field_eq hh hsame hend Node.slotRefs n fun hgn hhn => by
    have hcountg := hg.books.account.count hwf hcov (.inl hgn)
    have hcounth := hh.books.account.count hwf hcov (.inl hhn)
    omega

theorem link_eq (hwf : f.WellFormed) (hcov : f.Covered) (n : NodeId) :
    (h.node n).link = (g.node n).link :=
  hg.field_eq hh hsame hend Node.link n fun hgn hhn =>
    hg.books.account.link_eq hwf hcov hh.books.account (.inl hgn) (.inl hhn)

theorem parent?_eq (hwf : f.WellFormed) (hcov : f.Covered) (n : NodeId) :
    h.parent? n = g.parent? n := by
  unfold Forest.parent?
  rw [hg.link_eq hh hsame hend hwf hcov n]
  congr 1
  exact funext (hg.isAlive_eq hh hsame hend)

/-- Two such ways leave equal positions of nodes whose places were right,
unless their element left. -/
theorem position_eq (hn : Apart c f n
      ∨ ∃ j k, LeadsTo c f n j ∧ goes j = some k ∧ goes' j = some k) :
    (h.node n).position = (g.node n).position :=
  hg.field_eq hh hsame hend Node.position n fun hgn hhn => by
    rcases hn with hapart | ⟨j, k, hn, hgoes, hgoes'⟩
    · rw [hh.apart hhn hapart, hg.apart hgn hapart]
    · rw [(hh.follows hn hgoes').place, (hg.follows hn hgoes).place]

omit hend in
/-- So nodes are found at the same index, also those that can only be
found at one. -/
theorem indexOf?_eq (hn : Apart c f n
      ∨ (∃ j k, LeadsTo c f n j ∧ goes j = some k ∧ goes' j = some k)
      ∨ (c.items g).count n ≤ 1) :
    c.indexOf? h n = c.indexOf? g n := by
  rcases hn with hapart | ⟨j, k, hn, hgoes, hgoes'⟩ | honce
  · rw [(hh.apart_of_apart hapart).indexOf?,
      (hg.apart_of_apart hapart).indexOf?, hsame]
  · rw [(hh.follows hn hgoes').indexOf?, (hg.follows hn hgoes).indexOf?]
  · rw [indexOf?_eq_findIdx? honce,
      indexOf?_eq_findIdx? (hsame.symm ▸ honce), hsame]

end

end Shrinks

-- =============================================================== one by one

/-- `Shrinks` by edits of one element each, with a commit for each. -/
structure Removes (checks : Checks) (locks : List NodeId) (c : Collection)
    (kept left : List NodeId) (goes : Nat → Option Nat) (f g : Forest) : Prop
    extends Shrinks c kept left goes f g where
  sound : g.Sound checks locks
  works : Works c.owner f g
  retained : Retains c.owner f g
  raised : Raises c.owner left.length f g

namespace Removes

theorem start (hs : f.Sound checks locks) (hc : c.Fits f) :
    Removes checks locks c kept [] some f f :=
  { Shrinks.start hs.toWellFormed hc with
    sound := hs
    works := .refl c.owner f
    retained := .refl c.owner f
    raised := .refl c.owner f }

variable (hg : Removes checks locks c kept left goes f g)
include hg

theorem fits (ho : c.owner ∈ locks) (hc : c.Fits f) : c.Fits g :=
  hc.ages hg.works.ages (hg.sound.alive ho)

/-- After `Removes` the guard is still down. -/
theorem unguarded (ho : c.owner ∈ locks)
    (hopen : f.isGuarded checks c.owner = false) :
    g.isGuarded checks c.owner = false := by
  unfold isGuarded at hopen ⊢
  rwa [hg.works.depth (.inl (hg.sound.alive ho))]

/-- `removeAt` after `Removes` succeeds, and `Removes` one element more. -/
theorem removeAt (hwf : f.WellFormed) (hcov : f.Covered) (hc : c.Fits f)
    (ho : c.owner ∈ locks) (hopen : f.isGuarded checks c.owner = false)
    (hi : (c.items g)[i]? = some old)
    (hkept : ∀ n ∈ kept, n ∈ (c.items g).eraseIdx i) :
    ∃ h, c.removeAt checks i g = .ok old h
      ∧ c.items h = (c.items g).eraseIdx i
      ∧ Removes checks locks c kept (left ++ [old])
        (fun j => (goes j).bind (pastRange i 1)) f h := by
  have hcg := hg.fits ho hc
  have hmem := List.mem_of_getElem? hi
  obtain ⟨h, hh⟩ : ∃ h, ((c.erased g i old).commit c.owner).reap old = h :=
    ⟨_, rfl⟩
  have hout : c.removeAt checks i g = .ok old h := by
    unfold Collection.removeAt
    rw [guarded_of_open _ (hg.unguarded ho hopen), hi, ← hh]
  have hcarried : Carried checks c.owner g (c.removeAt checks i g) :=
    carried_removeAt hg.sound hcg i
  rw [hout] at hcarried
  have hx := exchange_takenOut hg.books hi
    (alive_of_mem_items hg.sound.toWellFormed hmem)
  have hthins : Thins c.owner c.slot kept f [old] (c.takenOut g i old) :=
    (hg.thinned.store hkept (fun m hm => List.mem_of_mem_eraseIdx hm)
      (fun m hm => by cases hm) fun m hm => mem_eraseIdx_or hi hm).shuffle
      (shuffled_detach c.owner old)
  rw [List.eraseIdx_eq_take_drop_succ] at hx ⊢
  obtain ⟨hitems, hshrinks⟩ := hg.toShrinks.shift hwf hcov ho hg.sound
    Nat.one_pos (touches_takenOut hg.sound.toWellFormed hcg i old)
    (fun _ => position_takenOut) hx hthins
    (fun m hm => List.mem_singleton.mp hm ▸ hg.thinned.within hmem)
    (hh.symm.trans (reapAll_singleton _ old).symm)
  refine ⟨h, hout, hitems, hshrinks, hcarried.sound hg.sound,
    hg.works.trans hcarried.works, hg.retained.trans hcarried.retains, ?_⟩
  rw [List.length_append]
  exact hg.raised.trans (raises_removeAt hg.sound hcg hout)

end Removes

-- ============================================================== all at once

/-- `discard` at `i` keeps `Thins`: each element that it takes out is let go of
at once. -/
theorem thins_discard (ho : c.owner ∈ locks) (i : Nat) :
    ∀ (count : Nat) {left items : List NodeId} {g : Forest},
      g.Sound checks locks → c.Fits g →
      Exchange c.owner c.slot [] left items f g →
      (∀ n ∈ kept, n ∈ items.take i ++ items.drop (i + count)) →
      i + count ≤ items.length → Thins c.owner c.slot kept f [] g →
      Thins c.owner c.slot kept f [] (c.discard i count g)
  | 0, _, _, _, _, _, _, _, _, hthins => hthins
  | count + 1, left, items, g, hs, hc, hx, hkept, hle, hthins => by
      have hi : i < items.length := by omega
      have hold : items[i]? = some items[i] := List.getElem?_eq_getElem hi
      have hitems := items_of_exchange hx
      obtain ⟨hs', hc', hstep⟩ := exchange_letGo ho hs hc hx hold
      have hcut : (items.eraseIdx i).take i
          ++ (items.eraseIdx i).drop (i + count)
            = items.take i ++ items.drop (i + (count + 1)) := by
        rw [List.take_eraseIdx_eq_take_of_le _ _ _ (Nat.le_refl i),
          drop_eraseIdx (Nat.le_add_right i count), Nat.add_assoc]
      rw [← hcut] at hkept
      have hstored : Thins c.owner c.slot kept f [items[i]]
          (c.setItems g ((c.items g).eraseIdx i)) := by
        rw [hitems]
        refine hthins.store (fun m hm => ?_) (fun m hm => ?_)
          (fun m hm => by cases hm)
          fun m hm => mem_eraseIdx_or hold (hitems ▸ hm)
        · rcases List.mem_append.mp (hkept m hm) with hm | hm
          · exact List.mem_of_mem_take hm
          · exact List.mem_of_mem_drop hm
        · have hmem := List.mem_of_mem_eraseIdx hm
          rwa [← hitems] at hmem
      have hmem : items[i] ∈ c.items g := hitems.symm ▸ List.getElem_mem hi
      have hfree := (hstored.shuffle (shuffled_detach c.owner items[i])).free
        (hthins.within hmem)
      unfold discard
      rw [hitems, hold]
      exact thins_discard ho i count hs' hc' hstep hkept (by
        have := List.length_eraseIdx_add_one hi
        omega) hfree

/-- `removeRange` of a range that fits succeeds, and `Shrinks` the collection
by it. -/
theorem shrinks_removeRange (hs : f.Sound checks locks) (hc : c.Fits f)
    (hcov : f.Covered) (ho : c.owner ∈ locks)
    (hopen : f.isGuarded checks c.owner = false) (hcount : 0 < count)
    (hle : i + count ≤ c.length f) :
    ∃ g, c.removeRange checks i count f = .ok () g
      ∧ c.items g = (c.items f).take i ++ (c.items f).drop (i + count)
      ∧ Raises c.owner 1 f g
      ∧ Shrinks c ((c.items f).take i ++ (c.items f).drop (i + count))
        (((c.items f).drop i).take count) (pastRange i count) f g := by
  have hwf := hs.toWellFormed
  have hout : c.removeRange checks i count f
      = .ok () ((c.erasedRange f i count).commit c.owner) := by
    unfold removeRange
    rw [guarded_of_open _ hopen, if_neg (by omega), if_neg (by omega)]
  have hx := exchange_discard ho i count hs hc (exchange_start hwf hc) hle
  have hthins : Thins c.owner c.slot _ f [] (c.discard i count f) :=
    thins_discard ho i count hs hc (exchange_start hwf hc)
      (fun _ hn => hn) hle .start
  obtain ⟨hitems, hshrinks⟩ := (Shrinks.start hwf hc).shift hwf hcov ho hs
    hcount (touches_discard ho i count hs hc)
    (fun hn => (position_discard i count (.inl hn)).2) hx hthins
    (fun _ hm => by cases hm) rfl
  have hraises : Raises c.owner 1 f ((c.erasedRange f i count).commit c.owner)
      := (touches_erasedRange ho hs hc i count).raises_committed .refl
  exact ⟨_, hout, hitems, hraises, hshrinks⟩

end InstructionTree.Collection
