/-
Filtering with a judge that edits what it judges.

A rejected element is detached at once, and taken out of its slot at the
end of the pass. In between it is stored and not counted, so the pass owes
a position to the counter of every element of that zone (`Owes`). A judge
may exchange any element that is not owed: whatever leaves then is stored
elsewhere than in the zone, so it is counted there and its counter does
not run out.

An element of the zone must stay where it is until the pass ends. If it is
replaced, it is detached a second time, and its replacement, which was
attached, is taken out without being detached. The same holds for the
element under judgement, if it is rejected afterwards. So each call has a
`window` that it must leave alone.
-/
import InstructionTree.Proofs.Collection.Culling
import InstructionTree.Proofs.Forest.Settled

namespace InstructionTree

open Forest

variable {checks : Checks} {locks : List NodeId} {c : Collection}
  {f g h : Forest} {zone zone' : List NodeId} {pass : Pass} {lo hi : Nat}
  {n : NodeId}

namespace Forest

-- ================================================================ owing

/-- Every node counts its positions, but for those in `zone`. -/
def Owes (f : Forest) (zone : List NodeId) : Prop :=
  ∀ n, (f.node n).slotRefs + zone.count n = f.holdCount n

/-- Nobody is freed on the way from `f` to `g`. -/
def Lasts (f g : Forest) : Prop :=
  ∀ n, f.isAlive n = true → g.isAlive n = true

/-- If `Lasts` holds of a way, it holds of its first half. -/
theorem Lasts.of_ages (hfh : Lasts f h) (hfg : Ages f g)
    (hgh : Ages g h) : Lasts f g := by
  intro n hn
  have hold := f.index_lt_of_alive hn
  exact hgh.alive (Nat.lt_of_lt_of_le hold hfg.size) (hfh n hn)

theorem Lasts.kept (hfg : Lasts f g) (n : NodeId) : Kept f g n :=
  fun hp => hfg _ (f.alive_of_mem_children hp)

theorem Alike.lasts (hfg : Alike f g) : Lasts f g :=
  fun n hn => (hfg.alive n).trans hn

/-- `Calm` steps that free no holder keep `Owes zone`. -/
theorem Owes.calm (howes : f.Owes zone) (hfg : Calm f g)
    (hwf : g.WellFormed) (hkept : ∀ n, Kept f g n) : g.Owes zone := by
  intro n
  have hcount := howes n
  have hholds := hfg.holdCount_eq (hkept n)
  cases hn : g.isAlive n with
  | true =>
      rw [hfg.slotRefs (.inl hn), hholds]
      exact hcount
  | false =>
      -- a node that is not alive sits nowhere, and counts nothing
      have hzero := hwf.holdCount_eq_zero hn
      have hrefs : (g.node n).slotRefs = 0 := by
        rw [node_of_not_alive g hn]
        rfl
      omega

/-- An edit of one slot changes debts by what it stores without attaching
it, and what it detaches without taking it out. -/
theorem Owes.account {o : NodeId} {i : Nat}
    {entered left items : List NodeId} (howes : f.Owes zone)
    (hacc : Account o i f entered left items g) (hwf : g.WellFormed)
    (hlasts : Lasts f g)
    (hleft : ∀ n, left.count n ≤ (f.node n).slotRefs)
    (hlive : ∀ n ∈ zone', g.isAlive n = true)
    (hbalance : ∀ n, zone'.count n + (f.slot o i).count n + entered.count n
      = items.count n + zone.count n + left.count n) :
    g.Owes zone' := by
  intro n
  cases hn : g.isAlive n with
  | true =>
      have hrefs := (hacc.solvent_of_le hleft).count (.inl hn)
      have hholds := hacc.holdCount_eq fun _ hp => hlasts.kept n hp
      have hcount := howes n
      have hbalance := hbalance n
      omega
  | false =>
      have hnot : n ∉ zone' := fun hmem => by
        rw [hlive n hmem] at hn
        cases hn
      rw [List.count_eq_zero.mpr hnot, hwf.holdCount_eq_zero hn,
        node_of_not_alive g hn]
      rfl

/-- An edit that leaves the zone stored changes no debt, unless somebody
leaves and enters at once. -/
theorem Owes.exchange {o : NodeId} {i : Nat}
    {entered left new : List NodeId} (howes : f.Owes zone)
    (hx : Exchange o i entered left new f g) (hwf : g.WellFormed)
    (hlasts : Lasts f g) (hother : ∀ n ∈ left, n ∉ entered)
    (hstored : ∀ n, zone.count n ≤ g.holdCount n) : g.Owes zone := by
  refine howes.account hx.account hwf hlasts (fun n => ?_) (fun n hn => ?_)
    fun n => ?_
  · by_cases hn : n ∈ left
    · have hnew : entered.count n = 0 := List.count_eq_zero.mpr (hother n hn)
      have hholds := hx.holdCount_eq (hlasts.kept n)
      have hcount := howes n
      have hstored := hstored n
      omega
    · rw [List.count_eq_zero.mpr hn]
      exact Nat.zero_le _
  · cases halive : g.isAlive n with
    | true => rfl
    | false =>
        have hle := hstored n
        have hpos := List.count_pos_iff.mpr hn
        rw [hwf.holdCount_eq_zero halive] at hle
        omega
  · have hbalance := hx.balance n
    omega

end Forest

-- =============================================================== windows

namespace Collection

/-- The elements from index `lo` up to `hi`. -/
def window (c : Collection) (f : Forest) (lo hi : Nat) : List NodeId :=
  ((c.items f).take hi).drop lo

theorem window_congr (hitems : c.items g = c.items f) :
    c.window g lo hi = c.window f lo hi := by
  rw [window, window, hitems]

theorem window_sublist_items : (c.window f lo hi).Sublist (c.items f) :=
  (List.drop_sublist ..).trans (List.take_sublist ..)

theorem count_window_le (n : NodeId) :
    (c.window f lo hi).count n ≤ f.holdCount n :=
  Nat.le_trans (window_sublist_items.count_le n)
    (Nat.le_trans ((f.slot_sublist_children c.owner c.slot).count_le n)
      (count_le_holdCount c.owner n))

theorem alive_of_mem_window (hwf : f.WellFormed)
    (hn : n ∈ c.window f lo hi) : f.isAlive n = true :=
  alive_of_mem_items hwf (window_sublist_items.mem hn)

/-- The window up to `hi + 1` is the window up to `hi` with the element at `hi`
behind it. -/
theorem window_succ (hle : lo ≤ hi) (hn : (c.items f)[hi]? = some n) :
    c.window f lo (hi + 1) = c.window f lo hi ++ [n] := by
  have hlt := (List.getElem?_eq_some_iff.mp hn).1
  unfold window
  rw [List.take_add_one, hn, List.drop_append_of_le_length]
  · rfl
  · rw [List.length_take]
    omega

/-- The window up to `k` is the front of a longer window from the same index.
-/
theorem window_eq_take {k : Nat} (hle : k ≤ hi) :
    c.window f lo k = (c.window f lo hi).take (k - lo) := by
  unfold window
  rw [List.drop_take, List.drop_take, List.take_take,
    Nat.min_eq_left (Nat.sub_le_sub_right hle lo)]

-- ============================================================= the steps

/-- `reject` keeps `Owes`: the window grows by the rejected element, which it
detached. -/
theorem owes_reject (howes : f.Owes (c.window f pass.kept pass.judged))
    (hs : f.Sound checks locks) (hc : c.Fits f)
    (hle : pass.kept ≤ pass.judged)
    (hn : (c.items f)[pass.judged]? = some n) :
    (c.reject n pass f).2.Owes (c.window (c.reject n pass f).2
      (c.reject n pass f).1.kept (c.reject n pass f).1.judged) := by
  have hmem := List.mem_of_getElem? hn
  have hwf := hs.toWellFormed
  have hnode := alive_of_mem_items hwf hmem
  have htouches : Touches checks c.owner f (c.reject n pass f).2 :=
    touches_reject n pass
  have hacc : Account c.owner c.slot f [] [n] (c.items f)
      (c.reject n pass f).2 := by
    refine (exchange_start hwf hc).account.leave hnode ?_
    rw [List.count_nil, Nat.add_zero]
    exact List.count_pos_iff.mpr hmem
  have hwindow : c.window (c.reject n pass f).2 pass.kept (pass.judged + 1)
      = c.window f pass.kept pass.judged ++ [n] := by
    rw [← window_succ hle hn]
    exact window_congr (items_detach ..)
  have hlive : ∀ m, (c.reject n pass f).2.isAlive m = f.isAlive m :=
    fun m => isAlive_detach ..
  show Forest.Owes _ (c.window _ pass.kept (pass.judged + 1))
  rw [hwindow]
  refine howes.account hacc (htouches.sound hs).toWellFormed
    (fun m hm => (hlive m).trans hm) (fun m => ?_) (fun m hm => ?_)
    fun m => ?_
  · -- the element counts the position where it is judged
    by_cases hmn : m = n
    · subst hmn
      have hcount := howes m
      have hlonger :
          (c.window f pass.kept (pass.judged + 1)).count m ≤ f.holdCount m :=
        count_window_le m
      rw [window_succ hle hn, List.count_append] at hlonger
      omega
    · rw [List.count_singleton, beq_false_of_ne (Ne.symm hmn)]
      exact Nat.zero_le _
  · rw [hlive]
    rcases List.mem_append.mp hm with hm | hm
    · exact alive_of_mem_window hwf hm
    · rw [List.mem_singleton.mp hm]
      exact hnode
  · rw [List.count_append, List.count_nil]
    show _ + (c.items f).count m + 0 = _
    omega

/-- Exchanging an element with the first one of the zone moves the zone to
the right. -/
private theorem window_exchange {items : List NodeId} {first : NodeId}
    {kept judged : Nat} (hle : kept ≤ judged)
    (hfirst : items[kept]? = some first) (hn : items[judged]? = some n) :
    ((items.set kept n).set judged first).Perm items
      ∧ ((((items.set kept n).set judged first).take (judged + 1)).drop
          (kept + 1)).Perm ((items.take judged).drop kept) := by
  obtain ⟨hlt, hget⟩ := List.getElem?_eq_some_iff.mp hn
  have hfront : (items.take kept).length = kept := by
    rw [List.length_take]
    omega
  have hzone : ((items.take judged).drop kept).length = judged - kept := by
    rw [List.length_drop, List.length_take]
    omega
  have htake : items.take kept ++ (items.take judged).drop kept
      = items.take judged := by
    have hsame : items.take kept = (items.take judged).take kept := by
      rw [List.take_take, Nat.min_eq_left hle]
    rw [hsame, List.take_append_drop]
  have hsplit : items = items.take kept ++ (items.take judged).drop kept
      ++ n :: items.drop (judged + 1) := by
    rw [htake, ← hget, List.cons_getElem_drop_succ, List.take_append_drop]
  obtain ⟨first', zone, hperm, hfirst', hnew⟩ := exchange_zones
    (items.take kept) ((items.take judged).drop kept)
    (items.drop (judged + 1)) n
  rw [hfront, ← hsplit, hfirst] at hfirst'
  cases hfirst'
  have hsum : kept + (judged - kept) = judged := by omega
  rw [hfront, hzone, hsum, ← hsplit] at hnew
  have hlen : (items.take kept ++ [n] ++ zone).length = judged + 1 := by
    rw [List.length_append, List.length_append, hfront, hperm.length_eq,
      hzone, List.length_singleton]
    omega
  have hlen' : (items.take kept ++ [n]).length = kept + 1 := by
    rw [List.length_append, hfront, List.length_singleton]
  rw [hnew]
  constructor
  · refine List.Perm.trans ?_ (.of_eq hsplit.symm)
    rw [List.append_assoc, List.append_assoc, List.append_assoc]
    refine List.Perm.append_left _ ?_
    exact ((hperm.append_right _).cons n).trans List.perm_middle.symm
  · rw [← hlen, List.take_left, ← hlen', List.drop_left]
    exact hperm

/-- `keep` that succeeded keeps `Owes`, whatever is stored at the index under
judgement. -/
theorem owes_keep {next : Pass}
    (howes : f.Owes (c.window f pass.kept pass.judged))
    (hs : f.Sound checks locks) (hc : c.Fits f)
    (hle : pass.kept ≤ pass.judged)
    (hkeep : c.keep n pass f = (some next, g)) :
    g.Owes (c.window g next.kept next.judged) := by
  have hwf := hs.toWellFormed
  have htouches : Touches checks c.owner f g := touches_kept hwf hc hkeep
  have hwf' := (htouches.sound hs).toWellFormed
  unfold keep at hkeep
  simp only [items_renumber] at hkeep
  split at hkeep
  next first second hfirst hsecond =>
    cases hkeep
    obtain ⟨hperm, hzone⟩ := window_exchange hle hfirst hsecond
    have hacc := (account_renumber (exchange_start hwf hc).account
      pass.judged pass.kept n).store
        (((c.items f).set pass.kept second).set pass.judged first)
    have hitems := hacc.slot_self
    refine howes.account hacc hwf' (fun m hm => ?_) (fun m => Nat.zero_le _)
      (fun m hm => alive_of_mem_window hwf' hm) fun m => ?_
    · rw [isAlive_setItems, isAlive_renumber]
      exact hm
    · have hcount := hperm.count_eq m
      have hcount' := hzone.count_eq m
      have hwindow : c.window (c.setItems (c.renumber f pass.judged pass.kept
          n) (((c.items f).set pass.kept second).set pass.judged first))
          (pass.kept + 1) (pass.judged + 1)
          = ((((c.items f).set pass.kept second).set pass.judged first).take
            (pass.judged + 1)).drop (pass.kept + 1) :=
        congrArg (fun l : List NodeId => (l.take (pass.judged + 1)).drop
          (pass.kept + 1)) hitems
      rw [hwindow, List.count_nil, hcount, hcount']
      show _ + (c.items f).count m + 0 = _
      unfold window
      omega
  next => cases hkeep

/-- `keep` that failed keeps `Owes`: it stored nothing. -/
theorem owes_lost (howes : f.Owes (c.window f pass.kept pass.judged))
    (hs : f.Sound checks locks) (hc : c.Fits f)
    (hkeep : c.keep n pass f = (none, g)) :
    g.Owes (c.window g pass.kept pass.judged) := by
  have hwf := hs.toWellFormed
  have htouches : Touches checks c.owner f g := touches_kept hwf hc hkeep
  have hwf' := (htouches.sound hs).toWellFormed
  unfold keep at hkeep
  dsimp only at hkeep
  split at hkeep
  next => cases hkeep
  next =>
    cases hkeep
    have hacc := account_renumber (exchange_start hwf hc).account
      pass.judged pass.kept n
    have hwindow : c.window (c.renumber f pass.judged pass.kept n)
        pass.kept pass.judged = c.window f pass.kept pass.judged :=
      window_congr (items_renumber ..)
    rw [hwindow]
    refine howes.account hacc hwf' (fun m hm => ?_) (fun m => Nat.zero_le _)
      (fun m hm => ?_) fun m => ?_
    · rw [isAlive_renumber]
      exact hm
    · rw [isAlive_renumber]
      exact alive_of_mem_window hwf hm
    · rw [List.count_nil]
      show _ + (c.items f).count m + 0 = _
      omega

/-- A node that is alive after `release` was alive before it. -/
theorem alive_of_release {m : NodeId}
    (hm : (f.release n).isAlive m = true) : f.isAlive m = true := by
  have halive := (sheds_reap _ n).survivor hm
  rwa [isAlive_update] at halive

theorem isAlive_keep (n : NodeId) (pass : Pass) (m : NodeId) :
    (c.keep n pass f).2.isAlive m = f.isAlive m := by
  unfold keep
  dsimp only
  split
  · rw [isAlive_setItems, isAlive_renumber]
  · exact isAlive_renumber ..

/-- Compaction stores what is before the zone and what is after it,
whatever its bounds are cut to. -/
theorem compacted (hle : pass.kept ≤ pass.judged) :
    ∃ zone old start tail, pass.compact c f
      = c.renumberFrom old start tail ((c.setItems f
        ((c.items f).take pass.kept ++ (c.items f).drop pass.judged)).reapAll
          zone) := by
  have hcut : (c.items f).take (min pass.kept
      (min pass.judged (c.items f).length)) = (c.items f).take pass.kept := by
    rw [List.take_eq_take_iff]
    omega
  have hrest : (c.items f).drop (min pass.judged (c.items f).length)
      = (c.items f).drop pass.judged := by
    rcases Nat.le_total pass.judged (c.items f).length with hin | hout
    · rw [Nat.min_eq_left hin]
    · rw [Nat.min_eq_right hout, List.drop_length,
        List.drop_eq_nil_of_le hout]
  obtain ⟨zone, -, hcompact⟩ := compact_eq (c := c) (f := f) pass rfl rfl
  unfold length at hcompact
  rw [hcut, hrest] at hcompact
  exact ⟨zone, _, _, _, hcompact⟩

/-- `compact` takes the window out of the collection, so it `Owes` nothing. -/
theorem owes_compact (howes : f.Owes (c.window f pass.kept pass.judged))
    (hs : f.Sound checks locks) (hc : c.Fits f) (ho : c.owner ∈ locks)
    (hle : pass.kept ≤ pass.judged)
    (hlasts : Lasts f (pass.compact c f)) :
    (pass.compact c f).Owes [] := by
  have htouches : Touches checks c.owner f (pass.compact c f) :=
    touches_compact hs.toWellFormed hc pass
  have hs' := htouches.sound hs
  have halive := hs'.alive ho
  obtain ⟨zone, old, start, tail, hcompact⟩ :=
    compacted (c := c) (f := f) hle
  rw [hcompact, isAlive_renumberFrom] at halive
  have hstored := (exchange_start hs.toWellFormed hc).account.store
    ((c.items f).take pass.kept ++ (c.items f).drop pass.judged)
  have hacc := account_renumberFrom
    (Account.calm hstored (sheds_reapAll _ zone).calm halive) old start tail
  rw [← setItems, ← hcompact] at hacc
  refine howes.account hacc hs'.toWellFormed hlasts (fun _ => Nat.zero_le _)
    (fun _ hm => by cases hm) fun m => ?_
  have hfront := count_take_add_drop (c.items f) pass.judged m
  have hwindow := count_take_add_drop ((c.items f).take pass.judged)
    pass.kept m
  rw [List.take_take, Nat.min_eq_left hle] at hwindow
  rw [List.count_append, List.count_nil]
  show 0 + (c.items f).count m + 0 = _
  unfold window
  omega

/-- After a verdict is carried out, the reference to the element is given
back. If nobody who was alive at the verdict is missing at the end, nobody
is freed then. -/
theorem owes_release {r : Forest} (howes : g.Owes (c.window g lo hi))
    (hs : f.Sound checks (n :: locks)) (ho : c.owner ∈ locks)
    (hfg : Touches checks c.owner f g)
    (halive : ∀ m, g.isAlive m = f.isAlive m) (hlasts : Lasts f r)
    (hr : Ages (g.release n) r) :
    (g.release n).Owes (c.window (g.release n) lo hi)
      ∧ Lasts (g.release n) r := by
  have hs' : (g.release n).Sound checks locks := (hfg.sound hs).unlock
  have hcalm := calm_release g n
  have hfree : Lasts f (g.release n) :=
    hlasts.of_ages (hfg.ages.trans hcalm.ages) hr
  constructor
  · rw [window_congr (items_of_calm hcalm
      ((hfg.sound hs).alive (.tail _ ho)) (hs'.alive ho))]
    have hlast : Lasts g (g.release n) := fun m hm =>
      hfree m ((halive m).symm.trans hm)
    exact howes.calm hcalm hs'.toWellFormed hlast.kept
  · intro m hm
    exact hlasts m ((halive m).symm.trans (alive_of_release hm))

-- ============================================================== the pass

/-- A call that keeps the forest sound, frees nobody, leaves the window from
`lo` to `hi` as it is, and keeps `Owes` of any zone in it. -/
structure Judgement.Pays (checks : Checks) (locks : List NodeId)
    (c : Collection) (lo hi : Nat) (j : Judgement) : Prop where
  keeps : j.Keeps checks locks
  owes : j.before.Sound checks (j.node :: locks) → c.Fits j.before →
    ∀ {zone}, zone.Sublist (c.window j.before lo hi) →
      j.before.Owes zone → j.after.Owes zone
  window : c.window j.after lo hi = c.window j.before lo hi

/-- The windows of the calls that a pass makes from `pass` on: what is
rejected and still stored, and the element under judgement, if it is
rejected. -/
def PaysAll (checks : Checks) (locks : List NodeId) (c : Collection)
    (pass : Pass) (calls : List Judgement) : Prop :=
  ∀ (k : Nat) (j : Judgement), calls[k]? = some j →
    j.Pays checks locks c (pass.kept + (keptNodes (calls.take k)).length)
      (pass.judged + k + if j.rejects then 1 else 0)

/-- If all calls pay, then so do those after the first one. -/
theorem PaysAll.tail {j : Judgement} {calls : List Judgement} {next : Pass}
    (hall : PaysAll checks locks c pass (j :: calls))
    (hkept : next.kept = pass.kept + if j.rejects then 0 else 1)
    (hjudged : next.judged = pass.judged + 1) :
    PaysAll checks locks c next calls := by
  intro k i hi
  have hpays := hall (k + 1) i hi
  have hlen : (keptNodes ((j :: calls).take (k + 1))).length
      = (if j.rejects then 0 else 1)
        + (keptNodes (calls.take k)).length := by
    unfold keptNodes
    cases hj : j.rejects <;> simp [hj, Nat.add_comm]
  rw [hlen] at hpays
  rw [hkept, hjudged, Nat.add_assoc, Nat.add_assoc pass.judged,
    Nat.add_comm 1 k]
  exact hpays

variable {calls : List Judgement}

theorem PaysAll.keeps (hall : PaysAll checks locks c pass calls)
    {j : Judgement} (hj : j ∈ calls) : j.Keeps checks locks := by
  obtain ⟨k, hk⟩ := List.getElem?_of_mem hj
  exact (hall k j hk).keeps

/-- A call that `Pays` keeps `Owes` of the window of the pass. -/
theorem Judgement.Pays.asked {out : Outcome Forest Bool}
    (hpays : Judgement.Pays checks locks c pass.kept hi
      ⟨n, f.hold n, out⟩)
    (hs : f.Sound checks locks) (hc : c.Fits f) (hhi : pass.judged ≤ hi)
    (hn : n ∈ c.items f)
    (howes : f.Owes (c.window f pass.kept pass.judged)) :
    out.state.Owes (c.window out.state pass.kept pass.judged) := by
  have hnode := alive_of_mem_items hs.toWellFormed hn
  have hheld := alike_hold (f := f) n
  have hs' := hs.hold hnode
  have hc' := hc.alike hheld
  have hitems : c.items (f.hold n) = c.items f :=
    items_of_calm hheld.calm hc.alive hc'.alive
  -- the zone is the front of the window
  have hzone : c.window out.state pass.kept pass.judged
      = c.window (f.hold n) pass.kept pass.judged := by
    rw [window_eq_take hhi, window_eq_take hhi]
    exact congrArg _ hpays.window
  rw [hzone]
  refine hpays.owes hs' hc' ?_ ?_
  · rw [window_eq_take hhi]
    exact List.take_sublist ..
  · rw [window_congr hitems]
    exact howes.calm hheld.calm hs'.toWellFormed hheld.lasts.kept

/-- A call that `Pays` for the index under judgement leaves the element there.
-/
theorem Judgement.Pays.current {out : Outcome Forest Bool}
    (hpays : Judgement.Pays checks locks c pass.kept (pass.judged + 1)
      ⟨n, f.hold n, out⟩)
    (hc : c.Fits f) (hle : pass.kept ≤ pass.judged)
    (hn : (c.items f)[pass.judged]? = some n) :
    (c.items out.state)[pass.judged]? = some n := by
  have hheld := alike_hold (f := f) n
  have hitems : c.items (f.hold n) = c.items f :=
    items_of_calm hheld.calm hc.alive (hc.alike hheld).alive
  have hwindow : c.window out.state pass.kept (pass.judged + 1)
      = c.window f pass.kept (pass.judged + 1) :=
    hpays.window.trans (window_congr hitems)
  have hread : ∀ g : Forest,
      (c.window g pass.kept (pass.judged + 1))[pass.judged - pass.kept]?
        = (c.items g)[pass.judged]? := by
    intro g
    have hindex : pass.kept + (pass.judged - pass.kept) = pass.judged := by
      omega
    unfold Collection.window
    rw [List.getElem?_drop, hindex, List.getElem?_take_of_succ]
  rw [← hread, hwindow, hread, hn]

/-- A run of a pass whose calls pay: what it owes is what was rejected and
is still stored. -/
theorem Sifts.owes {count : Nat} {last : Pass} {stopped : Option Stop}
    {r : Forest} (hsifts : Sifts c count pass f calls last stopped h)
    (ho : c.owner ∈ locks) (hs : f.Sound checks locks) (hc : c.Fits f)
    (hpays : PaysAll checks locks c pass calls)
    (hlasts : ∀ j ∈ calls, Lasts j.after r) (hr : Ages h r)
    (hle : pass.kept ≤ pass.judged)
    (howes : f.Owes (c.window f pass.kept pass.judged)) :
    h.Owes (c.window h last.kept last.judged) ∧ last.kept ≤ last.judged
      ∧ (Lasts f r → Lasts h r) := by
  induction hsifts with
  | full | short => exact ⟨howes, hle, id⟩
  | @failed _ pass f g n why hn =>
      have hmem := List.mem_of_getElem? hn
      have hcall := hpays 0 _ rfl
      obtain ⟨hg, -⟩ := hcall.keeps.run hs hmem
      obtain ⟨hdebts, hends⟩ := owes_release
        (hcall.asked hs hc (Nat.le_refl _) hmem howes) hg ho .refl
        (fun _ => rfl) (hlasts _ (.head _)) hr
      exact ⟨hdebts, hle, fun _ => hends⟩
  | @rejected _ pass _ f g _ n _ _ hn hrest ih =>
      have hmem := List.mem_of_getElem? hn
      have hcall := hpays 0 _ rfl
      obtain ⟨hg, hages⟩ := hcall.keeps.run hs hmem
      have hdebts := owes_reject
        (hcall.asked hs hc (Nat.le_succ _) hmem howes) hg
        (hc.ages hages (hg.alive (.tail _ ho))) hle (hcall.current hc hle hn)
      have htouches : Touches checks c.owner g (c.reject n pass g).2 :=
        touches_reject n pass
      obtain ⟨hk, hages'⟩ := after_call hg htouches hages
      have hck := hc.ages hages' (hk.alive ho)
      have hpays' : PaysAll checks locks c (c.reject n pass g).1 _ :=
        hpays.tail rfl rfl
      have hrest' := (hrest.sound ho hk hck fun j hj =>
        hpays'.keeps hj).2.trans hr
      obtain ⟨hdebts', hends⟩ := owes_release hdebts hg ho htouches
        (fun m => isAlive_detach ..) (hlasts _ (.head _)) hrest'
      obtain ⟨hlast, hle', hends'⟩ := ih hk hck hpays'
        (fun j hj => hlasts j (.tail _ hj)) hr (Nat.le_succ_of_le hle)
        hdebts'
      exact ⟨hlast, hle', fun _ => hends' hends⟩
  | @kept _ pass next _ f g k _ n _ _ hn hkeep hrest ih =>
      have hmem := List.mem_of_getElem? hn
      have hcall := hpays 0 _ rfl
      obtain ⟨hg, hages⟩ := hcall.keeps.run hs hmem
      have hcg := hc.ages hages (hg.alive (.tail _ ho))
      have hdebts := owes_keep
        (hcall.asked hs hc (Nat.le_refl _) hmem howes) hg hcg hle hkeep
      have htouches : Touches checks c.owner g k :=
        touches_kept hg.toWellFormed hcg hkeep
      have halive := isAlive_keep (c := c) (f := g) n pass
      have hnext := keep_eq_some hkeep
      rw [hkeep] at halive
      obtain ⟨hk, hages'⟩ := after_call hg htouches hages
      have hck := hc.ages hages' (hk.alive ho)
      have hpays' : PaysAll checks locks c next _ :=
        hpays.tail (congrArg Pass.kept hnext) (congrArg Pass.judged hnext)
      have hrest' := (hrest.sound ho hk hck fun j hj =>
        hpays'.keeps hj).2.trans hr
      have hle' : next.kept ≤ next.judged := by
        rw [hnext]
        exact Nat.succ_le_succ hle
      obtain ⟨hdebts', hends⟩ := owes_release hdebts hg ho htouches halive
        (hlasts _ (.head _)) hrest'
      obtain ⟨hlast, hle'', hends'⟩ := ih hk hck hpays'
        (fun j hj => hlasts j (.tail _ hj)) hr hle' hdebts'
      exact ⟨hlast, hle'', fun _ => hends' hends⟩
  | @lost _ pass f g k n hn hkeep =>
      have hmem := List.mem_of_getElem? hn
      have hcall := hpays 0 _ rfl
      obtain ⟨hg, hages⟩ := hcall.keeps.run hs hmem
      have hcg := hc.ages hages (hg.alive (.tail _ ho))
      have hdebts := owes_lost
        (hcall.asked hs hc (Nat.le_refl _) hmem howes) hg hcg hkeep
      have htouches : Touches checks c.owner g k :=
        touches_kept hg.toWellFormed hcg hkeep
      have halive := isAlive_keep (c := c) (f := g) n pass
      rw [hkeep] at halive
      obtain ⟨hdebts', hends⟩ := owes_release hdebts hg ho htouches halive
        (hlasts _ (.head _)) hr
      exact ⟨hdebts', hle, fun _ => hends⟩

/-- `finish` leaves a forest that `Owes` nothing. -/
theorem owes_finish {r : Forest}
    (howes : f.Owes (c.window f pass.kept pass.judged))
    (hs : f.Sound checks locks) (hc : c.Fits f) (ho : c.owner ∈ locks)
    (hle : pass.kept ≤ pass.judged) (hlasts : Lasts f r)
    (hr : Ages (pass.finish checks c f).state r) :
    (pass.finish checks c f).state.Owes []
      ∧ Lasts (pass.finish checks c f).state r := by
  have htouches : Touches checks c.owner f (pass.compact c f) :=
    touches_compact hs.toWellFormed hc pass
  have hend : Alike (pass.compact c f) (pass.finish checks c f).state :=
    alike_finish pass
  constructor
  · have hfree : Lasts f (pass.compact c f) :=
      hlasts.of_ages htouches.ages (hend.ages.trans hr)
    exact (owes_compact howes hs hc ho hle hfree).calm hend.calm
      ((htouches.sound hs).alike hend).toWellFormed hend.lasts.kept
  · intro m hm
    exact hlasts m (htouches.survivor ((hend.alive m).symm.trans hm))

/-- A filtering whose calls pay leaves no debt, if nobody who was alive
before it or after a call is missing at the end. -/
theorem Filtered.owes {out : Outcome Forest Nat} {r : Forest}
    (hout : Filtered checks c f calls out) (ho : c.owner ∈ locks)
    (hs : f.Sound checks locks) (hc : c.Fits f)
    (hpays : PaysAll checks locks c ⟨0, 0, 0⟩ calls) (hstart : Lasts f r)
    (hlasts : ∀ j ∈ calls, Lasts j.after r) (hr : Ages out.state r)
    (howes : f.Owes []) : out.state.Owes [] ∧ Lasts out.state r := by
  have hbegin := alike_beginTraversal (f := f) c.owner
  have hs0 := hs.alike hbegin
  have hc0 := hc.alike hbegin
  rcases hout.ends with ⟨e, ev, rfl⟩ | ⟨pass, stopped, g, hsifts, hstate⟩
  · have hemit := alike_emit (f := f) ev
    refine ⟨howes.calm hemit.calm (hs.alike hemit).toWellFormed
      hemit.lasts.kept, fun m hm => ?_⟩
    exact hstart m ((hemit.alive m).symm.trans hm)
  · rw [hstate] at hr ⊢
    obtain ⟨hg, hages⟩ := hsifts.sound ho hs0 hc0 fun j hj =>
      hpays.keeps hj
    have hcg := hc0.ages hages (hg.alive ho)
    have hfinish : (pass.finish checks c g).state.Sound checks locks
        ∧ Ages g (pass.finish checks c g).state := finish_sound hg hcg
    have howes0 : (f.beginTraversal c.owner).Owes
        (c.window (f.beginTraversal c.owner) 0 0) := by
      have hnone : c.window (f.beginTraversal c.owner) 0 0 = [] := rfl
      rw [hnone]
      exact howes.calm hbegin.calm hs0.toWellFormed hbegin.lasts.kept
    obtain ⟨hdebts, hle, hends⟩ := hsifts.owes ho hs0 hc0 hpays hlasts
      (hfinish.2.trans hr) (Nat.le_refl _) howes0
    refine owes_finish hdebts hg hcg ho hle (hends fun m hm => ?_) hr
    exact hstart m ((hbegin.alive m).symm.trans hm)

end Collection

end InstructionTree
