/-
The books of every edit of a collection.

`Change.entered`, `Change.left` and `Change.result` say on lists what an
edit does: which nodes enter, which leave, and what the collection holds
afterwards. `exchange_apply` is the theorem that the edit does just that,
with balanced books: it puts `Exchange` and all that follows from it at
the service of every proof about edits.

Each part of an edit continues the books of what was done before
(`exchange_overwritten`, `exchange_takenOut`, ...), so the loops are
plain inductions.
-/
import InstructionTree.Proofs.Collection.Success
import InstructionTree.Proofs.Forest.Account

namespace InstructionTree

-- ================================================ edits of a plain list

namespace Change

/-- The nodes that an edit of `items` attaches, in order. -/
def entered (items : List NodeId) : Change NodeId → List NodeId
  | set i n => if items[i]? = some n then [] else [n]
  | add n | insert _ n => [n]
  | addRange ns | replaceList ns => ns
  | removeAt _ | remove _ | removeRange .. | swapRemoveAt _ | clear
  | move .. | moveToEnd _ => []

/-- The nodes that an edit of `items` detaches, in order; `find` is how
the collection finds a node. -/
def left (find : NodeId → Option Nat) (items : List NodeId) :
    Change NodeId → List NodeId
  | set i n => if items[i]? = some n then [] else items[i]?.toList
  | removeAt i | swapRemoveAt i => items[i]?.toList
  | remove n => ((find n).bind fun i => items[i]?).toList
  | removeRange i count => (items.drop i).take count
  | clear | replaceList _ => items
  | add _ | addRange _ | insert .. | move .. | moveToEnd _ => []

/-- What an edit makes of `items`. -/
def result (find : NodeId → Option Nat) (items : List NodeId) :
    Change NodeId → List NodeId
  | set i n => items.set i n
  | add n => items ++ [n]
  | addRange ns => items ++ ns
  | insert i n => items.insertIdx i n
  | removeAt i => items.eraseIdx i
  | remove n => ((find n).map items.eraseIdx).getD items
  | removeRange i count => items.take i ++ items.drop (i + count)
  | swapRemoveAt i =>
      (items.getLast?.map fun last => (items.set i last).dropLast).getD items
  | clear => []
  | move a b =>
      (items[a]?.map fun n => (items.eraseIdx a).insertIdx b n).getD items
  | moveToEnd n =>
      ((find n).map fun i =>
        (items.eraseIdx i).insertIdx (items.length - 1) n).getD items
  | replaceList ns => ns

/-- A node that a change attaches is one that it mentions. -/
theorem mem_nodes_of_mem_entered {items : List NodeId}
    {change : Change NodeId} {n : NodeId} (hn : n ∈ change.entered items) :
    n ∈ change.nodes := by
  cases change with
  | set i m =>
      rw [entered] at hn
      split at hn
      · cases hn
      · exact hn
  | add | insert | addRange | replaceList => exact hn
  | removeAt | remove | removeRange | swapRemoveAt | clear | move
  | moveToEnd => cases hn

end Change

-- ======================================================= counting lists

/-- `List.set` adds one `n` to the counts, and takes one `old` from them. -/
private theorem count_set_add {l : List NodeId} {k : Nat} {old : NodeId}
    (hk : l[k]? = some old) (n m : NodeId) :
    (l.set k n).count m + [old].count m = l.count m + [n].count m := by
  obtain ⟨hlt, hold⟩ := List.getElem?_eq_some_iff.mp hk
  have hle : [old].count m ≤ l.count m :=
    (List.singleton_sublist.mpr (List.mem_of_getElem? hk)).count_le m
  rw [List.count_set hlt, hold]
  simp only [List.count_singleton] at hle ⊢
  omega

/-- `List.eraseIdx` takes one `old` from the counts. -/
private theorem count_eraseIdx_add {l : List NodeId} {k : Nat} {old : NodeId}
    (hk : l[k]? = some old) (m : NodeId) :
    (l.eraseIdx k).count m + [old].count m = l.count m := by
  obtain ⟨hlt, rfl⟩ := List.getElem?_eq_some_iff.mp hk
  have hcount := (List.getElem_cons_eraseIdx_perm hlt).count_eq m
  rw [← List.singleton_append, List.count_append] at hcount
  omega

private theorem count_insertIdx_add {l : List NodeId} {k : Nat}
    (hk : k ≤ l.length) (n m : NodeId) :
    (l.insertIdx k n).count m = l.count m + [n].count m := by
  rw [(List.perm_insertIdx n l hk).count_eq, ← List.singleton_append,
    List.count_append]
  omega

theorem drop_eraseIdx {l : List NodeId} {k j : Nat} (hkj : k ≤ j) :
    (l.eraseIdx k).drop j = l.drop (j + 1) := by
  refine List.ext_getElem? fun m => ?_
  rw [List.getElem?_drop, List.getElem?_eraseIdx, if_neg (by omega),
    List.getElem?_drop]
  congr 1
  omega

/-- An element is still there after `eraseIdx i`, or it is the one at `i`. -/
theorem mem_eraseIdx_or {l : List NodeId} {i : Nat} {old m : NodeId}
    (hold : l[i]? = some old) (hm : m ∈ l) :
    m ∈ l.eraseIdx i ∨ m ∈ [old] := by
  obtain ⟨j, hj⟩ := List.mem_iff_getElem?.mp hm
  by_cases hji : j = i
  · subst hji
    cases hold.symm.trans hj
    exact .inr (.head _)
  · exact .inl (List.mem_eraseIdx_iff_getElem?.mpr ⟨j, hji, hj⟩)

/-- `l.take k ++ n :: l.drop (k + 1)`, for an index `k` or the end, read at its
two ends. -/
private theorem take_append_cons_drop {l l' : List NodeId} {k : Nat}
    {n : NodeId} (hk : k ≤ l.length)
    (hl' : l' = l.take k ++ n :: l.drop (k + 1)) (r : Nat) :
    l'.take (k + 1) = l.take k ++ [n] ∧ l'.drop (k + 1 + r)
      = l.drop (k + 1 + r) := by
  have hlen : (l.take k).length = k := List.length_take_of_le hk
  subst hl'
  constructor
  · rw [List.take_append, List.take_of_length_le (by omega), hlen]
    simp
  · rw [List.drop_append, List.drop_of_length_le (by omega), hlen,
      List.nil_append, show k + 1 + r - k = r + 1 by omega,
      List.drop_succ_cons, List.drop_drop]

/-- Setting index `k` to the last element and cutting off the end takes one
`old` from the counts. -/
private theorem count_dropLast_set {l : List NodeId} {k : Nat}
    {old last : NodeId} (hk : l[k]? = some old)
    (hlast : l.getLast? = some last) (m : NodeId) :
    (l.set k last).dropLast.count m + [old].count m = l.count m := by
  have hset := count_set_add hk last m
  have hend : (l.set k last).getLast? = some last := by
    rw [List.getLast?_eq_getElem?, List.length_set, List.getElem?_set]
    split
    case isTrue hlt =>
      have := (List.getElem?_eq_some_iff.mp hk).1
      rw [if_pos (by omega)]
    case isFalse => rw [← List.getLast?_eq_getElem?, hlast]
  have hsplit := List.dropLast_append_getLast? last hend
  have hcount := congrArg (List.count m) hsplit
  rw [List.count_append] at hcount
  omega

namespace Collection

open Forest

variable {checks : Checks} {locks : List NodeId} {c : Collection}
  {f g h : Forest} {entered left items : List NodeId}

/-- `Exchange` from `f` to itself: nobody entered, nobody left, and the
elements are stored. -/
theorem exchange_start (hwf : f.WellFormed) (hc : c.Fits f) :
    Exchange c.owner c.slot [] [] (c.items f) f f :=
  .start hc.alive (hc.bound hwf)

-- ======================================================= parts of edits

section

variable (hx : Exchange c.owner c.slot entered left items f g)
include hx

/-- The third list of an `Exchange` is what is stored. -/
theorem items_of_exchange : c.items g = items :=
  hx.account.slot_self

/-- One element is overwritten: `n` has entered and `old` has left. -/
theorem exchange_overwritten {k : Nat} {n old : NodeId}
    (hk : items[k]? = some old) (hn : g.isAlive n = true)
    (hold : g.isAlive old = true) :
    Exchange c.owner c.slot (entered ++ [n]) (left ++ [old])
      (items.set k n) f
      (((c.overwritten g k n).enter c.owner n).detach c.owner old) := by
  have hstored : Account c.owner c.slot f entered left (items.set k n)
      (c.overwritten g k n) := by
    rw [overwritten, items_of_exchange hx]
    exact (hx.account.place n (c.base + k)).store (items.set k n)
  have halive : ∀ m, (c.overwritten g k n).isAlive m = g.isAlive m :=
    fun m => by simp [overwritten]
  refine ⟨(hstored.enter ((halive n).trans hn)).leave
    ((isAlive_enter ..).trans ((halive old).trans hold)) ?_, fun m => ?_⟩
  · have hbalance := hx.balance old
    have hmem := List.count_pos_iff.mpr (List.mem_of_getElem? hk)
    rw [List.count_append]
    omega
  · have hbalance := hx.balance m
    have hset := count_set_add hk n m
    rw [List.count_append, List.count_append]
    omega

/-- Storing a node behind the others and `enter`ing it adds it to the exchange.
-/
theorem exchange_appended (k : Nat) {n : NodeId} (hn : g.isAlive n = true) :
    Exchange c.owner c.slot (entered ++ [n]) left (items ++ [n]) f
      ((c.setItems (c.place g k n) (items ++ [n])).enter c.owner n) := by
  refine ⟨((hx.account.place n (c.base + k)).store _).enter ?_,
    fun m => ?_⟩
  · exact (isAlive_setSlot ..).trans ((isAlive_setPosition ..).trans hn)
  · have hbalance := hx.balance m
    rw [List.count_append, List.count_append]
    omega

/-- `takenOut` of an element adds it to those who left. -/
theorem exchange_takenOut {k : Nat} {old : NodeId}
    (hk : items[k]? = some old) (hold : g.isAlive old = true) :
    Exchange c.owner c.slot entered (left ++ [old]) (items.eraseIdx k) f
      (c.takenOut g k old) := by
  have hstored : Account c.owner c.slot f entered left (items.eraseIdx k)
      (c.setItems g (items.eraseIdx k)) := hx.account.store _
  rw [takenOut, items_of_exchange hx]
  refine ⟨hstored.leave ((isAlive_setSlot ..).trans hold) ?_, fun m => ?_⟩
  · have hbalance := hx.balance old
    have hmem := List.count_pos_iff.mpr (List.mem_of_getElem? hk)
    omega
  · have hbalance := hx.balance m
    have herase := count_eraseIdx_add hk m
    rw [List.count_append]
    omega

end

/-- `renumber` changes no account. -/
theorem account_renumber (hg : Account c.owner c.slot f entered left items g)
    (old new : Nat) (n : NodeId) :
    Account c.owner c.slot f entered left items (c.renumber g old new n) := by
  unfold renumber
  split
  · exact hg.place n _
  · exact hg

theorem account_renumberFrom
    (hg : Account c.owner c.slot f entered left items g) (old : Nat → Nat)
    (k : Nat) (ns : List NodeId) :
    Account c.owner c.slot f entered left items
      (c.renumberFrom old k ns g) := by
  induction ns generalizing k g with
  | nil => exact hg
  | cons n rest ih => exact ih (account_renumber hg (old k) k n) (k + 1)

theorem exchange_renumberFrom (old : Nat → Nat) (k : Nat) (ns : List NodeId)
    (hx : Exchange c.owner c.slot entered left items f g) :
    Exchange c.owner c.slot entered left items f
      (c.renumberFrom old k ns g) :=
  ⟨account_renumberFrom hx.account old k ns, hx.balance⟩

-- ================================================================ loops

/-- `append` adds its nodes to those who entered. -/
theorem exchange_append {ns : List NodeId} {u : Unit}
    (hx : Exchange c.owner c.slot entered left items f g)
    (hns : ∀ n ∈ ns, g.isAlive n = true)
    (hout : c.append checks ns g = .ok u h) :
    Exchange c.owner c.slot (entered ++ ns) left (items ++ ns) f h := by
  induction ns generalizing entered items g with
  | nil =>
      cases hout
      rwa [List.append_nil, List.append_nil]
  | cons n rest ih =>
      unfold append at hout
      split at hout
      next k hattach =>
        have hn := hns n (.head _)
        have hstep := exchange_appended hx (c.length g) hn
        obtain ⟨-, rfl⟩ := attach_eq_ok hattach
        rw [pushed, items_of_exchange hx] at hattach hout
        have hrest := ih hstep (fun m hm => ?_) hout
        · rwa [List.append_assoc, List.append_assoc] at hrest
        · rw [isAlive_enter, isAlive_setItems, isAlive_place]
          exact hns m (.tail _ hm)
      · cases hout

/-- `takenOut` of an element and its `reap` keep the exchange and the forest
sound. -/
theorem exchange_letGo {k : Nat} {old : NodeId} (ho : c.owner ∈ locks)
    (hs : g.Sound checks locks) (hc : c.Fits g)
    (hx : Exchange c.owner c.slot entered left items f g)
    (hold : items[k]? = some old) :
    ((c.takenOut g k old).reap old).Sound checks locks
      ∧ c.Fits ((c.takenOut g k old).reap old)
      ∧ Exchange c.owner c.slot entered (left ++ [old]) (items.eraseIdx k) f
        ((c.takenOut g k old).reap old) := by
  have hmem : old ∈ c.items g := by
    rw [items_of_exchange hx]
    exact List.mem_of_getElem? hold
  have hstep := exchange_takenOut hx hold
    (alive_of_mem_items hs.toWellFormed hmem)
  have htouches : Touches checks c.owner g ((c.takenOut g k old).reap old) :=
    (touches_takenOut hs.toWellFormed hc k old).trans
      (sheds_reap _ _).touches
  have hs' := htouches.sound hs
  exact ⟨hs', hc.touches htouches (hs'.alive ho),
    hstep.calm (sheds_reap _ _).calm (hs'.alive ho)⟩

theorem exchange_discard (ho : c.owner ∈ locks) (k : Nat) :
    ∀ (count : Nat) {left items : List NodeId} {g : Forest},
      g.Sound checks locks → c.Fits g →
      Exchange c.owner c.slot entered left items f g →
      k + count ≤ items.length →
      Exchange c.owner c.slot entered (left ++ (items.drop k).take count)
        (items.take k ++ items.drop (k + count)) f (c.discard k count g)
  | 0, left, items, g, _, _, hx, _ => by
      rw [List.take_zero, List.append_nil, Nat.add_zero,
        List.take_append_drop]
      exact hx
  | count + 1, left, items, g, hs, hc, hx, hle => by
      have hk : k < items.length := by omega
      have hold : items[k]? = some items[k] := List.getElem?_eq_getElem hk
      unfold discard
      rw [items_of_exchange hx, hold]
      dsimp only
      obtain ⟨hs', hc', hstep⟩ := exchange_letGo ho hs hc hx hold
      have hrest := exchange_discard ho k count hs' hc' hstep (by
        have := List.length_eraseIdx_add_one hk
        omega)
      rw [List.append_assoc, drop_eraseIdx (Nat.le_refl k),
        drop_eraseIdx (Nat.le_add_right k count),
        List.take_eraseIdx_eq_take_of_le _ _ _ (Nat.le_refl k),
        List.singleton_append, ← List.take_succ_cons,
        ← List.drop_eq_getElem_cons hk] at hrest
      exact hrest

/-- `overwriteOne`, at an index or past the end, keeps the exchange and the
forest sound. -/
theorem exchange_overwriteOne {n : NodeId} {u : Unit}
    (ho : c.owner ∈ locks) (hs : g.Sound checks locks) (hc : c.Fits g)
    {k : Nat} (hx : Exchange c.owner c.slot entered left items f g)
    (hk : k ≤ items.length) (hn : n ∈ locks)
    (hout : c.overwriteOne checks k n g = .ok u h) :
    h.Sound checks locks ∧ c.Fits h
      ∧ ∃ items', items' = items.take k ++ n :: items.drop (k + 1)
        ∧ k < items'.length
        ∧ Exchange c.owner c.slot (entered ++ [n])
          (left ++ (items.drop k).take 1) items' f h := by
  have htried : Tried checks c.owner g (c.overwriteOne checks k n g) :=
    tried_overwriteOne hs hc k (hs.alive hn)
  rw [hout] at htried
  have hs' : h.Sound checks locks := htried.sound hs
  have hages : Ages g h := by
    cases htried with
    | ok _ hgh => exact hgh.ages
  refine ⟨hs', hc.ages hages (hs'.alive ho), ?_⟩
  rcases overwriteOne_eq_ok hout with ⟨old, hold, heq⟩ | ⟨hnone, heq⟩
  · rw [items_of_exchange hx] at hold
    obtain ⟨hlt, hget⟩ := List.getElem?_eq_some_iff.mp hold
    refine ⟨items.set k n, List.set_eq_take_append_cons_drop.trans
      (if_pos hlt), by rwa [List.length_set], ?_⟩
    have hmem : old ∈ c.items g := by
      rw [items_of_exchange hx]
      exact List.mem_of_getElem? hold
    have hstep := exchange_overwritten hx hold (hs.alive hn)
      (alive_of_mem_items hs.toWellFormed hmem)
    rw [List.drop_eq_getElem_cons hlt, hget]
    rw [heq] at hs' ⊢
    exact hstep.calm (sheds_reap _ old).calm (hs'.alive ho)
  · rw [items_of_exchange hx] at hnone heq
    have hlen : k = items.length :=
      Nat.le_antisymm hk (List.getElem?_eq_none_iff.mp hnone)
    refine ⟨items ++ [n], ?_, ?_, ?_⟩
    · rw [hlen, List.take_length, List.drop_of_length_le (by omega)]
    · rw [List.length_append, List.length_singleton]
      omega
    · rw [heq, hlen, List.drop_length, List.take_nil, List.append_nil]
      exact exchange_appended hx _ (hs.alive hn)

/-- Overwriting from index `k` on, and appending past the end. -/
theorem exchange_overwrite {ns : List NodeId} {u : Unit}
    (ho : c.owner ∈ locks) (hs : g.Sound checks locks) (hc : c.Fits g)
    {k : Nat} (hx : Exchange c.owner c.slot entered left items f g)
    (hk : k ≤ items.length) (hns : ∀ n ∈ ns, n ∈ locks)
    (hout : c.overwrite checks k ns g = .ok u h) :
    Exchange c.owner c.slot (entered ++ ns)
      (left ++ (items.drop k).take ns.length)
      (items.take k ++ ns ++ items.drop (k + ns.length)) f h := by
  induction ns generalizing entered left items g k with
  | nil =>
      cases hout
      simpa using hx
  | cons n rest ih =>
      unfold overwrite at hout
      split at hout
      next g' hout' =>
        obtain ⟨hs', hc', items', hitems', hlt, hx'⟩ :=
          exchange_overwriteOne ho hs hc hx hk (hns n (.head _)) hout'
        have hrest := ih hs' hc' hx' (Nat.succ_le_of_lt hlt)
          (fun m hm => hns m (.tail _ hm)) hout
        obtain ⟨htake, hdrop⟩ := take_append_cons_drop hk hitems' rest.length
        have hdrop' := (take_append_cons_drop hk hitems' 0).2
        rw [Nat.add_zero] at hdrop'
        rw [htake, hdrop, hdrop', List.append_assoc, List.append_assoc,
          ← List.drop_drop, ← List.take_add, List.append_assoc,
          List.append_assoc, List.singleton_append, List.singleton_append,
          Nat.add_assoc] at hrest
        simpa [Nat.add_comm, List.append_assoc] using hrest
      · cases hout

private theorem account_detachAll (ho : g.isAlive c.owner = true) :
    ∀ {ns left : List NodeId} {g : Forest},
      Account c.owner c.slot f entered left items g →
      (∀ n ∈ ns, g.isAlive n = true) →
      (∀ n, left.count n + ns.count n
        ≤ (f.slot c.owner c.slot).count n + entered.count n) →
      Account c.owner c.slot f entered (left ++ ns) items
        (ns.foldl (fun g old => g.detach c.owner old) g)
  | [], left, g, hg, _, _ => by rwa [List.append_nil]
  | n :: rest, left, g, hg, hns, hle => by
      have hn := hle n
      rw [List.count_cons_self] at hn
      have hstep := hg.leave (hns n (.head _)) (by omega)
      have hrest := account_detachAll ho hstep
        (fun m hm => (isAlive_detach ..).trans (hns m (.tail _ hm)))
        fun m => by
          have hm := hle m
          rw [← List.singleton_append, List.count_append] at hm
          rw [List.count_append]
          omega
      rwa [List.append_assoc] at hrest

/-- `cleared` is an exchange in which all elements left. -/
theorem exchange_cleared (hwf : f.WellFormed) (hc : c.Fits f) :
    Exchange c.owner c.slot [] (c.items f) [] f (c.cleared f) := by
  have hstored := (exchange_start hwf hc).account.store []
  have halive : ∀ m, (c.setItems f []).isAlive m = f.isAlive m :=
    fun m => isAlive_setItems [] m
  have hdetached := account_detachAll ((halive _).trans hc.alive) hstored
    (fun m hm => (halive m).trans (alive_of_mem_items hwf hm)) fun m => by
      rw [List.count_nil]
      exact Nat.le_of_eq (Nat.zero_add _)
  rw [List.nil_append] at hdetached
  exact ⟨hdetached, fun m => by rw [List.count_nil, Nat.zero_add]; rfl⟩

-- ========================================================== whole edits

/-- `commit` of the owner keeps the exchange. -/
theorem exchange_commit
    (hx : Exchange c.owner c.slot entered left items f g) :
    Exchange c.owner c.slot entered left items f (g.commit c.owner) :=
  hx.calm (alike_commit _).calm ((isAlive_commit ..).trans hx.account.owner)

-- some edits let nodes go after the commit: `k` is the forest before that

section

variable (hs : f.Sound checks locks) (hc : c.Fits f)
include hs hc

/-- What `set` let enter and leave: nothing if the node was there already. -/
theorem exchange_set {i : Nat} {n : NodeId} {u : Unit}
    (hn : f.isAlive n = true) (hout : c.set checks i n f = .ok u g) :
    ∃ k, Exchange c.owner c.slot
        (if (c.items f)[i]? = some n then [] else [n])
        (if (c.items f)[i]? = some n then [] else (c.items f)[i]?.toList)
        ((c.items f).set i n) f k
      ∧ g = k.reapAll
        (if (c.items f)[i]? = some n then [] else (c.items f)[i]?.toList) := by
  have hstart := exchange_start hs.toWellFormed hc
  obtain ⟨old, hold, ⟨rfl, hg⟩ | ⟨hother, hg⟩⟩ := set_eq_ok hout
  · rw [hg]
    obtain ⟨hlt, hget⟩ := List.getElem?_eq_some_iff.mp hold
    rw [if_pos hold, if_pos hold, ← hget, List.set_getElem_self]
    exact ⟨f, hstart, rfl⟩
  · rw [hg]
    have hne : some old ≠ some n := fun h => hother (Option.some.inj h)
    rw [hold, if_neg hne, if_neg hne]
    have hstep := exchange_overwritten hstart hold hn
      (alive_of_mem_items hs.toWellFormed (List.mem_of_getElem? hold))
    exact ⟨(((c.overwritten f i n).enter c.owner n).detach c.owner
      old).commit c.owner, exchange_commit hstep,
      (reapAll_singleton _ old).symm⟩

theorem exchange_add {n : NodeId} {u : Unit} (hn : f.isAlive n = true)
    (hout : c.add checks n f = .ok u g) :
    Exchange c.owner c.slot [n] [] (c.items f ++ [n]) f g := by
  rw [add_eq_ok hout]
  exact exchange_commit
    (exchange_appended (exchange_start hs.toWellFormed hc) _ hn)

theorem exchange_addRange {ns : List NodeId} {u : Unit}
    (hns : ∀ n ∈ ns, f.isAlive n = true)
    (hout : c.addRange checks ns f = .ok u g) :
    Exchange c.owner c.slot ns [] (c.items f ++ ns) f g := by
  obtain ⟨k, happend, rfl⟩ := addRange_eq_ok hout
  exact exchange_commit
    (exchange_append (exchange_start hs.toWellFormed hc) hns happend)

/-- `insert` that succeeded is an exchange in which `n` entered. -/
theorem exchange_insert {i : Nat} {n : NodeId} {u : Unit}
    (hn : f.isAlive n = true) (hout : c.insert checks i n f = .ok u g) :
    Exchange c.owner c.slot [n] [] ((c.items f).insertIdx i n) f g := by
  obtain ⟨hi, rfl⟩ := insert_eq_ok hout
  have hstart := exchange_start hs.toWellFormed hc
  have hstored := (hstart.account.place n (c.base + i)).store
    ((c.items f).insertIdx i n)
  have hinserted : Account c.owner c.slot f [] []
      ((c.items f).insertIdx i n) (c.inserted f i n) :=
    account_renumberFrom hstored _ _ _
  have hentered := hinserted.enter (c := n) (by
    rw [inserted, isAlive_renumberFrom, isAlive_setItems, isAlive_place]
    exact hn)
  refine exchange_commit ⟨hentered, fun m => ?_⟩
  rw [count_insertIdx_add hi, List.count_nil]
  rfl

/-- `removeAt` that succeeded is an exchange in which the element left, and
then let go of it. -/
theorem exchange_removeAt {i : Nat} {old : NodeId}
    (hout : c.removeAt checks i f = .ok old g) :
    (c.items f)[i]? = some old
      ∧ ∃ k, Exchange c.owner c.slot [] [old] ((c.items f).eraseIdx i) f k
        ∧ g = k.reapAll [old] := by
  obtain ⟨hold, rfl⟩ := removeAt_eq_ok hout
  have hmem := alive_of_mem_items hs.toWellFormed (List.mem_of_getElem? hold)
  have htaken := exchange_takenOut (exchange_start hs.toWellFormed hc)
    hold hmem
  exact ⟨hold, (c.erased f i old).commit c.owner,
    exchange_commit (exchange_renumberFrom _ _ _ htaken),
    (reapAll_singleton _ old).symm⟩

/-- Storing the last element at `i`, and detaching the one that was there, is
an exchange in which that one left. -/
theorem exchange_swapped {i : Nat} {old last : NodeId}
    (hold : (c.items f)[i]? = some old)
    (hlast : (c.items f).getLast? = some last) :
    Exchange c.owner c.slot [] [old] ((c.items f).set i last).dropLast f
      ((c.setItems f (((c.items f).set i last).take
        (c.length f - 1))).detach c.owner old) := by
  have hcut : ((c.items f).set i last).take (c.length f - 1)
      = ((c.items f).set i last).dropLast := by
    rw [List.dropLast_eq_take, List.length_set]
    rfl
  rw [hcut]
  have hstored := (exchange_start hs.toWellFormed hc).account.store
    ((c.items f).set i last).dropLast
  have hmem := List.mem_of_getElem? hold
  refine ⟨hstored.leave ((isAlive_setSlot ..).trans
    (alive_of_mem_items hs.toWellFormed hmem)) ?_, fun m => ?_⟩
  · rw [List.count_nil, Nat.add_zero]
    exact List.count_pos_iff.mpr hmem
  · have hcount := count_dropLast_set hold hlast m
    rw [List.count_nil, Nat.add_zero]
    exact hcount

theorem exchange_swapErased {i : Nat} {old last : NodeId}
    (hold : (c.items f)[i]? = some old)
    (hlast : (c.items f).getLast? = some last) :
    Exchange c.owner c.slot [] [old] ((c.items f).set i last).dropLast f
      (c.swapErased f i old last) := by
  have hswapped := exchange_swapped hs hc hold hlast
  unfold swapErased
  dsimp only
  split
  · exact ⟨account_renumber hswapped.account _ _ _, hswapped.balance⟩
  · exact hswapped

/-- `swapRemoveAt` that succeeded is an exchange in which the element left, and
then frees. -/
theorem exchange_swapRemoveAt {i : Nat} {old : NodeId}
    (hout : c.swapRemoveAt checks i f = .ok old g) :
    ∃ last, (c.items f)[i]? = some old ∧ (c.items f).getLast? = some last
      ∧ ∃ k, Exchange c.owner c.slot [] [old]
          ((c.items f).set i last).dropLast f k
        ∧ Sheds k g := by
  obtain ⟨last, hold, hlast, rfl⟩ := swapRemoveAt_eq_ok hout
  exact ⟨last, hold, hlast, _,
    exchange_commit (exchange_swapErased hs hc hold hlast),
    sheds_reap _ old⟩

theorem exchange_clear {u : Unit} (hout : c.clear checks f = .ok u g) :
    ∃ k, Exchange c.owner c.slot [] (c.items f) [] f k ∧ Sheds k g := by
  rw [clear_eq_ok hout]
  exact ⟨_, exchange_commit (exchange_cleared hs.toWellFormed hc),
    sheds_reapAll _ _⟩

/-- `move` that succeeded is an exchange in which nobody entered or left. -/
theorem exchange_move {a b : Nat} {u : Unit}
    (hout : c.move checks a b f = .ok u g) :
    ∃ n, (c.items f)[a]? = some n
      ∧ Exchange c.owner c.slot [] []
        (((c.items f).eraseIdx a).insertIdx b n) f g := by
  obtain ⟨n, hn, hb, rfl⟩ := move_eq_ok hout
  refine ⟨n, hn, ?_⟩
  have hlt := (List.getElem?_eq_some_iff.mp hn).1
  have hlen := List.length_eraseIdx_add_one hlt
  have hstart := exchange_start hs.toWellFormed hc
  refine exchange_commit (exchange_renumberFrom _ _ _
    ⟨hstart.account.store _, fun m => ?_⟩)
  rw [count_insertIdx_add (by omega), List.count_nil, Nat.add_zero,
    count_eraseIdx_add hn]
  rfl

variable (ho : c.owner ∈ locks)
include ho

theorem exchange_removeRange {i count : Nat} {u : Unit}
    (hout : c.removeRange checks i count f = .ok u g) :
    Exchange c.owner c.slot [] (((c.items f).drop i).take count)
      ((c.items f).take i ++ (c.items f).drop (i + count)) f g := by
  obtain ⟨hle, rfl⟩ := removeRange_eq_ok hout
  have hdiscard := exchange_discard ho i count hs hc
    (exchange_start hs.toWellFormed hc) hle
  exact exchange_commit (exchange_renumberFrom _ _ _ hdiscard)

/-- The new elements have entered, and all old ones have left, also where they
are the same. -/
theorem exchange_replaceList {ns : List NodeId} {u : Unit}
    (hns : ∀ n ∈ ns, n ∈ locks)
    (hout : c.replaceList checks ns f = .ok u g) :
    Exchange c.owner c.slot ns (c.items f) ns f g := by
  obtain ⟨g1, hover, rfl⟩ := replaceList_eq_ok hout
  have hx := exchange_overwrite ho hs hc (exchange_start hs.toWellFormed hc)
    (Nat.zero_le _) hns hover
  have hs' : g1.Sound checks locks := by
    have htried : Tried checks c.owner f (c.overwrite checks 0 ns f) :=
      tried_overwrite hs hc ho 0 hns
    rw [hover] at htried
    exact htried.sound hs
  have hitems := items_of_exchange hx
  rw [List.take_zero, List.nil_append, Nat.zero_add] at hx hitems
  have hcount : (c.items g1).length - ns.length
      = (c.items f).length - ns.length := by
    rw [hitems]
    simp
  have hdiscard := exchange_discard ho ns.length
    ((c.items f).length - ns.length) hs'
    (hc.ages hx.account.ages (hs'.alive ho)) hx (by
      rw [List.length_append, List.length_drop])
  -- old elements were overwritten or discarded; the new ones are left
  have hleft : [] ++ ((c.items f).drop 0).take ns.length
      ++ ((ns ++ (c.items f).drop ns.length).drop ns.length).take
        ((c.items f).length - ns.length) = c.items f := by
    rw [List.drop_left, List.nil_append, List.drop_zero,
      List.take_of_length_le (Nat.le_of_eq List.length_drop),
      List.take_append_drop]
  have hnew : (ns ++ (c.items f).drop ns.length).take ns.length
      ++ (ns ++ (c.items f).drop ns.length).drop
        (ns.length + ((c.items f).length - ns.length)) = ns := by
    rw [List.take_left, List.drop_of_length_le (by
      rw [List.length_append, List.length_drop]), List.append_nil]
  rw [hleft, hnew, ← hcount] at hdiscard
  exact exchange_commit hdiscard

/-- An edit of a collection makes of its elements what it makes of a plain
list, and its books balance. After that it may let nodes go. -/
theorem exchange_apply {change : Change NodeId} {answer : ChangeAnswer}
    (hns : ∀ n ∈ change.nodes, n ∈ locks)
    (hout : c.apply checks change f = .ok answer g) :
    ∃ k, Exchange c.owner c.slot (change.entered (c.items f))
        (change.left (c.indexOf? f) (c.items f))
        (change.result (c.indexOf? f) (c.items f)) f k
      ∧ Sheds k g := by
  have hone : ∀ {n : NodeId}, n ∈ [n] := .head _
  cases change with
  | set i n =>
      obtain ⟨_, hedit, -⟩ := Outcome.map_eq_ok hout
      obtain ⟨k, hx, rfl⟩ := exchange_set hs hc (hs.alive (hns n hone)) hedit
      exact ⟨k, hx, sheds_reapAll k _⟩
  | add n =>
      obtain ⟨_, hedit, -⟩ := Outcome.map_eq_ok hout
      exact ⟨g, exchange_add hs hc (hs.alive (hns n hone)) hedit, .refl⟩
  | addRange ns =>
      obtain ⟨_, hedit, -⟩ := Outcome.map_eq_ok hout
      have hlive : ∀ n ∈ ns, f.isAlive n = true :=
        fun n hn => hs.alive (hns n hn)
      exact ⟨g, exchange_addRange hs hc hlive hedit, .refl⟩
  | insert i n =>
      obtain ⟨_, hedit, -⟩ := Outcome.map_eq_ok hout
      exact ⟨g, exchange_insert hs hc (hs.alive (hns n hone)) hedit, .refl⟩
  | removeAt i =>
      obtain ⟨old, hedit, -⟩ := Outcome.map_eq_ok hout
      obtain ⟨hold, k, hx, rfl⟩ := exchange_removeAt hs hc hedit
      simp only [Change.entered, Change.left, Change.result, hold]
      exact ⟨k, hx, sheds_reapAll k _⟩
  | remove n =>
      obtain ⟨_, hedit, -⟩ := Outcome.map_eq_ok hout
      simp only [Change.entered, Change.left, Change.result]
      rcases remove_eq_ok hedit with ⟨hnone, rfl⟩ | ⟨i, old, hfound, hremove⟩
      · rw [hnone]
        exact ⟨g, exchange_start hs.toWellFormed hc, .refl⟩
      · obtain ⟨hold, k, hx, rfl⟩ := exchange_removeAt hs hc hremove
        rw [hfound, Option.bind_some, hold]
        exact ⟨k, hx, sheds_reapAll k _⟩
  | removeRange i count =>
      obtain ⟨_, hedit, -⟩ := Outcome.map_eq_ok hout
      exact ⟨g, exchange_removeRange hs hc ho hedit, .refl⟩
  | swapRemoveAt i =>
      obtain ⟨old, hedit, -⟩ := Outcome.map_eq_ok hout
      obtain ⟨last, hold, hlast, hx⟩ := exchange_swapRemoveAt hs hc hedit
      simp only [Change.entered, Change.left, Change.result, hold, hlast]
      exact hx
  | clear =>
      obtain ⟨_, hedit, -⟩ := Outcome.map_eq_ok hout
      exact exchange_clear hs hc hedit
  | move a b =>
      obtain ⟨_, hedit, -⟩ := Outcome.map_eq_ok hout
      obtain ⟨n, hn, hx⟩ := exchange_move hs hc hedit
      simp only [Change.entered, Change.left, Change.result, hn]
      exact ⟨g, hx, .refl⟩
  | moveToEnd n =>
      obtain ⟨_, hedit, -⟩ := Outcome.map_eq_ok hout
      simp only [Change.entered, Change.left, Change.result]
      rcases moveToEnd_eq_ok hedit with ⟨hnone, rfl⟩ | ⟨i, hfound, hmove⟩
      · rw [hnone]
        exact ⟨g, exchange_start hs.toWellFormed hc, .refl⟩
      · obtain ⟨m, hm, hx⟩ := exchange_move hs hc hmove
        rw [getElem?_of_indexOf? hfound] at hm
        cases hm
        rw [hfound]
        exact ⟨g, hx, .refl⟩
  | replaceList ns =>
      obtain ⟨_, hedit, -⟩ := Outcome.map_eq_ok hout
      exact ⟨g, exchange_replaceList hs hc ho hns hedit, .refl⟩

end

end Collection

end InstructionTree
