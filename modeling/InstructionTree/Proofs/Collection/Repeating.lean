/-
Bulk edits, and single edits one after the other.

`Edit.each` is a loop of single edits. It commits after each of them, and a
removal shifts what follows each time. A bulk edit has one commit and one
shift.

# Appending

Both ways refill the slot, with the old elements and the new ones behind
them (`Extended`). A node that is added more than once has its last place
on either way. Nobody is let go of, so all nodes agree in all fields
(`Extended.get?_eq`), and a commit more makes no difference but to the
version.

# Removing

Both ways shrink the collection in the sense of `Shrinks`: removing `count`
times at one index takes each element that follows `count` steps to the
left (`Removes.each_removeAt`), and removing the range takes it there at
once.
-/
import InstructionTree.Proofs.Collection.Replacing
import InstructionTree.Proofs.Collection.Shrinking

namespace InstructionTree

-- =================================================================== loops

namespace Edit

variable {α β : Type} {edit : α → Edit β} {a : α} {b : β} {l m : List α}
  {f g : Forest} {why : Stop}

/-- Runs an edit for each item of a list, in order, until one is stopped. -/
def each (edit : α → Edit β) : List α → Edit Unit
  | [], f => .ok () f
  | a :: rest, f =>
      match edit a f with
      | .ok _ f => each edit rest f
      | .stop why f => .stop why f

theorem each_cons (ha : edit a f = .ok b g) (l : List α) :
    each edit (a :: l) f = each edit l g := by
  rw [each, ha]

theorem each_cons_stop (ha : edit a f = .stop why g) (l : List α) :
    each edit (a :: l) f = .stop why g := by
  rw [each, ha]

/-- `each` over `l ++ m` is `each` over `m` after `l`, if `l` succeeded. -/
theorem each_append {u : Unit} (hl : each edit l f = .ok u g) :
    each edit (l ++ m) f = each edit m g := by
  induction l generalizing f with
  | nil =>
      cases hl
      rfl
  | cons a l ih =>
      cases ha : edit a f with
      | ok b k =>
          rw [each_cons ha] at hl
          rw [List.cons_append, each_cons ha, ih hl]
      | stop why k =>
          rw [each_cons_stop ha] at hl
          cases hl

end Edit

namespace Collection

open Forest

variable {checks : Checks} {locks ns ms new kept left : List NodeId}
  {c : Collection} {f g h : Forest} {n : NodeId} {i m count : Nat}

-- =============================================================== appending

/-- `add` of `n` is `addRange` of `[n]`. -/
theorem add_eq_addRange : c.add checks n f = c.addRange checks [n] f := by
  unfold add addRange appendAll guarded append
  dsimp only
  cases attach checks c.owner n (c.pushed f n) <;> rfl

/-- From `f` to `g`, the nodes `ms`, which are some of `ns`, were added
behind the elements, with `count` commits. -/
structure Extended (c : Collection) (ns : List NodeId) (f : Forest)
    (ms : List NodeId) (count : Nat) (g : Forest) : Prop where
  refills : c.Refills ns f count [] g
  books : Exchange c.owner c.slot ms [] (c.items f ++ ms) f g
  alive : ∀ n, g.isAlive n = f.isAlive n
  places : ∀ n, (n ∉ ms → (g.node n).position = (f.node n).position)
    ∧ (n ∈ ms → ∃ j, LastAt ms n j
      ∧ (g.node n).position = c.base + c.length f + j)

namespace Extended

theorem start (hwf : f.WellFormed) (hc : c.Fits f) :
    c.Extended ns f [] 0 f where
  refills := .start
  books := by
    rw [List.append_nil]
    exact exchange_start hwf hc
  alive _ := rfl
  places _ := ⟨fun _ => rfl, fun hn => by cases hn⟩

variable (haway : ∀ e ∈ c.items f ++ ns, ∀ m,
    Relation.ReflTransGen f.Holds e m → ¬ f.Above c.owner m)
include haway

section

variable (hlive : ∀ n ∈ ns, f.isAlive n = true)
  (hopen : f.isGuarded checks c.owner = false)
include hlive hopen

/-- `addRange` of nodes among `ns` succeeds, and extends the collection with
one more commit. -/
theorem addRange (hg : c.Extended ns f ms count g)
    (hnew : ∀ n ∈ new, n ∈ ns) :
    ∃ h, c.addRange checks new g = .ok () h
      ∧ c.Extended ns f (ms ++ new) (count + 1) h := by
  have ho := hg.books.account.source
  obtain ⟨h, hout, hrefills⟩ : ∃ h, c.addRange checks new g = .ok () h
      ∧ c.Refills ns f (count + 1) [] h :=
    refills_addRange haway ho hnew hg.refills hopen
  obtain ⟨k, happend, rfl⟩ := addRange_eq_ok hout
  have hlivenew : ∀ n ∈ new, g.isAlive n = true := fun n hn =>
    (hg.alive n).trans (hlive n (hnew n hn))
  have hx := exchange_append hg.books hlivenew happend
  rw [List.append_assoc] at hx
  refine ⟨_, hout, hrefills, exchange_commit hx, fun n => ?_, fun n => ?_⟩
  · rw [isAlive_commit, isAlive_append happend, hg.alive]
  · obtain ⟨hother, hplaced⟩ := positions_append hg.books hlivenew happend n
    obtain ⟨hfirst, hearlier⟩ := hg.places n
    rw [(alike_commit c.owner).position]
    -- a node that is added again has its new place
    by_cases hn : n ∈ new
    · obtain ⟨j, hj, hpos⟩ := hplaced hn
      rw [List.length_append] at hpos
      refine ⟨fun hnot => absurd (List.mem_append_right _ hn) hnot,
        fun _ => ⟨ms.length + j, hj.append_right, ?_⟩⟩
      rw [hpos]
      unfold length
      omega
    · rw [hother hn]
      refine ⟨fun hnot => hfirst fun hms =>
        hnot (List.mem_append_left _ hms), fun hmem => ?_⟩
      obtain ⟨j, hj, hpos⟩ :=
        hearlier ((List.mem_append.mp hmem).resolve_right hn)
      exact ⟨j, hj.append_left hn, hpos⟩

/-- `add` of each of the nodes succeeds, and extends the collection with a
commit for each. -/
theorem each_add (hg : c.Extended ns f ms count g)
    (hnew : ∀ n ∈ new, n ∈ ns) :
    ∃ h, Edit.each (c.add checks) new g = .ok () h
      ∧ c.Extended ns f (ms ++ new) (count + new.length) h := by
  induction new generalizing ms count g with
  | nil =>
      rw [List.append_nil]
      exact ⟨g, rfl, hg⟩
  | cons n rest ih =>
      obtain ⟨h, hout, hh⟩ := hg.addRange haway hlive hopen
        (List.forall_mem_singleton.mpr (hnew n (.head _)))
      rw [← add_eq_addRange] at hout
      obtain ⟨k, heach, hk⟩ := ih hh fun m hm => hnew m (.tail _ hm)
      refine ⟨k, (Edit.each_cons hout rest).trans heach, ?_⟩
      rw [List.append_assoc, List.singleton_append, Nat.add_assoc,
        Nat.add_comm 1] at hk
      exact hk

end

/-- Two extensions by the same nodes leave equal records but for the version of
the owner, which counts the commits. -/
theorem get?_eq (hg : c.Extended ns f ms (count + 1) g)
    (hh : c.Extended ns f ms (m + 1) h) (hwf : f.WellFormed)
    (hcov : f.Covered) (n : NodeId) :
    h.get? n = (g.get? n).map fun x => { x with
      version := (f.node n).version + if n = c.owner then m + 1 else 0 } :=
  hg.refills.get?_eq haway hwf hcov hh.refills hg.books.account
    hh.books.account ((hh.alive n).trans (hg.alive n).symm) fun _ _ =>
      position_eq_of_lastAt (hg.places n) (hh.places n)

end Extended

-- ================================================================ removing

/-- What remains of a list after an element was taken out, and then the
range that was behind it. -/
private theorem take_append_drop_eraseIdx (l : List NodeId) (i count : Nat) :
    (l.eraseIdx i).take i ++ (l.eraseIdx i).drop (i + count)
      = l.take i ++ l.drop (i + (count + 1)) := by
  rw [List.take_eraseIdx_eq_take_of_le _ _ _ (Nat.le_refl i),
    drop_eraseIdx (Nat.le_add_right i count), Nat.add_assoc]

/-- `removeAt` at `i`, `count` times, succeeds and `Removes` the range from
`i`. -/
theorem Removes.each_removeAt (hwf : f.WellFormed) (hcov : f.Covered)
    (hc : c.Fits f) (ho : c.owner ∈ locks)
    (hopen : f.isGuarded checks c.owner = false) (i : Nat) :
    ∀ (count : Nat) {left : List NodeId} {m : Nat} {g : Forest},
      Removes checks locks c kept left (pastRange i m) f g →
      i + count ≤ c.length g →
      (∀ n ∈ kept, n ∈ (c.items g).take i ++ (c.items g).drop (i + count)) →
      ∃ h, Edit.each (c.removeAt checks) (List.replicate count i) g = .ok () h
        ∧ c.items h = (c.items g).take i ++ (c.items g).drop (i + count)
        ∧ Removes checks locks c kept
          (left ++ ((c.items g).drop i).take count) (pastRange i (m + count))
          f h
  | 0, left, m, g, hg, _, _ => by
      refine ⟨g, rfl, (List.take_append_drop i _).symm, ?_⟩
      rwa [List.take_zero, List.append_nil]
  | count + 1, left, m, g, hg, hle, hkept => by
      unfold length at hle
      have hi : i < (c.items g).length := by omega
      have hcut := take_append_drop_eraseIdx (c.items g) i count
      rw [← hcut] at hkept
      obtain ⟨h, hout, hitems, hh⟩ := hg.removeAt hwf hcov hc ho hopen
        (List.getElem?_eq_getElem hi) fun n hn =>
          (List.mem_append.mp (hkept n hn)).elim List.mem_of_mem_take
            List.mem_of_mem_drop
      rw [funext (pastRange_succ i m)] at hh
      obtain ⟨k, heach, hend, hk⟩ := Removes.each_removeAt hwf hcov hc ho
        hopen i count hh (by
          have := List.length_eraseIdx_add_one hi
          unfold length
          rw [hitems]
          omega) (by rwa [hitems])
      refine ⟨k, ?_, ?_, ?_⟩
      · rw [List.replicate_succ, Edit.each_cons hout, heach]
      · rw [hend, hitems, hcut]
      · rw [hitems, drop_eraseIdx (Nat.le_refl i), List.append_assoc,
          List.singleton_append, ← List.take_succ_cons,
          ← List.drop_eq_getElem_cons hi, Nat.add_right_comm] at hk
        exact hk

section

variable (hs : f.Sound checks locks) (hc : c.Fits f) (hcov : f.Covered)
  (ho : c.owner ∈ locks) (hopen : f.isGuarded checks c.owner = false)
include hs hc hcov ho hopen

/-- `removeAt` at `i`, `count` times, leaves the elements in front of the range
and behind it. -/
theorem removes_range (hle : i + count ≤ c.length f) :
    ∃ g, Edit.each (c.removeAt checks) (List.replicate count i) f = .ok () g
      ∧ c.items g = (c.items f).take i ++ (c.items f).drop (i + count)
      ∧ Removes checks locks c
        ((c.items f).take i ++ (c.items f).drop (i + count))
        (((c.items f).drop i).take count) (pastRange i count) f g := by
  have hstart : Removes checks locks c
      ((c.items f).take i ++ (c.items f).drop (i + count)) []
      (pastRange i 0) f f := by
    rw [funext (pastRange_zero i)]
    exact .start hs hc
  obtain ⟨g, hout, hitems, hg⟩ := Removes.each_removeAt hs.toWellFormed hcov
    hc ho hopen i count hstart hle fun _ hn => hn
  rw [List.nil_append, Nat.zero_add] at hg
  exact ⟨g, hout, hitems, hg⟩

/-- If the range does not fit, `removeAt` at `i` is out of bounds at some turn.
-/
theorem each_removeAt_stops (hcount : 0 < count)
    (hout : c.length f < i + count) :
    ∃ h, Edit.each (c.removeAt checks) (List.replicate count i) f
      = .stop (.fault (.outOfBounds i (c.length h))) h := by
  have hstop : ∀ {h : Forest}, h.isGuarded checks c.owner = false →
      c.length h ≤ i → c.removeAt checks i h
        = .stop (.fault (.outOfBounds i (c.length h))) h := by
    intro h hopen hlen
    unfold Collection.removeAt
    rw [guarded_of_open _ hopen, List.getElem?_eq_none hlen]
    rfl
  rcases Nat.lt_or_ge (c.length f) i with hlt | hge
  · refine ⟨f, ?_⟩
    obtain ⟨k, rfl⟩ := Nat.exists_eq_add_one.mpr hcount
    rw [List.replicate_succ, Edit.each_cons_stop (hstop hopen (by omega))]
  · -- the elements from `i` on are removed, and there is one step left
    obtain ⟨k, rfl⟩ : ∃ k, count = (c.length f - i) + (k + 1) :=
      ⟨count - (c.length f - i) - 1, by omega⟩
    have hle : i + (c.length f - i) ≤ c.length f := by omega
    obtain ⟨h, hall, hitems, hh⟩ := removes_range hs hc hcov ho hopen hle
    have hlen : c.length h ≤ i := by
      unfold length at hge ⊢
      rw [hitems, List.length_append, List.length_take, List.length_drop]
      unfold length
      omega
    refine ⟨h, ?_⟩
    rw [List.replicate_add, Edit.each_append hall, List.replicate_succ,
      Edit.each_cons_stop (hstop (hh.unguarded ho hopen) hlen)]

end

-- ========================================================= the same edits

/-- `removeRange` of all elements leaves the collection `Renewed` with none. -/
theorem renewed_removeRange (hs : f.Sound checks locks) (hc : c.Fits f)
    (ho : c.owner ∈ locks) (hopen : f.isGuarded checks c.owner = false) :
    ∃ g, c.removeRange checks 0 (c.length f) f = .ok () g
      ∧ c.Renewed [] f 1 g := by
  have hstart : c.Refills [] f 0 [] f := .start
  have hrest : (c.items f).drop (0 + c.length f) = [] := by
    rw [Nat.zero_add]
    exact List.drop_length
  have hout : c.removeRange checks 0 (c.length f) f
      = .ok () ((c.discard 0 (c.length f) f).commit c.owner) := by
    unfold removeRange
    rw [guarded_of_open _ hopen, if_neg (by omega), if_neg (by omega)]
    unfold erasedRange
    rw [hrest]
    rfl
  have hx := exchange_removeRange hs hc ho hout
  rw [hrest, List.take_zero, List.drop_zero, length,
    List.take_of_length_le (Nat.le_refl _)] at hx
  refine ⟨_, hout, (hstart.discard 0 (c.length f)).commit, hx,
    fun n hn => ⟨fun _ => ?_, fun h => by cases h⟩⟩
  rw [isAlive_commit] at hn
  rw [(alike_commit c.owner).position,
    (position_discard 0 (c.length f) (.inl hn)).2]

theorem renewed_clear (hs : f.Sound checks locks) (hc : c.Fits f)
    (ho : c.owner ∈ locks) (hopen : f.isGuarded checks c.owner = false) :
    ∃ g, c.clear checks f = .ok () g ∧ c.Renewed [] f 1 g := by
  obtain ⟨g, hout, hrefills⟩ : ∃ g, c.clear checks f = .ok () g
      ∧ c.Refills [] f 1 [] g := refills_clear hopen
  have hcarried : Carried checks c.owner f (c.clear checks f) :=
    carried_clear hc
  rw [hout] at hcarried
  obtain ⟨k, hx, hsheds⟩ := exchange_clear hs hc hout
  exact ⟨g, hout, hrefills,
    hx.calm hsheds.calm ((hcarried.sound hs).alive ho), fun n hn =>
      ⟨fun _ => position_clear hout (.inl hn), fun h => by cases h⟩⟩

/-- `insert` at the length is `add`. -/
theorem insert_length :
    c.insert checks (c.length f) n f = c.add checks n f := by
  have hinserted : c.inserted f (c.length f) n = c.pushed f n := by
    unfold inserted pushed length
    rw [List.drop_length, List.insertIdx_length_self]
    rfl
  unfold insert add guarded
  dsimp only
  rw [if_neg (Nat.lt_irrefl (c.length f)), hinserted]

/-- Removing the last element leaves no gap: the last element need not take
its place, and nothing follows. -/
theorem swapRemoveAt_last :
    c.swapRemoveAt checks (c.length f - 1) f
      = c.removeAt checks (c.length f - 1) f := by
  have hlast : (c.items f).getLast? = (c.items f)[c.length f - 1]? :=
    List.getLast?_eq_getElem?
  unfold swapRemoveAt removeAt guarded
  dsimp only
  rw [hlast]
  cases hold : (c.items f)[c.length f - 1]? with
  | none => rfl
  | some old =>
      dsimp only
      have hsame : c.swapErased f (c.length f - 1) old old
          = c.erased f (c.length f - 1) old := by
        have hlt := (List.getElem?_eq_some_iff.mp hold).1
        have hlen : c.length f - 1 + 1 = (c.items f).length := by
          unfold length at hlt ⊢
          omega
        unfold swapErased erased takenOut
        dsimp only
        rw [if_neg (Nat.lt_irrefl _), hlen, List.drop_length,
          List.eraseIdx_eq_take_drop_succ, hlen, List.drop_length,
          List.append_nil, List.take_set_of_le (Nat.le_refl _)]
        rfl
      rw [hsame]

end Collection

end InstructionTree
