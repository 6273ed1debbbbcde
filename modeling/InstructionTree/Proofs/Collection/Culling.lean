/-
Filtering with a judge that changes nothing.

If no call of the judge touches a slot, a link, a counter or a place, a
pass only shifts elements. `Passed` is what holds between two calls: the
survivors in order, then the rejected nodes in some order, then what was
not judged yet. The books show the rejected nodes as left, although they
are still stored.

# Places during a pass

The place of a node is tested when an occurrence of it is kept, against
the index of that occurrence. Every index given out so far lies below the
index judged next, so a place that a test has changed is never tested
again. That leaves two cases, and `Followed` has no third: the place is
what it was, and it is not the index of an occurrence that was kept; or it
is the index of a survivor.
-/
import InstructionTree.Proofs.Collection.Places
import InstructionTree.Proofs.Collection.Sifting

namespace InstructionTree.Collection

open Forest

variable {checks : Checks} {locks : List NodeId} {c : Collection}
  {f g h : Forest} {done calls : List Judgement} {pass : Pass}

-- ============================================================ the calls

/-- The nodes that the calls kept, in order. -/
def keptNodes (calls : List Judgement) : List NodeId :=
  (calls.filter fun j => !j.rejects).map Judgement.node

/-- The nodes that the calls rejected, in order. -/
def rejectedNodes (calls : List Judgement) : List NodeId :=
  (calls.filter Judgement.rejects).map Judgement.node

/-- A call that keeps the forest sound, and is `Calm`: it changes no slot,
link, counter or place. -/
def Judgement.Idle (checks : Checks) (locks : List NodeId)
    (j : Judgement) : Prop :=
  j.Keeps checks locks
    ∧ (j.before.Sound checks (j.node :: locks) → Calm j.before j.after)

theorem rejectedNodes_sublist (calls : List Judgement) :
    (rejectedNodes calls).Sublist (calls.map Judgement.node) :=
  List.filter_sublist.map _

theorem length_keptNodes_add (calls : List Judgement) :
    (keptNodes calls).length + (rejectedNodes calls).length
      = calls.length := by
  have hsplit := List.length_eq_length_filter_add (l := calls)
    Judgement.rejects
  rw [keptNodes, rejectedNodes, List.length_map, List.length_map]
  omega

theorem count_keptNodes_add (calls : List Judgement) (n : NodeId) :
    (keptNodes calls).count n + (rejectedNodes calls).count n
      = (calls.map Judgement.node).count n := by
  have hperm := (List.filter_append_perm Judgement.rejects calls).map
    Judgement.node
  rw [List.map_append] at hperm
  rw [← hperm.count_eq, List.count_append, Nat.add_comm]
  rfl

theorem keptNodes_concat {j : Judgement} (done : List Judgement) :
    keptNodes (done ++ [j])
      = keptNodes done ++ if j.rejects then [] else [j.node] := by
  unfold keptNodes
  rw [List.filter_append, List.map_append]
  cases hj : j.rejects <;> simp [hj]

theorem rejectedNodes_concat {j : Judgement} (done : List Judgement) :
    rejectedNodes (done ++ [j])
      = rejectedNodes done ++ if j.rejects then [j.node] else [] := by
  unfold rejectedNodes
  rw [List.filter_append, List.map_append]
  cases hj : j.rejects <;> simp [hj]

-- ================================================== between two calls

theorem count_take_add_drop (l : List NodeId) (k : Nat)
    (n : NodeId) : (l.take k).count n + (l.drop k).count n = l.count n := by
  rw [← List.count_append, List.take_append_drop]

theorem items_detach (o n : NodeId) :
    c.items (f.detach o n) = c.items f :=
  slot_congr (slots_detach f o n c.owner) c.slot

theorem items_of_calm (hfg : Calm f g) (hf : f.isAlive c.owner = true)
    (hg : g.isAlive c.owner = true) : c.items g = c.items f :=
  slot_congr (hfg.slots hf hg) c.slot

/-- Exchanging the first rejected element with the one under judgement
moves the zone of the rejected one to the right. -/
theorem exchange_zones (kept zone rest : List NodeId) (n : NodeId) :
    ∃ first zone', zone'.Perm zone
      ∧ (kept ++ zone ++ n :: rest)[kept.length]? = some first
      ∧ ((kept ++ zone ++ n :: rest).set kept.length n).set
          (kept.length + zone.length) first
        = (kept ++ [n]) ++ zone' ++ rest := by
  cases zone with
  | nil =>
      refine ⟨n, [], .refl _, ?_, ?_⟩
      · simp
      · simp
  | cons first zone =>
      refine ⟨first, zone ++ [first], List.perm_append_singleton .., ?_, ?_⟩
      · simp
      · simp

/-- What became of the place of `n` so far: nothing, and no occurrence at
that place was kept; or it is the index of a survivor. -/
def Followed (c : Collection) (f : Forest) (done : List Judgement)
    (g : Forest) (n : NodeId) : Prop :=
  ((g.node n).position = (f.node n).position
    ∧ ((f.node n).link = some c.owner → ∀ k j, done[k]? = some j →
      j.node = n → j.rejects = false → (f.node n).position ≠ c.base + k))
  ∨ ((f.node n).link = some c.owner ∧ ∃ k, (keptNodes done)[k]? = some n
    ∧ (g.node n).position = c.base + k)

/-- A pass over the elements of `f` after the calls `done`. -/
structure Passed (c : Collection) (f : Forest) (done : List Judgement)
    (pass : Pass) (g : Forest) : Prop where
  judged : pass.judged = done.length
  kept : pass.kept = (keptNodes done).length
  rejected : pass.rejected = (rejectedNodes done).length
  within : done.length ≤ (c.items f).length
  nodes : done.map Judgement.node = (c.items f).take done.length
  zones : ∃ zone, zone.Perm (rejectedNodes done)
    ∧ c.items g = keptNodes done ++ zone ++ (c.items f).drop done.length
  account : Account c.owner c.slot f [] (rejectedNodes done) (c.items g) g
  places : ∀ {n}, g.Spared n → Followed c f done g n

namespace Passed

theorem start (hwf : f.WellFormed) (hc : c.Fits f) :
    Passed c f [] ⟨0, 0, 0⟩ f where
  judged := rfl
  kept := rfl
  rejected := rfl
  within := Nat.zero_le _
  nodes := rfl
  zones := ⟨[], .refl _, rfl⟩
  account := (exchange_start hwf hc).account
  places _ := .inl ⟨rfl, fun _ k j hj => by cases hj⟩

theorem calm (hp : Passed c f done pass g) (hgh : Calm g h)
    (ho : h.isAlive c.owner = true) : Passed c f done pass h := by
  have hitems : c.items h = c.items g :=
    items_of_calm hgh hp.account.owner ho
  refine ⟨hp.judged, hp.kept, hp.rejected, hp.within, hp.nodes, ?_, ?_,
    fun {n} hn => ?_⟩
  · rw [hitems]
    exact hp.zones
  · rw [hitems]
    exact hp.account.calm hgh ho
  · have hplaces := hp.places (hgh.ages.spared hn)
    unfold Followed at hplaces ⊢
    rwa [hgh.position hn]

/-- The rejections of a node that occurs among the elements not judged yet are
fewer than its occurrences. -/
theorem count_rejected_lt (hp : Passed c f done pass g) {n : NodeId}
    (hn : n ∈ (c.items f).drop done.length) :
    (rejectedNodes done).count n < (c.items f).count n := by
  have hsub := (rejectedNodes_sublist done).count_le n
  have hpos := List.count_pos_iff.mpr hn
  have hsplit := count_take_add_drop (c.items f) done.length n
  rw [hp.nodes] at hsub
  omega

/-- An element not judged yet that was linked to the owner before the pass
still is. -/
theorem linked (hp : Passed c f done pass g) (hwf : f.WellFormed)
    (hcov : f.Covered) {n : NodeId} (hspared : g.Spared n)
    (hn : n ∈ (c.items f).drop done.length)
    (hlink : (f.node n).link = some c.owner) :
    (g.node n).link = some c.owner := by
  rcases hp.account.stayed hspared (List.not_mem_nil) with
    hsame | ⟨-, -, hrefs⟩
  · rw [hsame, hlink]
  · have hcount := hp.account.count hwf hcov hspared
    have hlt := hp.count_rejected_lt hn
    have hslot := (f.slot_sublist_children c.owner c.slot).count_le n
    have hheld := count_le_holdCount (f := f) c.owner n
    have hle := hcov.le hwf n
    rw [List.count_nil] at hcount
    unfold items at hlt
    omega

/-- Before the pass, the node that is at index `judged` now was at index
`done.length`. -/
theorem current (hp : Passed c f done pass g) {n : NodeId}
    (hn : (c.items g)[pass.judged]? = some n) :
    (c.items f)[done.length]? = some n := by
  obtain ⟨zone, hperm, hitems⟩ := hp.zones
  have hlen := length_keptNodes_add done
  rw [hitems, hp.judged, List.getElem?_append_right
    (by rw [List.length_append, hperm.length_eq, hlen]),
    List.length_append, hperm.length_eq, hlen, Nat.sub_self,
    List.getElem?_drop, Nat.add_zero] at hn
  exact hn

/-- If the next call judges the node at index `judged`, then all calls judged
the front of the elements, in order. -/
private theorem nodes_concat (hp : Passed c f done pass g) {j : Judgement}
    (hn : (c.items f)[done.length]? = some j.node) :
    (done ++ [j]).length ≤ (c.items f).length
      ∧ (done ++ [j]).map Judgement.node
        = (c.items f).take (done ++ [j]).length
      ∧ (c.items f).drop done.length
        = j.node :: (c.items f).drop (done ++ [j]).length := by
  obtain ⟨hlt, hget⟩ := List.getElem?_eq_some_iff.mp hn
  rw [List.length_append, List.length_singleton]
  refine ⟨hlt, ?_, ?_⟩
  · rw [List.map_append, hp.nodes, List.take_add_one, hn]
    rfl
  · rw [List.drop_eq_getElem_cons hlt, hget]

/-- The element under judgement is rejected. -/
theorem reject (hp : Passed c f done pass g) {j : Judgement}
    (hn : (c.items f)[done.length]? = some j.node)
    (halive : g.isAlive j.node = true) (hj : j.rejects = true) :
    Passed c f (done ++ [j]) (c.reject j.node pass g).1
      (c.reject j.node pass g).2 := by
  obtain ⟨hwithin, hnodes, hdrop⟩ := hp.nodes_concat hn
  have hkept : keptNodes (done ++ [j]) = keptNodes done := by
    rw [keptNodes_concat, hj, if_pos rfl, List.append_nil]
  have hrejected : rejectedNodes (done ++ [j])
      = rejectedNodes done ++ [j.node] := by
    rw [rejectedNodes_concat, hj, if_pos rfl]
  have hlen : (done ++ [j]).length = done.length + 1 := by
    rw [List.length_append, List.length_singleton]
  refine ⟨?_, ?_, ?_, hwithin, hnodes, ?_, ?_, fun {n} hspared => ?_⟩
  · rw [hlen, ← hp.judged]
    rfl
  · rw [hkept, ← hp.kept]
    rfl
  · rw [hrejected, List.length_append, ← hp.rejected]
    rfl
  · obtain ⟨zone, hperm, hitems⟩ := hp.zones
    refine ⟨zone ++ [j.node], ?_, ?_⟩
    · rw [hrejected]
      exact hperm.append_right _
    · rw [hkept, Collection.reject, items_detach, hitems, hdrop]
      simp only [List.append_assoc, List.singleton_append]
  · rw [hrejected, Collection.reject, items_detach]
    refine hp.account.leave halive ?_
    have hlt := hp.count_rejected_lt (n := j.node) (hdrop ▸ .head _)
    rwa [List.count_nil, Nat.add_zero]
  · have hplaces := hp.places (spared_update.mp hspared)
    unfold Followed at hplaces ⊢
    rw [Collection.reject, position_detach, hkept]
    refine hplaces.imp_left fun ⟨hsame, hmiss⟩ => ⟨hsame, ?_⟩
    intro howner k i hk hnode hi
    rw [List.getElem?_append] at hk
    split at hk
    · exact hmiss howner k i hk hnode hi
    · have hmem := List.mem_of_getElem? hk
      rw [List.mem_singleton.mp hmem, hj] at hi
      cases hi

/-- `renumber` of an element that is kept leads from `Followed` after `done` to
`Followed` after one more call. -/
private theorem followed_renumber (hp : Passed c f done pass g)
    (hwf : f.WellFormed) (hcov : f.Covered) {j : Judgement}
    (hn : (c.items f)[done.length]? = some j.node)
    (hj : j.rejects = false) {n : NodeId} (hspared : g.Spared n) :
    Followed c f (done ++ [j])
      (c.renumber g pass.judged pass.kept j.node) n := by
  obtain ⟨-, -, hdrop⟩ := hp.nodes_concat hn
  have hkept : keptNodes (done ++ [j]) = keptNodes done ++ [j.node] := by
    rw [keptNodes_concat, hj]
    rfl
  rw [Followed, hkept]
  rcases position_renumber (c := c) (f := g) pass.judged pass.kept j.node n
    with ⟨rfl, hat, hnow⟩ | ⟨hno, hsame⟩
  · -- the test succeeded: the place is that of the survivor now
    refine .inr ⟨?_, pass.kept, ?_, hnow⟩
    · have hlink : (g.node j.node).link = some c.owner :=
        (by simpa [Node.isAt] using hat : _ ∧ _).2
      rcases hp.account.stayed hspared List.not_mem_nil with
        hsame | ⟨howner, -, -⟩
      · rw [← hsame, hlink]
      · exact howner
    · rw [hp.kept, List.getElem?_concat_length]
  rw [hsame]
  rcases hp.places hspared with ⟨hpos, hmiss⟩ | ⟨howner, k, hk, hpos⟩
  · refine .inl ⟨hpos, fun howner k i hk hnode hi => ?_⟩
    rw [List.getElem?_append] at hk
    split at hk
    · exact hmiss howner k i hk hnode hi
    case isFalse hlast =>
      -- otherwise the test just made would have succeeded
      have hlt := (List.getElem?_eq_some_iff.mp hk).1
      have hij := List.mem_singleton.mp (List.mem_of_getElem? hk)
      rw [List.length_singleton] at hlt
      rw [hij] at hnode
      have hlink := hp.linked hwf hcov hspared
        (by rw [hdrop, hnode]; exact .head _) howner
      intro hthere
      refine hno ⟨hnode, ?_⟩
      have hk' : k = pass.judged := by
        rw [hp.judged]
        omega
      rw [Node.isAt, hlink, hpos, hthere, hk']
      simp
  · refine .inr ⟨howner, k, ?_, hpos⟩
    rw [List.getElem?_append_left (List.getElem?_eq_some_iff.mp hk).1, hk]

/-- `keep` of the element under judgement succeeds, and is `Passed` after one
more call. -/
theorem keep (hp : Passed c f done pass g) (hwf : f.WellFormed)
    (hcov : f.Covered) {j : Judgement}
    (hn : (c.items f)[done.length]? = some j.node)
    (hj : j.rejects = false) :
    ∃ next k, c.keep j.node pass g = (some next, k)
      ∧ Passed c f (done ++ [j]) next k := by
  obtain ⟨hwithin, hnodes, hdrop⟩ := hp.nodes_concat hn
  have hkept : keptNodes (done ++ [j]) = keptNodes done ++ [j.node] := by
    rw [keptNodes_concat, hj]
    rfl
  have hrejected : rejectedNodes (done ++ [j]) = rejectedNodes done := by
    rw [rejectedNodes_concat, hj]
    exact List.append_nil _
  have hlen : (done ++ [j]).length = done.length + 1 := by
    rw [List.length_append, List.length_singleton]
  obtain ⟨zone, hperm, hitems⟩ := hp.zones
  rw [hdrop] at hitems
  obtain ⟨first, zone', hperm', hfirst, hnew⟩ :=
    exchange_zones (keptNodes done) zone
      ((c.items f).drop (done ++ [j]).length) j.node
  have hjudged : pass.judged = (keptNodes done).length + zone.length := by
    rw [hp.judged, hperm.length_eq, length_keptNodes_add]
  have hcurrent : (c.items g)[pass.judged]? = some j.node := by
    rw [hitems, hjudged, List.getElem?_append_right (by simp)]
    simp
  rw [← hitems, ← hp.kept] at hfirst
  rw [← hitems, ← hjudged, ← hp.kept] at hnew
  have hkeep : c.keep j.node pass g
      = (some { pass with kept := pass.kept + 1, judged := pass.judged + 1 },
        c.setItems (c.renumber g pass.judged pass.kept j.node)
          (((c.items g).set pass.kept j.node).set pass.judged first)) :=
    keep_eq hfirst hcurrent
  have hacc := (account_renumber hp.account pass.judged pass.kept
    j.node).store (((c.items g).set pass.kept j.node).set pass.judged first)
  have hread : c.items (c.setItems (c.renumber g pass.judged pass.kept
      j.node) (((c.items g).set pass.kept j.node).set pass.judged first))
      = ((c.items g).set pass.kept j.node).set pass.judged first :=
    hacc.slot_self
  refine ⟨_, _, hkeep, ?_, ?_, ?_, hwithin, hnodes, ⟨zone', ?_, ?_⟩, ?_,
    fun {n} hspared => ?_⟩
  · rw [hlen, ← hp.judged]
  · rw [hkept, List.length_append, ← hp.kept]
    rfl
  · rw [hrejected]
    exact hp.rejected
  · rw [hrejected]
    exact hperm'.trans hperm
  · rw [hread, hnew, hkept]
  · rw [hread, hrejected]
    exact hacc
  · have hfollowed := hp.followed_renumber hwf hcov hn hj
      (spared_renumber (spared_update.mp hspared))
    unfold Followed at hfollowed ⊢
    rwa [setItems, position_setSlot]

theorem length_items (hp : Passed c f done pass g) :
    (c.items g).length = (c.items f).length := by
  obtain ⟨zone, hperm, hitems⟩ := hp.zones
  have hlen := length_keptNodes_add done
  have hwithin := hp.within
  rw [hitems, List.length_append, List.length_append, hperm.length_eq,
    List.length_drop]
  omega

/-- An `Idle` call about the next element leaves the pass `Passed`. -/
theorem asked (hp : Passed c f done pass g) {n : NodeId}
    {out : Outcome Forest Bool} (hs : g.Sound checks locks)
    (ho : c.owner ∈ locks) (hc : c.Fits g) (hn : n ∈ c.items g)
    (hidle : Judgement.Idle checks locks ⟨n, g.hold n, out⟩) :
    Passed c f done pass out.state ∧ Calm g out.state
      ∧ out.state.Sound checks (n :: locks) ∧ c.Fits out.state := by
  obtain ⟨hs', hages⟩ := Judgement.Keeps.run hidle.1 hs hn
  have hcalm := (alike_hold n).calm.trans
    (hidle.2 (hs.hold (alive_of_mem_items hs.toWellFormed hn)))
  have howner := hs'.alive (.tail _ ho)
  exact ⟨hp.calm hcalm howner, hcalm, hs', hc.ages hages howner⟩

/-- `release` of the element after its call leaves the pass `Passed`. -/
theorem release (hp : Passed c f done pass g) {n : NodeId}
    (ho : c.owner ∈ locks) (hs : g.Sound checks (n :: locks))
    (hc : c.Fits g) :
    Passed c f done pass (g.release n) ∧ Calm g (g.release n)
      ∧ (g.release n).Sound checks locks ∧ c.Fits (g.release n) := by
  have hs' := hs.unlock
  have howner := hs'.alive ho
  exact ⟨hp.calm (calm_release g n) howner, calm_release g n, hs',
    hc.ages (ages_release g n) howner⟩

end Passed

/-- Of `calls`, which came after `done` and were `count` at most, the pass
carried the verdicts out up to `done'`: of all of them, or of all but the
one that gave up. -/
structure Ends (c : Collection) (f : Forest) (count : Nat)
    (done calls : List Judgement) (stopped : Option Stop)
    (done' : List Judgement) : Prop where
  all : stopped = none → done' = done ++ calls
    ∧ ((c.items f).length ≤ done.length + count →
      done'.length = (c.items f).length)
  gaveUp : ∀ why, stopped = some why → ∃ j k, j.verdict = .stop why k
    ∧ (c.items f)[done'.length]? = some j.node
    ∧ done ++ calls = done' ++ [j]

/-- `Ends` of the calls after `j` is `Ends` of those with `j` in front. -/
theorem Ends.cons {count : Nat} {stopped : Option Stop}
    {done' : List Judgement} {j : Judgement}
    (hends : Ends c f count (done ++ [j]) calls stopped done') :
    Ends c f (count + 1) done (j :: calls) stopped done' := by
  refine ⟨fun h => ?_, fun why h => ?_⟩
  · obtain ⟨heq, hlen⟩ := hends.all h
    refine ⟨heq.trans (List.append_assoc ..), fun hle => hlen ?_⟩
    rw [List.length_append, List.length_singleton]
    omega
  · obtain ⟨i, k, hi, hnode, heq⟩ := hends.gaveUp why h
    exact ⟨i, k, hi, hnode, (List.append_assoc ..).symm.trans heq⟩

/-- A run of a pass with such a judge; a call that stopped the pass counts
as kept. What neither a calm step nor a verdict disturbs is carried
along. -/
theorem Sifts.passed_from {count : Nat} {last : Pass} {stopped : Option Stop}
    (R : List Judgement → Forest → Prop)
    (hcalm : ∀ {done g h}, R done g → Calm g h → R done h)
    (hreject : ∀ {done pass g} {j : Judgement}, Passed c f done pass g →
      R done g → (c.items f)[done.length]? = some j.node →
      j.rejects = true → R (done ++ [j]) (c.reject j.node pass g).2)
    (hkeep : ∀ {done pass next g k} {j : Judgement},
      Passed c f done pass g → R done g →
      (c.items f)[done.length]? = some j.node → j.rejects = false →
      c.keep j.node pass g = (some next, k) → R (done ++ [j]) k)
    (hsifts : Sifts c count pass g calls last stopped h)
    (ho : c.owner ∈ locks) (hs : g.Sound checks locks) (hc : c.Fits g)
    (hidle : ∀ j ∈ calls, j.Idle checks locks) (hwf : f.WellFormed)
    (hcov : f.Covered) (hp : Passed c f done pass g) (hr : R done g) :
    ∃ done', Passed c f done' last h ∧ R done' h
      ∧ Ends c f count done calls stopped done' := by
  induction hsifts generalizing done with
  | full =>
      refine ⟨done, hp, hr,
        fun _ => ⟨(List.append_nil _).symm, fun hle => ?_⟩,
        fun _ h => (by cases h)⟩
      exact Nat.le_antisymm hp.within hle
  | short hnone =>
      refine ⟨done, hp, hr,
        fun _ => ⟨(List.append_nil _).symm, fun _ => ?_⟩,
        fun _ h => (by cases h)⟩
      have hge := List.getElem?_eq_none_iff.mp hnone
      rw [hp.length_items, hp.judged] at hge
      exact Nat.le_antisymm hp.within hge
  | @failed _ pass g k n why hn =>
      obtain ⟨hasked, hcall, hsk, hck⟩ := hp.asked hs ho hc
        (List.mem_of_getElem? hn) (hidle _ (.head _))
      obtain ⟨hgiven, hgave, -⟩ := hasked.release ho hsk hck
      refine ⟨done, hgiven, hcalm hr (hcall.trans hgave),
        fun h => (by cases h), ?_⟩
      rintro _ ⟨rfl⟩
      exact ⟨_, k, rfl, hp.current hn, rfl⟩
  | @rejected _ pass _ g k _ n _ _ hn _ ih =>
      obtain ⟨hasked, hcall, hsk, hck⟩ := hp.asked hs ho hc
        (List.mem_of_getElem? hn) (hidle _ (.head _))
      have hstep := hasked.reject (j := ⟨n, g.hold n, .ok true k⟩)
        (hp.current hn) (hsk.alive (.head _)) rfl
      have hr' := hreject (j := ⟨n, g.hold n, .ok true k⟩) hasked
        (hcalm hr hcall) (hp.current hn) rfl
      have htouches : Touches checks c.owner k (c.reject n pass k).2 :=
        touches_reject n pass
      have hs' := htouches.sound hsk
      obtain ⟨hgiven, hgave, hsg, hcg⟩ := hstep.release ho hs'
        (hck.ages htouches.ages (hs'.alive (.tail _ ho)))
      obtain ⟨done', hlast, hr'', hends⟩ := ih hsg hcg
        (fun j hj => hidle j (.tail _ hj)) hgiven (hcalm hr' hgave)
      exact ⟨done', hlast, hr'', hends.cons⟩
  | @kept _ pass next _ g k k' _ n _ _ hn hkept _ ih =>
      obtain ⟨hasked, hcall, hsk, hck⟩ := hp.asked hs ho hc
        (List.mem_of_getElem? hn) (hidle _ (.head _))
      obtain ⟨next', k'', hkept', hstep⟩ := hasked.keep hwf hcov
        (j := ⟨n, g.hold n, .ok false k⟩) (hp.current hn) rfl
      cases hkept.symm.trans hkept'
      have hr' := hkeep (j := ⟨n, g.hold n, .ok false k⟩) hasked
        (hcalm hr hcall) (hp.current hn) rfl hkept
      have htouches : Touches checks c.owner k k' :=
        touches_kept hsk.toWellFormed hck hkept
      have hs' := htouches.sound hsk
      obtain ⟨hgiven, hgave, hsg, hcg⟩ := hstep.release ho hs'
        (hck.ages htouches.ages (hs'.alive (.tail _ ho)))
      obtain ⟨done', hlast, hr'', hends⟩ := ih hsg hcg
        (fun j hj => hidle j (.tail _ hj)) hgiven (hcalm hr' hgave)
      exact ⟨done', hlast, hr'', hends.cons⟩
  | @lost _ pass g k k' n hn hkept =>
      -- the exchange can not fail
      obtain ⟨hasked, -⟩ := hp.asked hs ho hc (List.mem_of_getElem? hn)
        (hidle _ (.head _))
      obtain ⟨next, k'', hkept', -⟩ := hasked.keep hwf hcov
        (j := ⟨n, g.hold n, .ok false k⟩) (hp.current hn) rfl
      cases hkept.symm.trans hkept'

section

variable {count : Nat} {stopped : Option Stop}
  (hsifts : Sifts c count ⟨0, 0, 0⟩ (f.beginTraversal c.owner) calls pass
    stopped g)
  (ho : c.owner ∈ locks) (hs : f.Sound checks locks) (hc : c.Fits f)
  (hcov : f.Covered) (hidle : ∀ j ∈ calls, j.Idle checks locks)
include hsifts ho hs hc hcov hidle

/-- A relation `R` that calm steps, `reject` and `keep` carry along holds at
the end of a pass from a forest where it holds, and the pass has `Passed`. -/
theorem Sifts.passed_with (R : List Judgement → Forest → Prop)
    (hcalm : ∀ {done g h}, R done g → Calm g h → R done h)
    (hreject : ∀ {done pass g} {j : Judgement}, Passed c f done pass g →
      R done g → (c.items f)[done.length]? = some j.node →
      j.rejects = true → R (done ++ [j]) (c.reject j.node pass g).2)
    (hkeep : ∀ {done pass next g k} {j : Judgement},
      Passed c f done pass g → R done g →
      (c.items f)[done.length]? = some j.node → j.rejects = false →
      c.keep j.node pass g = (some next, k) → R (done ++ [j]) k)
    (hr : R [] f) :
    ∃ done, Passed c f done pass g ∧ R done g
      ∧ Ends c f count [] calls stopped done := by
  have hbegin := alike_beginTraversal (f := f) c.owner
  have hs0 := hs.alike hbegin
  have hstart := (Passed.start hs.toWellFormed hc).calm hbegin.calm
    (hs0.alive ho)
  exact hsifts.passed_from R hcalm hreject hkeep ho hs0 (hc.alike hbegin)
    hidle hs.toWellFormed hcov hstart (hcalm hr hbegin.calm)

theorem Sifts.passed : ∃ done, Passed c f done pass g
    ∧ Ends c f count [] calls stopped done := by
  obtain ⟨done, hlast, -, hends⟩ :=
    hsifts.passed_with ho hs hc hcov hidle (fun _ _ => True)
      (fun _ _ => trivial) (fun _ _ _ _ => trivial)
      (fun _ _ _ _ _ => trivial) trivial
  exact ⟨done, hlast, hends⟩

end

-- =========================================================== compaction

/-- Storing and letting go show in no place and in no link of a node that
is not freed. -/
theorem shown_stored {items zone : List NodeId} {n : NodeId}
    (hn : ((c.setItems g items).reapAll zone).Spared n) :
    g.Spared n
      ∧ (((c.setItems g items).reapAll zone).node n).position
        = (g.node n).position
      ∧ (((c.setItems g items).reapAll zone).node n).link
        = (g.node n).link := by
  have hcalm := (sheds_reapAll (c.setItems g items) zone).calm
  refine ⟨spared_update.mp (hcalm.ages.spared hn), ?_, ?_⟩
  · rw [hcalm.position hn, setItems, position_setSlot]
  · rw [hcalm.link hn, setItems, link_setSlot]

namespace Passed

/-- For every node, survivors, elements not judged and rejections add up to its
occurrences before the pass. -/
theorem balance (hp : Passed c f done pass g) (n : NodeId) :
    (keptNodes done ++ (c.items f).drop done.length).count n
        + (rejectedNodes done).count n
      = (c.items f).count n := by
  have hcalls := count_keptNodes_add done n
  have hsplit := count_take_add_drop (c.items f) done.length n
  rw [hp.nodes] at hcalls
  rw [List.count_append]
  omega

/-- An element whose call did not reject it was kept, or was not judged. -/
theorem kept_or_ahead (hp : Passed c f done pass g) {i : Nat} {n : NodeId}
    (hi : (c.items f)[i]? = some n)
    (hstays : ¬ ∃ j, done[i]? = some j ∧ j.rejects = true) :
    (∃ j, done[i]? = some j ∧ j.node = n ∧ j.rejects = false)
      ∨ ∃ m, i = done.length + m
        ∧ ((c.items f).drop done.length)[m]? = some n := by
  rcases Nat.lt_or_ge i done.length with hlt | hge
  · refine .inl ⟨done[i], List.getElem?_eq_getElem hlt, ?_, ?_⟩
    · have hnode : (done.map Judgement.node)[i]?
          = ((c.items f).take done.length)[i]? := by rw [hp.nodes]
      rw [List.getElem?_map, List.getElem?_eq_getElem hlt,
        List.getElem?_take, if_pos hlt, hi] at hnode
      exact Option.some.inj hnode
    · cases hj : done[i].rejects with
      | false => rfl
      | true => exact absurd ⟨_, List.getElem?_eq_getElem hlt, hj⟩ hstays
  · refine .inr ⟨i - done.length, by omega, ?_⟩
    rw [List.getElem?_drop, Nat.add_sub_cancel' hge, hi]

theorem mem_keptNodes {j : Judgement} (hj : j ∈ done)
    (hkept : j.rejects = false) : j.node ∈ keptNodes done := by
  refine List.mem_map.mpr ⟨j, List.mem_filter.mpr ⟨hj, ?_⟩, rfl⟩
  rw [hkept]
  rfl

/-- `compact` of a pass, in terms of the calls `done`: it stores the survivors
and what was not judged, lets go of the zone between, and renumbers behind it.
-/
theorem compacted (hp : Passed c f done pass g) :
    ∃ zone, c.items g
        = keptNodes done ++ zone ++ (c.items f).drop done.length
      ∧ pass.compact c g
        = c.renumberFrom
          (fun j => j + (done.length - (keptNodes done).length))
          (keptNodes done).length
          (if done.length = (keptNodes done).length then []
            else (c.items f).drop done.length)
          ((c.setItems g (keptNodes done
            ++ (c.items f).drop done.length)).reapAll zone) := by
  obtain ⟨zone, hperm, hitems⟩ := hp.zones
  have hlen := length_keptNodes_add done
  have hstop : min pass.judged (c.length g) = done.length := by
    have hwithin := hp.within
    rw [length, hp.length_items, hp.judged]
    omega
  have hstart : min pass.kept done.length = (keptNodes done).length := by
    rw [hp.kept]
    omega
  have htake : (c.items g).take (keptNodes done).length
      = keptNodes done := by
    rw [hitems, List.append_assoc, List.take_left]
  have hdrop : (c.items g).drop done.length
      = (c.items f).drop done.length := by
    have hfront : (keptNodes done ++ zone).length = done.length := by
      rw [List.length_append, hperm.length_eq, hlen]
    rw [hitems, ← hfront, List.drop_left, hfront]
  obtain ⟨zone, hzone, hcompact⟩ := compact_eq pass hstop hstart
  rw [htake, hdrop] at hzone hcompact
  exact ⟨zone, hzone, hcompact⟩

/-- Storing the survivors and letting go leave every place `Followed`. -/
theorem followed_stored (hp : Passed c f done pass g)
    {items zone : List NodeId} {n : NodeId}
    (hn : ((c.setItems g items).reapAll zone).Spared n) :
    Followed c f done ((c.setItems g items).reapAll zone) n := by
  obtain ⟨hspared, hposition, -⟩ := shown_stored hn
  have hfollowed := hp.places hspared
  unfold Followed at hfollowed ⊢
  rwa [hposition]

/-- A node linked to the owner after storing and letting go was linked to it
before the pass. -/
theorem owner_stored (hp : Passed c f done pass g)
    {items zone : List NodeId} {n : NodeId}
    (hn : ((c.setItems g items).reapAll zone).Spared n)
    (howner : (((c.setItems g items).reapAll zone).node n).link
      = some c.owner) : (f.node n).link = some c.owner := by
  obtain ⟨hspared, -, hlink⟩ := shown_stored hn
  rcases hp.account.stayed hspared List.not_mem_nil with hsame | ⟨h, -, -⟩
  · rw [← hsame, ← hlink, howner]
  · exact h

/-- An element that was not judged keeps its link to the owner through storing
and letting go. -/
theorem linked_stored (hp : Passed c f done pass g) (hwf : f.WellFormed)
    (hcov : f.Covered) {items zone : List NodeId} {n : NodeId}
    (hn : ((c.setItems g items).reapAll zone).Spared n)
    (hahead : n ∈ (c.items f).drop done.length)
    (howner : (f.node n).link = some c.owner) :
    (((c.setItems g items).reapAll zone).node n).link = some c.owner := by
  obtain ⟨hspared, -, hlink⟩ := shown_stored hn
  rw [hlink]
  exact hp.linked hwf hcov hspared hahead howner

/-- `compact` of a pass is `Placed`: the elements that were rejected are
removed, and the others have their new places. -/
theorem placed (hp : Passed c f done pass g) (hwf : f.WellFormed)
    (hcov : f.Covered) :
    Placed c.owner c.slot [] (c.items f)
      (keptNodes done ++ (c.items f).drop done.length)
      (fun k => ∃ j, done[k]? = some j ∧ j.rejects = true) f
      (pass.compact c g) := by
  obtain ⟨zone, -, hcompact⟩ := hp.compacted
  generalize hnew : keptNodes done ++ (c.items f).drop done.length = new
    at hcompact ⊢
  generalize hk : (c.setItems g new).reapAll zone = k at hcompact
  rw [hcompact]
  have hfollowed : ∀ {n}, k.Spared n → Followed c f done k n := by
    rw [← hk]
    exact fun hn => hp.followed_stored hn
  have howned : ∀ {n}, k.Spared n → (k.node n).link = some c.owner →
      (f.node n).link = some c.owner := by
    rw [← hk]
    exact fun hn => hp.owner_stored hn
  have hlinked : ∀ {n}, k.Spared n → n ∈ (c.items f).drop done.length →
      (f.node n).link = some c.owner →
      (k.node n).link = some c.owner := by
    rw [← hk]
    exact fun hn => hp.linked_stored hwf hcov hn
  have hfront : ∀ {i : Nat} {n : NodeId}, (keptNodes done)[i]? = some n →
      new[i]? = some n := by
    intro i n hi
    rw [← hnew, List.getElem?_append_left (List.getElem?_eq_some_iff.mp hi).1,
      hi]
  have hback : ∀ {i : Nat} {n : NodeId},
      ((c.items f).drop done.length)[i]? = some n →
      new[(keptNodes done).length + i]? = some n := by
    intro i n hi
    rw [← hnew, List.getElem?_append_right (Nat.le_add_right ..),
      Nat.add_sub_cancel_left, hi]
  have hwindow : ∀ {i : Nat} {n : NodeId},
      (if done.length = (keptNodes done).length then []
        else (c.items f).drop done.length)[i]? = some n →
      new[(keptNodes done).length + i]? = some n := by
    intro i n hi
    split at hi
    · cases hi
    · exact hback hi
  refine ⟨fun {i n} hi hkept => ?_, fun {n} hn => ⟨fun h => (by cases h),
    fun _ => ?_, fun {i} _ howner hi hpos hkept => ?_⟩⟩
  · rcases hp.kept_or_ahead hi hkept with ⟨j, hj, rfl, hnot⟩ | ⟨m, -, hm⟩
    · rw [← hnew]
      exact List.mem_append_left _
        (mem_keptNodes (List.mem_of_getElem? hj) hnot)
    · exact List.mem_of_getElem? (hback hm)
  · have hspared := spared_renumberFrom hn
    rcases position_renumberFrom (c := c) _ n _ _ k with
      ⟨hsame, -⟩ | ⟨howner, i, hi, hnow⟩
    · rw [hsame]
      rcases hfollowed hspared with ⟨hstill, -⟩ | ⟨howner, i, hi, hpos⟩
      · exact .inl hstill
      · exact .inr ⟨howner, i, hfront hi, hpos⟩
    · exact .inr ⟨howned hspared howner, _, hwindow hi, hnow⟩
  · have hspared := spared_renumberFrom hn
    rcases position_renumberFrom (c := c) _ n _ _ k with
      ⟨hsame, hmiss⟩ | ⟨-, m, hm, hnow⟩
    · rw [hsame]
      rcases hfollowed hspared with ⟨hstill, hjudged⟩ | ⟨-, m, hm, hnow⟩
      · -- then the element was not judged, and did not move
        rcases hp.kept_or_ahead hi hkept with
          ⟨j, hj, hnode, hnot⟩ | ⟨m, rfl, hm⟩
        · exact absurd hpos (hjudged howner i j hj hnode hnot)
        · by_cases hzero : done.length = (keptNodes done).length
          · exact ⟨_, hback hm, by rw [hstill, hpos, hzero]⟩
          · rw [if_neg hzero] at hmiss
            refine absurd ?_ (hmiss
              (hlinked hspared (List.mem_of_getElem? hm) howner) m hm)
            have hlen := length_keptNodes_add done
            rw [hstill, hpos, base]
            omega
      · exact ⟨m, hfront hm, hnow⟩
    · exact ⟨_, hwindow hm, hnow⟩

variable (hp : Passed c f done pass g) (ho : c.owner ∈ locks)
  (hs : g.Sound checks locks) (hc : c.Fits g)
include hp ho hs hc

omit ho in
private theorem sound_stored (zone : List NodeId) :
    ((c.setItems g (keptNodes done
      ++ (c.items f).drop done.length)).reapAll zone).Sound checks locks := by
  obtain ⟨_, -, hitems⟩ := hp.zones
  have hstored : Touches checks c.owner g
      (c.setItems g (keptNodes done ++ (c.items f).drop done.length)) := by
    refine touches_setItems hc fun m hm => ?_
    refine alive_of_mem_items (c := c) hs.toWellFormed ?_
    rw [hitems, List.append_assoc]
    rcases List.mem_append.mp hm with hm | hm
    · exact List.mem_append_left _ hm
    · exact List.mem_append_right _ (List.mem_append_right _ hm)
  exact (hstored.sound hs).sheds (sheds_reapAll _ zone)

/-- `compact` of a pass is an `Exchange` in which the rejected nodes left. -/
theorem exchange :
    Exchange c.owner c.slot [] (rejectedNodes done)
      (keptNodes done ++ (c.items f).drop done.length) f
      (pass.compact c g) := by
  obtain ⟨zone, -, hcompact⟩ := hp.compacted
  have hs' := sound_stored hp hs hc zone
  rw [hcompact]
  refine ⟨account_renumberFrom (Account.calm (hp.account.store _)
    (sheds_reapAll _ zone).calm (hs'.alive ho)) _ _ _, fun n => ?_⟩
  rw [hp.balance, List.count_nil]
  rfl

end Passed

-- ============================================================ the whole

/-- A call that did not reject, and stopped the pass, leaves the same elements
as a call that kept. -/
private theorem concat_stopped {items : List NodeId} {j : Judgement}
    (hj : j.rejects = false) (hnode : items[done.length]? = some j.node) :
    rejectedNodes (done ++ [j]) = rejectedNodes done
      ∧ keptNodes (done ++ [j]) ++ items.drop (done ++ [j]).length
        = keptNodes done ++ items.drop done.length
      ∧ ∀ k : Nat, (∃ i : Judgement, (done ++ [j])[k]? = some i
          ∧ i.rejects = true)
        ↔ ∃ i : Judgement, done[k]? = some i ∧ i.rejects = true := by
  refine ⟨?_, ?_, fun k => ⟨?_, ?_⟩⟩
  · rw [rejectedNodes_concat, hj]
    exact List.append_nil _
  · obtain ⟨hlt, hget⟩ := List.getElem?_eq_some_iff.mp hnode
    rw [keptNodes_concat, hj, List.drop_eq_getElem_cons hlt, hget,
      List.length_append, List.append_assoc]
    rfl
  · rintro ⟨i, hi, hrejects⟩
    rw [List.getElem?_append] at hi
    split at hi
    · exact ⟨i, hi, hrejects⟩
    · rw [List.mem_singleton.mp (List.mem_of_getElem? hi), hj] at hrejects
      cases hrejects
  · rintro ⟨i, hi, hrejects⟩
    refine ⟨i, ?_, hrejects⟩
    rw [List.getElem?_append_left (List.getElem?_eq_some_iff.mp hi).1, hi]

/-- A pass in terms of its calls, however it ended: the rejected nodes
left, the survivors and what was not judged are there in order, and their
places are right. -/
theorem Sifts.culled {stopped : Option Stop}
    (hsifts : Sifts c (c.length f) ⟨0, 0, 0⟩ (f.beginTraversal c.owner)
      calls pass stopped g)
    (ho : c.owner ∈ locks) (hs : f.Sound checks locks) (hc : c.Fits f)
    (hcov : f.Covered) (hidle : ∀ j ∈ calls, j.Idle checks locks) :
    pass.rejected = (rejectedNodes calls).length
      ∧ calls.map Judgement.node = (c.items f).take calls.length
      ∧ (stopped = none → calls.length = (c.items f).length)
      ∧ Exchange c.owner c.slot [] (rejectedNodes calls)
        (keptNodes calls ++ (c.items f).drop calls.length) f
        (pass.finish checks c g).state
      ∧ Placed c.owner c.slot [] (c.items f)
        (keptNodes calls ++ (c.items f).drop calls.length)
        (fun k => ∃ j, calls[k]? = some j ∧ j.rejects = true) f
        (pass.finish checks c g).state := by
  have hwf := hs.toWellFormed
  have hbegin := alike_beginTraversal (f := f) c.owner
  have hs0 := hs.alike hbegin
  have hc0 := hc.alike hbegin
  obtain ⟨hg, hages⟩ := hsifts.sound ho hs0 hc0 fun j hj => (hidle j hj).1
  obtain ⟨done, hp, hnone, hsome⟩ := hsifts.passed ho hs hc hcov hidle
  have hcg := hc0.ages hages (hg.alive ho)
  have hend : Alike (pass.compact c g) (pass.finish checks c g).state :=
    alike_finish pass
  have hx := (hp.exchange ho hg hcg).calm hend.calm
    ((hend.alive c.owner).trans (hp.exchange ho hg hcg).account.owner)
  have hplaced := (hp.placed hwf hcov).calm hend.calm
  rw [List.nil_append] at hnone hsome
  cases stopped with
  | none =>
      obtain ⟨rfl, hlen⟩ := hnone rfl
      have hall := hlen (by rw [List.length_nil, Nat.zero_add]; rfl)
      exact ⟨hp.rejected, hp.nodes, fun _ => hall, hx, hplaced⟩
  | some why =>
      obtain ⟨j, k, hverdict, hnode, rfl⟩ := hsome why rfl
      have hj : j.rejects = false := by rw [Judgement.rejects, hverdict]
      obtain ⟨hrejected, hnew, hremoved⟩ := concat_stopped hj hnode
      rw [hrejected, hnew]
      simp only [hremoved]
      refine ⟨hp.rejected, ?_, fun h => (by cases h), hx, hplaced⟩
      rw [List.map_append, hp.nodes, List.length_append,
        List.length_singleton, List.take_add_one, hnode]
      rfl

/-- A filtering that answered a number: it counts the rejections, and all
elements were judged, in order. -/
theorem Filtered.culled {count : Nat}
    (hout : Filtered checks c f calls (.ok count h)) (ho : c.owner ∈ locks)
    (hs : f.Sound checks locks) (hc : c.Fits f) (hcov : f.Covered)
    (hidle : ∀ j ∈ calls, j.Idle checks locks) :
    count = (rejectedNodes calls).length
      ∧ calls.map Judgement.node = c.items f
      ∧ Exchange c.owner c.slot [] (rejectedNodes calls) (keptNodes calls)
        f h
      ∧ Placed c.owner c.slot [] (c.items f) (keptNodes calls)
        (fun k => ∃ j, calls[k]? = some j ∧ j.rejects = true) f h := by
  cases hout with
  | finished hsifts hfinish =>
      obtain ⟨hcount, hnodes, hlen, hx, hplaced⟩ :=
        hsifts.culled ho hs hc hcov hidle
      rw [hlen rfl, List.take_length] at hnodes
      rw [hfinish, hlen rfl, List.drop_length, List.append_nil]
        at hx hplaced
      exact ⟨hcount, hnodes, hx, hplaced⟩

end InstructionTree.Collection
