/-
How a pass is brought to its end, whatever its calls have done.

Where nothing forbids it, a call may edit the collection that is being
filtered. Then the pass no longer knows its elements: there may be fewer
than it judged, or more than it began with, and it may be told to keep one
whose index is gone (`Sifts.stopped_by`). It makes no more calls than
there were elements at the start all the same (`Sifts.length_le`).

# The end

The bounds of a pass are cut to what is stored when it ends. So what is
taken out lies within that, and whoever moves is found there
(`Pass.Closes`). Only the count of traversals can break an end off, and
the pass was counted there itself (`closes_finish`).
-/
import InstructionTree.Proofs.Collection.Compaction
import InstructionTree.Proofs.Collection.Versions
import InstructionTree.Proofs.Forest.Works

namespace InstructionTree.Collection

open Forest

variable {checks : Checks} {locks : List NodeId} {c : Collection}
  {f g h : Forest} {n : NodeId} {count start stop : Nat} {pass last : Pass}
  {calls : List Judgement} {stopped : Option Stop} {why : Stop}

-- ================================================================== calls

/-- A pass makes at most `count` calls. -/
theorem Sifts.length_le (hsifts : Sifts c count pass f calls last stopped h) :
    calls.length ≤ count := by
  induction hsifts with
  | full => exact Nat.le_refl 0
  | short => exact Nat.zero_le _
  | failed | lost => exact Nat.succ_le_succ (Nat.zero_le _)
  | rejected _ _ ih | kept _ _ _ ih => exact Nat.succ_le_succ ih

/-- A pass that nothing stopped judged an element with every call, until
it had no more steps or no more elements. -/
theorem Sifts.exhausted (hsifts : Sifts c count pass f calls last stopped h)
    (hstopped : stopped = none) :
    last.judged = pass.judged + calls.length
      ∧ (calls.length = count ∨ c.length h ≤ last.judged) := by
  induction hsifts with
  | full => exact ⟨rfl, .inl rfl⟩
  | short hnone => exact ⟨rfl, .inr (List.getElem?_eq_none_iff.mp hnone)⟩
  | failed | lost => cases hstopped
  | rejected _ _ ih =>
      obtain ⟨hjudged, hend⟩ := ih hstopped
      refine ⟨?_, hend.imp_left (congrArg Nat.succ)⟩
      rw [hjudged, List.length_cons, reject]
      dsimp only
      omega
  | kept _ hkeep _ ih =>
      obtain ⟨hjudged, hend⟩ := ih hstopped
      refine ⟨?_, hend.imp_left (congrArg Nat.succ)⟩
      rw [hjudged, List.length_cons, keep_eq_some hkeep]
      dsimp only
      omega

/-- `keep` fails only if the collection is not longer than `judged`. -/
theorem length_le_of_keep (hle : pass.kept ≤ pass.judged)
    (hkeep : c.keep n pass f = (none, g)) : c.length f ≤ pass.judged := by
  by_contra hgone
  have hjudged : pass.judged < (c.items f).length := Nat.lt_of_not_le hgone
  have hfirst := List.getElem?_eq_getElem (Nat.lt_of_le_of_lt hle hjudged)
  rw [keep_eq hfirst (List.getElem?_eq_getElem hjudged)] at hkeep
  cases hkeep

/-- Whatever stopped a pass came of the last call: that gave up, or it kept
an element and had removed it. -/
theorem Sifts.stopped_by (hsifts : Sifts c count pass f calls last stopped h)
    (hpass : pass.Balanced) (hstopped : stopped = some why) :
    ∃ j, calls.getLast? = some j
      ∧ ((∃ k, j.verdict = .stop why k)
        ∨ why = .panic .noSuchElement ∧ (∃ k, j.verdict = .ok false k)
          ∧ c.length j.after ≤ last.judged) := by
  induction hsifts with
  | full | short => cases hstopped
  | failed =>
      cases hstopped
      exact ⟨_, rfl, .inl ⟨_, rfl⟩⟩
  | lost _ hkeep =>
      cases hstopped
      have hle : _ ≤ _ := Nat.le.intro hpass
      exact ⟨_, rfl, .inr ⟨rfl, ⟨_, rfl⟩, length_le_of_keep hle hkeep⟩⟩
  | rejected _ _ ih =>
      obtain ⟨j, hj, hends⟩ := ih (hpass.reject _ _) hstopped
      exact ⟨j, by rw [List.getLast?_cons, hj]; rfl, hends⟩
  | kept _ hkeep _ ih =>
      obtain ⟨j, hj, hends⟩ := ih (hpass.keep hkeep) hstopped
      exact ⟨j, by rw [List.getLast?_cons, hj]; rfl, hends⟩

-- ============================================================= compaction

/-- A compaction stores what comes before the zone and what comes after it,
frees what nobody keeps any more, and renumbers. -/
private theorem compact_sheds (pass : Pass)
    (hstop : min pass.judged (c.length f) = stop)
    (hstart : min pass.kept stop = start) :
    ∃ k, Sheds (c.setItems f ((c.items f).take start
          ++ (c.items f).drop stop)) k
      ∧ pass.compact c f = c.renumberFrom (fun j => j + (stop - start)) start
        (if stop = start then [] else (c.items f).drop stop) k := by
  obtain ⟨zone, -, hcompact⟩ := compact_eq pass hstop hstart
  exact ⟨_, sheds_reapAll _ zone, hcompact⟩

/-- `compact` changes of a node that lives on only slots and positions. -/
theorem field_compact {α : Type _} {F : Node → α}
    (hF : ∀ x l k, F { x with slots := l, position := k } = F x) (pass : Pass)
    (hn : (pass.compact c f).isAlive n = true) :
    F ((pass.compact c f).node n) = F (f.node n) := by
  obtain ⟨k, hfreed, hcompact⟩ := compact_sheds (c := c) (f := f) pass rfl rfl
  rw [hcompact, isAlive_renumberFrom] at hn
  rw [hcompact, c.field_renumberFrom (fun x k => hF x x.slots k),
    hfreed.node_eq hn]
  exact f.field_setSlot (fun x l => hF x l x.position) ..

/-- `compact` changes no slot but that of the collection. -/
theorem slot_compact_ne (pass : Pass) {i : Nat}
    (hn : (pass.compact c f).isAlive n = true)
    (hne : n = c.owner → i ≠ c.slot) :
    (pass.compact c f).slot n i = f.slot n i := by
  obtain ⟨k, hfreed, hcompact⟩ := compact_sheds (c := c) (f := f) pass rfl rfl
  rw [hcompact, isAlive_renumberFrom] at hn
  have hplaced : ∀ (old : Nat → Nat) (start : Nat) (ns : List NodeId),
      (c.renumberFrom old start ns k).slot n i = k.slot n i :=
    fun old start ns => slot_congr
      (c.field_renumberFrom (F := Node.slots) (fun _ _ => rfl) old n ..) i
  have hkept : k.slot n i = (c.setItems f _).slot n i :=
    slot_congr (congrArg Node.slots (hfreed.node_eq hn)) i
  rw [hcompact, hplaced, hkept]
  by_cases howner : n = c.owner
  · exact f.slot_setSlot_ne _ _ (hne howner) n
  · exact slot_congr (f.slots_setSlot_ne _ _ howner) i

/-- A place moves only with an element behind the zone, by the length of
the zone. -/
theorem position_compact (hstop : min pass.judged (c.length f) = stop)
    (hstart : min pass.kept stop = start)
    (hn : (pass.compact c f).isAlive n = true) :
    ((pass.compact c f).node n).position = (f.node n).position
      ∨ ∃ k, ((c.items f).drop stop)[k]? = some n
        ∧ (f.node n).link = some c.owner
        ∧ (f.node n).position = c.base + (start + k + (stop - start))
        ∧ ((pass.compact c f).node n).position = c.base + (start + k) := by
  obtain ⟨k, hfreed, hcompact⟩ := compact_sheds pass hstop hstart
  rw [hcompact, isAlive_renumberFrom] at hn
  rw [hcompact]
  have hlink : (k.node n).link = (f.node n).link := by
    rw [hfreed.node_eq hn]
    exact f.link_setSlot ..
  have hposition : (k.node n).position = (f.node n).position := by
    rw [hfreed.node_eq hn]
    exact f.position_setSlot ..
  by_cases hempty : stop = start
  · rw [if_pos hempty]
    exact .inl hposition
  rw [if_neg hempty, ← hlink, ← hposition]
  -- nobody is met twice, as everybody moves to the left
  by_cases hmet : ∃ m, ((c.items f).drop stop)[m]? = some n
      ∧ (k.node n).link = some c.owner
      ∧ (k.node n).position = c.base + (start + m + (stop - start))
  · obtain ⟨m, hm, howner, hpos⟩ := hmet
    refine .inr ⟨m, hm, howner, hpos, ?_⟩
    exact position_renumberFrom_left (by omega) _ start m k hm howner hpos
  · left
    rcases position_renumberFrom (c := c) (fun j => j + (stop - start)) n
      ((c.items f).drop stop) start k with ⟨hsame, -⟩ | ⟨howner, -⟩
    · exact hsame
    · exact position_renumberFrom_ne _ n _ start k
        fun m hm hpos => hmet ⟨m, hm, howner, hpos⟩

-- ================================================================ the end

/-- A part of what is stored is taken out, and who comes after it moves
along with its place. -/
def Pass.Cuts (pass : Pass) (c : Collection) (g h : Forest) : Prop :=
  ∃ front zone back, c.items g = front ++ zone ++ back
    ∧ (front ++ zone).length = min pass.judged (c.length g)
    ∧ front.length = min pass.kept (front ++ zone).length
    ∧ c.items h = front ++ back
    ∧ ∀ n, h.isAlive n = true →
      (h.node n).position = (g.node n).position
      ∨ ∃ k, back[k]? = some n ∧ (g.node n).link = some c.owner
        ∧ (g.node n).position = c.base + (front.length + k + zone.length)
        ∧ (h.node n).position = c.base + (front.length + k)

/-- What the end of a pass makes of a forest `g`, whatever that has
become. -/
structure Pass.Closes (pass : Pass) (c : Collection) (g h : Forest) :
    Prop where
  cuts : pass.Cuts c g h
  /-- No other slot changes. -/
  others : ∀ {n i}, h.isAlive n = true → (n = c.owner → i ≠ c.slot) →
    h.slot n i = g.slot n i
  /-- Nobody is attached or detached. -/
  counted : ∀ {n}, h.isAlive n = true →
    (h.node n).link = (g.node n).link
      ∧ (h.node n).slotRefs = (g.node n).slotRefs
  /-- The counter of the owner is lowered once. -/
  depth : ∀ {n}, h.isAlive n = true → (h.node n).depth
    = if n = c.owner then (g.node n).depth.prev else (g.node n).depth
  /-- One version is raised, if anything was rejected. -/
  version : ∀ {n}, h.isAlive n = true → (h.node n).version
    = (g.node n).version + if n = c.owner ∧ pass.rejected ≠ 0 then 1 else 0
  /-- The commit is reported, and nothing else. -/
  events : h.events = if pass.rejected = 0 then g.events
    else g.events.push (.committed (g.node c.owner).opcode
      ((g.node c.owner).version + 1))

theorem cuts_compact (hwf : f.WellFormed) (hc : c.Fits f) (pass : Pass)
    (halive : (pass.compact c f).isAlive c.owner = true)
    (hgh : Alike (pass.compact c f) h) : pass.Cuts c f h := by
  obtain ⟨stop, hstop⟩ : ∃ stop, min pass.judged (c.length f) = stop :=
    ⟨_, rfl⟩
  obtain ⟨start, hstart⟩ : ∃ start, min pass.kept stop = start := ⟨_, rfl⟩
  obtain ⟨zone, hparts, -⟩ := compact_eq pass hstop hstart
  have hfront : ((c.items f).take start).length = start := by
    have hlen : start ≤ (c.items f).length := by
      rw [length] at hstop
      omega
    rw [List.length_take, Nat.min_eq_left hlen]
  have hzone : start + zone.length = stop := by
    have hlength := congrArg List.length hparts
    rw [List.length_append, List.length_append, hfront, List.length_drop]
      at hlength
    rw [length] at hstop
    omega
  refine ⟨(c.items f).take start, zone, (c.items f).drop stop, hparts, ?_,
    ?_, ?_, fun n hn => ?_⟩
  · rw [List.length_append, hfront, hzone, hstop]
  · rw [List.length_append, hfront, hzone, hstart]
  · have hitems := items_compact hwf hc pass halive
    rw [hstop, hstart] at hitems
    exact (slot_congr (hgh.slots c.owner) c.slot).trans hitems
  · rw [hfront, hgh.position, show zone.length = stop - start by omega]
    exact position_compact hstop hstart ((hgh.alive n).symm.trans hn)

/-- `compact` and `endTraversal` after it report nothing, and leave opcode and
version of the owner as they are. -/
theorem unreported_endTraversal (hs : f.Sound checks locks)
    (ho : c.owner ∈ locks) (hc : c.Fits f) (pass : Pass) {u : Unit}
    (hend : endTraversal checks c.owner (pass.compact c f) = .ok u h) :
    h.events = f.events ∧ (h.node c.owner).opcode = (f.node c.owner).opcode
      ∧ (h.node c.owner).version = (f.node c.owner).version := by
  have htouches : Touches checks c.owner f (pass.compact c f) :=
    touches_compact hs.toWellFormed hc pass
  have halive := (htouches.sound hs).alive ho
  have hevents := (pass.compact c f).events_endTraversal checks c.owner
  have halike := alike_endTraversal (f := pass.compact c f) checks c.owner
  have hraises : Raises c.owner 0 (pass.compact c f)
      (endTraversal checks c.owner (pass.compact c f)).state :=
    raises_endTraversal c.owner c.owner
  rw [hend, Outcome.state] at hevents halike hraises
  refine ⟨hevents.trans htouches.events_eq, ?_, ?_⟩
  · rw [halike.opcode,
      field_compact (F := Node.opcode) (fun _ _ _ => rfl) pass halive]
  · rw [hraises.version_eq halive ((halike.alive _).trans halive),
      field_compact (F := Node.version) (fun _ _ _ => rfl) pass halive]

/-- A pass that was counted in can be brought to its end in any forest
where its owner is alive. -/
theorem closes_finish (hs : f.Sound checks locks) (ho : c.owner ∈ locks)
    (hc : c.Fits f) (pass : Pass)
    (hopen : checks.enforced = true → 0 < (f.node c.owner).depth.shown) :
    ∃ h, pass.finish checks c f = .ok () h ∧ pass.Closes c f h := by
  have hwf := hs.toWellFormed
  have htouches : Touches checks c.owner f (pass.compact c f) :=
    touches_compact hwf hc pass
  have halive := (htouches.sound hs).alive ho
  have hsame : ∀ {n}, (pass.compact c f).isAlive n = true →
      ((pass.compact c f).node n).depth = (f.node n).depth :=
    fun hn => field_compact (fun _ _ _ => rfl) pass hn
  rw [← hsame halive] at hopen
  obtain ⟨k, hend, hclosed, hcounted⟩ := endTraversal_counted halive hopen
  have hfinish : pass.finish checks c f
      = .ok () (if pass.rejected = 0 then k else k.commit c.owner) := by
    unfold Pass.finish
    rw [hend]
    rfl
  refine ⟨_, hfinish, ?_⟩
  have halike : Alike (pass.compact c f) (pass.finish checks c f).state :=
    alike_finish pass
  have hraises := raises_finish hfinish
  rw [hfinish, Outcome.state] at halike
  generalize hh : (if pass.rejected = 0 then k else k.commit c.owner) = h
    at halike hraises
  have hcompacted : ∀ {n}, h.isAlive n = true →
      (pass.compact c f).isAlive n = true :=
    fun hn => (halike.alive _).symm.trans hn
  constructor
  case cuts => exact cuts_compact hwf hc pass halive halike
  case others =>
    intro n i hn hne
    exact (slot_congr (halike.slots n) i).trans
      (slot_compact_ne pass (hcompacted hn) hne)
  case counted =>
    intro n hn
    rw [halike.link, halike.slotRefs]
    exact ⟨field_compact (fun _ _ _ => rfl) pass (hcompacted hn),
      field_compact (fun _ _ _ => rfl) pass (hcompacted hn)⟩
  case depth =>
    intro n hn
    have hdepth : (h.node n).depth = (k.node n).depth := by
      rw [← hh]
      split
      · rfl
      · exact k.field_commit (fun _ _ _ => rfl) c.owner n
    rw [hdepth, hcounted, hsame (hcompacted hn)]
  case version =>
    intro n hn
    have hf : f.isAlive n = true := htouches.survivor (hcompacted hn)
    rw [hraises.version hf hn]
    by_cases hnone : pass.rejected = 0
    · simp [hnone]
    · simp [hnone]
  case events =>
    obtain ⟨hevents, hopcode, hversion⟩ :=
      unreported_endTraversal hs ho hc pass hend
    rw [← hh]
    split
    · exact hevents
    · rw [k.events_commit ((hclosed.alive _).trans halive), hevents, hopcode,
        hversion]

end InstructionTree.Collection
