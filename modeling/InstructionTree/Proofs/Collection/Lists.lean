/-
Collections as plain lists.

`ListEdit` is an edit of a plain list of nodes, `Makes` says what it makes
of the list and what it answers, and `Entry.Plays` adds how a list that
can be guarded answers requests that it refuses. Nothing here speaks of
owners, links, places or counters. `plays_apply` and `plays_removeAll` are
the simulation: a collection that was asked for an edit holds what the plain
list would.

`remove` and `moveToEnd` may take any occurrence of the node; which one
depends on the places that nodes remember. What a filtering rejects is up
to its judge, so its edit lists the verdicts.
-/
import InstructionTree.Proofs.Collection.Culling
import InstructionTree.Proofs.Collection.Faults

namespace InstructionTree

-- ============================================================ plain lists

/-- The answer of a program: its value, or its fault; none if it panicked. -/
def Outcome.answer? {σ α : Type} : Outcome σ α → Option (Except Fault α)
  | .ok a _ => some (.ok a)
  | .stop (.fault e) _ => some (.error e)
  | .stop (.panic _) _ => none

theorem Outcome.answer?_map {σ α β : Type} (k : α → β) (out : Outcome σ α) :
    (out.map k).answer? = out.answer?.map fun a => a.map k := by
  cases out with
  | ok a s => rfl
  | stop why s => cases why <;> rfl

theorem Outcome.answer?_always {σ α : Type} (k : σ → σ)
    (out : Outcome σ α) : (out.always k).answer? = out.answer? := by
  cases out with
  | ok a s => rfl
  | stop why s => cases why <;> rfl

theorem Outcome.answer?_mapState {σ τ α : Type} (k : σ → τ)
    (out : Outcome σ α) : (out.mapState k).answer? = out.answer? := by
  cases out with
  | ok a s => rfl
  | stop why s => cases why <;> rfl

/-- An edit of a plain list. -/
inductive ListEdit where
  | change (ch : Change NodeId)
  /-- A filtering, with the nodes in the order in which they were judged,
  and whether they were rejected. -/
  | filter (judged : List (NodeId × Bool))

/-- What an edit of a plain list answers. -/
inductive ListAnswer where
  | change (answer : ChangeAnswer)
  | count (n : Nat)
deriving DecidableEq

namespace ListEdit

/-- `xs.Makes edit answer ys`: on the list `xs` the edit answers `answer` and
leaves `ys`. -/
inductive Makes (xs : List NodeId) :
    ListEdit → ListAnswer → List NodeId → Prop where
  | set {i : Nat} {n : NodeId} (hi : i < xs.length) :
      Makes xs (.change (.set i n)) (.change .done) (xs.set i n)
  | add {n : NodeId} :
      Makes xs (.change (.add n)) (.change .done) (xs ++ [n])
  | addRange {ns : List NodeId} :
      Makes xs (.change (.addRange ns)) (.change .done) (xs ++ ns)
  | insert {i : Nat} {n : NodeId} (hi : i ≤ xs.length) :
      Makes xs (.change (.insert i n)) (.change .done) (xs.insertIdx i n)
  | removeAt {i : Nat} {old : NodeId} (hold : xs[i]? = some old) :
      Makes xs (.change (.removeAt i)) (.change (.removed old))
        (xs.eraseIdx i)
  /-- One occurrence is erased. -/
  | remove {i : Nat} {n : NodeId} (hn : xs[i]? = some n) :
      Makes xs (.change (.remove n)) (.change (.wasThere true))
        (xs.eraseIdx i)
  | removeNone {n : NodeId} (hn : n ∉ xs) :
      Makes xs (.change (.remove n)) (.change (.wasThere false)) xs
  | removeRange {i count : Nat} (hend : i + count ≤ xs.length) :
      Makes xs (.change (.removeRange i count)) (.change .done)
        (xs.take i ++ xs.drop (i + count))
  /-- The last element takes the place of the one that is removed. -/
  | swapRemoveAt {i : Nat} {old last : NodeId} (hold : xs[i]? = some old)
      (hlast : xs.getLast? = some last) :
      Makes xs (.change (.swapRemoveAt i)) (.change (.removed old))
        (xs.set i last).dropLast
  | clear : Makes xs (.change .clear) (.change .done) []
  | move {a b : Nat} {n : NodeId} (hn : xs[a]? = some n)
      (hb : b < xs.length) :
      Makes xs (.change (.move a b)) (.change .done)
        ((xs.eraseIdx a).insertIdx b n)
  /-- One occurrence is moved. -/
  | moveToEnd {i : Nat} {n : NodeId} (hn : xs[i]? = some n) :
      Makes xs (.change (.moveToEnd n)) (.change (.wasThere true))
        (xs.eraseIdx i ++ [n])
  | moveToEndNone {n : NodeId} (hn : n ∉ xs) :
      Makes xs (.change (.moveToEnd n)) (.change (.wasThere false)) xs
  | replaceList {ns : List NodeId} :
      Makes xs (.change (.replaceList ns)) (.change .done) ns
  /-- Every element is judged once, in order. -/
  | filter {judged : List (NodeId × Bool)} (hall : judged.map Prod.fst = xs) :
      Makes xs (.filter judged) (.count (judged.countP Prod.snd))
        ((judged.filter fun j => !j.2).map Prod.fst)

/-- Whether a guarded list refuses the edit. -/
def structural : ListEdit → Bool
  | change ch => !ch.exchanges
  | filter _ => true

/-- The index that the edit needs and a list of this length does not have, if
there is one. -/
def outside? (length : Nat) : ListEdit → Option Nat
  | change ch => ch.outside? length
  | filter _ => none

/-- `move a b` and then `move b a` leads back to the same list. -/
theorem Makes.move_back {xs ys zs : List NodeId} {a b : Nat}
    {there back : ListAnswer}
    (hthere : Makes xs (.change (.move a b)) there ys)
    (hback : Makes ys (.change (.move b a)) back zs) : zs = xs := by
  cases hthere with
  | @move _ _ n hn hb =>
      obtain ⟨ha, hget⟩ := List.getElem?_eq_some_iff.mp hn
      have herased := List.length_eraseIdx_of_lt ha
      have hmoved : ((xs.eraseIdx a).insertIdx b n)[b]? = some n := by
        rw [List.getElem?_insertIdx_self, if_pos (by omega)]
      cases hback with
      | move hn' _ =>
          cases hmoved.symm.trans hn'
          rw [List.eraseIdx_insertIdx_self, ← hget,
            List.insertIdx_eraseIdx_getElem ha]

/-- `move` keeps the length of the list. -/
theorem Makes.length_move {xs ys : List NodeId} {a b : Nat}
    {answer : ListAnswer} (hmade : Makes xs (.change (.move a b)) answer ys) :
    ys.length = xs.length := by
  cases hmade with
  | move hn hb =>
      have ha := (List.getElem?_eq_some_iff.mp hn).1
      have herased := List.length_eraseIdx_of_lt ha
      rw [List.length_insertIdx, if_pos (by omega)]
      omega

end ListEdit

/-- A request to a list, whether the list was guarded, and its answer. -/
structure Entry where
  edit : ListEdit
  guarded : Bool
  answer : Except Fault ListAnswer

/-- How a plain list takes a request: it refuses it, finds an index outside, or
`Makes` the edit. -/
inductive Entry.Plays (xs : List NodeId) : Entry → List NodeId → Prop where
  /-- A guarded list refuses what is structural. -/
  | refused {edit : ListEdit} (hstructural : edit.structural = true)
      (op : Opcode) (depth : Nat) :
      Plays xs ⟨edit, true, .error (.invalidDuringTraversal op depth)⟩ xs
  /-- There is no such index. -/
  | outside {edit : ListEdit} {guarded : Bool} {i : Nat}
      (hfree : edit.structural = true → guarded = false)
      (hout : edit.outside? xs.length = some i) :
      Plays xs ⟨edit, guarded, .error (.outOfBounds i xs.length)⟩ xs
  | done {edit : ListEdit} {guarded : Bool} {answer : ListAnswer}
      {ys : List NodeId} (hfree : edit.structural = true → guarded = false)
      (hmakes : edit.Makes xs answer ys) :
      Plays xs ⟨edit, guarded, .ok answer⟩ ys

/-- A log of requests leads from one list to another, each entry by `Plays`. -/
inductive Replays : List NodeId → List Entry → List NodeId → Prop where
  | refl {xs : List NodeId} : Replays xs [] xs
  | step {xs ys zs : List NodeId} {log : List Entry} {entry : Entry}
      (hlog : Replays xs log ys) (hentry : entry.Plays ys zs) :
      Replays xs (log ++ [entry]) zs

open Forest

variable {checks : Checks} {locks : List NodeId} {c : Collection}
  {f g : Forest}

-- =========================================================== simulation

namespace Collection

theorem indexOf?_eq_none {n : NodeId} (hnone : c.indexOf? f n = none) :
    n ∉ c.items f := by
  intro hn
  have hscan := (Option.or_eq_none_iff.mp hnone).2
  rw [List.findIdx?_eq_none_iff] at hscan
  simpa using hscan n hn

/-- `contains` answers `true` exactly for the elements. -/
theorem contains_iff {n : NodeId} :
    c.contains f n = true ↔ n ∈ c.items f := by
  unfold contains
  cases hfound : c.indexOf? f n with
  | none => exact iff_of_false nofun (indexOf?_eq_none hfound)
  | some i =>
      exact iff_of_true rfl
        (List.mem_of_getElem? (getElem?_of_indexOf? hfound))

/-- An edit that looks a node up with `indexOf?` answers whether it was found.
-/
theorem answer_of_lookup {α : Type} {n : NodeId} {yes : Bool}
    (edit : Nat → Edit α)
    (hout : guarded checks c.owner (fun f => match c.indexOf? f n with
      | none => .ok false f
      | some i => (edit i f).map fun _ => true) f = .ok yes g) :
    yes = (c.indexOf? f n).isSome := by
  obtain ⟨-, hbody⟩ := guarded_eq_ok hout
  cases hfound : c.indexOf? f n with
  | none =>
      rw [hfound] at hbody
      cases hbody
      rfl
  | some i =>
      rw [hfound] at hbody
      obtain ⟨_, -, rfl⟩ := Outcome.map_eq_ok hbody
      rfl

theorem remove_answer {n : NodeId} {yes : Bool}
    (hout : c.remove checks n f = .ok yes g) :
    yes = (c.indexOf? f n).isSome :=
  answer_of_lookup (c.removeAt checks) hout

theorem moveToEnd_answer {n : NodeId} {yes : Bool}
    (hout : c.moveToEnd checks n f = .ok yes g) :
    yes = (c.indexOf? f n).isSome :=
  answer_of_lookup (fun i f => c.move checks i (c.length f - 1) f) hout

/-- A change that succeeded `Makes` on the list of elements what
`Change.result` says, with the same answer. -/
theorem makes_result {ch : Change NodeId} {answer : ChangeAnswer}
    (hout : c.apply checks ch f = .ok answer g) :
    (ListEdit.change ch).Makes (c.items f) (.change answer)
      (ch.result (c.indexOf? f) (c.items f)) := by
  cases ch with
  | set i n =>
      obtain ⟨_, hedit, rfl⟩ := Outcome.map_eq_ok hout
      obtain ⟨old, hold, -⟩ := set_eq_ok hedit
      exact .set (List.getElem?_eq_some_iff.mp hold).1
  | add n =>
      obtain ⟨_, -, rfl⟩ := Outcome.map_eq_ok hout
      exact .add
  | addRange ns =>
      obtain ⟨_, -, rfl⟩ := Outcome.map_eq_ok hout
      exact .addRange
  | insert i n =>
      obtain ⟨_, hedit, rfl⟩ := Outcome.map_eq_ok hout
      exact .insert (insert_eq_ok hedit).1
  | removeAt i =>
      obtain ⟨old, hedit, rfl⟩ := Outcome.map_eq_ok hout
      exact .removeAt (removeAt_eq_ok hedit).1
  | remove n =>
      obtain ⟨yes, hedit, rfl⟩ := Outcome.map_eq_ok hout
      obtain rfl := remove_answer hedit
      rw [Change.result]
      cases hfound : c.indexOf? f n with
      | none => exact .removeNone (indexOf?_eq_none hfound)
      | some i => exact .remove (getElem?_of_indexOf? hfound)
  | removeRange i count =>
      obtain ⟨_, hedit, rfl⟩ := Outcome.map_eq_ok hout
      exact .removeRange (removeRange_eq_ok hedit).1
  | swapRemoveAt i =>
      obtain ⟨old, hedit, rfl⟩ := Outcome.map_eq_ok hout
      obtain ⟨last, hold, hlast, -⟩ := swapRemoveAt_eq_ok hedit
      rw [Change.result, hlast]
      exact .swapRemoveAt hold hlast
  | clear =>
      obtain ⟨_, -, rfl⟩ := Outcome.map_eq_ok hout
      exact .clear
  | move a b =>
      obtain ⟨_, hedit, rfl⟩ := Outcome.map_eq_ok hout
      obtain ⟨n, hn, hb, -⟩ := move_eq_ok hedit
      rw [Change.result, hn]
      exact .move hn hb
  | moveToEnd n =>
      obtain ⟨yes, hedit, rfl⟩ := Outcome.map_eq_ok hout
      obtain rfl := moveToEnd_answer hedit
      rw [Change.result]
      cases hfound : c.indexOf? f n with
      | none => exact .moveToEndNone (indexOf?_eq_none hfound)
      | some i =>
          have hn := getElem?_of_indexOf? hfound
          have hi := (List.getElem?_eq_some_iff.mp hn).1
          have herased := List.length_eraseIdx_of_lt hi
          show ListEdit.Makes (c.items f) _ _
            (((c.items f).eraseIdx i).insertIdx ((c.items f).length - 1) n)
          rw [← herased, List.insertIdx_length_self]
          exact .moveToEnd hn
  | replaceList ns =>
      obtain ⟨_, -, rfl⟩ := Outcome.map_eq_ok hout
      exact .replaceList

/-- After a change that succeeded the elements are `Change.result` of those
before. -/
theorem items_apply {ch : Change NodeId} {answer : ChangeAnswer}
    (hs : f.Sound checks locks) (hc : c.Fits f) (ho : c.owner ∈ locks)
    (hns : ∀ n ∈ ch.nodes, n ∈ locks)
    (hout : c.apply checks ch f = .ok answer g) :
    c.items g = ch.result (c.indexOf? f) (c.items f) := by
  have hcarried : Carried checks c.owner f (c.apply checks ch f) :=
    carried_apply hs hc ho hns
  have halive := (hcarried.sound_of_ok hs hout).alive ho
  obtain ⟨k, hx, hsheds⟩ := exchange_apply hs hc ho hns hout
  rw [items_sheds hsheds halive]
  exact items_of_exchange hx

/-- A `removeAll` that answered a number `Makes` on the list of elements the
filtering with the same verdicts. -/
theorem makes_removeAll {calls : List Judgement} {count : Nat}
    (hs : f.Sound checks locks) (hc : c.Fits f) (hcov : f.Covered)
    (ho : c.owner ∈ locks) (hidle : ∀ j ∈ calls, j.Idle checks locks)
    (hout : Filtered checks c f calls (.ok count g)) :
    (ListEdit.filter (calls.map fun j => (j.node, j.rejects))).Makes
      (c.items f) (.count count) (c.items g) := by
  obtain ⟨hcount, hnodes, hx, -⟩ := hout.culled ho hs hc hcov hidle
  have hkept : c.items g = ((calls.map fun j =>
      (j.node, j.rejects)).filter fun j => !j.2).map Prod.fst := by
    rw [items_of_exchange hx, List.filter_map, List.map_map]
    rfl
  have hrejected : count
      = (calls.map fun j => (j.node, j.rejects)).countP Prod.snd := by
    rw [hcount, rejectedNodes, List.length_map, ← List.countP_eq_length_filter,
      List.countP_map]
    rfl
  rw [hkept, hrejected]
  refine .filter ?_
  rw [List.map_map]
  exact hnodes

/-- A request to the collection is taken as the list takes it, unless the
check of an attach breaks it off. -/
theorem plays_apply {ch : Change NodeId} {answer : Except Fault ChangeAnswer}
    (hs : f.Sound checks locks) (hc : c.Fits f) (ho : c.owner ∈ locks)
    (hns : ∀ n ∈ ch.nodes, n ∈ locks)
    (hanswer : (c.apply checks ch f).answer? = some answer) :
    Entry.Plays (c.items f)
      ⟨.change ch, f.isGuarded checks c.owner, answer.map .change⟩
      (c.items (c.apply checks ch f).state) := by
  by_cases hguard : ch.exchanges = false ∧ f.isGuarded checks c.owner = true
  · rw [apply_guarded hguard.2 hguard.1] at hanswer ⊢
    cases hanswer
    rw [hguard.2]
    exact .refused (by simp [ListEdit.structural, hguard.1]) _ _
  · have hopen : ch.exchanges = false →
        f.isGuarded checks c.owner = false := by
      simpa using hguard
    have hfree : (ListEdit.change ch).structural = true →
        f.isGuarded checks c.owner = false := by
      simpa [ListEdit.structural] using hopen
    cases hout : ch.outside? (c.length f) with
    | some i =>
        rw [apply_outside hopen hout] at hanswer ⊢
        cases hanswer
        exact .outside hfree hout
    | none =>
        have hfault := apply_inside hopen hout
        cases happly : c.apply checks ch f with
        | ok a g =>
            rw [happly] at hanswer
            cases hanswer
            refine .done hfree ?_
            rw [Outcome.state, items_apply hs hc ho hns happly]
            exact makes_result happly
        | stop why g =>
            rw [happly] at hanswer hfault
            cases why with
            | fault e => cases hfault
            | panic p => cases hanswer

/-- A filtering is taken as the list takes it, if its judge answers and
edits nothing. -/
theorem plays_removeAll {σ : Type} {judge : Judge σ} {st : σ}
    {answer : Except Fault Nat}
    (hs : f.Sound checks locks) (hc : c.Fits f) (hcov : f.Covered)
    (ho : c.owner ∈ locks)
    (hidle : ∀ j ∈ c.removalCalls checks judge (f, st), j.Idle checks locks)
    (hanswers : ∀ j ∈ c.removalCalls checks judge (f, st), ∃ yes,
      j.verdict = .ok yes j.after)
    (hanswer : (c.removeAll checks judge (f, st)).answer? = some answer) :
    Entry.Plays (c.items f)
      ⟨.filter ((c.removalCalls checks judge (f, st)).map
          fun j => (j.node, j.rejects)),
        f.isGuarded checks c.owner, answer.map .count⟩
      (c.items ((c.removeAll checks judge (f, st)).mapState Prod.fst).state)
    := by
  have hfault : (c.removeAll checks judge (f, st)).fault? = _ :=
    fault?_removeAll judge st fun j hj e g hverdict => by
      obtain ⟨yes, hyes⟩ := hanswers j hj
      cases hyes.symm.trans hverdict
  have hfiltered := filtered_removeAll checks c judge f st
  cases hguard : f.isGuarded checks c.owner with
  | true =>
      obtain ⟨hrefused, hnone⟩ := removeAll_guarded hguard judge st
      rw [← Outcome.answer?_mapState Prod.fst, hrefused] at hanswer
      cases hanswer
      rw [hnone, hrefused]
      exact .refused rfl _ _
  | false =>
      rw [traversalFault?_of_open hguard] at hfault
      cases hout : c.removeAll checks judge (f, st) with
      | ok count s =>
          rw [hout] at hanswer hfiltered
          cases hanswer
          exact .done (fun _ => rfl)
            (makes_removeAll hs hc hcov ho hidle hfiltered)
      | stop why s =>
          rw [hout] at hfault hanswer
          cases why with
          | fault e => cases hfault
          | panic p => cases hanswer

end Collection

end InstructionTree
