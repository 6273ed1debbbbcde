/-
The faults of operations and questions.

`Operation.fault?` and `Question.fault?` are the table: what is wrong with
a request, by what is stored alone. A request is refused for the fault of
the table and for no other, and then nothing was done but to report an
open traversal (`Sees.refuses_exactly`). This holds wherever a client is,
also in the calls of a judge.

Building a node is not in the table. It attaches its children one by one,
and what these were told stays with them when there are too many.
-/
import InstructionTree.Proofs.Forest.Faults
import InstructionTree.Proofs.Runs.Guarded
import InstructionTree.Proofs.Runs.Seen
import InstructionTree.Session.Request

namespace InstructionTree

open Forest

variable {checks : Checks} {locks : List NodeId} {f g : Forest}

-- ============================================================== operations

/-- The fault of replacing the current element of a cursor, if there is one. -/
def Cursor.fault? (checks : Checks) (cursor : Cursor) (n : NodeId)
    (f : Forest) : Option Fault :=
  match cursor.index? with
  | none => some .noCurrentElement
  | some i => Collection.fault? checks cursor.collection (.set i n) f

namespace Operation

/-- The fault with which `op` ends in `f`, in the order in which the operation
looks for them, if there is one. -/
def fault? (checks : Checks) (f : Forest) : Operation → Option Fault
  | setSlotChild n i _ => (f.node n).opcode.operandFault? i
  | setChild n i _ => f.childFault? n i
  | replaceWith n _ => if f.isStored n then none else some .detached
  | removeFromParent n => f.removalFault? checks n
  | change c ch => Collection.fault? checks c ch f
  | removeAll c _ _ => f.traversalFault? checks c.owner
  | replaceCurrent cursor n => cursor.fault? checks n f
  | notify o .requireUntraversed => f.traversalFault? checks o
  | create .. | build .. | hold _ | drop _ | setOperand .. | flags _
  | openCursor _ | closeCursor _ | notify .. => none

/-- Whether the operation builds a node with children, which can fault after it
attached some of them. -/
def builds : Operation → Bool
  | build .. => true
  | _ => false

variable {op : Operation}

/-- `holdAll` changes no fault: what is wrong with an operation is wrong while
nodes are kept. -/
theorem fault?_holdAll (op : Operation) (ns : List NodeId) :
    op.fault? checks (f.holdAll ns) = op.fault? checks f := by
  have hheld := alike_holdAll (f := f) ns
  have htraversal : ∀ o, (f.holdAll ns).traversalFault? checks o
      = f.traversalFault? checks o := by
    intro o
    unfold traversalFault?
    rw [depth_holdAll, hheld.opcode]
  have hchange : ∀ c ch, Collection.fault? checks c ch (f.holdAll ns)
      = Collection.fault? checks c ch f := by
    intro c ch
    have hlength : c.length (f.holdAll ns) = c.length f :=
      congrArg List.length (slot_congr (hheld.slots c.owner) c.slot)
    unfold Collection.fault?
    rw [hlength, htraversal]
  cases op with
  | setSlotChild n i child =>
      exact congrArg (Opcode.operandFault? · i) (hheld.opcode n)
  | setChild n i m =>
      show (f.holdAll ns).childFault? n i = f.childFault? n i
      have hcount : (f.holdAll ns).childCount n = f.childCount n := by
        simp only [childCount, hheld.opcode, hheld.slots]
      unfold childFault?
      rw [hcount]
  | replaceWith n m =>
      show (if (f.holdAll ns).isStored n then none else some Fault.detached)
        = if f.isStored n then none else some .detached
      unfold isStored
      simp only [hheld.parent?, hheld.children]
  | removeFromParent n =>
      show (f.holdAll ns).removalFault? checks n = f.removalFault? checks n
      unfold removalFault? isStored inCollection
      simp only [hheld.parent?, hheld.children, hheld.placeInParent?,
        hheld.locate?, hheld.opcode, htraversal]
  | change c ch => exact hchange c ch
  | removeAll c judge st => exact htraversal c.owner
  | replaceCurrent cursor n =>
      show cursor.fault? checks n (f.holdAll ns) = cursor.fault? checks n f
      unfold Cursor.fault?
      cases cursor.index? with
      | none => rfl
      | some i => exact hchange cursor.collection (.set i n)
  | notify o r =>
      cases r with
      | requireUntraversed => exact htraversal o
      | attach | detach | commit | beginTraversal | endTraversal => rfl
  | create | build | hold | drop | setOperand | flags | openCursor
  | closeCursor => rfl

/-- `op.body` is refused with `op.fault?` and changes nothing if that is a
fault, and does not end with one otherwise. -/
theorem refuses_body (hwf : f.WellFormed)
    (hbuild : op.builds = false)
    (hanswers : ∀ j ∈ op.calls checks f, ∀ e g,
      j.verdict ≠ .stop (.fault e) g) :
    (op.body checks f).Refuses f (op.fault? checks f) := by
  cases op with
  | build a x ns => cases hbuild
  | setSlotChild n i child => exact refuses_setSlotChild n i child
  | setChild n i m => exact refuses_setChild hwf n i m
  | replaceWith n m => exact refuses_replaceWith hwf n m
  | removeFromParent n => exact refuses_removeFromParent hwf n
  | change c ch =>
      exact Outcome.refuses_map.mpr (Collection.refuses_apply ch)
  | removeAll c judge st =>
      refine Outcome.refuses_map.mpr ?_
      show ((c.removeAll checks judge (f, st)).mapState Prod.fst).Refuses f
        (f.traversalFault? checks c.owner)
      cases hguard : f.isGuarded checks c.owner with
      | true =>
          rw [traversalFault?_of_guard hguard]
          exact (Collection.removeAll_guarded hguard judge st).1
      | false =>
          have hfault := Collection.fault?_removeAll judge st hanswers
          rw [traversalFault?_of_open hguard] at hfault ⊢
          exact (Outcome.fault?_mapState ..).trans hfault
  | replaceCurrent cursor n =>
      show (cursor.replaceCurrent checks n f).Refuses f
        (cursor.fault? checks n f)
      unfold Cursor.replaceCurrent Cursor.fault?
      cases cursor.index? with
      | none => rfl
      | some i =>
          exact Outcome.refuses_map.mp (Collection.refuses_apply (.set i n))
  | closeCursor cursor =>
      exact (Outcome.fault?_next ..).trans (fault?_endTraversal _)
  | notify o r =>
      cases r with
      | attach n => exact fault?_attach o n
      | endTraversal => exact fault?_endTraversal o
      | requireUntraversed =>
          show (guarded checks o _ f).Refuses f (f.traversalFault? checks o)
          cases hguard : f.isGuarded checks o with
          | true =>
              rw [traversalFault?_of_guard hguard, guarded_of_guard _ hguard]
              rfl
          | false =>
              rw [traversalFault?_of_open hguard, guarded_of_open _ hguard]
              rfl
      | beginTraversal =>
          show (unlessSpent checks o (fun f => .ok () (f.beginTraversal o))
            f).fault? = none
          exact fault?_unlessSpent rfl
      | detach | commit => rfl
  | openCursor c =>
      exact (Outcome.fault?_map ..).trans (fault?_unlessSpent rfl)
  | create | hold | drop | setOperand | flags => rfl

/-- `op.run` ends with a fault exactly if `op.fault?` gives one, and with that.
-/
theorem fault?_run (hwf : f.WellFormed) (hbuild : op.builds = false)
    (hanswers : ∀ j ∈ op.calls checks (f.holdAll op.keeps), ∀ e g,
      j.verdict ≠ .stop (.fault e) g) :
    (op.run checks f).fault? = op.fault? checks f := by
  have hbody := refuses_body (hwf.alike (alike_holdAll op.keeps)) hbuild
    hanswers
  rw [fault?_holdAll] at hbody
  exact (Outcome.fault?_always ..).trans hbody.fault?_eq

/-- After a refusal `releaseAll` gives back what `holdAll` took, and leaves the
forest with the report alone. -/
theorem releaseAll_reported {ns : List NodeId} (e : Fault)
    (hns : f.Referenced ns) :
    (e.reported (f.holdAll ns)).releaseAll ns = e.reported f := by
  cases e with
  | invalidDuringTraversal a depth => exact releaseAll_emit _ hns
  | _ =>
      refine (releaseAll_holdAll hns rfl).trans ?_
      rw [events_holdAll, (alike_holdAll ns).overdrafts]
      rfl

/-- A whole operation is refused if something is wrong with it, and then
nothing was done. -/
theorem refuses_run (hready : op.Ready locks f) (hs : f.Sound checks locks)
    (hheld : f.Referenced op.keeps) (hbuild : op.builds = false)
    (hanswers : ∀ j ∈ op.calls checks (f.holdAll op.keeps), ∀ e g,
      j.verdict ≠ .stop (.fault e) g) :
    (op.run checks f).Refuses f (op.fault? checks f) := by
  have hbody := refuses_body (hs.holdAll hready.keeps).toWellFormed hbuild
    hanswers
  rw [fault?_holdAll] at hbody
  unfold run
  cases hfault : op.fault? checks f with
  | none =>
      rw [hfault] at hbody
      exact (Outcome.fault?_always ..).trans hbody
  | some e =>
      rw [hfault] at hbody
      show _ = Outcome.stop (.fault e) (e.reported f)
      rw [show op.body checks (f.holdAll op.keeps) = _ from hbody,
        Outcome.always, releaseAll_reported e hheld]

/-- An edit that panics does so on the check of an attach. -/
theorem panic_of_edit {p : Panic} (hedit : op.isEdit = true)
    (hready : op.Ready locks f) (hs : f.Sound checks locks)
    (hout : op.run checks f = .stop (.panic p) g) :
    ∃ a, p = .notATree a := by
  obtain ⟨o, hcarried⟩ := carried_body
    (hready.alike (alike_holdAll op.keeps)) (hs.holdAll hready.keeps) hedit
  obtain ⟨k, hbody, -⟩ := Outcome.always_eq_stop hout
  rw [hbody] at hcarried
  cases hcarried with
  | broken a => exact ⟨a, rfl⟩

end Operation

-- =============================================================== questions

/-- A query that can answer a fault, and changes nothing. -/
inductive Question where
  | collection (n : NodeId) (i : Nat)
  | named (n : NodeId) (name : String)
  /-- A collection of a node that may have been freed. -/
  | weak (n : NodeId) (i : Nat)
  | slotChild (n : NodeId) (i : Nat)
  | get (c : Collection) (i : Nat)
  /-- A cursor before the first element again. -/
  | reset (cursor : Cursor)

namespace Question

/-- The answer to a question, with its value left out. -/
def ask (checks : Checks) (f : Forest) : Question → Except Fault Unit
  | collection n i => (Collection.at? f n i).map fun _ => ()
  | named n name => (Collection.named? f n name).map fun _ => ()
  | weak n i => (Collection.ofWeak? f n i).map fun _ => ()
  | slotChild n i => (f.slotChild? n i).map fun _ => ()
  | get c i => (c.get? f i).map fun _ => ()
  | reset cursor => (cursor.reset checks).map fun _ => ()

/-- The fault that a question is answered with, if there is one. -/
def fault? (checks : Checks) (f : Forest) : Question → Option Fault
  | collection n i => (f.node n).opcode.collectionFault? i
  | named n name =>
      let op := (f.node n).opcode
      match op.slotIndex? name with
      | some i => op.collectionFault? i
      | none => some (.unknownSlot op op.layout.length)
  | weak n i =>
      if f.isAlive n then (f.node n).opcode.collectionFault? i
      else some .missingOwner
  | slotChild n i => (f.node n).opcode.operandFault? i
  | get c i =>
      if c.length f ≤ i then some (.outOfBounds i (c.length f)) else none
  | reset cursor =>
      if cursor.place ≠ .notStarted ∧ checks = .strict then some .cursorReset
      else none

/-- The answer, as far as faults go. -/
def answer : Option Fault → Except Fault Unit
  | none => .ok ()
  | some e => .error e

theorem map_at? (n : NodeId) (i : Nat) :
    (Collection.at? f n i).map (fun _ => ())
      = answer ((f.node n).opcode.collectionFault? i) := by
  rw [at?_eq]
  cases (f.node n).opcode.collectionFault? i <;> rfl

/-- A question is answered with the fault of the table, and with a value where
the table has none. -/
theorem ask_eq (hwf : f.WellFormed) (q : Question) :
    q.ask checks f = answer (q.fault? checks f) := by
  cases q with
  | collection n i => exact map_at? n i
  | named n name =>
      simp only [ask, fault?, Collection.named?, map_at?]
      cases (f.node n).opcode.slotIndex? name with
      | some i => rfl
      | none =>
          -- there is no slot past the layout
          have hnone : (f.node n).opcode.slot? (f.node n).opcode.layout.length
              = none := List.getElem?_eq_none (Nat.le_refl _)
          rw [Option.getD_none, hwf.layout, Opcode.collectionFault?, hnone]
  | weak n i =>
      simp only [ask, fault?, Collection.ofWeak?]
      by_cases halive : f.isAlive n = true
      · rw [if_pos halive, if_pos halive]
        exact map_at? n i
      · rw [if_neg halive, if_neg halive]
        rfl
  | slotChild n i =>
      simp only [ask, fault?, slotChild?, checkOperandSlot_eq]
      cases (f.node n).opcode.operandFault? i with
      | none => rfl
      | some e => rfl
  | get c i =>
      simp only [ask, fault?, Collection.get?]
      by_cases hi : c.length f ≤ i
      · rw [if_pos hi, List.getElem?_eq_none hi]
        rfl
      · obtain ⟨n, hn⟩ := Collection.exists_getElem? (Nat.lt_of_not_le hi)
        rw [if_neg hi, hn]
        rfl
  | reset cursor =>
      simp only [ask, fault?, Cursor.reset]
      by_cases hplace : cursor.place = .notStarted
      · rw [if_pos hplace, if_neg fun h => h.1 hplace]
        rfl
      · rw [if_neg hplace]
        cases checks with
        | strict => simp [Checks.enforced, hplace, Except.map, answer]
        | lax => simp [Checks.enforced, Except.map, answer]

end Question

-- ================================================================== faults

namespace Sees

variable {permits : Permit}

/-- Faults are exact: a request is refused for the fault of the table, and
for no other. They are atomic: whatever is refused has changed no node.
Edits do not break off on an index, and those that are not refused count
to no index past the end.

All this holds wherever a client is, with checks on or off, if it has what
it mentions, and if the judges of filterings answer or break off. -/
theorem refuses_exactly (hf : Sees checks permits locks f) :
    (∀ op : Operation, op.Ready locks f → f.Referenced op.keeps →
      op.builds = false →
      (∀ j ∈ op.calls checks (f.holdAll op.keeps), ∀ e g,
        j.verdict ≠ .stop (.fault e) g) →
      (op.run checks f).Refuses f (op.fault? checks f)
      ∧ (op.fault? checks f ≠ none →
        ∀ n, (op.run checks f).state.get? n = f.get? n)
      ∧ (op.isEdit = true → ∀ p g, op.run checks f = .stop (.panic p) g →
        ∃ a, p = .notATree a)
      ∧ (op.fault? checks f = none → ∀ c ch, op = .change c ch →
        ∀ i ∈ ch.indices, i ≤ c.length f))
    ∧ (∀ q : Question, q.ask checks f = Question.answer (q.fault? checks f))
    ∧ ∀ t n i, SessionM.answerNode n (.descriptor i) ⟨f, t⟩
      = match (f.node n).opcode.slot? i with
        | some s => .ok (.descriptor s) ⟨f, t⟩
        | none => .error (.stopped (.fault (.unknownSlot
            (f.node n).opcode i))) ⟨f, t⟩ := by
  have hs := hf.sound
  refine ⟨fun op hready hheld hbuild hanswers => ?_,
    Question.ask_eq hs.toWellFormed, fun t n i => ?_⟩
  · have hrun := Operation.refuses_run hready hs hheld hbuild hanswers
    refine ⟨hrun, fun hfault n => ?_, fun hedit p g hout =>
      Operation.panic_of_edit hedit hready hs hout, fun hnone c ch hop => ?_⟩
    · obtain ⟨e, he⟩ := Option.ne_none_iff_exists'.mp hfault
      rw [he] at hrun
      rw [show op.run checks f = _ from hrun]
      exact e.get?_reported f n
    · subst hop
      have hinside := (Option.or_eq_none_iff.mp hnone).2
      exact fun i hi =>
        Change.le_of_inside (Option.map_eq_none_iff.mp hinside) hi
  · show (match (f.node n).opcode.slot? i with
      | some s => pure (Value.descriptor s)
      | none => SessionM.ofExcept (.error (.unknownSlot _ i)) :
        SessionM Value) ⟨f, t⟩ = _
    cases (f.node n).opcode.slot? i with
    | none => rfl
    | some s => rfl

/-- A block of two elements. A range that would end past the largest index
there is, is refused with that index; while a cursor is open an insertion
is refused before its index is looked at. -/
theorem refuses_exactly_of_block :
    let c : Collection := ⟨⟨0⟩, 0⟩
    let ops : List Operation :=
      [.create .block .none, .hold ⟨0⟩, .create .nop .none, .hold ⟨1⟩,
        .create .nop .none, .hold ⟨2⟩, .change c (.addRange [⟨1⟩, ⟨2⟩])]
    let f := played .strict ops ∅
    let g := played .strict (ops ++ [.openCursor c]) ∅
    let range : Operation := .change c (.removeRange 1 maxIndex)
    let insertion : Operation := .change c (.insert maxIndex ⟨1⟩)
    Sees .strict Plain [] f ∧ Sees .strict Plain [] g
    ∧ range.Ready [] f ∧ f.Referenced range.keeps
    ∧ insertion.Ready [] g ∧ g.Referenced insertion.keeps
    ∧ range.run .strict f = .stop (.fault (.outOfBounds maxIndex 2)) f
    ∧ insertion.run .strict g
      = .stop (.fault (.invalidDuringTraversal .block 1))
        (g.emit (.rejected .block 1)) := by
  intro c ops f g range insertion
  have hplays : Plays .strict (fun _ _ => true) [] (ops ++ [.openCursor c]) ∅
    := by decide +kernel
  have hg : Sees .strict Plain [] g :=
    .between (hplays.runs (fun hop _ => hop.plain) .refl)
  have hbefore : Plays .strict (fun _ _ => true) [] ops ∅ := by
    decide +kernel
  have hf : Sees .strict Plain [] f :=
    .between (hbefore.runs (fun hop _ => hop.plain) .refl)
  have hrange : range.Ready [] f ∧ f.Referenced range.keeps := by
    decide +kernel
  have hinsertion : insertion.Ready [] g ∧ g.Referenced insertion.keeps := by
    decide +kernel
  have hpast : range.fault? .strict f = some (.outOfBounds maxIndex 2) := by
    decide +kernel
  have hopen : insertion.fault? .strict g
      = some (.invalidDuringTraversal .block 1) := by
    decide +kernel
  clear_value f g
  have hend := (hf.refuses_exactly.1 range hrange.1 hrange.2 rfl
    fun j hj => by cases hj).1
  have hguard := (hg.refuses_exactly.1 insertion hinsertion.1 hinsertion.2 rfl
    fun j hj => by cases hj).1
  rw [hpast] at hend
  rw [hopen] at hguard
  exact ⟨hf, hg, hrange.1, hrange.2, hinsertion.1, hinsertion.2, hend,
    hguard⟩

end Sees

end InstructionTree
