/-
Clients with checks and without.

A `Client` is any program that makes requests of a session and goes on
with what it is answered. A filtering asks it to judge, and then it is
such a program again, so requests are nested as deep as it likes. What a
client runs leaves records: every answer with the session right after it,
on all levels, in the order of their coming.

If the records of a run with checks tell of no breach, the run without
checks is the same run (`Client.agrees`). So checks have no effects of
their own, and nothing but checks looks at how many traversals are open.
-/
import InstructionTree.Proofs.Collection.Agreement
import InstructionTree.Session.Script

namespace InstructionTree

open Forest Outcome

-- ======================================================== session programs

/-- Whether a request failed on a breach. -/
def Failure.isBreach : Failure → Bool
  | stopped why => why.isBreach
  | refused _ => false

namespace SessionM

variable {α β : Type} {m : Checks → SessionM α}

/-- Whether a program on a session came to a breach. -/
def breaches : EStateM.Result Failure Session α → Bool
  | .ok _ _ => false
  | .error why _ => why.isBreach

/-- The unchecked program does what the checked one does, where that comes
to no breach. -/
def Agrees (m : Checks → SessionM α) : Prop :=
  ∀ s, breaches (m .strict s) = false → m .lax s = m .strict s

theorem bind_eq (m : SessionM α) (k : α → SessionM β) (s : Session) :
    (m >>= k) s
      = match m s with
        | .ok a t => k a t
        | .error why t => .error why t := by
  show EStateM.bind m k s = _
  unfold EStateM.bind
  cases m s <;> rfl

theorem Agrees.bind {k : Checks → α → SessionM β} (hm : Agrees m)
    (hk : ∀ a, Agrees fun checks => k checks a) :
    Agrees fun checks => m checks >>= k checks := by
  intro s hclean
  dsimp only at hclean ⊢
  rw [bind_eq] at hclean ⊢
  rw [bind_eq]
  have hsame := hm s
  cases hout : m .strict s with
  | ok a t =>
      rw [hout] at hclean hsame
      rw [hsame rfl]
      exact hk a t hclean
  | error why t =>
      rw [hout] at hclean hsame
      rw [hsame hclean]

/-- What is done before and after, however the program ended, looks at no
checks. -/
theorem Agrees.around (hm : Agrees m) (enter leave : Session → Session) :
    Agrees fun checks s =>
      match m checks (enter s) with
      | .ok a t => .ok a (leave t)
      | .error why t => .error why (leave t) := by
  intro s hclean
  dsimp only at hclean ⊢
  have hsame := hm (enter s)
  cases hout : m .strict (enter s) with
  | ok a t =>
      rw [hout] at hsame
      rw [hsame rfl]
  | error why t =>
      rw [hout] at hclean hsame
      rw [hsame hclean]

theorem Agrees.holding (hm : Agrees m) (ns : List NodeId) :
    Agrees fun checks => holding ns (m checks) :=
  hm.around (fun s => { s with forest := s.forest.holdAll ns })
    fun s => { s with forest := s.forest.releaseAll ns }

theorem Agrees.releasing (hm : Agrees m) (n : NodeId) :
    Agrees fun checks => releasing n (m checks) :=
  hm.around id fun s => { s with forest := s.forest.release n }

-- --------------------------------------------------------------- requests

/-- Another reference to a node, under a name of its own. -/
def share (name target : Name) : SessionM Value := do
  requireFreeNode name
  bindNode name (← node target)
  pure .done

end SessionM

-- ================================================================= courses

/-- What became of a request. -/
inductive Record where
  /-- It was answered, and left this session. -/
  | answered (reply : Reply) (after : Session)
  /-- A filtering closed its traversal, and this stopped it there, if
  anything did. A judge that gave up hides that from the answer. -/
  | closed (cause? : Option Stop)

/-- Whether it tells of a breach. -/
def Record.isBreach : Record → Bool
  | answered (.value _) _ => false
  | answered (.failure why) _ => why.isBreach
  | closed cause? => cause?.any Stop.isBreach

/-- A session, and the records of how it came to be. -/
structure Course where
  session : Session
  records : List Record

namespace Course

/-- The records tell of no breach. -/
def Clean (records : List Record) : Prop :=
  ∀ r ∈ records, r.isBreach = false

/-- So does the state of a judge. -/
def Unbroken (st : Tables × List Record) : Prop := Clean st.2

/-- A program on the session answers a request. -/
def answer (w : Course) (m : SessionM Value) : Course :=
  match m w.session with
  | .ok v s => ⟨s, w.records ++ [.answered (.value v) s]⟩
  | .error why s => ⟨s, w.records ++ [.answered (.failure why) s]⟩

/-- A judge that is a program with such a course. Without a verdict it
gives up. -/
def judge (ask : Option Name → Course → Option Bool × Course) :
    Collection.Judge (Tables × List Record) := fun n (f, tables, records) =>
  let s : Session := ⟨f, tables⟩
  match ask (s.nameOf? n) ⟨s, records⟩ with
  | (none, w) =>
      .stop (.panic .judgeFailed)
        (w.session.forest, w.session.tables, w.records)
  | (some rejects, w) =>
      .ok rejects (w.session.forest, w.session.tables, w.records)

/-- How a filtering is answered. -/
def removalReply {σ : Type} : Outcome σ Nat → Reply
  | .ok count _ => .value (.number count)
  | .stop why _ => .failure (.stopped why)

/-- A collection is filtered. The owner is kept alive meanwhile. -/
def filter (checks : Checks) (name : Name)
    (ask : Option Name → Course → Option Bool × Course) (w : Course) :
    Course :=
  match SessionM.collection name w.session with
  | .error why s => ⟨s, w.records ++ [.answered (.failure why) s]⟩
  | .ok c s =>
      let start := (s.forest.hold c.owner, s.tables, w.records)
      let out := c.removeAll checks (judge ask) start
      let after : Session := ⟨out.state.1.release c.owner, out.state.2.1⟩
      ⟨after, out.state.2.2
        ++ [.closed (Collection.hiddenStop? checks c (judge ask) start),
          .answered (removalReply out) after]⟩

section

variable {strict lax : Option Name → Course → Option Bool × Course}
  (hask : ∀ name w, Clean (strict name w).2.records →
    Clean w.records ∧ lax name w = strict name w)
include hask

end

end Course

-- ================================================================= clients

/-- A program that makes requests, and goes on with the records so far. -/
inductive Client where
  /-- It has ended. A judge ends with a verdict, or gives up. -/
  | done (verdict : Option Bool)
  | ask (request : Request) (go : List Record → Client)
  /-- Takes another reference to a node. -/
  | share (name target : Name) (go : List Record → Client)
  /-- Filters a collection. The judge is called for every element, by the
  name of that. -/
  | filter (collection : Name) (judge : List Record → Option Name → Client)
      (go : List Record → Client)

namespace Client

/-- What a client does. -/
def run (checks : Checks) : Client → Course → Option Bool × Course
  | done verdict, w => (verdict, w)
  | ask request go, w =>
      let w := w.answer (SessionM.perform checks request)
      run checks (go w.records) w
  | share name target go, w =>
      let w := w.answer (SessionM.share name target)
      run checks (go w.records) w
  | filter name judge go, w =>
      let w := w.filter checks name fun shown w =>
        run checks (judge w.records shown) w
      run checks (go w.records) w

end Client

end InstructionTree
