/-
Runs of operations.

An `Operation` is one call of a client, with its arguments. While it runs,
the nodes it mentions are kept alive; a filtering operation also calls the
client back, once for every element it judges, and in such a call the
client may run further operations.

# Who may be let go of

A client can only give back a reference that it has. `locks` lists the
references that the operations under way have taken for themselves: they
count among the handles of a node, but they are not the client's to give
back (`Operation.Ready`).

# Runs

`Runs` are operations one after the other, where the calls of a filtering
operation are runs in turn, with its locks added. What a run may consist
of is the business of `permits`, which sees every operation, where it
started and how it ended, on all levels. There are no other assumptions:
a judge may be any program whose calls are such runs.
-/
import InstructionTree.Cursor
import InstructionTree.Proofs.Collection.Sifting
import InstructionTree.Proofs.Forest.Steps

namespace InstructionTree

-- ============================================================ operations

/-- What a client can tell an owner directly about its slots, traversals and
versions. -/
inductive Notice where
  | attach (child : NodeId)
  | detach (child : NodeId)
  | commit
  | beginTraversal
  | endTraversal
  | requireUntraversed

/-- One call of a client. Those that go through a slot, a collection or a
cursor name it. -/
inductive Operation : Type 1 where
  | create (op : Opcode) (x : Operand)
  | build (op : Opcode) (x : Operand) (children : List NodeId)
  /-- Takes a reference. -/
  | hold (n : NodeId)
  /-- Gives a reference back. -/
  | drop (n : NodeId)
  | setOperand (n : NodeId) (x : Operand)
  | flags (n : NodeId)
  | setSlotChild (n : NodeId) (i : Nat) (child : Option NodeId)
  | setChild (n : NodeId) (i : Nat) (child : NodeId)
  | replaceWith (n replacement : NodeId)
  | removeFromParent (n : NodeId)
  | change (c : Collection) (change : Change NodeId)
  | removeAll {σ : Type} (c : Collection) (judge : Collection.Judge σ)
      (st : σ)
  | openCursor (c : Collection)
  | closeCursor (cursor : Cursor)
  | replaceCurrent (cursor : Cursor) (n : NodeId)
  /-- Tells an owner directly. -/
  | notify (o : NodeId) (r : Notice)

/-- The nodes that a notice is about. -/
def Notice.nodes : Notice → List NodeId
  | attach n | detach n => [n]
  | commit | beginTraversal | endTraversal | requireUntraversed => []

/-- Carries out what a notice says at owner `o`. -/
def Notice.deliver (checks : Checks) (o : NodeId) : Notice → Edit Unit
  | attach n => Forest.attach checks o n
  | detach n => fun f => .ok () (f.detach o n)
  | commit => fun f => .ok () (f.commit o)
  | beginTraversal => Forest.openTraversal checks o
  | endTraversal => Forest.endTraversal checks o
  | requireUntraversed => Forest.requireUntraversed checks o

namespace Operation

/-- The nodes that are kept alive while the operation runs. -/
def keeps : Operation → List NodeId
  | create .. | hold _ | drop _ | setOperand .. | flags _
  | openCursor _ | closeCursor _ | notify .. => []
  | build _ _ ns => ns
  | setSlotChild n _ child => n :: child.toList
  | setChild n _ m | replaceWith n m => [n, m]
  | removeFromParent n => [n]
  | change c ch => c.owner :: ch.nodes
  | removeAll c _ _ => [c.owner]
  | replaceCurrent cursor n => [cursor.collection.owner, n]

/-- What the operation does, while `keeps` are kept. -/
def body (checks : Checks) : Operation → Edit Unit
  | create op x => fun f => (Forest.create op x f).map fun _ => ()
  | build op x ns => fun f => (Forest.build checks op x ns f).map fun _ => ()
  | hold n => fun f => .ok () (f.hold n)
  | drop n => fun f => .ok () (f.release n)
  | setOperand n x => fun f => .ok () (f.setOperand n x)
  | flags n => fun f => .ok () (((f.flags? n).map Prod.snd).getD f)
  | setSlotChild n i child => Forest.setSlotChild checks n i child
  | setChild n i m => Forest.setChild checks n i m
  | replaceWith n m => Forest.replaceWith checks n m
  | removeFromParent n => Forest.removeFromParent checks n
  | change c ch => fun f => (c.apply checks ch f).map fun _ => ()
  | removeAll c judge st => fun f =>
      ((c.removeAll checks judge (f, st)).mapState Prod.fst).map fun _ => ()
  | openCursor c => fun f => (Cursor.opening checks c f).map fun _ => ()
  | closeCursor cursor => cursor.close checks
  | replaceCurrent cursor n => cursor.replaceCurrent checks n
  | notify o r => r.deliver checks o

/-- The whole operation: what it mentions is kept alive, its `body` is run, and
what was taken is given back, also when the body stops. -/
def run (checks : Checks) (op : Operation) : Edit Unit := fun f =>
  (op.body checks (f.holdAll op.keeps)).always fun f =>
    f.releaseAll op.keeps

/-- The calls back to the client, while `keeps` are kept. -/
def calls (checks : Checks) : Operation → Forest → List Collection.Judgement
  | removeAll c judge st, f => c.removalCalls checks judge (f, st)
  | _, _ => []

/-- The client can make this call: it has what it mentions, and does not
give back what operations under way have taken. -/
def Ready (locks : List NodeId) (f : Forest) : Operation → Prop
  | create .. => True
  | build _ _ ns => ∀ n ∈ ns, f.isAlive n = true
  | drop n => locks.count n < (f.node n).handles
  | hold n | setOperand n _ | flags n | removeFromParent n =>
      f.isAlive n = true
  | setSlotChild n _ child =>
      f.isAlive n = true ∧ ∀ c ∈ child, f.isAlive c = true
  | setChild n _ m | replaceWith n m =>
      f.isAlive n = true ∧ f.isAlive m = true
  | change c ch => c.Fits f ∧ ∀ n ∈ ch.nodes, f.isAlive n = true
  | removeAll c _ _ | openCursor c => c.Fits f
  | closeCursor cursor => cursor.collection.Fits f
  | replaceCurrent cursor n => cursor.collection.Fits f ∧ f.isAlive n = true
  | notify o r => f.isAlive o = true ∧ ∀ n ∈ r.nodes, f.isAlive n = true

end Operation

-- ================================================================== runs

/-- What a run may consist of, given the locks that are held, an operation,
where it started and how it ended. -/
abbrev Permit := List NodeId → Operation → Forest → Outcome Forest Unit → Prop

/-- Operations one after the other, while `locks` are held. -/
inductive Runs (checks : Checks) (permits : Permit) :
    List NodeId → Forest → Forest → Prop where
  | refl {locks : List NodeId} {f : Forest} : Runs checks permits locks f f
  | step {locks : List NodeId} {f g : Forest} {op : Operation}
      (hfg : Runs checks permits locks f g) (hready : op.Ready locks g)
      (hcalls : ∀ j ∈ op.calls checks (g.holdAll op.keeps),
        Runs checks permits (j.node :: (op.keeps ++ locks)) j.before j.after)
      (hpermit : permits locks op g (op.run checks g)) :
      Runs checks permits locks f (op.run checks g).state

end InstructionTree
