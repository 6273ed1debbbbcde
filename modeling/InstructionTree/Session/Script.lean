/-
Scripts: commands in order, some of which run further commands while they
are under way.

# Commands inside commands

Filtering a collection shows every element to a judge, and a loop over a
collection visits every element. At each call, counted from zero, a client
may run commands of its own (`Script`, by number of the call), before the
judge decides by a `Rule`. These commands see the session in the middle of
the pass, and what they change stays.

# Steps

Every command leaves a `Step`: what was answered, the calls it made with
the steps of each, and the session after it. So a script is a tree of
steps, and no step hides what happened inside of it.
-/
import InstructionTree.Session.Request

namespace InstructionTree

/-- How a judge decides at its `k`-th call about a node. -/
inductive Rule where
  /-- The same for every node. -/
  | all (rejects : Bool)
  /-- Rejects the nodes of one opcode. -/
  | opcode (opcode : Opcode)
  /-- Rejects the nodes whose operand prints as `t`. -/
  | operandText (t : String)
  /-- Rejects the nodes listed. -/
  | names (names : List Name)
  /-- Rejects at the calls listed. -/
  | calls (ks : List Nat)
  /-- Rejects the 32-bit constants that `m` divides. -/
  | multipleOf (m : Int)
deriving DecidableEq

/-- Whether a judge rejects the node `x`, named `name`, at call `k`. -/
def Rule.rejects (rule : Rule) (k : Nat) (name : Option Name) (x : Node) :
    Bool :=
  match rule with
  | all rejects => rejects
  | opcode op => x.opcode == op
  | operandText t => x.operand.display == t
  | names ns => name.any ns.contains
  | calls ks => ks.contains k
  | multipleOf m => x.operand.isMultipleOf m

/-- A command of a script. -/
inductive Command where
  /-- A request that runs no other commands. -/
  | single (request : Request)
  /-- Filters a collection by a rule; the judge gives up at call
  `failAt`. -/
  | removeAll (collection : Name) (rule : Rule) (failAt : Option Nat)
      (script : List (Nat × List Command))
  /-- Loops over a collection and leaves the loop after call `breakAt`. -/
  | forEach (collection : Name) (breakAt : Option Nat)
      (script : List (Nat × List Command))

/-- What a command answered. -/
inductive Reply where
  | value (v : Value)
  | failure (why : Failure)
deriving DecidableEq

mutual

/-- A command that was run: the answer, the calls it made if it came to
making any, and the session after it. -/
inductive Step where
  | mk (reply : Reply) (calls : Option (List Call)) (after : Session)

/-- A call of a judge or a loop body for a node, and the steps in it. -/
inductive Call where
  | mk (node : NodeId) (steps : List Step)

end

/-- The session after a step. -/
def Step.after : Step → Session
  | .mk _ _ after => after

/-- The answer of a step. -/
def Step.reply : Step → Reply
  | .mk reply _ _ => reply

/-- A step of a command that can make no calls, or failed before. -/
def Step.ofResult : EStateM.Result Failure Session Value → Step
  | .ok v s => .mk (.value v) none s
  | .error e s => .mk (.failure e) none s

/-- A step of a command that made calls. -/
def Step.withCalls (calls : List Call) :
    EStateM.Result Failure Session Value → Step
  | .ok v s => .mk (.value v) (some calls) s
  | .error e s => .mk (.failure e) (some calls) s

/-- Commands that were made ready to run. -/
abbrev Program := Session → List Step × Session

/-- The program for call `k`; calls without one run nothing. -/
def programFor (script : List (Nat × Program)) (k : Nat) : Program :=
  (script.lookup k).getD fun s => ([], s)

namespace Session

-- ============================================================ filtering

/-- The judge of a filtering command. It keeps the tables of the session
and the calls so far. -/
def judge (rule : Rule) (failAt : Option Nat) (script : List (Nat × Program)) :
    Collection.Judge (Tables × List Call) := fun n (f, tables, calls) =>
  let k := calls.length
  let (steps, s) := programFor script k ⟨f, tables⟩
  let st := (s.tables, calls ++ [Call.mk n steps])
  if failAt = some k then .stop (.panic .judgeFailed) (s.forest, st)
  else .ok (rule.rejects k (s.nameOf? n) (s.forest.node n)) (s.forest, st)

/-- Runs a filtering command. The owner is kept alive meanwhile. -/
def removeAll (checks : Checks) (name : Name) (rule : Rule)
    (failAt : Option Nat) (script : List (Nat × Program)) (s : Session) :
    Step :=
  match SessionM.collection name s with
  | .error e s => .mk (.failure e) none s
  | .ok c s =>
      let f := s.forest.hold c.owner
      match c.removeAll checks (judge rule failAt script)
          (f, s.tables, []) with
      | .ok count (f, tables, calls) =>
          .mk (.value (.number count)) (some calls) ⟨f.release c.owner, tables⟩
      | .stop why (f, tables, calls) =>
          .mk (.failure (.stopped why)) (some calls)
            ⟨f.release c.owner, tables⟩

-- ============================================================== looping

/-- The largest number of passes of a loop. -/
def maxPasses : Nat := 100

/-- Visits at most `count` further elements of a cursor, after `calls`.
Each is kept alive during its visit. -/
def visit (breakAt : Option Nat) (script : List (Nat × Program)) :
    Nat → Cursor → List Call → Session → List Call × Session
  | 0, _, calls, s => (calls, s)
  | count + 1, k, calls, s =>
      match k.next s.forest with
      | (none, _) => (calls, s)
      | (some n, k) =>
          let pass := calls.length
          let (steps, s) :=
            programFor script pass { s with forest := s.forest.hold n }
          let s := { s with forest := s.forest.release n }
          let calls := calls ++ [Call.mk n steps]
          if breakAt = some pass then (calls, s)
          else visit breakAt script count k calls s

/-- Runs a loop over a collection, with a cursor open all along. If none can
be opened, the loop is not reached. -/
def forEach (checks : Checks) (name : Name) (breakAt : Option Nat)
    (script : List (Nat × Program)) (s : Session) : Step :=
  match SessionM.collection name s with
  | .error e s => .mk (.failure e) none s
  | .ok c s =>
      match Cursor.opening checks c s.forest with
      | .stop why f =>
          .mk (.failure (.stopped why)) none { s with forest := f }
      | .ok k f =>
          let (calls, s) := visit breakAt script maxPasses k []
            { s with forest := f.hold c.owner }
          let closed : SessionM Value := do
            SessionM.releasing c.owner (SessionM.edit (k.close checks))
            pure (.number calls.length)
          Step.withCalls calls (closed s)

end Session

-- ============================================================== running

mutual

/-- Runs a command. -/
def Command.run (checks : Checks) : Command → Session → Step
  | .single request, s => Step.ofResult (SessionM.perform checks request s)
  | .removeAll c rule failAt script, s =>
      s.removeAll checks c rule failAt (prepare checks script)
  | .forEach c breakAt script, s =>
      s.forEach checks c breakAt (prepare checks script)

/-- Makes the commands of each call ready to run. -/
def prepare (checks : Checks) :
    List (Nat × List Command) → List (Nat × Program)
  | [] => []
  | (k, commands) :: rest => (k, runAll checks commands) :: prepare checks rest

/-- Runs commands in order. A command that fails does not end the
script. -/
def runAll (checks : Checks) : List Command → Session → List Step × Session
  | [], s => ([], s)
  | command :: rest, s =>
      let step := command.run checks s
      let (steps, s) := runAll checks rest step.after
      (step :: steps, s)

end

end InstructionTree
