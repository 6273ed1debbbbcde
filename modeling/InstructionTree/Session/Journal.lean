/-
The journal of a script: which nodes every step changed, and which events
it caused.

A change is told once, by the first step that ends after it; steps inside
of a call end before the step that made the call. A node is told anew
whenever its observable state differs from what was told last.
-/
import InstructionTree.Session.Script

namespace InstructionTree

/-- What an observer sees of a live node. -/
structure NodeState where
  operand : Operand
  parent : Option NodeId
  position : Nat
  slotRefs : Nat
  depth : Nat
  version : Nat
  slots : List (List NodeId)
deriving DecidableEq

/-- What an observer sees of a node; nothing if it has been freed. -/
abbrev Status := Option NodeState

/-- The status of a node. -/
def Forest.status (f : Forest) (n : NodeId) : Status :=
  (f.get? n).map fun x =>
    { operand := x.operand
      parent := f.parent? n
      position := x.position
      slotRefs := x.slotRefs
      depth := x.depth.shown
      version := x.version
      slots := x.slots }

/-- What was told so far: the status of every node in order of naming, and
how many events. -/
structure Journal where
  told : List Status
  heard : Nat

namespace Journal

/-- The journal in which nothing was told. -/
def empty : Journal := ⟨[], 0⟩

instance : EmptyCollection Journal := ⟨empty⟩

/-- The nodes whose status is not the one told last. -/
def news (f : Forest) : List Binding → List Status → List (Name × Status)
  | [], _ => []
  | b :: rest, [] => (b.name, f.status b.node) :: news f rest []
  | b :: rest, last :: told =>
      let now := f.status b.node
      if now = last then news f rest told
      else (b.name, now) :: news f rest told

/-- The changes that are not told yet, by ascending name. -/
def changes (j : Journal) (s : Session) : List (Name × Status) :=
  (news s.forest s.tables.nodes j.told).mergeSort fun a b => a.1 ≤ b.1

/-- The events that are not told yet. -/
def events (j : Journal) (s : Session) : List Event :=
  s.forest.events.toList.drop j.heard

/-- The journal after everything was told. -/
def catchUp (s : Session) : Journal where
  told := s.tables.nodes.map fun b => s.forest.status b.node
  heard := s.forest.events.size

end Journal

mutual

/-- A step as it is told: the answer, the changed nodes, the events, and
the calls. The session of the step gives the names. -/
inductive Report where
  | mk (reply : Reply) (changes : List (Name × Status)) (events : List Event)
      (calls : Option (List CallReport)) (names : Session)

/-- A call as it is told. -/
inductive CallReport where
  | mk (node : NodeId) (steps : List Report)

end

/-- Tells a step whose calls were told already. -/
def Journal.tell (j : Journal) (reply : Reply)
    (calls : Option (List CallReport)) (s : Session) : Report × Journal :=
  (.mk reply (j.changes s) (j.events s) calls s, catchUp s)

mutual

/-- Tells a step: first its calls, then itself. -/
def Step.tell : Step → Journal → Report × Journal
  | .mk reply none s, j => j.tell reply none s
  | .mk reply (some calls) s, j =>
      let (calls, j) := tellCalls calls j
      j.tell reply (some calls) s

/-- Tells the steps of a call. -/
def Call.tell : Call → Journal → CallReport × Journal
  | .mk n steps, j =>
      let (steps, j) := tellAll steps j
      (.mk n steps, j)

/-- Tells calls in order. -/
def tellCalls : List Call → Journal → List CallReport × Journal
  | [], j => ([], j)
  | call :: rest, j =>
      let (call, j) := call.tell j
      let (rest, j) := tellCalls rest j
      (call :: rest, j)

/-- Tells steps in order. -/
def tellAll : List Step → Journal → List Report × Journal
  | [], j => ([], j)
  | step :: rest, j =>
      let (step, j) := step.tell j
      let (rest, j) := tellAll rest j
      (step :: rest, j)

end

/-- Runs a script in an empty session and tells all of it. -/
def runAndTell (checks : Checks) (commands : List Command) : List Report :=
  let (steps, _) := runAll checks commands ∅
  (tellAll steps ∅).1

end InstructionTree
