/-
A session: a forest together with the names under which a client holds
its nodes, collections and cursors.

# What a name keeps alive

A name given to a node holds that node until the name is dropped; the name
stays bound to it for ever. A named collection holds its owner, and so
does a named cursor, each until it is given up. A name that was given up
in the tables of collections or cursors is free again.

# Failures

A request can fail in two ways. It is `refused` if it makes no sense in
this session, and then nothing happened. Or what it asked for `stopped`,
with a fault or a panic, and then the session keeps what was done.
-/
import InstructionTree.Collection.Filter
import InstructionTree.Cursor
import InstructionTree.Forest.Subtree

namespace InstructionTree

/-- A name that a client gives. -/
abbrev Name := Nat

/-- A node that was given a name. -/
structure Binding where
  name : Name
  node : NodeId
  /-- Whether the name still keeps the node alive. -/
  held : Bool
deriving DecidableEq, Repr

/-- Everything that has a name, in order of naming. -/
structure Tables where
  nodes : List Binding
  collections : List (Name × Collection)
  cursors : List (Name × Cursor)
deriving DecidableEq

/-- A forest and what a client knows of it. -/
structure Session where
  forest : Forest
  tables : Tables
deriving DecidableEq

/-- Why a request makes no sense. -/
inductive Refusal where
  /-- The request could not be understood. -/
  | malformed
  /-- The name is taken. -/
  | rebind
  /-- No collection or cursor has this name. -/
  | noSuchHandle
  /-- No node has this name, or it has been freed. -/
  | noSuchNode
  /-- The question has no answer, because a ring is in the way. -/
  | cycle
deriving DecidableEq

/-- Why a request failed. -/
inductive Failure where
  | refused (why : Refusal)
  | stopped (why : Stop)
deriving DecidableEq

/-- A program on a session. The session it leaves is kept in every
case. -/
abbrev SessionM := EStateM Failure Session

namespace Session

/-- The session in which nothing has a name. -/
def empty : Session := ⟨∅, ⟨[], [], []⟩⟩

instance : EmptyCollection Session := ⟨empty⟩
instance : Inhabited Session := ⟨empty⟩

/-- The name of a node. -/
def nameOf? (s : Session) (n : NodeId) : Option Name :=
  (s.tables.nodes.find? fun b => b.node == n).map Binding.name

/-- The binding of a node name. -/
def binding? (s : Session) (name : Name) : Option Binding :=
  s.tables.nodes.find? fun b => b.name == name

/-- The node of a name, if it is alive. -/
def liveNode? (s : Session) (name : Name) : Option NodeId :=
  ((s.binding? name).map Binding.node).filter s.forest.isAlive

/-- The collection of a name. -/
def collection? (s : Session) (name : Name) : Option Collection :=
  s.tables.collections.lookup name

/-- The cursor of a name. -/
def cursor? (s : Session) (name : Name) : Option Cursor :=
  s.tables.cursors.lookup name

end Session

namespace SessionM

/-- Refuses the request. -/
def refuse (why : Refusal) : SessionM α := throw (.refused why)

/-- Runs a program on the forest of the session. -/
def edit (body : Edit α) : SessionM α := fun s =>
  match body s.forest with
  | .ok a f => .ok a { s with forest := f }
  | .stop why f => .error (.stopped why) { s with forest := f }

/-- Continues with a value, or stops with a fault. -/
def ofExcept : Except Fault α → SessionM α
  | .ok a => pure a
  | .error e => throw (.stopped (.fault e))

/-- Changes the forest. -/
def onForest (g : Forest → Forest) : SessionM Unit :=
  modify fun s => { s with forest := g s.forest }

/-- Changes the tables. -/
def onTables (g : Tables → Tables) : SessionM Unit :=
  modify fun s => { s with tables := g s.tables }

/-- Runs `body` while the given nodes are kept alive, and then lets go of
them, also if `body` fails. -/
def holding (ns : List NodeId) (body : SessionM α) : SessionM α := fun s =>
  match body { s with forest := s.forest.holdAll ns } with
  | .ok a s => .ok a { s with forest := s.forest.releaseAll ns }
  | .error e s => .error e { s with forest := s.forest.releaseAll ns }

-- ======================================================== resolution

/-- Refuses a node name that is taken. -/
def requireFreeNode (name : Name) : SessionM Unit := do
  if ((← get).binding? name).isSome then refuse .rebind

/-- Refuses a collection name that is taken. -/
def requireFreeCollection (name : Name) : SessionM Unit := do
  if ((← get).collection? name).isSome then refuse .rebind

/-- Refuses a cursor name that is taken. -/
def requireFreeCursor (name : Name) : SessionM Unit := do
  if ((← get).cursor? name).isSome then refuse .rebind

/-- The binding of a node name, also of a freed node. -/
def binding (name : Name) : SessionM Binding := do
  match (← get).binding? name with
  | some b => pure b
  | none => refuse .noSuchNode

/-- The live node of a name. -/
def node (name : Name) : SessionM NodeId := do
  match (← get).liveNode? name with
  | some n => pure n
  | none => refuse .noSuchNode

/-- The live nodes of several names. -/
def nodes (names : List Name) : SessionM (List NodeId) := do
  match names.mapM (← get).liveNode? with
  | some ns => pure ns
  | none => refuse .noSuchNode

/-- The collection of a name. -/
def collection (name : Name) : SessionM Collection := do
  match (← get).collection? name with
  | some c => pure c
  | none => refuse .noSuchHandle

/-- The cursor of a name. -/
def cursor (name : Name) : SessionM Cursor := do
  match (← get).cursor? name with
  | some k => pure k
  | none => refuse .noSuchHandle

-- =========================================================== naming

/-- Gives a node a name, which holds it. -/
def bindNode (name : Name) (n : NodeId) : SessionM Unit := do
  onForest fun f => f.hold n
  onTables fun t => { t with nodes := t.nodes ++ [⟨name, n, true⟩] }

/-- Lets a node name hold its node no longer. Answers whether it did. -/
def dropNode (name : Name) : SessionM Bool := do
  let b ← binding name
  if b.held then
    onTables fun t =>
      { t with nodes := t.nodes.map fun b =>
          if b.name = name then { b with held := false } else b }
    onForest fun f => f.release b.node
  pure b.held

/-- Gives a collection a name, which holds the owner. -/
def bindCollection (name : Name) (c : Collection) : SessionM Unit := do
  onForest fun f => f.hold c.owner
  onTables fun t => { t with collections := (name, c) :: t.collections }

/-- Gives the name of a collection up. -/
def dropCollection (name : Name) : SessionM Unit := do
  let c ← collection name
  onTables fun t =>
    { t with collections := t.collections.filter fun entry => entry.1 != name }
  onForest fun f => f.release c.owner

/-- Opens a cursor under a name, which holds the owner. -/
def openCursor (checks : Checks) (name : Name) (c : Collection) :
    SessionM Unit := do
  let k ← edit (Cursor.opening checks c)
  onForest fun f => f.hold c.owner
  onTables fun t => { t with cursors := (name, k) :: t.cursors }

/-- Replaces the cursor of a name. -/
def setCursor (name : Name) (k : Cursor) : SessionM Unit :=
  onTables fun t =>
    { t with cursors := t.cursors.map fun entry =>
        if entry.1 = name then (name, k) else entry }

/-- Runs `body` and then lets go of a node that was held before, also if
`body` fails. -/
def releasing (n : NodeId) (body : SessionM α) : SessionM α := fun s =>
  match body s with
  | .ok a s => .ok a { s with forest := s.forest.release n }
  | .error e s => .error e { s with forest := s.forest.release n }

/-- Closes a cursor. Its name is free again, also if closing fails. -/
def closeCursor (checks : Checks) (name : Name) : SessionM Unit := do
  let k ← cursor name
  onTables fun t =>
    { t with cursors := t.cursors.filter fun entry => entry.1 != name }
  releasing k.collection.owner (edit (k.close checks))

end SessionM

end InstructionTree
