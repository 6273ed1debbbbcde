/-
What a client can ask of a session in one request, and what is answered.

A request first checks that the name it wants to give is free, then looks
up collections and cursors, then nodes. Only then does anything happen.
The nodes it mentions are kept alive until it is done.
-/
import InstructionTree.Session.Basic

namespace InstructionTree

-- ========================================================= questions

/-- Questions about one node that change nothing. -/
inductive NodeQuery where
  | opcode
  | operand
  | slotCount
  | childCount
  | position
  | slotRefs
  | version
  | depth
  | descriptor (slot : Nat)
  | slotChild (slot : Nat)
  | child (i : Nat)
  | children
  | findChild (child : Name)
  | parent
  | isConnected
  | ancestors
  | isDescendantOf (other : Name)
  | directFlags
  | display
  | inspect
deriving DecidableEq

/-- Questions about one collection. -/
inductive CollectionQuery where
  | info
  | inspect
  | elements
  | indexOf (node : Name)
  | contains (node : Name)
  | get (i : Nat)
deriving DecidableEq

/-- Questions about one cursor. -/
inductive CursorQuery where
  | info
  | inspect
deriving DecidableEq

-- ============================================================= edits

/-- Edits of a node and its place in a parent. -/
inductive NodeEdit where
  | setOperand (x : Operand)
  | setSlotChild (slot : Nat) (child : Option Name)
  | setChild (i : Nat) (child : Name)
  | replaceWith (replacement : Name)
  | removeFromParent
deriving DecidableEq

/-- The reports that an owner receives, given to it directly. -/
inductive Hook where
  | attach (child : Name)
  | detach (child : Name)
  | commit
  | beginTraversal
  | endTraversal
  | requireUntraversed
deriving DecidableEq

/-- How a collection of a node is found. -/
inductive Access where
  | slot (i : Nat)
  | named (name : String)
  /-- By slot, on a node that may have been freed. -/
  | weak (i : Nat)
deriving DecidableEq

/-- Steps of a cursor. -/
inductive CursorStep where
  | next
  | rest
  | replaceCurrent (node : Name)
  | reset
  | close
deriving DecidableEq

-- ========================================================== requests

/-- A request that runs no other requests. -/
inductive Request where
  /-- Something that could not be understood. -/
  | malformed
  | create (name : Name) (opcode : Opcode) (operand : Operand)
  | build (name : Name) (opcode : Opcode) (operand : Operand)
      (children : List Name)
  | drop (node : Name)
  | weak (node : Name)
  | flags (node : Name)
  | askNode (node : Name) (query : NodeQuery)
  | editNode (node : Name) (edit : NodeEdit)
  | hook (node : Name) (hook : Hook)
  | collect (name node : Name) (access : Access)
  | dropCollection (collection : Name)
  | askCollection (collection : Name) (query : CollectionQuery)
  | change (collection : Name) (change : Change Name)
  | openCursor (name collection : Name)
  | askCursor (cursor : Name) (query : CursorQuery)
  | stepCursor (cursor : Name) (step : CursorStep)

-- =========================================================== answers

/-- What is known about a collection. -/
structure CollectionInfo where
  owner : Option Name
  slot : Nat
  base : Nat
  descriptor : Option Slot
  length : Nat
  first : Option Name
  last : Option Name
deriving DecidableEq

/-- What is known about a cursor. -/
structure CursorInfo where
  index : Option Nat
  isExhausted : Bool
  current : Option Name
  remaining : Nat
  length : Nat
  owner : Option Name
deriving DecidableEq

/-- The answer to a request. -/
inductive Value where
  | done
  | truth (b : Bool)
  | number (n : Nat)
  | index (n : Option Nat)
  | text (t : String)
  | opcode (op : Opcode)
  | operand (x : Operand)
  | descriptor (s : Slot)
  | flags (a : Flags)
  | node (n : Option Name)
  | nodes (ns : List Name)
  /-- What a reference that keeps nothing alive still leads to. -/
  | reference (target : Option (Opcode × Name))
  | collection (info : CollectionInfo)
  | cursor (info : CursorInfo)
deriving DecidableEq

namespace SessionM

/-- The answer that names a node. -/
def named (n : Option NodeId) : SessionM Value := do
  let s ← get
  pure (.node (n.bind s.nameOf?))

/-- The answer that names several nodes. -/
def allNamed (ns : List NodeId) : SessionM Value := do
  let s ← get
  pure (.nodes (ns.filterMap s.nameOf?))

/-- Answers a question about a node. -/
def answerNode (n : NodeId) : NodeQuery → SessionM Value
  | .opcode => return .opcode ((← get).forest.node n).opcode
  | .operand => return .operand ((← get).forest.node n).operand
  | .slotCount => return .number ((← get).forest.node n).slots.length
  | .childCount => return .number ((← get).forest.childCount n)
  | .position => return .number ((← get).forest.node n).position
  | .slotRefs => return .number ((← get).forest.node n).slotRefs
  | .version => return .number ((← get).forest.node n).version
  | .depth => return .number ((← get).forest.node n).depth.shown
  | .descriptor slot => do
      let op := ((← get).forest.node n).opcode
      match op.slot? slot with
      | some s => pure (.descriptor s)
      | none => ofExcept (.error (.unknownSlot op slot))
  | .slotChild slot => do named (← ofExcept ((← get).forest.slotChild? n slot))
  | .child i => do named ((← get).forest.child? n i)
  | .children => do allNamed ((← get).forest.children n)
  | .findChild child => do
      let m ← node child
      return .index ((← get).forest.findChild? n m)
  | .parent => do named ((← get).forest.parent? n)
  | .isConnected => return .truth ((← get).forest.isConnected n)
  | .ancestors => do
      let f := (← get).forest
      if f.climbEnds n then allNamed (f.ancestors n) else refuse .cycle
  | .isDescendantOf other => do
      let m ← node other
      let f := (← get).forest
      if f.climbEnds n then pure (.truth (f.isDescendantOf n m))
      else refuse .cycle
  | .directFlags => return .flags ((← get).forest.node n).opcode.directFlags
  | .display => do
      match (← get).forest.display? n with
      | some t => pure (.text t)
      | none => refuse .cycle
  | .inspect => return .text ((← get).forest.node n).inspect

/-- Answers a question about a collection. -/
def answerCollection (c : Collection) : CollectionQuery → SessionM Value
  | .info => do
      let s ← get
      let items := c.items s.forest
      pure (.collection
        { owner := s.nameOf? c.owner
          slot := c.slot
          base := c.base
          descriptor := c.descriptor? s.forest
          length := items.length
          first := items.head?.bind s.nameOf?
          last := items.getLast?.bind s.nameOf? })
  | .inspect => return .text (c.inspect (← get).forest)
  | .elements => do allNamed (c.items (← get).forest)
  | .indexOf name => do
      let n ← node name
      return .index (c.indexOf? (← get).forest n)
  | .contains name => do
      let n ← node name
      return .truth (c.contains (← get).forest n)
  | .get i => do named (some (← ofExcept (c.get? (← get).forest i)))

/-- Answers a question about a cursor. -/
def answerCursor (k : Cursor) : CursorQuery → SessionM Value
  | .info => do
      let s ← get
      pure (.cursor
        { index := k.index?
          isExhausted := k.isExhausted
          current := (k.current? s.forest).bind s.nameOf?
          remaining := k.remaining s.forest
          length := k.collection.length s.forest
          owner := s.nameOf? k.collection.owner })
  | .inspect => return .text (k.inspect (← get).forest)

-- ===================================================== doing the edits

/-- Edits a node. -/
def editNode (checks : Checks) (n : NodeId) : NodeEdit → SessionM Unit
  | .setOperand x => onForest fun f => f.setOperand n x
  | .setSlotChild slot none =>
      holding [n] (edit (Forest.setSlotChild checks n slot none))
  | .setSlotChild slot (some child) => do
      let m ← node child
      holding [n, m] (edit (Forest.setSlotChild checks n slot (some m)))
  | .setChild i child => do
      let m ← node child
      holding [n, m] (edit (Forest.setChild checks n i m))
  | .replaceWith replacement => do
      let m ← node replacement
      holding [n, m] (edit (Forest.replaceWith checks n m))
  | .removeFromParent => holding [n] (edit (Forest.removeFromParent checks n))

/-- Gives an owner a report directly. -/
def callHook (checks : Checks) (n : NodeId) : Hook → SessionM Unit
  | .attach child => do edit (Forest.attach checks n (← node child))
  | .detach child => do
      let m ← node child
      onForest fun f => f.detach n m
  | .commit => onForest fun f => f.commit n
  | .beginTraversal => edit (Forest.openTraversal checks n)
  | .endTraversal => edit (Forest.endTraversal checks n)
  | .requireUntraversed => edit (Forest.requireUntraversed checks n)

/-- Edits a collection. -/
def change (checks : Checks) (c : Collection) (ch : Change NodeId) :
    SessionM Value := do
  match ← holding (c.owner :: ch.nodes) (edit (c.apply checks ch)) with
  | .done => pure .done
  | .wasThere yes => pure (.truth yes)
  | .removed n => named (some n)

/-- The same edit on the live nodes of the names. -/
def resolveChange (ch : Change Name) : SessionM (Change NodeId) := do
  match ch.rename? (← get).liveNode? with
  | some ch => pure ch
  | none => refuse .noSuchNode

/-- Steps the cursor of a name. -/
def stepCursor (checks : Checks) (name : Name) (k : Cursor) :
    CursorStep → SessionM Value
  | .next => do
      let (n, k) := k.next (← get).forest
      setCursor name k
      named n
  | .rest => do
      let (ns, k) := k.rest (← get).forest
      setCursor name k
      allNamed ns
  | .replaceCurrent n => do
      let m ← node n
      holding [m] (edit (k.replaceCurrent checks m))
      pure .done
  | .reset => do
      setCursor name (← ofExcept (k.reset checks))
      pure .done
  | .close => do
      closeCursor checks name
      pure .done

/-- Does what a request asks for. -/
def perform (checks : Checks) : Request → SessionM Value
  | .malformed => refuse .malformed
  | .create name op x => do
      requireFreeNode name
      bindNode name (← edit (Forest.create op x))
      pure .done
  | .build name op x children => do
      requireFreeNode name
      let ns ← nodes children
      holding ns do
        bindNode name (← edit (Forest.build checks op x ns))
      pure .done
  | .drop name => return .truth (← dropNode name)
  | .weak name => do
      let n := (← binding name).node
      let s ← get
      pure (.reference do
        let x ← s.forest.get? n
        return (x.opcode, ← s.nameOf? n))
  | .flags name => do
      let n ← node name
      let f := (← get).forest
      -- a ring is refused even where `flags?` would stop short of it
      if !f.isAcyclicBelow n then refuse .cycle
      match f.flags? n with
      | none => refuse .cycle
      | some (flags, f) =>
          onForest fun _ => f
          pure (.flags flags)
  | .askNode name query => do answerNode (← node name) query
  | .editNode name e => do
      editNode checks (← node name) e
      pure .done
  | .hook name h => do
      callHook checks (← node name) h
      pure .done
  | .collect name owner access => do
      requireFreeCollection name
      let n ← match access with
        | .weak _ => (do return (← binding owner).node)
        | _ => node owner
      let f := (← get).forest
      let c ← ofExcept <| match access with
        | .slot i => Collection.at? f n i
        | .named t => Collection.named? f n t
        | .weak i => Collection.ofWeak? f n i
      bindCollection name c
      pure .done
  | .dropCollection c => do
      dropCollection c
      pure .done
  | .askCollection c query => do answerCollection (← collection c) query
  | .change c ch => do
      let handle ← collection c
      change checks handle (← resolveChange ch)
  | .openCursor name c => do
      requireFreeCursor name
      openCursor checks name (← collection c)
      pure .done
  | .askCursor k query => do answerCursor (← cursor k) query
  | .stepCursor k step => do stepCursor checks k (← cursor k) step

end SessionM

end InstructionTree
