/-
What happens to an owner and a child when one enters or leaves a slot of
the other, and the guard of open traversals.

# The contract of an edit

Whoever edits a slot stores first, then reports to the owner:

1. one `attach` per node that entered,
2. one `detach` per node that left,
3. one `commit` at the end.

`commit` raises the owner's version and drops the cached flags of the
owner and of the nodes above it. The climb stops at the first node
without cached flags: such a node already told everything above it.

# Edits as programs

An `Edit` runs on a forest and ends with a value or with a `Stop`. Either
way the forest it left behind stays: nothing is rolled back. Edits are
written on the forest itself; what may stop them is a refusal, which
changes nothing, or an `attach`, after which only `always` still runs.
-/
import InstructionTree.Fault
import InstructionTree.Forest.Lifetime
import InstructionTree.Forest.Lineage

namespace InstructionTree

/-- How a program on states `σ` ended: with a value, or early. Either way
it left a state. -/
inductive Outcome (σ α : Type) where
  | ok (a : α) (s : σ)
  | stop (why : Stop) (s : σ)
deriving DecidableEq

namespace Outcome

/-- The state that was left, however the program ended. -/
def state : Outcome σ α → σ
  | ok _ s => s
  | stop _ s => s

/-- The same with another value. -/
def map (g : α → β) : Outcome σ α → Outcome σ β
  | ok a s => ok (g a) s
  | stop e s => stop e s

/-- Goes on with the state if nothing stopped the program. -/
def next (g : σ → σ) : Outcome σ α → Outcome σ α
  | ok a s => ok a (g s)
  | stop e s => stop e s

/-- Goes on with the state, however the program ended. -/
def always (g : σ → σ) : Outcome σ α → Outcome σ α
  | ok a s => ok a (g s)
  | stop e s => stop e (g s)

/-- The same outcome, with the state seen through `k`. -/
def mapState (k : σ → τ) : Outcome σ α → Outcome τ α
  | ok a s => ok a (k s)
  | stop e s => stop e (k s)

end Outcome

/-- A program on a forest. -/
abbrev Edit (α : Type) := Forest → Outcome Forest α

namespace Edit

/-- Refuses the request and changes nothing. -/
def fail (cause : Fault) : Edit α := fun f => .stop (.fault cause) f

/-- Stops on a broken contract. -/
def crash (cause : Panic) : Edit α := fun f => .stop (.panic cause) f

end Edit

namespace Forest

-- ================================================ entering and leaving

/-- Records that `child` entered a slot of `owner`. -/
def enter (f : Forest) (owner child : NodeId) : Forest :=
  f.update child fun x =>
    { x with link := some owner, slotRefs := x.slotRefs + 1 }

/-- Whether letting `child` enter a slot of `owner` breaks the contract
that a tree does not contain itself: `owner` is `child` or below it. Only
looked at with checks on. -/
def breaksTree (f : Forest) (checks : Checks) (owner child : NodeId) : Bool :=
  checks.enforced && f.isDescendantOf owner child

/-- Records that `child` entered a slot of `owner`, unless this breaks the
tree. -/
def attach (checks : Checks) (owner child : NodeId) : Edit Unit := fun f =>
  if f.breaksTree checks owner child then
    Edit.crash (.notATree (f.node child).opcode) f
  else .ok () (f.enter owner child)

/-- Records that `child` left a slot of `owner`. The counter stays at zero
if it is there already, which is an overdraft. The link is dropped with the
last slot reference, and only if it names this owner. -/
def detach (f : Forest) (owner child : NodeId) : Forest :=
  { f.update child fun x =>
      { x with
        slotRefs := x.slotRefs - 1
        link := if x.slotRefs - 1 = 0 ∧ x.link = some owner then none
          else x.link } with
    overdrafts := f.overdrafts
      + if (f.node child).slotRefs = 0 then 1 else 0 }

-- ====================================================== cached flags

/-- Forgets the cached flags of `n`. -/
def dropCache (f : Forest) (n : NodeId) : Forest :=
  f.update n fun x => { x with cached := none }

/-- Forgets cached flags from `next` upwards until a node has none, for at
most `steps` nodes. -/
def dropCachesFrom : Nat → Option NodeId → Forest → Forest
  | 0, _, f => f
  | _ + 1, none, f => f
  | steps + 1, some n, f =>
      if (f.node n).cached.isNone then f
      else dropCachesFrom steps (f.parent? n) (f.dropCache n)

/-- Forgets the cached flags of `n` and of the nodes above it, up to the
first one without. Every step takes a cache away, so there are no more
steps than identities, even where the way up is a ring. -/
def invalidate (f : Forest) (n : NodeId) : Forest :=
  dropCachesFrom f.size (f.parent? n) (f.dropCache n)

-- =========================================================== commits

/-- Counts a completed child batch of `n`. -/
def countBatch (f : Forest) (n : NodeId) : Forest :=
  f.update n fun x => { x with version := x.version + 1 }

/-- Completes a child batch of `n`. -/
def commit (f : Forest) (n : NodeId) : Forest :=
  let x := (f.countBatch n).node n
  ((f.countBatch n).invalidate n).emit (.committed x.opcode x.version)

-- ============================================= what a commit leaves be

/-- Forgetting caches shows only to a view that looks at caches. -/
theorem map_get?_dropCachesFrom (g : Node → α)
    (blind : ∀ x c, g { x with cached := c } = g x) (n : NodeId) :
    ∀ (steps : Nat) (next : Option NodeId) (f : Forest),
      ((dropCachesFrom steps next f).get? n).map g = (f.get? n).map g
  | 0, _, _ => rfl
  | _ + 1, none, _ => rfl
  | steps + 1, some m, f => by
      unfold dropCachesFrom
      split
      · rfl
      · rw [map_get?_dropCachesFrom g blind n steps]
        simp only [dropCache, get?_update]
        split <;> simp [Function.comp_def, blind]

/-- A commit shows only to a view that looks at versions or caches. -/
theorem map_get?_commit (g : Node → α)
    (blind : ∀ x v c, g { x with version := v, cached := c } = g x)
    (f : Forest) (m n : NodeId) :
    ((f.commit m).get? n).map g = (f.get? n).map g := by
  have noCache : ∀ x c, g { x with cached := c } = g x :=
    fun x c => blind x x.version c
  have noBatch : ∀ x,
      g { x with version := x.version + 1, cached := none } = g x :=
    fun x => blind x (x.version + 1) none
  simp only [commit, invalidate, get?_emit]
  rw [map_get?_dropCachesFrom g noCache]
  simp only [dropCache, countBatch, get?_update]
  split <;> simp [Function.comp_def, noBatch]

/-- A commit frees no node. -/
@[simp] theorem isAlive_commit (f : Forest) (m n : NodeId) :
    (f.commit m).isAlive n = f.isAlive n := by
  have same := map_get?_commit (fun _ => ()) (fun _ _ _ => rfl) f m n
  simp only [isAlive]
  cases h : f.get? n <;> cases k : (f.commit m).get? n <;> simp_all

-- ========================================================= traversals

/-- Counts a traversal of `n` that begins. If the counter is full it starts
over. -/
def beginTraversal (f : Forest) (n : NodeId) : Forest :=
  f.update n fun x => { x with depth := x.depth.next }

/-- Whether beginning a traversal of `n` overflows its counter. Only looked
at with checks on. -/
def isSpent (f : Forest) (checks : Checks) (n : NodeId) : Bool :=
  checks.enforced && (f.node n).depth.isFull

/-- Runs a program that begins a traversal of `n`, unless this overflows the
counter. -/
def unlessSpent (checks : Checks) (n : NodeId) (body : Edit α) : Edit α :=
  fun f =>
    if f.isSpent checks n then Edit.crash .traversalOverflow f else body f

/-- Begins a traversal of `n`. -/
def openTraversal (checks : Checks) (n : NodeId) : Edit Unit :=
  unlessSpent checks n fun f => .ok () (f.beginTraversal n)

/-- Counts a traversal of `n` that ends. With checks on, ending one that
never began is a broken contract; otherwise it changes nothing. -/
def endTraversal (checks : Checks) (n : NodeId) : Edit Unit := fun f =>
  if checks.enforced && (f.node n).depth.shown == 0 then
    Edit.crash (.unbalancedTraversal (f.node n).opcode) f
  else .ok () (f.update n fun x => { x with depth := x.depth.prev })

/-- Whether structural edits of `n` are refused: a traversal is open, and
checks are on. -/
def isGuarded (f : Forest) (checks : Checks) (n : NodeId) : Bool :=
  checks.enforced && (f.node n).depth.shown != 0

/-- Runs an edit of `n`, unless structural edits of it are refused. -/
def guarded (checks : Checks) (n : NodeId) (body : Edit α) : Edit α := fun f =>
  if f.isGuarded checks n then
    let x := f.node n
    Edit.fail (.invalidDuringTraversal x.opcode x.depth.shown)
      (f.emit (.rejected x.opcode x.depth.shown))
  else body f

/-- Refuses to go on if structural edits of `n` are refused. -/
def requireUntraversed (checks : Checks) (n : NodeId) : Edit Unit :=
  guarded checks n fun f => .ok () f

end Forest

end InstructionTree
