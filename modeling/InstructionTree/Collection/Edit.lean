/-
The edits of a child collection.

# What all of them share

A structural edit (every one here but `set`) is first refused if a
traversal of the owner is open. Then indices are checked, never clamped.
Then the elements are stored, the nodes that entered are attached, those
that left detached, and one commit ends the edit. A node that left is let
go of where the edit needs it no longer, so it may be freed there.

For every edit that stores, the part that can not stop has a name of its
own (`pushed`, `overwritten`, `inserted`, ...); the edit adds the guard,
the bounds, the attach and the commit.

# Renumbering

Edits that shift elements change the cached place of an element only if
this collection is still its last place, that is, if the cache pointed at
the element's old index here. An element that was placed elsewhere since
keeps its cache.

# Changes as values

`Change` is the language of these edits, and `apply` runs one. The same
language is what a list model speaks.
-/
import InstructionTree.Collection.Basic

namespace InstructionTree

/-- The largest index there is. -/
def maxIndex : Nat := UInt64.size - 1

namespace Collection

variable (checks : Checks) (c : Collection)

-- ========================================================= replacement

/-- The element at `i` overwritten by `n`, with the place of `n`. -/
def overwritten (f : Forest) (i : Nat) (n : NodeId) : Forest :=
  c.setItems (c.place f i n) ((c.items f).set i n)

/-- Replaces the element at `i`. Allowed while traversals are open,
because no other element moves. Replacing an element by itself does
nothing at all. -/
def set (i : Nat) (n : NodeId) : Edit Unit := fun f =>
  match (c.items f)[i]? with
  | none => Edit.fail (.outOfBounds i (c.length f)) f
  | some old =>
      if old = n then .ok () f
      else
        (Forest.attach checks c.owner n (c.overwritten f i n))
          |>.next (fun f => (f.detach c.owner old).commit c.owner)
          |>.always (fun f => f.reap old)

-- =========================================================== insertion

/-- The node `n` stored behind the last element, with its place. -/
def pushed (f : Forest) (n : NodeId) : Forest :=
  c.setItems (c.place f (c.length f) n) (c.items f ++ [n])

/-- Stores nodes at the end and attaches them, one by one. -/
def append : List NodeId → Edit Unit
  | [], f => .ok () f
  | n :: rest, f =>
      match Forest.attach checks c.owner n (c.pushed f n) with
      | .ok () f => append rest f
      | .stop e f => .stop e f

/-- Appends a node. -/
def add (n : NodeId) : Edit Unit :=
  Forest.guarded checks c.owner fun f =>
    (Forest.attach checks c.owner n (c.pushed f n))
      |>.next (fun f => f.commit c.owner)

/-- Appends nodes in order, with one commit, whoever traverses the owner. -/
def appendAll (ns : List NodeId) : Edit Unit := fun f =>
  (c.append checks ns f).next fun f => f.commit c.owner

/-- Appends nodes in order, with one commit. -/
def addRange (ns : List NodeId) : Edit Unit :=
  Forest.guarded checks c.owner (c.appendAll checks ns)

/-- The node `n` stored at `i`, with its place, and later elements one to
the right. -/
def inserted (f : Forest) (i : Nat) (n : NodeId) : Forest :=
  c.renumberFrom (fun j => j - 1) (i + 1) ((c.items f).drop i)
    (c.setItems (c.place f i n) ((c.items f).insertIdx i n))

/-- Inserts a node at `i`; later elements move one to the right. -/
def insert (i : Nat) (n : NodeId) : Edit Unit :=
  Forest.guarded checks c.owner fun f =>
    if c.length f < i then Edit.fail (.outOfBounds i (c.length f)) f
    else
      (Forest.attach checks c.owner n (c.inserted f i n))
        |>.next (fun f => f.commit c.owner)

-- ============================================================= removal

/-- The element `old` at `i` taken out and detached; nothing is
renumbered. -/
def takenOut (f : Forest) (i : Nat) (old : NodeId) : Forest :=
  (c.setItems f ((c.items f).eraseIdx i)).detach c.owner old

/-- The element `old` at `i` taken out, and later elements one to the
left. -/
def erased (f : Forest) (i : Nat) (old : NodeId) : Forest :=
  c.renumberFrom (fun j => j + 1) i ((c.items f).drop (i + 1))
    (c.takenOut f i old)

/-- Removes the element at `i` and answers which it was; later elements
move one to the left. -/
def removeAt (i : Nat) : Edit NodeId :=
  Forest.guarded checks c.owner fun f =>
    match (c.items f)[i]? with
    | none => Edit.fail (.outOfBounds i (c.length f)) f
    | some old => .ok old (((c.erased f i old).commit c.owner).reap old)

/-- Removes an occurrence of `n`, and answers whether there was one. -/
def remove (n : NodeId) : Edit Bool :=
  Forest.guarded checks c.owner fun f =>
    match c.indexOf? f n with
    | none => .ok false f
    | some i =>
        (c.removeAt checks i f).map fun _ => true

/-- Takes `count` elements out at `i`, one by one, each let go of at once.
What follows is not renumbered. -/
def discard (i : Nat) : Nat → Forest → Forest
  | 0, f => f
  | count + 1, f =>
      match (c.items f)[i]? with
      | none => f
      | some old => discard i count ((c.takenOut f i old).reap old)

/-- Elements from `i` up to `i + count` taken out, and later elements
`count` to the left. -/
def erasedRange (f : Forest) (i count : Nat) : Forest :=
  c.renumberFrom (fun j => j + count) i ((c.items f).drop (i + count))
    (c.discard i count f)

/-- Removes `count` elements from `i` on, with one commit. A range that
does not fit is reported by its start if that is past the end, and else
by its end, at most the largest index. -/
def removeRange (i count : Nat) : Edit Unit :=
  Forest.guarded checks c.owner fun f =>
    if c.length f < i then Edit.fail (.outOfBounds i (c.length f)) f
    else if c.length f < i + count then
      Edit.fail (.outOfBounds (min (i + count) maxIndex) (c.length f)) f
    else .ok () ((c.erasedRange f i count).commit c.owner)

/-- The element `old` at `i` taken out, and the last element in its
place. -/
def swapErased (f : Forest) (i : Nat) (old last : NodeId) : Forest :=
  let final := c.length f - 1
  let rest := ((c.items f).set i last).take final
  let g := (c.setItems f rest).detach c.owner old
  if i < final then c.renumber g final i last else g

/-- Removes the element at `i` and answers which it was; the last element
takes its place. -/
def swapRemoveAt (i : Nat) : Edit NodeId :=
  Forest.guarded checks c.owner fun f =>
    match (c.items f)[i]?, (c.items f).getLast? with
    | some old, some last =>
        .ok old (((c.swapErased f i old last).commit c.owner).reap old)
    | _, _ => Edit.fail (.outOfBounds i (c.length f)) f

/-- No element stored, and each of them detached. -/
def cleared (f : Forest) : Forest :=
  (c.items f).foldl (fun f old => f.detach c.owner old) (c.setItems f [])

/-- Removes all elements, with one commit. They are let go of after it. -/
def clear : Edit Unit :=
  Forest.guarded checks c.owner fun f =>
    .ok () (((c.cleared f).commit c.owner).reapAll (c.items f))

-- ============================================================== moving

/-- Where the element that is at `j` now was before the element at `a`
moved to `b`. -/
def indexBeforeMove (a b j : Nat) : Nat :=
  if j = b then a else if a < b then j + 1 else j - 1

/-- The element `n` at `a` moved to `b`, and the elements in between moved
by one to make room. -/
def moved (f : Forest) (a b : Nat) (n : NodeId) : Forest :=
  let items := ((c.items f).eraseIdx a).insertIdx b n
  let window := (items.drop (min a b)).take (max a b + 1 - min a b)
  c.renumberFrom (indexBeforeMove a b) (min a b) window (c.setItems f items)

/-- Moves the element at `a` to `b`. Nothing is attached or detached. -/
def move (a b : Nat) : Edit Unit :=
  Forest.guarded checks c.owner fun f =>
    match (c.items f)[a]? with
    | none => Edit.fail (.outOfBounds a (c.length f)) f
    | some n =>
        if b < c.length f then .ok () ((c.moved f a b n).commit c.owner)
        else Edit.fail (.outOfBounds b (c.length f)) f

/-- Moves an occurrence of `n` to the end, and answers whether there was
one. -/
def moveToEnd (n : NodeId) : Edit Bool :=
  Forest.guarded checks c.owner fun f =>
    match c.indexOf? f n with
    | none => .ok false f
    | some i =>
        (c.move checks i (c.length f - 1) f).map fun _ => true

-- ================================================= replacing everything

/-- Overwrites the element at `i` by `n`, or appends `n` if there is no
such element. An overwritten element is let go of at once. -/
def overwriteOne (i : Nat) (n : NodeId) : Edit Unit := fun f =>
  match (c.items f)[i]? with
  | some old =>
      (Forest.attach checks c.owner n (c.overwritten f i n))
        |>.next (fun f => f.detach c.owner old)
        |>.always (fun f => f.reap old)
  | none =>
      Forest.attach checks c.owner n
        (c.setItems (c.place f i n) (c.items f ++ [n]))

/-- Overwrites elements from index `i` on, appending once there are none
left to overwrite. -/
def overwrite : Nat → List NodeId → Edit Unit
  | _, [], f => .ok () f
  | i, n :: rest, f =>
      match c.overwriteOne checks i n f with
      | .ok () f => overwrite (i + 1) rest f
      | .stop e f => .stop e f

/-- Replaces all elements by `ns`, position by position, with one commit,
whoever traverses the owner. -/
def overwriteAll (ns : List NodeId) : Edit Unit := fun f =>
  (c.overwrite checks 0 ns f).next fun f =>
    (c.discard ns.length (c.length f - ns.length) f).commit c.owner

/-- Replaces all elements by `ns`, position by position, with one
commit. -/
def replaceList (ns : List NodeId) : Edit Unit :=
  Forest.guarded checks c.owner (c.overwriteAll checks ns)

end Collection

-- ==================================================== edits as values

/-- An edit of a collection, with nodes named by `ν`. -/
inductive Change (ν : Type) where
  | set (i : Nat) (n : ν)
  | add (n : ν)
  | addRange (ns : List ν)
  | insert (i : Nat) (n : ν)
  | removeAt (i : Nat)
  | remove (n : ν)
  | removeRange (i count : Nat)
  | swapRemoveAt (i : Nat)
  | clear
  | move (a b : Nat)
  | moveToEnd (n : ν)
  | replaceList (ns : List ν)
deriving DecidableEq

namespace Change

/-- The nodes an edit mentions. -/
def nodes : Change ν → List ν
  | set _ n | add n | insert _ n | remove n | moveToEnd n => [n]
  | addRange ns | replaceList ns => ns
  | removeAt _ | removeRange .. | swapRemoveAt _ | clear | move .. => []

/-- The same edit with nodes named otherwise, if all of them have such a
name. -/
def rename? (name : ν → Option μ) : Change ν → Option (Change μ)
  | set i n => (name n).map (set i)
  | add n => (name n).map add
  | addRange ns => (ns.mapM name).map addRange
  | insert i n => (name n).map (insert i)
  | removeAt i => some (removeAt i)
  | remove n => (name n).map remove
  | removeRange i count => some (removeRange i count)
  | swapRemoveAt i => some (swapRemoveAt i)
  | clear => some clear
  | move a b => some (move a b)
  | moveToEnd n => (name n).map moveToEnd
  | replaceList ns => (ns.mapM name).map replaceList

end Change

/-- What a successful edit answers. -/
inductive ChangeAnswer where
  | done
  | wasThere (yes : Bool)
  | removed (n : NodeId)
deriving DecidableEq

/-- Runs an edit on a collection. -/
def Collection.apply (checks : Checks) (c : Collection)
    (change : Change NodeId) : Edit ChangeAnswer := fun f =>
  let done := fun (_ : Unit) => ChangeAnswer.done
  match change with
  | .set i n => (c.set checks i n f).map done
  | .add n => (c.add checks n f).map done
  | .addRange ns => (c.addRange checks ns f).map done
  | .insert i n => (c.insert checks i n f).map done
  | .removeAt i => (c.removeAt checks i f).map .removed
  | .remove n => (c.remove checks n f).map .wasThere
  | .removeRange i count => (c.removeRange checks i count f).map done
  | .swapRemoveAt i => (c.swapRemoveAt checks i f).map .removed
  | .clear => (c.clear checks f).map done
  | .move a b => (c.move checks a b f).map done
  | .moveToEnd n => (c.moveToEnd checks n f).map .wasThere
  | .replaceList ns => (c.replaceList checks ns f).map done

end InstructionTree
