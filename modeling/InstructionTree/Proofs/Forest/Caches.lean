/-
Cached flags, and which of them can be believed.

A node remembers the flags that it was asked for, until a commit at it or
below it makes it forget them. The commit only knows the way up, so a node
that holds a child linked elsewhere may remember flags that are long out
of date. It is `Trusted` all the same: a trusted node with cached flags
promises two things. The children that are linked to it have cached flags
too; and if all of its children are, its flags are those that its children
add up to (`summary`).

# Dirty owners

An edit breaks these promises for the owner it is about, and for nobody
else: it changes no other node's children, and links no child to anybody
else. So every state of a run has a list of dirty owners, and trusts all
other nodes (`Trusts`). A commit takes its owner off the list. It must
then climb, since whoever promised that the owner has cached flags must
not have any either, and so on upwards. Where the climb meets a node
without cached flags, the nodes above promised nothing, and it may stop.
-/
import InstructionTree.Proofs.Forest.Touch
import Mathlib.Data.Finset.Card

namespace InstructionTree.Forest

variable {checks : Checks} {f g h : Forest} {n o p : NodeId}
  {dirty : List NodeId}

-- =============================================================== trusted

/-- The flags that `n` remembers. -/
def told (f : Forest) (n : NodeId) : Flags := (f.node n).cached.getD ∅

/-- The flags that `n` would get if it asked its children now and they answered
what they were told. -/
def summary (f : Forest) (n : NodeId) : Flags :=
  let x := f.node n
  let flags := x.children.foldl
    (fun acc c => acc ∪ (f.told c).propagated) x.opcode.directFlags
  match if x.opcode = .block then x.children.getLast? else none with
  | none => flags
  | some last => flags ∪ (f.told last ∩ .endPointUnreachable)

/-- What the cached flags of `n` promise. -/
structure Trusted (f : Forest) (n : NodeId) : Prop where
  below : ∀ {flags c}, (f.node n).cached = some flags →
    c ∈ f.children n → (f.node c).link = some n →
    (f.node c).cached ≠ none
  sums : ∀ {flags}, (f.node n).cached = some flags →
    (∀ c ∈ f.children n, (f.node c).link = some n) →
    flags = f.summary n

/-- All nodes outside of `dirty` are `Trusted`. -/
def Trusts (f : Forest) (dirty : List NodeId) : Prop :=
  ∀ n, n ∉ dirty → f.Trusted n

/-- A node without cached flags is `Trusted`. -/
theorem Trusted.of_uncached (hnone : (f.node n).cached = none) :
    f.Trusted n where
  below hsome := by
    rw [hnone] at hsome
    cases hsome
  sums hsome := by
    rw [hnone] at hsome
    cases hsome

/-- `summary` looks at the opcode, the children, and their cached flags. -/
theorem summary_congr (hop : (g.node n).opcode = (f.node n).opcode)
    (hchildren : g.children n = f.children n)
    (htold : ∀ c ∈ f.children n, (g.node c).cached = (f.node c).cached) :
    g.summary n = f.summary n := by
  have hsame : ∀ c ∈ f.children n, g.told c = f.told c := fun c hc => by
    rw [told, told, htold c hc]
  have hfold : ∀ flags : Flags, (f.children n).foldl
      (fun acc c => acc ∪ (g.told c).propagated) flags
      = (f.children n).foldl
        (fun acc c => acc ∪ (f.told c).propagated) flags :=
    fun flags => List.foldl_ext _ _ _ fun acc c hc => by rw [hsame c hc]
  unfold children at hchildren hfold hsame
  unfold summary
  dsimp only
  rw [hop, hchildren, hfold]
  split
  · rfl
  next last hlast =>
    have hmem : last ∈ (f.node n).children := by
      split at hlast
      · exact List.mem_of_getLast? hlast
      · cases hlast
    rw [hsame last hmem]

/-- Nothing that the promises of `n` are about has changed, except that
children may be linked to it no longer. -/
structure Unseen (f g : Forest) (n : NodeId) : Prop where
  cached : (g.node n).cached = (f.node n).cached
  opcode : (g.node n).opcode = (f.node n).opcode
  children : g.children n = f.children n
  link : ∀ c ∈ f.children n, (g.node c).link = some n →
    (f.node c).link = some n
  told : ∀ c ∈ f.children n, (g.node c).cached = (f.node c).cached

theorem Unseen.refl (f : Forest) (n : NodeId) : Unseen f f n :=
  ⟨rfl, rfl, rfl, fun _ _ hlink => hlink, fun _ _ => rfl⟩

theorem Unseen.trans (hfg : Unseen f g n) (hgh : Unseen g h n) :
    Unseen f h n where
  cached := hgh.cached.trans hfg.cached
  opcode := hgh.opcode.trans hfg.opcode
  children := hgh.children.trans hfg.children
  link c hc hlink :=
    hfg.link c hc (hgh.link c (hfg.children.symm ▸ hc) hlink)
  told c hc := (hgh.told c (hfg.children.symm ▸ hc)).trans (hfg.told c hc)

theorem Trusted.unseen (htrust : f.Trusted n) (hfg : Unseen f g n) :
    g.Trusted n := by
  refine ⟨fun {flags c} hsome hc hlink => ?_, fun hsome hall => ?_⟩
  · rw [hfg.cached] at hsome
    rw [hfg.children] at hc
    rw [hfg.told c hc]
    exact htrust.below hsome hc (hfg.link c hc hlink)
  · rw [hfg.cached] at hsome
    rw [summary_congr hfg.opcode hfg.children hfg.told]
    refine htrust.sums hsome fun c hc => hfg.link c hc (hall c ?_)
    rwa [hfg.children]

/-- What `n` remembers is what its children add up to, linked to it or
not, and all of them remember too. -/
structure Informed (f : Forest) (n : NodeId) : Prop where
  below : ∀ {flags c}, (f.node n).cached = some flags →
    c ∈ f.children n → (f.node c).cached ≠ none
  sums : ∀ {flags}, (f.node n).cached = some flags → flags = f.summary n

theorem Informed.of_uncached (hnone : (f.node n).cached = none) :
    f.Informed n where
  below hsome := by
    rw [hnone] at hsome
    cases hsome
  sums hsome := by
    rw [hnone] at hsome
    cases hsome

/-- A `Trusted` node to which all children are linked is `Informed`. -/
theorem Trusted.informed (htrust : f.Trusted n)
    (hlinked : ∀ c ∈ f.children n, (f.node c).link = some n) :
    f.Informed n where
  below hsome hc := htrust.below hsome hc (hlinked _ hc)
  sums hsome := htrust.sums hsome hlinked

theorem Informed.unseen (hinformed : f.Informed n)
    (hfg : Unseen f g n) : g.Informed n := by
  refine ⟨fun {flags c} hsome hc => ?_, fun hsome => ?_⟩
  · rw [hfg.cached] at hsome
    rw [hfg.children] at hc
    rw [hfg.told c hc]
    exact hinformed.below hsome hc
  · rw [hfg.cached] at hsome
    rw [summary_congr hfg.opcode hfg.children hfg.told]
    exact hinformed.sums hsome

/-- From `f` to `g` every node outside of `dirty` is `Unseen`, or has no cached
flags in `g`. -/
def Overlooks (f g : Forest) (dirty : List NodeId) : Prop :=
  ∀ n, n ∉ dirty → (g.node n).cached = none ∨ Unseen f g n

theorem Overlooks.refl (f : Forest) (dirty : List NodeId) :
    Overlooks f f dirty :=
  fun n _ => .inr (.refl f n)

theorem Overlooks.trans (hfg : Overlooks f g dirty)
    (hgh : Overlooks g h dirty) : Overlooks f h dirty := by
  intro n hn
  rcases hgh n hn with hnone | hunseen
  · exact .inl hnone
  · exact (hfg n hn).imp (hunseen.cached.trans ·) (·.trans hunseen)

theorem Overlooks.mono {more : List NodeId} (hfg : Overlooks f g dirty)
    (hmore : ∀ n ∈ dirty, n ∈ more) : Overlooks f g more :=
  fun n hn => hfg n (mt (hmore n) hn)

theorem Trusts.overlooks (htrusts : f.Trusts dirty)
    (hfg : Overlooks f g dirty) : g.Trusts dirty :=
  fun n hn => (hfg n hn).elim .of_uncached (htrusts n hn).unseen

theorem Trusts.mono {more : List NodeId} (htrusts : f.Trusts dirty)
    (hmore : ∀ n ∈ dirty, n ∈ more) : f.Trusts more :=
  fun n hn => htrusts n (mt (hmore n) hn)

-- =========================================================== small steps

/-- An update that keeps cached flags, opcode, slots and link `Overlooks`
everybody. -/
theorem overlooks_update (m : NodeId) {k : Node → Node}
    (hcached : ∀ x, (k x).cached = x.cached)
    (hop : ∀ x, (k x).opcode = x.opcode)
    (hslots : ∀ x, (k x).slots = x.slots)
    (hlink : ∀ x, (k x).link = x.link) :
    Overlooks f (f.update m k) dirty := by
  refine fun n _ => .inr ⟨?_, ?_, ?_, fun c _ h => ?_, fun c _ => ?_⟩
  · exact f.field_update (F := Node.cached) hcached m n
  · exact f.field_update (F := Node.opcode) hop m n
  · rw [children_eq, children_eq,
      f.field_update (F := Node.slots) hslots m n]
  · rwa [f.field_update (F := Node.link) hlink m c] at h
  · exact f.field_update (F := Node.cached) hcached m c

/-- A step that may also link a child to a dirty owner, or to nobody,
`Overlooks` the others. -/
theorem overlooks_relink (ho : o ∈ dirty)
    (hcached : ∀ n, (g.node n).cached = (f.node n).cached)
    (hop : ∀ n, (g.node n).opcode = (f.node n).opcode)
    (hslots : ∀ n, (g.node n).slots = (f.node n).slots)
    (hlink : ∀ n p, (g.node n).link = some p →
      p = o ∨ (f.node n).link = some p) :
    Overlooks f g dirty := by
  intro n hn
  have hne : n ≠ o := fun h => hn (h ▸ ho)
  refine .inr ⟨hcached n, hop n, ?_,
    fun c _ h => (hlink c n h).resolve_left hne, fun c _ => hcached c⟩
  rw [children_eq, children_eq, hslots n]

theorem overlooks_setPosition (m : NodeId) (k : Nat) :
    Overlooks f (f.setPosition m k) dirty :=
  overlooks_update m (fun _ => rfl) (fun _ => rfl) (fun _ => rfl)
    fun _ => rfl

/-- `setSlot` that changes the children of dirty nodes only `Overlooks` the
others. -/
theorem overlooks_store {i : Nat} {items : List NodeId}
    (hchildren : ∀ n, n ∉ dirty →
      (f.setSlot o i items).children n = f.children n) :
    Overlooks f (f.setSlot o i items) dirty := by
  refine fun n hn => .inr ⟨?_, ?_, hchildren n hn, fun c _ h => ?_,
    fun c _ => ?_⟩
  · exact field_setSlot f (F := Node.cached) (fun _ _ => rfl) o i items n
  · exact field_setSlot f (F := Node.opcode) (fun _ _ => rfl) o i items n
  · rwa [link_setSlot] at h
  · exact field_setSlot f (F := Node.cached) (fun _ _ => rfl) o i items c

/-- `setSlot` of a dirty owner changes the children of no other node, so it
`Overlooks` them. -/
theorem overlooks_setSlot (ho : o ∈ dirty) (i : Nat)
    (items : List NodeId) : Overlooks f (f.setSlot o i items) dirty := by
  refine overlooks_store fun n hn => ?_
  have hne : n ≠ o := fun h => hn (h ▸ ho)
  rw [children_eq, children_eq, slots_setSlot_ne f i items hne]

/-- `setSlot` to what the slot holds `Overlooks` everybody. -/
theorem overlooks_setSlot_self (o : NodeId) (i : Nat) :
    Overlooks f (f.setSlot o i (f.slot o i)) dirty := by
  refine overlooks_store fun n _ => ?_
  rw [children_eq, children_eq, Forest.setSlot, node_update]
  split
  next hn =>
    rw [hn.1, Node.setSlot]
    dsimp only
    rcases Nat.lt_or_ge i (f.node o).slots.length with hi | hi
    · rw [slot, Node.slot, List.getElem?_eq_getElem hi, Option.getD_some,
        List.set_getElem_self]
    · rw [List.set_eq_of_length_le hi]
  · rfl

theorem overlooks_enter (ho : o ∈ dirty) (c : NodeId) :
    Overlooks f (f.enter o c) dirty :=
  overlooks_relink ho
    (f.field_enter (F := Node.cached) (fun _ _ _ => rfl) o c)
    (f.field_enter (F := Node.opcode) (fun _ _ _ => rfl) o c)
    (f.slots_enter o c) fun _ _ h => f.link_of_enter h

theorem overlooks_detach (ho : o ∈ dirty) (c : NodeId) :
    Overlooks f (f.detach o c) dirty :=
  overlooks_relink ho
    (f.field_detach (F := Node.cached) (fun _ _ _ => rfl) o c)
    (f.field_detach (F := Node.opcode) (fun _ _ _ => rfl) o c)
    (f.slots_detach o c) fun _ _ h => .inr (f.link_of_detach h)

/-- `erase` of a loose node `Overlooks` everybody: it is nobody's child. -/
theorem overlooks_erase {m : NodeId} (hloose : f.isLoose m = true) :
    Overlooks f (f.erase m) dirty := by
  intro n _
  by_cases hnm : n = m
  · refine .inl ?_
    rw [node_of_not_alive (f.erase m) (by rw [isAlive_erase, if_pos hnm])]
    rfl
  · have hnode := f.node_erase_ne hnm
    have hother : ∀ c ∈ f.children n, (f.erase m).node c = f.node c :=
      fun c hc => f.node_erase_ne fun hcm =>
        (isLoose_iff.mp hloose).2.2 n (hcm ▸ hc)
    refine .inr ⟨?_, ?_, ?_, fun c hc h => ?_, fun c hc => ?_⟩
    · rw [hnode]
    · rw [hnode]
    · rw [children_eq, children_eq, hnode]
    · rwa [hother c hc] at h
    · rw [hother c hc]

theorem overlooks_sheds (hfg : Sheds f g) : Overlooks f g dirty := by
  induction hfg with
  | refl => exact .refl f dirty
  | free m _ hloose ih => exact ih.trans (overlooks_erase hloose)

/-- `alloc` of a fresh node `Overlooks` everybody: it has no cached flags. -/
theorem overlooks_alloc (op : Opcode) (x : Operand) :
    Overlooks f (f.alloc (Node.fresh op x)).2 dirty := by
  have hborn : f.node (f.alloc (Node.fresh op x)).1 = default :=
    node_of_not_alive f (f.not_alive_alloc _)
  intro n _
  by_cases hnew : n = (f.alloc (Node.fresh op x)).1
  · refine .inl ?_
    rw [node_alloc, if_pos hnew]
    rfl
  · have hnode : (f.alloc (Node.fresh op x)).2.node n = f.node n := by
      rw [node_alloc, if_neg hnew]
    have hother : ∀ c, ((f.alloc (Node.fresh op x)).2.node c).cached
          = (f.node c).cached
        ∧ ((f.alloc (Node.fresh op x)).2.node c).link
          = (f.node c).link := by
      intro c
      rw [node_alloc]
      split
      case isTrue hc =>
        rw [hc, hborn]
        exact ⟨rfl, rfl⟩
      case isFalse => exact ⟨rfl, rfl⟩
    refine .inr ⟨?_, ?_, ?_, fun c hc h => ?_, fun c hc => (hother c).1⟩
    · rw [hnode]
    · rw [hnode]
    · rw [children_eq, children_eq, hnode]
    · rwa [(hother c).2] at h

/-- `Touches` of a dirty owner `Overlooks` all other nodes. -/
theorem overlooks_touches (ho : o ∈ dirty) (hfg : Touches checks o f g) :
    Overlooks f g dirty := by
  induction hfg with
  | refl => exact .refl f dirty
  | tail _ hstep ih =>
      refine ih.trans ?_
      cases hstep with
      | place m k => exact overlooks_setPosition m k
      | store i items => exact overlooks_setSlot ho i items
      | enter c => exact overlooks_enter ho c
      | leave c => exact overlooks_detach ho c
      | free m hloose => exact overlooks_erase hloose

theorem overlooks_emit (e : Event) : Overlooks f (f.emit e) dirty :=
  fun _ _ => .inr ⟨rfl, rfl, rfl, fun _ _ h => h, fun _ _ => rfl⟩

-- =============================================================== commits

theorem cached_dropCache_self (f : Forest) (n : NodeId) :
    ((f.dropCache n).node n).cached = none := by
  cases hn : f.isAlive n with
  | true => rw [dropCache, node_update_self f hn]
  | false =>
      have hdead : (f.dropCache n).isAlive n = false :=
        (isAlive_update ..).trans hn
      rw [node_of_not_alive _ hdead]
      rfl

/-- Forgetting the flags of a node breaks the promises of its parent, and
mends its own. -/
theorem Trusts.dropCache (htrusts : f.Trusts (n :: dirty)) :
    (f.dropCache n).Trusts ((f.parent? n).toList ++ dirty) := by
  intro m hm
  rw [List.mem_append, not_or] at hm
  have hfield : ∀ {α : Type} {F : Node → α}
      (_ : ∀ x c, F { x with cached := c } = F x) (c : NodeId),
      F ((f.dropCache n).node c) = F (f.node c) :=
    fun hF c => f.field_update (fun x => hF x _) n c
  have hlink := hfield (F := Node.link) fun _ _ => rfl
  have hchildren : (f.dropCache n).children m = f.children m := by
    rw [children_eq, children_eq, hfield (F := Node.slots) fun _ _ => rfl]
  by_cases hmn : m = n
  · exact .of_uncached (hmn ▸ f.cached_dropCache_self n)
  · have htrust := htrusts m fun h => by
      rcases List.mem_cons.mp h with h | h
      · exact hmn h
      · exact hm.2 h
    have hcached : ∀ c, c ≠ n →
        ((f.dropCache n).node c).cached = (f.node c).cached := by
      intro c hc
      rw [Forest.dropCache, node_update_ne f hc]
    -- a child that is linked to `m` is not the node that forgot
    have hother : ∀ c ∈ f.children m, (f.node c).link = some m → c ≠ n := by
      rintro c hc hlinked rfl
      refine hm.1 (Option.mem_toList.mpr ?_)
      exact parent?_eq_some_iff.mpr ⟨hlinked, f.alive_of_mem_children hc⟩
    refine ⟨fun {flags c} hsome hc hlinked => ?_, fun hsome hall => ?_⟩
    · rw [hcached m hmn] at hsome
      rw [hchildren] at hc
      rw [hlink] at hlinked
      rw [hcached c (hother c hc hlinked)]
      exact htrust.below hsome hc hlinked
    · rw [hcached m hmn] at hsome
      rw [hchildren] at hall
      have hlinked : ∀ c ∈ f.children m, (f.node c).link = some m :=
        fun c hc => (hlink c).symm.trans (hall c hc)
      rw [summary_congr (hfield (F := Node.opcode) (fun _ _ => rfl) m)
        hchildren fun c hc => hcached c (hother c hc (hlinked c hc))]
      exact htrust.sums hsome hlinked

/-- The indices of the nodes with cached flags. -/
def remembering (f : Forest) : Finset Nat :=
  (Finset.range f.size).filter fun i => (f.node ⟨i⟩).cached ≠ none

theorem card_remembering_le (f : Forest) :
    f.remembering.card ≤ f.size :=
  Nat.le_trans (Finset.card_filter_le ..)
    (Nat.le_of_eq (Finset.card_range f.size))

theorem mem_remembering {n : NodeId} :
    n.index ∈ f.remembering ↔ (f.node n).cached ≠ none := by
  refine Finset.mem_filter.trans ⟨And.right, fun hsome => ⟨?_, hsome⟩⟩
  refine Finset.mem_range.mpr (f.index_lt_of_alive ?_)
  cases hn : f.isAlive n with
  | true => rfl
  | false =>
      rw [node_of_not_alive f hn] at hsome
      exact absurd rfl hsome

/-- `dropCache` of a node with cached flags makes `remembering` smaller. -/
theorem card_remembering_dropCache (hsome : (f.node n).cached ≠ none) :
    (f.dropCache n).remembering.card < f.remembering.card := by
  refine Finset.card_lt_card (Finset.ssubset_iff_of_subset ?_ |>.mpr
    ⟨n.index, mem_remembering.mpr hsome, fun hn => ?_⟩)
  · intro i hi
    have hi' : (NodeId.mk i).index ∈ (f.dropCache n).remembering := hi
    refine mem_remembering (n := ⟨i⟩).mpr ?_
    rw [mem_remembering, Forest.dropCache, node_update] at hi'
    split at hi'
    · exact absurd rfl hi'
    · exact hi'
  · exact mem_remembering.mp hn (f.cached_dropCache_self n)

/-- If `remembering` is empty, no node has cached flags. -/
theorem uncached_of_card_remembering (hnone : f.remembering.card = 0)
    (n : NodeId) : (f.node n).cached = none := by
  by_contra hsome
  have hmem := mem_remembering.mpr hsome
  rw [Finset.card_eq_zero.mp hnone] at hmem
  exact absurd hmem (Finset.notMem_empty _)

/-- What holds of a forest but for some listed nodes, and what a climb
mends: a node that remembers nothing need not be listed, and a node that
forgets is replaced by its parent. -/
structure Mends (P : Forest → List NodeId → Prop) : Prop where
  mono : ∀ {f dirty more}, P f dirty → (∀ n ∈ dirty, n ∈ more) → P f more
  overlooks : ∀ {f g dirty}, P f dirty → Overlooks f g dirty → P g dirty
  known : ∀ {f n dirty}, (f.node n).cached = none → P f (n :: dirty) →
    P f dirty
  drop : ∀ {f n dirty}, P f (n :: dirty) →
    P (f.dropCache n) ((f.parent? n).toList ++ dirty)

section

variable {P : Forest → List NodeId → Prop} (hP : Mends P)
include hP

/-- `dropCachesFrom` takes `next` off the dirty nodes, if it has as many steps
as there are nodes to forget. -/
theorem Mends.dropCachesFrom :
    ∀ {steps : Nat} {next : Option NodeId} {f : Forest},
      f.remembering.card ≤ steps → P f (next.toList ++ dirty) →
      P (dropCachesFrom steps next f) dirty := by
  intro steps
  induction steps with
  | zero =>
      intro next f hcard hf
      cases next with
      | none => exact hf
      | some n =>
          exact hP.known
            (uncached_of_card_remembering (Nat.le_zero.mp hcard) n) hf
  | succ steps ih =>
      intro next f hcard hf
      cases next with
      | none => exact hf
      | some n =>
          unfold Forest.dropCachesFrom
          split
          case isTrue hnone =>
            exact hP.known (Option.isNone_iff_eq_none.mp hnone) hf
          case isFalse hsome =>
            have hfewer := card_remembering_dropCache (f := f) (n := n)
              (mt Option.isNone_iff_eq_none.mpr hsome)
            exact ih (by omega) (hP.drop hf)

/-- `commit` takes its owner off the dirty nodes. -/
theorem Mends.commit (hf : P f (o :: dirty)) : P (f.commit o) dirty := by
  have hcounted : P (f.countBatch o) (o :: dirty) :=
    hP.overlooks hf (overlooks_update o (fun _ => rfl) (fun _ => rfl)
      (fun _ => rfl) fun _ => rfl)
  refine hP.overlooks (hP.dropCachesFrom ?_ (hP.drop hcounted))
    (overlooks_emit _)
  have hcard := card_remembering_le ((f.countBatch o).dropCache o)
  rwa [Forest.dropCache, size_update] at hcard

end

theorem mends_trusts : Mends Trusts where
  mono htrusts hmore := htrusts.mono hmore
  overlooks htrusts hfg := htrusts.overlooks hfg
  known {f n dirty} hnone htrusts m hm := by
    by_cases hmn : m = n
    · exact .of_uncached (hmn ▸ hnone)
    · exact htrusts m fun h => (List.mem_cons.mp h).elim hmn hm
  drop htrusts := htrusts.dropCache

theorem Trusts.commit (htrusts : f.Trusts (o :: dirty)) :
    (f.commit o).Trusts dirty :=
  mends_trusts.commit htrusts

-- =============================================================== batches

/-- From `f` to `g` there were only batches: what one owner does, and then
its commit. -/
inductive Batched (f : Forest) : Forest → Prop where
  | refl : Batched f f
  | unseen {g h : Forest} (hfg : Batched f g) (hgh : Overlooks g h []) :
      Batched f h
  | commit {g h : Forest} {o : NodeId} (hfg : Batched f g)
      (hgh : Overlooks g h [o]) : Batched f (h.commit o)

theorem Batched.trans (hfg : Batched f g) (hgh : Batched g h) :
    Batched f h := by
  induction hgh with
  | refl => exact hfg
  | unseen _ hunseen ih => exact ih.unseen hunseen
  | commit _ hunseen ih => exact ih.commit hunseen

/-- What a commit mends holds after `Batched` with the same dirty nodes. -/
theorem Mends.batched {P : Forest → List NodeId → Prop} (hP : Mends P)
    (hf : P f dirty) (hfg : Batched f g) : P g dirty := by
  induction hfg with
  | refl => exact hf
  | unseen _ hunseen ih =>
      exact hP.overlooks ih (hunseen.mono fun n hn => by cases hn)
  | @commit g h o _ hunseen ih =>
      have hdirty : P h (o :: dirty) :=
        hP.overlooks (hP.mono ih fun n hn => .tail _ hn)
          (hunseen.mono fun n hn => List.mem_singleton.mp hn ▸ .head _)
      exact hP.commit hdirty

/-- `Trusts dirty` holds after `Batched` if it holds before. -/
theorem Trusts.batched (htrusts : f.Trusts dirty) (hfg : Batched f g) :
    g.Trusts dirty :=
  mends_trusts.batched htrusts hfg

end InstructionTree.Forest
