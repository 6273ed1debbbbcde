/-
Refilling a slot.

There is more than one way to give a slot of an owner other contents: one
by one or all at once, letting go of each old element or of all of them in
the end, with one commit or two. `Refill` covers them all, as long as they
are about the old and the new elements only. Two ways that store the same in
the end differ in nothing else (but commits are counted): what is not an
element or below one keeps what it has, who is freed does not depend on when
(`Refill.gone`), and with the same books the nodes end in the same states
(`Refill.get?_eq`).

# Away from the owner

This needs that neither the owner nor anything above it can be reached from
an element. Then a climb from the owner meets no element, whatever the edit
has done so far: attaching an element closes no ring (`Refill.opens`), and
all commits forget the same flags (`Refill.cached`).
-/
import InstructionTree.Proofs.Forest.Account
import InstructionTree.Proofs.Forest.Commits
import InstructionTree.Proofs.Forest.Reaping
import InstructionTree.Proofs.Forest.Versions

namespace InstructionTree

/-- Records that agree in all fields but the version. -/
theorem Node.eq_of_fields {x y : Node}
    (hkept : (x.opcode, x.operand, x.depth, x.handles)
      = (y.opcode, y.operand, y.depth, y.handles))
    (hslots : x.slots = y.slots) (hlink : x.link = y.link)
    (hposition : x.position = y.position) (hrefs : x.slotRefs = y.slotRefs)
    (hcached : x.cached = y.cached) :
    x = { y with version := x.version } := by
  cases x
  cases y
  simp only [Prod.mk.injEq] at hkept
  simp_all

namespace Forest

variable {f g h : Forest} {o n p x : NodeId} {i count : Nat}
  {els due : List NodeId}

/-- Nothing changed but what `n` says about where it is. -/
structure Relocates (n : NodeId) (f g : Forest) : Prop where
  size : g.size = f.size
  alive : ∀ x, g.isAlive x = f.isAlive x
  other : ∀ {x}, x ≠ n → g.node x = f.node x
  self : { g.node n with
    link := (f.node n).link, position := (f.node n).position,
    slotRefs := (f.node n).slotRefs } = f.node n

/-- `Relocates` changes only link, position and `slotRefs`. -/
theorem Relocates.field {α : Type _} {F : Node → α}
    (hF : ∀ x l p r, F { x with link := l, position := p, slotRefs := r }
      = F x) (hfg : Relocates n f g) (x : NodeId) :
    F (g.node x) = F (f.node x) := by
  by_cases hxn : x = n
  · subst hxn
    rw [← hF (g.node x) (f.node x).link (f.node x).position
      (f.node x).slotRefs, hfg.self]
  · rw [hfg.other hxn]

theorem relocates_setPosition (n : NodeId) (k : Nat) :
    Relocates n f (f.setPosition n k) where
  size := size_setPosition ..
  alive := f.isAlive_setPosition n k
  other hne := node_update_ne f hne
  self := by
    rw [setPosition, node_update]
    split <;> rfl

theorem relocates_enter (o n : NodeId) : Relocates n f (f.enter o n) where
  size := size_enter ..
  alive := f.isAlive_enter o n
  other hne := node_update_ne f hne
  self := by
    rw [enter, node_update]
    split <;> rfl

theorem relocates_detach (o n : NodeId) : Relocates n f (f.detach o n) where
  size := size_detach ..
  alive := f.isAlive_detach o n
  other hne := node_detach_ne f hne
  self := by
    have hnode : (f.detach o n).node n = _ := f.node_update n n _
    rw [hnode]
    split <;> rfl

theorem isLoose_congr (halive : g.isAlive x = f.isAlive x)
    (hhandles : (g.node x).handles = (f.node x).handles)
    (hslots : ∀ p, (g.node p).slots = (f.node p).slots) :
    g.isLoose x = f.isLoose x := by
  rw [Bool.eq_iff_iff, isLoose_iff, isLoose_iff, halive, hhandles]
  simp only [children_eq, hslots]

/-- A child is in one of the slots that the node has. -/
theorem exists_mem_slot (hx : x ∈ f.children p) :
    ∃ j, j < (f.node p).slots.length ∧ x ∈ f.slot p j := by
  obtain ⟨items, hitems, hmem⟩ := List.mem_flatten.mp hx
  obtain ⟨j, hj⟩ := List.mem_iff_getElem?.mp hitems
  refine ⟨j, (List.getElem?_eq_some_iff.mp hj).1, ?_⟩
  rwa [f.slot_of_getElem? hj]

/-- The children are exactly what is in some slot. -/
theorem mem_children_iff : x ∈ f.children p ↔ ∃ j, x ∈ f.slot p j := by
  constructor
  · intro hx
    obtain ⟨j, -, hj⟩ := exists_mem_slot hx
    exact ⟨j, hj⟩
  · rintro ⟨j, hj⟩
    exact f.mem_children_of_mem_slot hj

/-- A slot that holds somebody is one of the slots that the node has. -/
theorem lt_of_mem_slot (hx : x ∈ f.slot p i) :
    i < (f.node p).slots.length := by
  by_contra hout
  rw [slot, Node.slot, List.getElem?_eq_none (Nat.le_of_not_lt hout)] at hx
  cases hx

/-- What `setSlot` is read back as is what was stored. -/
theorem mem_of_mem_slot_setSlot {items : List NodeId}
    (hx : x ∈ (f.setSlot o i items).slot o i) : x ∈ items := by
  have ho := alive_of_mem_children _ (mem_children_of_mem_slot _ hx)
  rw [isAlive_setSlot] at ho
  rw [slot, Node.slot, slots_setSlot_self f i items ho, List.getElem?_set,
    if_pos rfl] at hx
  split at hx
  · exact hx
  · cases hx

theorem mem_slot_setSlot {items : List NodeId} (ho : f.isAlive o = true)
    (hi : i < (f.node o).slots.length) (hx : x ∈ items) :
    x ∈ (f.setSlot o i items).slot o i := by
  rwa [slot, Node.slot, slots_setSlot_self f i items ho,
    List.getElem?_set_self hi]

/-- `setSlot` makes nobody loose but what it takes out. -/
theorem isLoose_of_setSlot {items : List NodeId}
    (hx : (f.setSlot o i items).isLoose x = true)
    (hstays : x ∈ f.slot o i → x ∈ items) : f.isLoose x = true := by
  obtain ⟨halive, hhandles, hfree⟩ := isLoose_iff.mp hx
  rw [isAlive_setSlot] at halive
  rw [f.field_setSlot (F := Node.handles) fun _ _ => rfl] at hhandles
  -- whoever held it still does
  refine isLoose_iff.mpr ⟨halive, hhandles, fun p hp => hfree p ?_⟩
  by_cases hpo : p = o
  · subst hpo
    obtain ⟨j, hlt, hmem⟩ := exists_mem_slot hp
    refine mem_children_of_mem_slot (i := j) _ ?_
    by_cases hji : j = i
    · subst hji
      exact mem_slot_setSlot (f.alive_of_mem_children hp) hlt (hstays hmem)
    · rwa [slot_setSlot_ne f p items hji]
  · rwa [children_eq, slots_setSlot_ne f i items hpo]

/-- Nothing in `below` is above `o`, if that is closed downwards, and some
list without any of it is closed upwards. -/
theorem not_above_of_closed (below above : List NodeId)
    (hels : ∀ e ∈ els, e ∈ below)
    (hbelow : ∀ p ∈ below, ∀ n ∈ f.children p, n ∈ below) (ho : o ∈ above)
    (habove : ∀ n ∈ above, ∀ p ∈ f.parent? n, p ∈ above)
    (hapart : ∀ m ∈ below, m ∉ above) :
    ∀ e ∈ els, ∀ m, Relation.ReflTransGen f.Holds e m → ¬ f.Above o m := by
  intro e he m hreach hover
  have hdown : m ∈ below := by
    clear hover
    induction hreach with
    | refl => exact hels e he
    | tail _ hc ih => exact hbelow _ ih _ hc
  have hup : m ∈ above := by
    clear hreach hdown
    induction hover with
    | refl => exact ho
    | tail _ hp ih => exact habove _ ih _ hp
  exact hapart m hdown hup

/-- From `f` to `g`, slot `i` of `o` was given other contents, by steps that
are about `els`, with `count` commits. Of `due` it still has to let go. -/
inductive Refill (o : NodeId) (i : Nat) (els : List NodeId) (f : Forest) :
    Nat → List NodeId → Forest → Prop where
  | start : Refill o i els f 0 [] f
  | relocate {count : Nat} {due : List NodeId} {g h : Forest}
      (hg : Refill o i els f count due g) {n : NodeId} (hn : n ∈ els)
      (hgh : Relocates n g h) : Refill o i els f count due h
  | store {count : Nat} {due more : List NodeId} {g : Forest}
      (hg : Refill o i els f count due g) {items : List NodeId}
      (hitems : ∀ n ∈ items, n ∈ els) (hdue : ∀ n ∈ due, n ∈ more)
      (hlost : ∀ n ∈ g.slot o i, n ∈ items ∨ n ∈ more) :
      Refill o i els f count more (g.setSlot o i items)
  | free {count : Nat} {n : NodeId} {due : List NodeId} {g : Forest}
      (hg : Refill o i els f count (n :: due) g) (hn : n ∈ els) :
      Refill o i els f count due (g.reap n)
  | commit {count : Nat} {due : List NodeId} {g : Forest}
      (hg : Refill o i els f count due g) :
      Refill o i els f (count + 1) due (g.commit o)

namespace Refill

-- ===================================================== what is left alone

theorem size_eq (hg : Refill o i els f count due g) : g.size = f.size := by
  induction hg with
  | start => rfl
  | relocate _ _ hgh ih => rw [hgh.size, ih]
  | store _ _ _ _ ih => rw [size_setSlot, ih]
  | free _ _ ih => rw [(sheds_reap _ _).size_eq, ih]
  | commit _ ih => rw [(alike_commit _).size, ih]

theorem survivor (hg : Refill o i els f count due g)
    (hx : g.isAlive x = true) : f.isAlive x = true := by
  induction hg with
  | start => exact hx
  | relocate _ _ hgh ih => exact ih (by rwa [hgh.alive] at hx)
  | store _ _ _ _ ih => exact ih (by rwa [isAlive_setSlot] at hx)
  | free _ _ ih => exact ih ((sheds_reap _ _).survivor hx)
  | commit _ ih => exact ih (by rwa [isAlive_commit] at hx)

/-- A field that neither relocations nor stores nor commits change is kept by
`Refill` until the node is freed. -/
theorem kept {α : Type _} {F : Node → α}
    (hrelocate : ∀ {g h : Forest} {n : NodeId}, n ∈ els →
      Relocates n g h → F (h.node x) = F (g.node x))
    (hstore : ∀ (g : Forest) (items : List NodeId),
      F ((g.setSlot o i items).node x) = F (g.node x))
    (hcommit : ∀ g : Forest, F ((g.commit o).node x) = F (g.node x))
    (hg : Refill o i els f count due g) (hx : g.isAlive x = true) :
    F (g.node x) = F (f.node x) := by
  induction hg with
  | start => rfl
  | relocate _ hn hgh ih =>
      rw [hrelocate hn hgh]
      exact ih (by rwa [hgh.alive] at hx)
  | store _ _ _ _ ih =>
      rw [hstore]
      exact ih (by rwa [isAlive_setSlot] at hx)
  | free _ _ ih =>
      rw [(sheds_reap _ _).node_eq hx]
      exact ih ((sheds_reap _ _).survivor hx)
  | commit _ ih =>
      rw [hcommit]
      exact ih (by rwa [isAlive_commit] at hx)

/-- `Refill` keeps opcode, operand, depth and handles of every node that lives
on. -/
theorem field {α : Type _} {F : Node → α}
    (hF : ∀ x s l p r v c, F { x with
      slots := s, link := l, position := p, slotRefs := r, version := v,
      cached := c } = F x)
    (hg : Refill o i els f count due g) (hx : g.isAlive x = true) :
    F (g.node x) = F (f.node x) := by
  refine hg.kept (fun _ hgh => ?_) (fun g items => ?_) (fun g => ?_) hx
  · exact hgh.field
      (fun y l p r => hF y y.slots l p r y.version y.cached) x
  · exact g.field_setSlot
      (fun y s => hF y s y.link y.position y.slotRefs y.version y.cached)
      o i items x
  · exact g.field_commit
      (fun y v c => hF y y.slots y.link y.position y.slotRefs v c) o x

/-- `Refill` keeps the slots of every node but `o`. -/
theorem slots_ne (hg : Refill o i els f count due g)
    (hx : g.isAlive x = true) (hne : x ≠ o) :
    (g.node x).slots = (f.node x).slots :=
  hg.kept
    (fun _ hgh => hgh.field (fun _ _ _ _ => rfl) x)
    (fun g items => slots_setSlot_ne g i items hne)
    (fun g => slots_commit g o x) hx

theorem children_ne (hg : Refill o i els f count due g)
    (hx : g.isAlive x = true) (hne : x ≠ o) :
    g.children x = f.children x := by
  rw [children_eq, children_eq, hg.slots_ne hx hne]

/-- `Refill` keeps the slots of `o` but slot `i`. -/
theorem slot_ne (hg : Refill o i els f count due g)
    (ho : g.isAlive o = true) {j : Nat} (hne : j ≠ i) :
    g.slot o j = f.slot o j := by
  refine hg.kept (F := fun y => y.slot j) (fun _ hgh => ?_)
    (fun g items => slot_setSlot_ne g o items hne o)
    (fun g => slot_congr (slots_commit g o o) j) ho
  exact slot_congr (hgh.field (F := Node.slots) (fun _ _ _ _ => rfl) o) j

/-- `Refill` keeps the link of every node outside of `els`. -/
theorem link (hg : Refill o i els f count due g) (hx : g.isAlive x = true)
    (hels : x ∉ els) : (g.node x).link = (f.node x).link :=
  hg.kept
    (fun {_ _ n} hn hgh => by
      rw [hgh.other fun hxn : x = n => hels (hxn ▸ hn)])
    (fun g items => link_setSlot g o i items x)
    (fun g => g.field_commit (F := Node.link) (fun _ _ _ => rfl) o x) hx

/-- `Refill` raises the version of `o` by `count`, and no other version. -/
theorem version (hg : Refill o i els f count due g)
    (hx : g.isAlive x = true) :
    (g.node x).version
      = (f.node x).version + if x = o then count else 0 := by
  induction hg with
  | start => rw [ite_self, Nat.add_zero]
  | relocate _ _ hgh ih =>
      rw [hgh.field (F := Node.version) fun _ _ _ _ => rfl]
      exact ih (by rwa [hgh.alive] at hx)
  | @store _ _ _ g _ items _ _ _ ih =>
      rw [g.field_setSlot (F := Node.version) fun _ _ => rfl]
      exact ih (by rwa [isAlive_setSlot] at hx)
  | free _ _ ih =>
      rw [(sheds_reap _ _).node_eq hx]
      exact ih ((sheds_reap _ _).survivor hx)
  | @commit _ _ g _ ih =>
      rw [isAlive_commit] at hx
      rw [version_commit hx, ih hx]
      split <;> omega

-- ================================================================ who waits

/-- After `Refill` a loose node was loose before, or is `due`. -/
theorem loose (hg : Refill o i els f count due g)
    (hx : g.isLoose x = true) : f.isLoose x = true ∨ x ∈ due := by
  induction hg with
  | start => exact .inl hx
  | relocate _ _ hgh ih =>
      rw [isLoose_congr (hgh.alive _) (hgh.field (fun _ _ _ _ => rfl) x)
        fun p => hgh.field (fun _ _ _ _ => rfl) p] at hx
      exact ih hx
  | @store _ due more g hg items _ hdue hlost ih =>
      by_cases hmore : x ∈ more
      · exact .inr hmore
      · exact (ih (isLoose_of_setSlot hx fun hmem =>
          (hlost x hmem).resolve_right hmore)).imp_right (hdue x)
  | free _ _ ih =>
      obtain ⟨hx, hne⟩ := isLoose_reap hx
      exact (ih hx).imp_right fun hmem =>
        (List.mem_cons.mp hmem).resolve_left hne
  | commit _ ih =>
      rw [isLoose_congr (isAlive_commit ..)
        (field_commit _ (fun _ _ _ => rfl) ..) fun p => slots_commit ..] at hx
      exact ih hx

-- ====================================================== what is refilled

/-- After `Refill` the slot holds nodes of `els` only, if it did before. -/
theorem elements (hg : Refill o i els f count due g)
    (hstart : ∀ n ∈ f.slot o i, n ∈ els) : ∀ n ∈ g.slot o i, n ∈ els := by
  induction hg with
  | start => exact hstart
  | relocate _ _ hgh ih =>
      rwa [slot_congr (hgh.field (fun _ _ _ _ => rfl) o)]
  | store _ hitems _ _ _ =>
      exact fun n hn => hitems n (mem_of_mem_slot_setSlot hn)
  | @free _ m _ g _ _ ih =>
      intro n hn
      have ho := alive_of_mem_children _ (mem_children_of_mem_slot _ hn)
      rw [slot, (sheds_reap g m).node_eq ho] at hn
      exact ih n hn
  | @commit _ _ g _ ih => rwa [slot_congr (slots_commit g o o)]

-- ================================================================ more steps

theorem enter (hg : Refill o i els f count due g) (hn : n ∈ els) :
    Refill o i els f count due (g.enter o n) :=
  hg.relocate hn (relocates_enter o n)

theorem detach (hg : Refill o i els f count due g) (hn : n ∈ els) :
    Refill o i els f count due (g.detach o n) :=
  hg.relocate hn (relocates_detach o n)

theorem detachAll {ns : List NodeId} (hns : ∀ n ∈ ns, n ∈ els)
    (hg : Refill o i els f count due g) :
    Refill o i els f count due
      (ns.foldl (fun g old => g.detach o old) g) := by
  induction ns generalizing g with
  | nil => exact hg
  | cons n rest ih =>
      exact ih (fun m hm => hns m (.tail _ hm)) (hg.detach (hns n (.head _)))

theorem reapAll {ns : List NodeId} (hns : ∀ n ∈ ns, n ∈ els)
    (hg : Refill o i els f count ns g) :
    Refill o i els f count [] (g.reapAll ns) := by
  induction ns generalizing g with
  | nil => exact hg
  | cons n rest ih =>
      exact ih (fun m hm => hns m (.tail _ hm)) (hg.free (hns n (.head _)))

-- what follows needs that nothing below an element is above the owner

variable (haway : ∀ e ∈ els, ∀ m, Relation.ReflTransGen f.Holds e m →
  ¬ f.Above o m)
include haway

/-- What can be reached from a node of `els` after `Refill` could be reached
before. -/
theorem reaches (hg : Refill o i els f count due g) (hn : n ∈ els)
    (hreach : Relation.ReflTransGen g.Holds n x) :
    Relation.ReflTransGen f.Holds n x := by
  induction hreach with
  | refl => exact .refl
  | @tail p c _ hc ih =>
      refine ih.tail ?_
      have hpo : p ≠ o := fun hpo => haway n hn p ih (hpo ▸ .refl)
      rwa [Holds, hg.children_ne (g.alive_of_mem_children hc) hpo] at hc

/-- A node that `Refill` freed could be reached from a node of `els`. -/
theorem freed (hg : Refill o i els f count due g) (hf : f.isAlive x = true)
    (hx : g.isAlive x = false) :
    ∃ e ∈ els, Relation.ReflTransGen f.Holds e x := by
  induction hg with
  | start =>
      rw [hf] at hx
      cases hx
  | relocate _ _ hgh ih => exact ih (by rwa [hgh.alive] at hx)
  | store _ _ _ _ ih => exact ih (by rwa [isAlive_setSlot] at hx)
  | @free _ n _ g hg hn ih =>
      cases hgx : g.isAlive x with
      | false => exact ih hgx
      | true =>
          have hreach : Relation.ReflTransGen g.Holds n x :=
            (frees_reap g n).of_freed hgx hx
          exact ⟨n, hn, hg.reaches haway hn hreach⟩
  | commit _ ih => exact ih (by rwa [isAlive_commit] at hx)

/-- `Refill` frees nobody above `o`. -/
theorem alive (hg : Refill o i els f count due g) (ho : f.isAlive o = true)
    (hp : f.Above o p) : g.isAlive p = true := by
  cases hx : g.isAlive p with
  | true => rfl
  | false =>
      obtain ⟨e, he, hreach⟩ := hg.freed haway (hp.alive ho) hx
      exact absurd hp (haway e he p hreach)

/-- `Refill` changes the parent of nobody above `o`. -/
theorem parent (hg : Refill o i els f count due g)
    (ho : f.isAlive o = true) (hp : f.Above o p) :
    g.parent? p = f.parent? p := by
  have hlink := hg.link (hg.alive haway ho hp)
    fun hels => haway p hels p .refl hp
  refine Option.ext fun q => ?_
  rw [parent?_eq_some_iff, parent?_eq_some_iff, hlink]
  refine and_congr_right fun hlinked => ⟨hg.survivor, fun hq => ?_⟩
  have hparent : f.parent? p = some q := parent?_eq_some_iff.mpr ⟨hlinked, hq⟩
  exact hg.alive haway ho (hp.tail hparent)

/-- Who is above `o` after `Refill` was above it before. -/
theorem above (hg : Refill o i els f count due g) (ho : f.isAlive o = true)
    (hp : g.Above o p) : f.Above o p := by
  induction hp with
  | refl => exact .refl
  | tail _ hq ih =>
      rw [hg.parent haway ho ih] at hq
      exact ih.tail hq

/-- During `Refill` the check of an attach finds no node of `els`. -/
theorem opens (hg : Refill o i els f count due g) (ho : f.isAlive o = true)
    (hn : n ∈ els) (checks : Checks) : g.breaksTree checks o n = false := by
  rw [breaksTree, Bool.and_eq_false_iff]
  refine .inr (Bool.eq_false_iff.mpr fun hbelow => ?_)
  exact haway n hn n .refl
    (hg.above haway ho (above_of_isDescendantOf hbelow))

/-- After `Refill` with a commit the cached flags are those after one commit of
`o`. -/
theorem cached (hg : Refill o i els f count due g) (ho : f.isAlive o = true)
    (hx : g.isAlive x = true) :
    (g.node x).cached
      = ((if count = 0 then f else f.commit o).node x).cached := by
  induction hg generalizing x with
  | start => rw [if_pos rfl]
  | relocate _ _ hgh ih =>
      rw [hgh.field (F := Node.cached) fun _ _ _ _ => rfl]
      exact ih (by rwa [hgh.alive] at hx)
  | @store _ _ _ g _ items _ _ _ ih =>
      rw [g.field_setSlot (F := Node.cached) fun _ _ => rfl]
      exact ih (by rwa [isAlive_setSlot] at hx)
  | free _ _ ih =>
      rw [(sheds_reap _ _).node_eq hx]
      exact ih ((sheds_reap _ _).survivor hx)
  | @commit count due g hg ih =>
      rw [isAlive_commit] at hx
      rw [if_neg (Nat.succ_ne_zero count)]
      have halike : Alike f (if count = 0 then f else f.commit o) := by
        split
        · exact .refl f
        · exact alike_commit o
      -- whichever it is, one commit more forgets what one does
      have honce : ∀ p,
          (((if count = 0 then f else f.commit o).commit o).node p).cached
            = ((f.commit o).node p).cached := by
        intro p
        split
        · rfl
        · exact cached_commit_commit f o p
      generalize (if count = 0 then f else f.commit o) = s
        at ih halike honce
      by_cases habove : f.Above o x
      · have habreast : Abreast o s g := by
          refine ⟨fun {p} hp => ?_, fun {p} hp => ?_⟩
          · rw [halike.above] at hp
            rw [halike.parent?, hg.parent haway ho hp]
          · rw [halike.above] at hp
            exact ih (hg.alive haway ho hp)
        have hsize := hg.size_eq.trans halike.size.symm
        rw [(habreast.commit hsize).cached, honce]
        rwa [(alike_commit o).above, halike.above]
      · have hnot : ¬ g.Above o x := fun h => habove (hg.above haway ho h)
        rw [cached_commit_of_not_above hnot, ih hx, ← honce x,
          cached_commit_of_not_above (by rwa [halike.above])]

-- ============================================================ who is freed

variable {more : Nat} {t : Forest} (ht : Refill o i els f more [] t)
  (hkept : ∀ e ∈ els, f.isLoose e = false)
  (hnew : ∀ e ∈ t.slot o i, 0 < (f.node e).handles)
include ht hkept hnew

/-- If nobody who was freed so far is alive in `t`, then neither is a node of
`els`, or one below it, that can be freed now. -/
private theorem gone_of_loose (hg : Refill o i els f count due g)
    (hgh : Sheds g h)
    (hgone : ∀ x, f.isAlive x = true → h.isAlive x = false →
      t.isAlive x = false)
    (hn : n ∈ els) (hreach : Relation.ReflTransGen f.Holds n x)
    (hx : h.isLoose x = true) : t.isAlive x = false := by
  obtain ⟨hhx, hhandles, hfree⟩ := isLoose_iff.mp hx
  have hgx := hgh.survivor hhx
  have hzero : (f.node x).handles = 0 := by
    rw [← hg.field (F := Node.handles) (fun _ _ _ _ _ _ _ => rfl) hgx,
      ← hgh.node_eq hhx, hhandles]
  have hstays : ∀ {p}, t.isAlive p = true → h.isAlive p = true := by
    intro p htp
    cases hhp : h.isAlive p with
    | true => rfl
    | false =>
        rw [hgone p (ht.survivor htp) hhp] at htp
        cases htp
  have hheld : f.isLoose x = false := by
    rcases Relation.ReflTransGen.cases_tail hreach with rfl | ⟨p, -, hp⟩
    · exact hkept x hn
    · exact isLoose_of_mem_children hp
  refine Bool.eq_false_iff.mpr fun htx => ?_
  -- so somebody holds it in `t`
  have hholder : ∃ p, x ∈ t.children p := by
    by_contra hnone
    have hloose : t.isLoose x = true := by
      refine isLoose_iff.mpr ⟨htx, ?_, fun p hp => hnone ⟨p, hp⟩⟩
      rw [ht.field (F := Node.handles) (fun _ _ _ _ _ _ _ => rfl) htx,
        hzero]
    rcases ht.loose hloose with hl | hl
    · rw [hheld] at hl
      cases hl
    · cases hl
  obtain ⟨p, hp⟩ := hholder
  have htp := t.alive_of_mem_children hp
  have hhp := hstays htp
  have hgp := hgh.survivor hhp
  refine hfree p ?_
  by_cases hpo : p = o
  · subst hpo
    obtain ⟨j, -, hj⟩ := exists_mem_slot hp
    by_cases hji : j = i
    · have hpos := hnew x (hji ▸ hj)
      omega
    · rw [ht.slot_ne htp hji, ← hg.slot_ne hgp hji] at hj
      rw [children_eq, hgh.node_eq hhp]
      exact g.mem_children_of_mem_slot hj
  · rw [ht.children_ne htp hpo, ← hg.children_ne hgp hpo] at hp
    rwa [children_eq, hgh.node_eq hhp]

/-- Whoever is freed on one way is freed on any other that stores nodes
with handles in the end. -/
theorem gone (hg : Refill o i els f count due g) (hf : f.isAlive x = true)
    (hx : g.isAlive x = false) : t.isAlive x = false := by
  induction hg generalizing x with
  | start =>
      rw [hf] at hx
      cases hx
  | relocate _ _ hgh ih => exact ih hf (by rwa [hgh.alive] at hx)
  | store _ _ _ _ ih => exact ih hf (by rwa [isAlive_setSlot] at hx)
  | commit _ ih => exact ih hf (by rwa [isAlive_commit] at hx)
  | @free _ n _ g hg hn ih =>
      have hfrees := frees_reap g n
      generalize g.reap n = k at hfrees hx
      induction hfrees generalizing x with
      | refl => exact ih hf hx
      | @free k m hk hm hloose ihk =>
          rw [isAlive_erase] at hx
          split at hx
          case isTrue hxm =>
            exact hxm ▸ gone_of_loose haway ht hkept hnew hg hk.sheds
              (fun _ => ihk) hn (hg.reaches haway hn hm) hloose
          case isFalse => exact ihk hf hx

omit ht hkept hnew

-- ============================================================ the same end

variable {times : Nat} {entered left items : List NodeId}
  (hwf : f.WellFormed) (hcov : f.Covered)
  (hg : Refill o i els f (count + 1) [] g)
  (hh : Refill o i els f (times + 1) [] h)
  (hag : Account o i f entered left items g)
  (hah : Account o i f entered left items h)
include hwf hcov hg hh hag hah

/-- Two ways with the same books leave a node in the same state, if it has
the same place. -/
theorem node_eq (hgx : g.isAlive x = true) (hhx : h.isAlive x = true)
    (hplace : (h.node x).position = (g.node x).position) :
    h.node x = { g.node x with version := (h.node x).version } := by
  have hcountg := hag.count hwf hcov (.inl hgx)
  have hcounth := hah.count hwf hcov (.inl hhx)
  have hkept : ∀ {m : Nat} {k : Forest}, Refill o i els f m [] k →
      k.isAlive x = true → _ = _ := fun hk hx =>
    hk.field (F := fun y : Node =>
      (y.opcode, y.operand, y.depth, y.handles))
      (fun _ _ _ _ _ _ _ => rfl) hx
  refine Node.eq_of_fields ((hkept hh hhx).trans (hkept hg hgx).symm) ?_
    (hag.link_eq hwf hcov hah (.inl hgx) (.inl hhx)) hplace (by omega) ?_
  · by_cases hxo : x = o
    · rw [hxo, hah.own, hag.own]
    · rw [hh.slots_ne hhx hxo, hg.slots_ne hgx hxo]
  · rw [hg.cached haway hag.source hgx, hh.cached haway hag.source hhx,
      if_neg (Nat.succ_ne_zero _), if_neg (Nat.succ_ne_zero _)]

/-- So all nodes are in the same states in the end, if the same are freed
and all have the same places. -/
theorem get?_eq (halive : h.isAlive x = g.isAlive x)
    (hplace : g.isAlive x = true → h.isAlive x = true →
      (h.node x).position = (g.node x).position) :
    h.get? x = (g.get? x).map fun y => { y with
      version := (f.node x).version + if x = o then times + 1 else 0 } := by
  cases hgx : g.isAlive x with
  | false =>
      rw [get?_of_not_alive h (halive.trans hgx), get?_of_not_alive g hgx]
      rfl
  | true =>
      have hhx := halive.trans hgx
      rw [get?_of_alive h hhx, get?_of_alive g hgx, Option.map_some,
        hg.node_eq haway hwf hcov hh hag hah hgx hhx (hplace hgx hhx),
        hh.version hhx]

end Refill

end Forest

end InstructionTree
