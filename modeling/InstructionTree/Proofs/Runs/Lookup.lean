/-
Lookups, wherever a client looks, and the edits that start with one.

`Forest/Lookup` says what a lookup answers, and asks for nothing but slots
that fit their layouts. So it holds in every state that a client sees,
however misleading the cached places are there: `Sees.lookups_find`. Hence an
edit that names a node instead of an index takes out or moves that node
and no other, and answers no exactly if the node is not there.
-/
import InstructionTree.Proofs.Collection.Lists
import InstructionTree.Proofs.Forest.Lookup
import InstructionTree.Proofs.Runs.Faults

namespace InstructionTree

open Forest

variable {checks : Checks} {locks : List NodeId} {f g : Forest}

-- ======================================================== edits by lookup

namespace Collection

variable {c : Collection} {n : NodeId} {i : Nat}

/-- If `n` is at `i` and occurs once, `indexOf?` finds `i`, whatever place is
cached. -/
theorem indexOf?_of_once (hwf : f.WellFormed) (hc : c.Fits f)
    (honce : (c.items f).count n = 1) (hi : (c.items f)[i]? = some n) :
    c.indexOf? f n = some i := by
  refine (hwf.finds_element hc n).unique hi fun j hj => ?_
  rcases Nat.lt_trichotomy j i with hlt | hsame | hgt
  · have := two_le_count hlt hj hi
    omega
  · exact hsame
  · have := two_le_count hgt hi hj
    omega

section

variable (hopen : f.isGuarded checks c.owner = false)
include hopen

/-- `remove` takes out the occurrence that `indexOf?` finds, commits the owner
and lets go of `n`. -/
theorem remove_eq : c.remove checks n f = match c.indexOf? f n with
    | none => .ok false f
    | some i => .ok true (((c.erased f i n).commit c.owner).reap n) := by
  unfold remove
  rw [guarded_of_open _ hopen]
  cases hfound : c.indexOf? f n with
  | none => rfl
  | some i =>
      unfold removeAt
      dsimp only
      rw [guarded_of_open _ hopen, getElem?_of_indexOf? hfound]
      rfl

/-- `moveToEnd` moves the occurrence that `indexOf?` finds behind the last
element, and commits the owner. -/
theorem moveToEnd_eq : c.moveToEnd checks n f = match c.indexOf? f n with
    | none => .ok false f
    | some i =>
        .ok true ((c.moved f i (c.length f - 1) n).commit c.owner) := by
  unfold moveToEnd
  rw [guarded_of_open _ hopen]
  cases hfound : c.indexOf? f n with
  | none => rfl
  | some i =>
      have hi := lt_of_indexOf? hfound
      have hlast : c.length f - 1 < c.length f := by omega
      unfold move
      dsimp only
      rw [guarded_of_open _ hopen, getElem?_of_indexOf? hfound]
      dsimp only
      rw [if_pos hlast]
      rfl

end

/-- `erased` changes of a node other than `n` only its position and its slots.
-/
theorem field_erased {α : Type _} {F : Node → α}
    (hposition : ∀ x k, F { x with position := k } = F x)
    (hslots : ∀ x l, F { x with slots := l } = F x) {m : NodeId}
    (hm : m ≠ n) : F ((c.erased f i n).node m) = F (f.node m) := by
  have hout : (c.takenOut f i n).node m
      = (c.setItems f ((c.items f).eraseIdx i)).node m :=
    node_update_ne _ hm
  rw [erased, c.field_renumberFrom hposition, hout]
  exact f.field_setSlot hslots ..

/-- `moved` changes of any node only its position and its slots. -/
theorem field_moved {α : Type _} {F : Node → α}
    (hposition : ∀ x k, F { x with position := k } = F x)
    (hslots : ∀ x l, F { x with slots := l } = F x) (a b : Nat)
    (m : NodeId) : F ((c.moved f a b n).node m) = F (f.node m) := by
  unfold moved
  dsimp only
  rw [c.field_renumberFrom hposition]
  exact f.field_setSlot hslots ..

section

variable (hs : f.Sound checks locks) (hc : c.Fits f)
  (hopen : f.isGuarded checks c.owner = false)
include hs hc hopen

/-- `remove` and `moveToEnd` of a node that is no element answer `false`, and
change nothing. -/
theorem remove_of_not_mem (hn : n ∉ c.items f) :
    c.remove checks n f = .ok false f
      ∧ c.moveToEnd checks n f = .ok false f := by
  have hnone : c.indexOf? f n = none :=
    (hs.toWellFormed.finds_element hc n).absent.mpr fun i hi =>
      hn (List.mem_of_getElem? hi)
  rw [remove_eq hopen, moveToEnd_eq hopen, hnone]
  exact ⟨rfl, rfl⟩

variable (ho : c.owner ∈ locks) (hn : n ∈ locks)
  (hfound : c.indexOf? f n = some i)
include ho hn hfound

/-- `remove` of an element found at `i` takes out index `i`, and changes no
other node's `slotRefs` or `link`. -/
theorem remove_of_found :
    ∃ g, c.remove checks n f = .ok true g
      ∧ c.items g = (c.items f).eraseIdx i
      ∧ ∀ m, m ≠ n → (g.node m).slotRefs = (f.node m).slotRefs
        ∧ (g.node m).link = (f.node m).link := by
  have hout := remove_eq (n := n) hopen
  rw [hfound] at hout
  have hns : ∀ m ∈ (Change.remove n).nodes, m ∈ locks := fun m hm =>
    List.mem_singleton.mp hm ▸ hn
  have hitems := items_apply hs hc ho hns
    (congrArg (Outcome.map ChangeAnswer.wasThere) hout)
  rw [Change.result, hfound] at hitems
  refine ⟨_, hout, hitems, fun m hm => ?_⟩
  -- the client has the node, so nobody is freed
  have hheld : 0 < (((c.erased f i n).commit c.owner).node n).handles := by
    have hkept := hs.kept n
    have hcount := List.count_pos_iff.mpr hn
    have hsame : (((c.erased f i n).commit c.owner).node n).handles
        = (f.node n).handles := by
      rw [field_commit _ (F := Node.handles) (fun _ _ _ => rfl), erased,
        c.field_renumberFrom (F := Node.handles) (fun _ _ => rfl), takenOut,
        field_detach _ (F := Node.handles) (fun _ _ _ => rfl)]
      exact f.field_setSlot (F := Node.handles) (fun _ _ => rfl) ..
    omega
  rw [← reapAll_singleton, reapAll_of_handles fun k hk => by
    rw [List.mem_singleton.mp hk]
    exact hheld]
  have hsame : ∀ {α : Type} {F : Node → α},
      (∀ x v w, F { x with version := v, cached := w } = F x) →
      (∀ x k, F { x with position := k } = F x) →
      (∀ x l, F { x with slots := l } = F x) →
      F (((c.erased f i n).commit c.owner).node m) = F (f.node m) := by
    intro α F hcommit hposition hslots
    rw [field_commit _ hcommit]
    exact field_erased hposition hslots hm
  exact ⟨hsame (F := Node.slotRefs) (fun _ _ _ => rfl) (fun _ _ => rfl)
      fun _ _ => rfl,
    hsame (F := Node.link) (fun _ _ _ => rfl) (fun _ _ => rfl)
      fun _ _ => rfl⟩

/-- `moveToEnd` of an element found at `i` puts it last, and changes nobody's
`slotRefs` or `link`. -/
theorem moveToEnd_of_found :
    ∃ g, c.moveToEnd checks n f = .ok true g
      ∧ c.items g = (c.items f).eraseIdx i ++ [n]
      ∧ ∀ m, (g.node m).slotRefs = (f.node m).slotRefs
        ∧ (g.node m).link = (f.node m).link := by
  have hout := moveToEnd_eq (n := n) hopen
  rw [hfound] at hout
  have hns : ∀ m ∈ (Change.moveToEnd n).nodes, m ∈ locks := fun m hm =>
    List.mem_singleton.mp hm ▸ hn
  have hitems := items_apply hs hc ho hns
    (congrArg (Outcome.map ChangeAnswer.wasThere) hout)
  rw [Change.result, hfound] at hitems
  have hi := lt_of_indexOf? hfound
  have hlast : ((c.items f).eraseIdx i).insertIdx ((c.items f).length - 1) n
      = (c.items f).eraseIdx i ++ [n] := by
    rw [← List.length_eraseIdx_of_lt hi, List.insertIdx_length_self]
  refine ⟨_, hout, hitems.trans hlast, fun m => ⟨?_, ?_⟩⟩
  · rw [field_commit _ (F := Node.slotRefs) (fun _ _ _ => rfl)]
    exact field_moved (F := Node.slotRefs) (fun _ _ => rfl)
      (fun _ _ => rfl) ..
  · rw [field_commit _ (F := Node.link) (fun _ _ _ => rfl)]
    exact field_moved (F := Node.link) (fun _ _ => rfl) (fun _ _ => rfl) ..

end

end Collection

-- =================================================================== seen

namespace Sees

variable {permits : Permit}

/-- Looking a node up answers where it is, whatever is cached, wherever a
client is: also after notices of attaching and detaching, with nodes in
several places, with owners freed, in the calls of a judge, and after
operations that broke off. So what an edit finds by a lookup is the node
itself. -/
theorem lookups_find (hf : Sees checks permits locks f) :
    (∀ (c : Collection) (n : NodeId), c.Fits f →
      (c.indexOf? f n = none ↔ n ∉ c.items f)
      ∧ Finds (fun i => (c.items f)[i]?) n
        (fun i => f.Accurate n c.owner
          ∧ (f.node n).position = c.base + i) (c.indexOf? f n)
      ∧ ((c.items f).count n = 1 → ∀ i, (c.items f)[i]? = some n →
        c.indexOf? f n = some i))
    ∧ (∀ p n : NodeId,
      (f.findChild? p n = none ↔ n ∉ f.children p)
      ∧ Finds (f.child? p) n
        (fun i => f.Accurate n p ∧ (f.node n).position = i)
        (f.findChild? p n)
      ∧ ((f.children p).count n = 1 → ∀ i, f.child? p i = some n →
        f.findChild? p n = some i))
    ∧ (∀ (c : Collection) (n : NodeId), f.isGuarded checks c.owner = true →
      c.remove checks n f = refusal c.owner f
      ∧ c.moveToEnd checks n f = refusal c.owner f)
    ∧ ∀ (c : Collection) (n : NodeId), c.Fits f →
      f.Referenced [c.owner, n] → f.isGuarded checks c.owner = false →
      (n ∉ c.items f → c.remove checks n f = .ok false f
        ∧ c.moveToEnd checks n f = .ok false f)
      ∧ ∀ i, c.indexOf? f n = some i →
        (∃ g, c.remove checks n f = .ok true g
          ∧ c.items g = (c.items f).eraseIdx i
          ∧ ∀ m, m ≠ n → (g.node m).slotRefs = (f.node m).slotRefs
            ∧ (g.node m).link = (f.node m).link)
        ∧ ∃ g, c.moveToEnd checks n f = .ok true g
          ∧ c.items g = (c.items f).eraseIdx i ++ [n]
          ∧ ∀ m, (g.node m).slotRefs = (f.node m).slotRefs
            ∧ (g.node m).link = (f.node m).link := by
  have hs : f.Sound checks locks := hf.sound
  have hwf := hs.toWellFormed
  refine ⟨fun c n hc => ⟨?_, hwf.finds_element hc n, fun honce i =>
    Collection.indexOf?_of_once hwf hc honce⟩, fun p n => ⟨?_,
    hwf.finds_child p n, fun honce i hi => ?_⟩,
    fun c n hguard => ⟨guarded_of_guard _ hguard, guarded_of_guard _ hguard⟩,
    fun c n hc hheld hopen => ?_⟩
  · rw [(hwf.finds_element hc n).absent, List.mem_iff_getElem?, not_exists]
  · rw [(hwf.finds_child p n).absent, hwf.mem_children_iff, not_exists]
  · exact (hwf.finds_child p n).unique hi fun j hj =>
      child?_unique honce hj hi
  · obtain ⟨hlocked, ho, hn⟩ := hf.lock hheld
    exact ⟨Collection.remove_of_not_mem hlocked hc hopen, fun i hfound =>
      ⟨Collection.remove_of_found hlocked hc hopen ho hn hfound,
        Collection.moveToEnd_of_found hlocked hc hopen ho hn hfound⟩⟩

/-- A node that a block holds twice, at the second place of which its
cache points, between two others. A second node was taken over by a block
that has been freed since; its cache says nothing any more, and it is
found by the scan. -/
theorem lookups_find_of_shared :
    let c : Collection := ⟨⟨0⟩, 0⟩
    let ops : List Operation :=
      [.create .block .none, .hold ⟨0⟩, .create .nop .none, .hold ⟨1⟩,
        .create .nop .none, .hold ⟨2⟩, .create .block .none, .hold ⟨3⟩,
        .change c (.addRange [⟨1⟩, ⟨2⟩, ⟨1⟩]),
        .change ⟨⟨3⟩, 0⟩ (.add ⟨2⟩), .drop ⟨3⟩]
    let f := played .strict ops ∅
    ∃ g, Sees .strict Plain [] f ∧ f.isAlive ⟨3⟩ = false
      ∧ c.indexOf? f ⟨1⟩ = some 2 ∧ c.indexOf? f ⟨2⟩ = some 1
      ∧ c.remove .strict ⟨1⟩ f = .ok true g
      ∧ c.items g = [⟨1⟩, ⟨2⟩] := by
  intro c ops f
  have hplays : Plays .strict (fun _ _ => true) [] ops ∅ := by decide
  have hf : Sees .strict Plain [] f :=
    .between (hplays.runs (fun hop _ => hop.plain) .refl)
  obtain ⟨helement, -, -, hremove⟩ := Sees.lookups_find hf
  have hc : c.Fits f := by decide
  obtain ⟨-, hfirst, -⟩ := helement c ⟨1⟩ hc
  obtain ⟨-, -, hsecond⟩ := helement c ⟨2⟩ hc
  have hfound : c.indexOf? f ⟨1⟩ = some 2 :=
    hfirst.cached ⟨⟨by decide, by decide⟩, by decide⟩
  obtain ⟨g, hout, hitems, -⟩ :=
    ((hremove c ⟨1⟩ hc (by decide) (by decide)).2 2 hfound).1
  exact ⟨g, hf, by decide, hfound, hsecond (by decide) 1 (by decide), hout,
    hitems.trans (by decide)⟩

end Sees

end InstructionTree
