/-
The printed form of a node determines what is below it.

A node is printed as its tree, so where the printed forms of two nodes are
equal their trees are. `Matches` says what this means for the nodes
themselves, of one forest or of two: the same opcode, the same operand, and
children lists of one length that match index by index. Identities do not
show, nor does a node that is shared, and neither do empty operand slots.
-/
import InstructionTree.Proofs.Printing.Trees
import InstructionTree.Proofs.Runs.Rings

namespace InstructionTree.Forest

variable {checks : Checks} {f g : Forest} {a b n : NodeId}

-- ================================================================ matching

/-- Two nodes look the same from above, all the way down. -/
inductive Matches (f g : Forest) : NodeId → NodeId → Prop where
  | intro {a b : NodeId}
      (opcode : (f.node a).opcode = (g.node b).opcode)
      (operand : (f.node a).operand = (g.node b).operand)
      (length : (f.children a).length = (g.children b).length)
      (children : ∀ {i : Nat} {x y : NodeId},
        (f.children a)[i]? = some x → (g.children b)[i]? = some y →
        Matches f g x y) :
      Matches f g a b

-- =================================================================== trees

/-- If there are answers to all, they are there in order. -/
theorem getElem?_of_mapM {α β : Type} {k : α → Option β} {l : List α}
    {r : List β} (h : l.mapM k = some r) (i : Nat) :
    l[i]?.map k = r[i]?.map some := by
  have hmap : l.map k = r.map some := by
    induction l generalizing r with
    | nil =>
        cases h
        rfl
    | cons x l ih =>
        rw [List.mapM_cons, Option.bind_eq_bind, Option.bind_eq_some_iff] at h
        obtain ⟨y, hy, h⟩ := h
        rw [Option.bind_eq_bind, Option.bind_eq_some_iff] at h
        obtain ⟨s, hs, h⟩ := h
        cases h
        rw [List.map_cons, List.map_cons, hy, ih hs]
  rw [← List.getElem?_map, hmap, List.getElem?_map]

/-- A node that has a tree is its root, above the trees of its children. -/
theorem treeWithin_eq_some {height : Nat} {t : Tree}
    (ht : f.treeWithin height n = some t) :
    ∃ lower ts, height = lower + 1
      ∧ t = .node (f.node n).opcode (f.node n).operand ts
      ∧ ∀ i : Nat, (f.children n)[i]?.map (f.treeWithin lower)
        = ts[i]?.map some := by
  cases height with
  | zero => cases ht
  | succ lower =>
      obtain ⟨ts, hts, rfl⟩ := Option.map_eq_some_iff.mp ht
      exact ⟨lower, ts, rfl, rfl, getElem?_of_mapM hts⟩

/-- Lists that are answered with the same list are equally long. -/
theorem length_eq_of_getElem? {α β γ : Type} {k : α → γ} {k' : β → γ}
    {l : List α} {r : List β}
    (h : ∀ i : Nat, l[i]?.map k = r[i]?.map k') : l.length = r.length := by
  refine eq_of_forall_ge_iff fun i => ?_
  have hi := h i
  rw [← List.getElem?_eq_none_iff, ← List.getElem?_eq_none_iff,
    ← Option.map_eq_none_iff, hi, Option.map_eq_none_iff]

/-- Nodes with one tree match. -/
theorem matches_of_treeWithin {height height' : Nat} {t : Tree}
    (ha : f.treeWithin height a = some t)
    (hb : g.treeWithin height' b = some t) : Matches f g a b := by
  induction height generalizing height' a b t with
  | zero => cases ha
  | succ lower ih =>
      obtain ⟨_, ts, ⟨⟩, rfl, hts⟩ := treeWithin_eq_some ha
      obtain ⟨lower', _, rfl, heq, hts'⟩ := treeWithin_eq_some hb
      obtain ⟨hop, hoperand, rfl⟩ := Tree.node.inj heq
      have hsame := fun i => (hts i).trans (hts' i).symm
      refine .intro hop hoperand (length_eq_of_getElem? hsame)
        fun {i x y} hx hy => ?_
      have hread := hts i
      have hread' := hts' i
      rw [hx] at hread
      rw [hy] at hread'
      cases ht : ts[i]? with
      | none =>
          rw [ht] at hread
          cases hread
      | some s =>
          rw [ht] at hread hread'
          exact ih (Option.some.inj hread) (Option.some.inj hread')

/-- Nodes that match have one tree. -/
theorem Matches.tree_eq (hab : Matches f g a b) {height height' : Nat}
    {s t : Tree} (ha : f.treeWithin height a = some s)
    (hb : g.treeWithin height' b = some t) : s = t := by
  induction hab generalizing height height' s t with
  | @intro a b hop hoperand hlength _ ih =>
      obtain ⟨lower, ss, rfl, rfl, hss⟩ := treeWithin_eq_some ha
      obtain ⟨lower', ts, rfl, rfl, hts⟩ := treeWithin_eq_some hb
      have hlengths := (length_eq_of_getElem? hss).symm.trans
        (hlength.trans (length_eq_of_getElem? hts))
      have heq : ss = ts := by
        refine List.ext_getElem hlengths fun i hi hi' => ?_
        have hread := hss i
        have hread' := hts i
        rw [List.getElem?_eq_getElem hi] at hread
        rw [List.getElem?_eq_getElem hi'] at hread'
        obtain ⟨x, hx, hs⟩ := Option.map_eq_some_iff.mp hread
        obtain ⟨y, hy, ht⟩ := Option.map_eq_some_iff.mp hread'
        exact ih hx hy hs ht
      rw [hop, hoperand, heq]

-- ================================================================ printing

/-- What is printed is a tree. -/
theorem display?_eq_some {text : String} (h : f.display? n = some text) :
    ∃ t, f.treeWithin f.size n = some t ∧ text = t.display := by
  obtain ⟨t, ht, rfl⟩ := Option.map_eq_some_iff.mp h
  unfold tree? at ht
  split at ht
  · exact ⟨t, ht, rfl⟩
  · cases ht

/-- Nodes above no ring can be printed, and two of them have the same
printed form exactly if they have the same opcode and operand and equally
many children, which in turn have the same printed forms in this sense, one
by one. So the printed form can be read in one way only, up to empty
operand slots. -/
theorem prints_alike (hf : f.Closed) (hg : g.Closed)
    (ha : f.isAlive a = true) (hb : g.isAlive b = true)
    (hacyclic : f.Acyclic a) (hacyclic' : g.Acyclic b) :
    (f.display? a).isSome = true ∧ (g.display? b).isSome = true
      ∧ (f.display? a = g.display? b ↔ Matches f g a b) := by
  obtain ⟨s, hs⟩ := exists_display hf ha hacyclic
  obtain ⟨t, ht⟩ := exists_display hg hb hacyclic'
  obtain ⟨x, hx, rfl⟩ := display?_eq_some hs
  obtain ⟨y, hy, rfl⟩ := display?_eq_some ht
  rw [hs, ht, Option.some_inj]
  refine ⟨rfl, rfl, fun heq => ?_, fun hab => ?_⟩
  · obtain rfl := Tree.display_injective heq
    exact matches_of_treeWithin hx hy
  · rw [hab.tree_eq hx hy]

/-- A conditional without a false branch and one without a true branch. The
text shows that there is one branch, not which, and that is all that the
two differ in. -/
theorem prints_alike_of_branches :
    let ops : List Operation :=
      [.create .conditional .none, .hold ⟨0⟩, .create .conditional .none,
        .hold ⟨1⟩, .create .constInt32 (.int32 (-5)), .hold ⟨2⟩,
        .create .loadLocal (.local 65535), .hold ⟨3⟩,
        .setSlotChild ⟨0⟩ 0 (some ⟨2⟩), .setSlotChild ⟨0⟩ 1 (some ⟨3⟩),
        .setSlotChild ⟨1⟩ 0 (some ⟨2⟩), .setSlotChild ⟨1⟩ 2 (some ⟨3⟩)]
    let f := played .strict ops ∅
    f.Closed ∧ f.isAlive ⟨0⟩ = true ∧ f.isAlive ⟨1⟩ = true
      ∧ f.Acyclic ⟨0⟩ ∧ f.Acyclic ⟨1⟩
      ∧ f.display? ⟨0⟩ = some "if(ldc.i4 -5, ldloc V_65535)"
      ∧ Matches f f ⟨0⟩ ⟨1⟩ := by
  intro ops f
  have hplays : Plays .strict (fun _ _ => true) [] ops ∅ := by
    decide +kernel
  have hf : Runs .strict Plain [] ∅ f :=
    hplays.runs (fun hop _ => hop.plain) .refl
  have hclosed : f.Closed := hf.sound_of_empty.closed
  have hends : descentEndsWithin f.children 3 [⟨0⟩, ⟨1⟩] = true := by
    decide +kernel
  have hshallow := shallow_of_descentEndsWithin hends
  have hfirst : f.Acyclic ⟨0⟩ := ringless_of_shallow (hshallow _ (.head _))
  have hsecond : f.Acyclic ⟨1⟩ :=
    ringless_of_shallow (hshallow _ (.tail _ (.head _)))
  have halive : f.isAlive ⟨0⟩ = true ∧ f.isAlive ⟨1⟩ = true := by
    decide +kernel
  have htext : f.display? ⟨0⟩ = some "if(ldc.i4 -5, ldloc V_65535)"
      ∧ f.display? ⟨0⟩ = f.display? ⟨1⟩ := by decide +kernel
  have halike := prints_alike hclosed hclosed halive.1 halive.2 hfirst hsecond
  exact ⟨hclosed, halive.1, halive.2, hfirst, hsecond, htext.1,
    halike.2.2.mp htext.2⟩

end InstructionTree.Forest
