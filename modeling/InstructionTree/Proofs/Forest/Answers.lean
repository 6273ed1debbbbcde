/-
What flags say, and when they say it.

`Describes` is the meaning of flags, in terms of the slots and opcodes of
the moment: all flags but one are those of any node that can be reached,
and the one about the end point follows the last instructions of blocks
downwards. Trusted nodes describe what is below them, where everything
below is linked to whoever holds it (`describes_of_trusted`).
-/
import InstructionTree.Proofs.Forest.Asking

namespace InstructionTree

-- ==================================================================== bits

namespace Flags

/-- Whether the flag with bit `i` is set. -/
def has (a : Flags) (i : Nat) : Bool := a.bits.getLsbD i

/-- The bit of the flag about the end point. -/
def endPoint : Nat := 6

variable (a b : Flags) (i : Nat)

theorem has_union : (a ∪ b).has i = (a.has i || b.has i) :=
  BitVec.getLsbD_or

theorem has_inter : (a ∩ b).has i = (a.has i && b.has i) :=
  BitVec.getLsbD_and

theorem has_endPointUnreachable :
    endPointUnreachable.has i = decide (i = endPoint) := by
  have hpow : endPointUnreachable.bits = BitVec.twoPow 32 endPoint := rfl
  rw [has, hpow, BitVec.getLsbD_twoPow]
  by_cases hi : i = endPoint
  · subst hi
    rfl
  · simp [hi, Ne.symm hi]

/-- `propagated` leaves every flag but `endPoint` as it is, and clears that. -/
theorem has_propagated :
    a.propagated.has i = (a.has i && decide (i ≠ endPoint)) := by
  have hdiff : a.propagated.has i
      = (a.has i && (~~~ endPointUnreachable.bits).getLsbD i) :=
    BitVec.getLsbD_and
  rw [hdiff, BitVec.getLsbD_not]
  have hend : endPointUnreachable.bits.getLsbD i = decide (i = endPoint) :=
    has_endPointUnreachable i
  rw [hend]
  by_cases hi : i < 32
  · simp [hi]
  · have hnone : a.has i = false := BitVec.getLsbD_of_ge _ _ (by omega)
    rw [hnone]
    rfl

end Flags

open Flags

namespace Forest

variable {f g : Forest} {n : NodeId} {height : Nat}

-- =============================================================== summaries

/-- A fold of `propagated` flags has a flag if the start has it, or one of the
summands has it and it is not `endPoint`. -/
private theorem has_foldl {tell : NodeId → Flags} {i : Nat} :
    ∀ {ns : List NodeId} {flags : Flags},
      (ns.foldl (fun acc c => acc ∪ (tell c).propagated) flags).has i
          = true
        ↔ flags.has i = true
          ∨ i ≠ endPoint ∧ ∃ c ∈ ns, (tell c).has i = true
  | [], flags => by simp
  | c :: rest, flags => by
      rw [List.foldl_cons, has_foldl, has_union, has_propagated]
      simp only [Bool.or_eq_true, Bool.and_eq_true, decide_eq_true_eq,
        List.mem_cons, exists_eq_or_imp]
      tauto

/-- `summary` has a flag other than `endPoint` if the opcode has it directly,
or some child was told to have it. -/
theorem has_summary {i : Nat} (hi : i ≠ endPoint) :
    (f.summary n).has i = true
      ↔ (f.node n).opcode.directFlags.has i = true
        ∨ ∃ c ∈ f.children n, (f.told c).has i = true := by
  unfold summary
  dsimp only
  split
  · rw [has_foldl]
    exact ⟨fun h => h.imp_right And.right, fun h => h.imp_right (⟨hi, ·⟩)⟩
  · rw [has_union, has_inter, has_endPointUnreachable, decide_eq_false hi,
      Bool.and_false, Bool.or_false, has_foldl]
    exact ⟨fun h => h.imp_right And.right, fun h => h.imp_right (⟨hi, ·⟩)⟩

/-- The flag about the end point is the node's own, or a block has it from
its last child. -/
theorem has_summary_endPoint :
    (f.summary n).has endPoint = true
      ↔ (f.node n).opcode.directFlags.has endPoint = true
        ∨ (f.node n).opcode = .block ∧ ∃ last,
          (f.children n).getLast? = some last
            ∧ (f.told last).has endPoint = true := by
  have hdirect : ((f.node n).children.foldl
      (fun acc c => acc ∪ (f.told c).propagated)
      (f.node n).opcode.directFlags).has endPoint = true
        ↔ (f.node n).opcode.directFlags.has endPoint = true := by
    rw [has_foldl]
    exact ⟨fun h => h.resolve_right fun h => h.1 rfl, .inl⟩
  unfold summary
  dsimp only
  split
  next hlast =>
    rw [hdirect]
    refine ⟨.inl, fun h => h.resolve_right ?_⟩
    rintro ⟨hop, last, hsome, -⟩
    rw [if_pos hop] at hlast
    exact absurd (hsome.symm.trans hlast) nofun
  next last hlast =>
    rw [has_union, has_inter, has_endPointUnreachable, decide_eq_true rfl,
      Bool.and_true, Bool.or_eq_true, hdirect]
    split at hlast
    case isTrue hop =>
      refine or_congr_right ⟨fun h => ⟨hop, last, hlast, h⟩, ?_⟩
      rintro ⟨-, other, hother, h⟩
      cases hother.symm.trans hlast
      exact h
    case isFalse => cases hlast

-- ================================================================ meaning

/-- The end of `n` can not be reached: its opcode says so, or it is a
block whose last instruction has such an end. -/
inductive EndsUnreachable (f : Forest) : NodeId → Prop where
  | direct {n : NodeId}
      (h : (f.node n).opcode.directFlags.has endPoint = true) :
      EndsUnreachable f n
  | last {n m : NodeId} (hop : (f.node n).opcode = .block)
      (hlast : (f.children n).getLast? = some m)
      (hm : EndsUnreachable f m) : EndsUnreachable f n

/-- What the flags of `n` should say. -/
structure Describes (f : Forest) (n : NodeId) (flags : Flags) : Prop where
  union : ∀ {i}, i ≠ endPoint → (flags.has i = true
    ↔ ∃ m, Relation.ReflTransGen f.Holds n m
      ∧ (f.node m).opcode.directFlags.has i = true)
  endPoint : flags.has endPoint = true ↔ f.EndsUnreachable n

theorem EndsUnreachable.congr (hends : f.EndsUnreachable n)
    (hop : ∀ m, (g.node m).opcode = (f.node m).opcode)
    (hchildren : ∀ m, g.children m = f.children m) :
    g.EndsUnreachable n := by
  induction hends with
  | direct h => exact .direct (by rwa [hop])
  | last hblock hlast _ ih =>
      exact .last (by rwa [hop]) (by rwa [hchildren]) ih

/-- `Describes` looks at slots and opcodes alone, so it is the same between
`Alike` forests. -/
theorem Describes.alike {flags : Flags} (hdesc : g.Describes n flags)
    (hfg : Alike f g) : f.Describes n flags := by
  refine ⟨fun {i} hi => ?_, hdesc.endPoint.trans ⟨fun h => ?_, fun h => ?_⟩⟩
  · rw [hdesc.union hi, holds_alike hfg]
    simp only [hfg.opcode]
  · exact h.congr (fun m => (hfg.opcode m).symm)
      fun m => (hfg.children m).symm
  · exact h.congr hfg.opcode hfg.children

/-- If every child is described by what it told, `summary` describes the node.
-/
theorem describes_summary
    (hchildren : ∀ c ∈ f.children n, f.Describes c (f.told c)) :
    f.Describes n (f.summary n) := by
  refine ⟨fun {i} hi => ?_, ?_⟩
  · rw [has_summary hi]
    constructor
    · rintro (hdirect | ⟨c, hc, htold⟩)
      · exact ⟨n, .refl, hdirect⟩
      · obtain ⟨m, hreach, hm⟩ := ((hchildren c hc).union hi).mp htold
        exact ⟨m, .head hc hreach, hm⟩
    · rintro ⟨m, hreach, hm⟩
      rcases Relation.ReflTransGen.cases_head hreach with rfl | ⟨c, hc, h⟩
      · exact .inl hm
      · exact .inr ⟨c, hc, ((hchildren c hc).union hi).mpr ⟨m, h, hm⟩⟩
  · rw [has_summary_endPoint]
    constructor
    · rintro (hdirect | ⟨hop, last, hlast, htold⟩)
      · exact .direct hdirect
      · have hmem := List.mem_of_getLast? hlast
        exact .last hop hlast ((hchildren last hmem).endPoint.mp htold)
    · intro hends
      cases hends with
      | direct h => exact .inl h
      | @last _ m hop hlast hm =>
          have hmem := List.mem_of_getLast? hlast
          exact .inr ⟨hop, m, hlast, (hchildren m hmem).endPoint.mpr hm⟩

/-- Everything that can be reached from `n` has its holder as parent. -/
def LinkedBelow (f : Forest) (n : NodeId) : Prop :=
  ∀ {p c}, Relation.ReflTransGen f.Holds n p → c ∈ f.children p →
    f.parent? c = some p

/-- If all nodes below `n` are `Informed`, and every way down ends, the cached
flags of `n` describe it. -/
theorem describes_of_informed :
    ∀ {height : Nat} {n : NodeId} {flags : Flags},
      Shallow f.children height n →
      (∀ {p}, Relation.ReflTransGen f.Holds n p → f.Informed p) →
      (f.node n).cached = some flags → f.Describes n flags
  | 0, _, _, h, _, _ => h.elim
  | height + 1, n, flags, h, hbelow, hflags => by
      have hinformed := hbelow .refl
      rw [hinformed.sums hflags]
      refine describes_summary fun c hc => ?_
      obtain ⟨told, htold⟩ := Option.ne_none_iff_exists'.mp
        (hinformed.below hflags hc)
      have hsame : f.told c = told := by
        rw [Forest.told, htold]
        rfl
      rw [hsame]
      exact describes_of_informed (h c hc)
        (fun hreach => hbelow (.head hc hreach)) htold

/-- If every node is trusted, and all below `n` are linked to their holders,
the cached flags of `n` describe it. -/
theorem describes_of_trusted (htrusts : f.Trusts []) {flags : Flags}
    (hshallow : Shallow f.children height n) (hlinked : f.LinkedBelow n)
    (hflags : (f.node n).cached = some flags) : f.Describes n flags := by
  refine describes_of_informed hshallow (fun hreach => ?_) hflags
  exact (htrusts _ List.not_mem_nil).informed fun c hc =>
    (parent?_eq_some_iff.mp (hlinked hreach hc)).1

end Forest

end InstructionTree
