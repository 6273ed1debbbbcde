/-
Who is above an owner while it is edited.

An edit of `o` moves links in two ways only. A node that enters is linked
to `o`, but the check has let it in because it is not above `o`; and a node
that leaves or is freed loses its link. So nobody gets above `o` by an edit
of `o` (`Touches.above`), and whoever the check finds there at some later
attach was there from the start.

# Stale links

A link is not dropped with the position that it tells of, as long as the
node counts others. So the way up can go through an owner that holds the
node no longer. Only such a link can put a node above another one that it
does not reach through slots (`exists_stale_of_above`).
-/
import InstructionTree.Proofs.Forest.Commits

namespace InstructionTree.Forest

variable {f g : Forest} {o c p : NodeId}

-- ========================================================== the way up

/-- Where nothing above `o` has a new link, nobody has got above `o`. -/
theorem Above.of_fewer (hp : g.Above o p)
    (hfewer : ∀ m q, f.Above o m → g.parent? m = some q →
      f.parent? m = some q) : f.Above o p := by
  induction hp with
  | refl => exact .refl
  | tail _ hq ih => exact ih.tail (hfewer _ _ ih hq)

section

variable (hsame : ∀ {m}, f.Above o m → g.parent? m = f.parent? m)
include hsame

/-- If the links above `o` are the same, `Above` is the same. -/
theorem above_congr : g.Above o p ↔ f.Above o p := by
  constructor
  · refine fun hp => hp.of_fewer fun m q hm hq => ?_
    rwa [hsame hm] at hq
  · intro hp
    induction hp with
    | refl => exact .refl
    | tail hm hq ih => exact ih.tail ((hsame hm).trans hq)

theorem Rooted.congr (hroot : f.Rooted o) : g.Rooted o := by
  obtain ⟨l, hl⟩ := hroot
  induction hl with
  | root hp => exact ⟨[], .root ((hsame .refl).trans hp)⟩
  | up hp _ ih =>
      obtain ⟨l, hl⟩ := ih fun hm => hsame (.head hp hm)
      exact ⟨_, .up ((hsame .refl).trans hp) hl⟩

end

/-- `breaksTree` finds `c` exactly if `c` is the owner or above it. -/
theorem breaksTree_iff (hroot : f.Rooted o) :
    f.breaksTree .strict o c = true ↔ f.Above o c :=
  isDescendantOf_iff hroot

-- ================================================================ edits

/-- A small step of an edit of `o` gets nobody above `o`. -/
theorem Touch.above (hfg : Touch .strict o f g) (hroot : f.Rooted o)
    (hp : g.Above o p) : f.Above o p := by
  refine hp.of_fewer fun m q hm hq => ?_
  cases hfg with
  | place n k =>
      rwa [parent?_eq_some_iff, link_setPosition, isAlive_setPosition,
        ← parent?_eq_some_iff] at hq
  | store i items =>
      rwa [parent?_eq_some_iff, link_setSlot, isAlive_setSlot,
        ← parent?_eq_some_iff] at hq
  | enter c ho hc hbelow =>
      have hclear : ¬ f.Above o c := by
        rw [← breaksTree_iff hroot, hbelow]
        exact Bool.false_ne_true
      rwa [parent?_enter_ne fun hmc : m = c => hclear (hmc ▸ hm)] at hq
  | leave c => exact parent?_eq_some_of_detach hq
  | free n hloose =>
      have hsheds : Sheds f (f.erase n) := .free n .refl hloose
      exact hsheds.parent?_eq_some hq

/-- `Touches` of `o` get nobody above `o` who was not above it. -/
theorem Touches.above {locks : List NodeId} (hfg : Touches .strict o f g)
    (hs : f.Sound .strict locks) (hp : g.Above o p) : f.Above o p := by
  induction hfg with
  | refl => exact hp
  | tail hfg hstep ih =>
      exact ih (hstep.above ((Touches.sound hfg hs).rooted rfl o) hp)

-- ========================================================== stale links

/-- Somebody above `o` from whom `o` can not be reached is there because
of a node on the way that its parent does not hold. -/
theorem exists_stale_of_above (hup : f.Above o c)
    (hfar : ¬ Relation.ReflTransGen f.Holds c o) :
    ∃ n p, f.Above o n ∧ f.parent? n = some p ∧ n ∉ f.children p
      ∧ f.Above p c := by
  induction hup using Relation.ReflTransGen.head_induction_on with
  | refl => exact absurd .refl hfar
  | @head o q hq hup ih =>
      by_cases hheld : f.Holds q o
      · obtain ⟨n, p, hn, hrest⟩ := ih fun hreach => hfar (hreach.tail hheld)
        exact ⟨n, p, .head hq hn, hrest⟩
      · exact ⟨o, q, .refl, hq, hheld, hup⟩

end InstructionTree.Forest
