/-
Programs with checks and without.

With checks on, a program can come to a breach: a guard is in its way, or
a contract is broken. `Outcome.Agree` says that checks do nothing else.
Where the checked program comes to no breach, the unchecked program does
the same, with the same answer.

There are four places where checks are looked at: an attach, the beginning
and the end of a traversal, and the guard of structural edits. The lemmas on
putting programs together carry agreement from these to everything that is
made of them.
-/
import InstructionTree.Forest.Owner

namespace InstructionTree

-- ================================================================ breaches

/-- Whether a program was ended by a guard or a broken contract that only
checks look at: one of trees and traversals, or the range of a counter. -/
def Stop.isBreach : Stop → Bool
  | .fault (.invalidDuringTraversal ..) | .fault .cursorReset
  | .panic (.notATree _) | .panic (.unbalancedTraversal _)
  | .panic .traversalOverflow => true
  | .fault _ | .panic _ => false

namespace Outcome

variable {σ α β : Type} {strict lax : Outcome σ α}

/-- What stopped a program, if anything did. -/
def stop? : Outcome σ α → Option Stop
  | ok _ _ => none
  | stop why _ => some why

/-- Goes on with `k`, unless the program was stopped. -/
def andThen (out : Outcome σ α) (k : α → σ → Outcome σ β) : Outcome σ β :=
  match out with
  | ok a s => k a s
  | stop why s => stop why s

/-- Whether a program was stopped by a breach. -/
def breaches (out : Outcome σ α) : Bool := out.stop?.any Stop.isBreach

/-- Without checks the program did what it did with them, unless that was
stopped by a breach. -/
def Agree (strict lax : Outcome σ α) : Prop :=
  strict.breaches = false → lax = strict

@[simp] theorem breaches_map (out : Outcome σ α) (k : α → β) :
    (out.map k).breaches = out.breaches := by
  cases out <;> rfl

@[simp] theorem breaches_next (out : Outcome σ α) (k : σ → σ) :
    (out.next k).breaches = out.breaches := by
  cases out <;> rfl

@[simp] theorem breaches_always (out : Outcome σ α) (k : σ → σ) :
    (out.always k).breaches = out.breaches := by
  cases out <;> rfl

namespace Agree

theorem refl {out : Outcome σ α} : Agree out out := fun _ => rfl

theorem map (hsame : Agree strict lax) (k : α → β) :
    Agree (strict.map k) (lax.map k) := by
  intro hclean
  rw [hsame (by simpa using hclean)]

theorem next (hsame : Agree strict lax) (k : σ → σ) :
    Agree (strict.next k) (lax.next k) := by
  intro hclean
  rw [hsame (by simpa using hclean)]

theorem always (hsame : Agree strict lax) (k : σ → σ) :
    Agree (strict.always k) (lax.always k) := by
  intro hclean
  rw [hsame (by simpa using hclean)]

/-- If two programs agree, and what follows them agrees from every state, so do
the two together. -/
theorem andThen {ks kl : α → σ → Outcome σ β} (hsame : Agree strict lax)
    (hrest : ∀ a s, Agree (ks a s) (kl a s)) :
    Agree (strict.andThen ks) (lax.andThen kl) := by
  cases strict with
  | ok a s =>
      rw [hsame rfl]
      exact hrest a s
  | stop why s =>
      intro hclean
      rw [hsame hclean]
      rfl

end Agree

end Outcome

-- ============================================================= the checks

namespace Forest

open Outcome

variable {f : Forest}

end Forest

end InstructionTree
