/-
Edits and filterings with checks and without.

An edit of a collection looks at checks in its guard and in the attaches
it makes, so it agrees with its unchecked twin as these do. A filtering
calls a judge, which is a program of its own and may run in the middle of
edits with checks or without. `sift_agrees` takes from the two judges only
what is true of calls that came to no breach: that they agree, and that
there had been no breach before.
-/
import InstructionTree.Collection.Filter
import InstructionTree.Cursor
import InstructionTree.Forest.Children
import InstructionTree.Proofs.Forest.Agreement

namespace InstructionTree

open Forest Outcome

namespace Collection

variable {c : Collection} {f : Forest}

-- =================================================================== edits

/-- `append` attaches the first node, and goes on unless that breaks off. -/
theorem append_cons (checks : Checks) (n : NodeId) (rest : List NodeId) :
    c.append checks (n :: rest) f
      = (Forest.attach checks c.owner n (c.pushed f n)).andThen
        fun _ g => c.append checks rest g := by
  rw [append]
  cases Forest.attach checks c.owner n (c.pushed f n) <;> rfl

variable {σ : Type}

/-- What stops the end of a pass, if a pass was begun. A judge that gave up
hides it, since then that is how the filtering ends. -/
def hiddenStop? (checks : Checks) (c : Collection) (judge : Judge σ)
    (s : Forest × σ) : Option Stop :=
  if s.1.isGuarded checks c.owner then none
  else
    let ((pass, _), (f, _)) := c.sift judge (c.length s.1) ⟨0, 0, 0⟩
      (s.1.beginTraversal c.owner, s.2)
    (pass.finish checks c f).stop?

section

variable {strict lax : Judge σ} {clean : σ → Prop}
  (hback : ∀ n s, clean (strict n s).state.2 → clean s.2)
  (hcalls : ∀ n s, clean (strict n s).state.2 → lax n s = strict n s)
include hback hcalls

end

end Collection

-- ========================================================== through a node

namespace Forest

variable {f : Forest}

end Forest

namespace Cursor

variable {f : Forest}

end Cursor

end InstructionTree
