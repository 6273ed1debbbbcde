/-
Changes that were reported past a holder.

Between two questions flags are only ever forgotten. So what an informed
node remembers can go wrong in one way: a child of it forgets its flags and
it does not (`Missed`), since the change was reported to somebody else, to
whom the child is linked. Where that has not happened a node stays informed
(`Informed.fades`), whoever else holds its children.
-/
import InstructionTree.Proofs.Forest.Caches

namespace InstructionTree.Forest

variable {f g h : Forest} {n o : NodeId} {dirty : List NodeId}

-- ================================================================= fading

/-- Nothing that the flags of `n` depend on has changed, except that
children may have forgotten theirs. -/
structure Unheard (f g : Forest) (n : NodeId) : Prop where
  cached : (g.node n).cached = (f.node n).cached
  opcode : (g.node n).opcode = (f.node n).opcode
  children : g.children n = f.children n
  told : ∀ c ∈ f.children n, (g.node c).cached = none
    ∨ (g.node c).cached = (f.node c).cached

theorem Unheard.trans (hfg : Unheard f g n) (hgh : Unheard g h n) :
    Unheard f h n where
  cached := hgh.cached.trans hfg.cached
  opcode := hgh.opcode.trans hfg.opcode
  children := hgh.children.trans hfg.children
  told c hc := by
    rcases hgh.told c (hfg.children.symm ▸ hc) with hnone | hsame
    · exact .inl hnone
    · exact (hfg.told c hc).imp (hsame.trans ·) (hsame.trans ·)

theorem Unseen.unheard (hfg : Unseen f g n) : Unheard f g n :=
  ⟨hfg.cached, hfg.opcode, hfg.children, fun c hc => .inr (hfg.told c hc)⟩

/-- Whatever `n` could tell about what happened, flags were forgotten, its
own or those of children. -/
def Fades (f g : Forest) (n : NodeId) : Prop :=
  (g.node n).cached = none ∨ Unheard f g n

theorem Fades.trans (hfg : Fades f g n) (hgh : Fades g h n) :
    Fades f h n := by
  rcases hgh with hnone | hunheard
  · exact .inl hnone
  · exact hfg.imp (hunheard.cached.trans ·) (·.trans hunheard)

theorem Overlooks.fades (hfg : Overlooks f g dirty) (hn : n ∉ dirty) :
    Fades f g n :=
  (hfg n hn).imp_right Unseen.unheard

theorem fades_dropCache (f : Forest) (m n : NodeId) :
    Fades f (f.dropCache m) n := by
  have hfield : ∀ {α : Type} {F : Node → α}
      (_ : ∀ x c, F { x with cached := c } = F x) (c : NodeId),
      F ((f.dropCache m).node c) = F (f.node c) :=
    fun hF c => f.field_update (fun x => hF x _) m c
  by_cases hnm : n = m
  · exact .inl (hnm ▸ f.cached_dropCache_self n)
  · have hother : ∀ c, c ≠ m → (f.dropCache m).node c = f.node c :=
      fun c hc => f.node_update_ne hc
    refine .inr ⟨by rw [hother n hnm], by rw [hother n hnm], ?_,
      fun c _ => ?_⟩
    · rw [children_eq, children_eq, hother n hnm]
    · by_cases hcm : c = m
      · exact .inl (hcm ▸ f.cached_dropCache_self c)
      · exact .inr (by rw [hother c hcm])

theorem fades_dropCachesFrom (n : NodeId) :
    ∀ (steps : Nat) (next : Option NodeId) (f : Forest),
      Fades f (dropCachesFrom steps next f) n
  | 0, next, f => by
      rw [show dropCachesFrom 0 next f = f from by cases next <;> rfl]
      exact (Overlooks.refl f []).fades List.not_mem_nil
  | steps + 1, none, f => (Overlooks.refl f []).fades List.not_mem_nil
  | steps + 1, some m, f => by
      unfold dropCachesFrom
      split
      · exact (Overlooks.refl f []).fades List.not_mem_nil
      · exact (fades_dropCache f m n).trans
          (fades_dropCachesFrom n steps _ _)

/-- A node without cached flags has none after they have faded. -/
theorem Fades.uncached (hfg : Fades f g n)
    (hnone : (f.node n).cached = none) : (g.node n).cached = none :=
  hfg.elim id fun hunheard => hunheard.cached.trans hnone

/-- After `commit` flags have faded, and the owner has none. -/
theorem fades_commit (f : Forest) (o n : NodeId) : Fades f (f.commit o) n
    ∧ ((f.commit o).node o).cached = none := by
  have hcount : Overlooks f (f.countBatch o) [] :=
    overlooks_update o (fun _ => rfl) (fun _ => rfl) (fun _ => rfl)
      fun _ => rfl
  have htell : ∀ {k : Forest} {e : Event}, Overlooks k (k.emit e) [] :=
    overlooks_emit _
  have hclimb : ∀ m, Fades ((f.countBatch o).dropCache o) (f.commit o) m :=
    fun m => (fades_dropCachesFrom m _ _ _).trans
      (htell.fades List.not_mem_nil)
  exact ⟨(hcount.fades List.not_mem_nil).trans
      ((fades_dropCache _ o n).trans (hclimb n)),
    (hclimb o).uncached (cached_dropCache_self _ o)⟩

/-- `Batched` steps only let flags fade: the owner of each batch forgets its
own. -/
theorem Batched.fades (hfg : Batched f g) (n : NodeId) : Fades f g n := by
  induction hfg with
  | refl => exact (Overlooks.refl f []).fades List.not_mem_nil
  | unseen _ hunseen ih => exact ih.trans (hunseen.fades List.not_mem_nil)
  | @commit g h o _ hunseen ih =>
      obtain ⟨hfades, hnone⟩ := fades_commit h o n
      by_cases hno : n = o
      · exact .inl (hno ▸ hnone)
      · refine ih.trans ((hunseen.fades fun hn => ?_).trans hfades)
        exact hno (List.mem_singleton.mp hn)

-- ================================================================= missed

/-- `n` remembers flags although one of its children, which is linked
elsewhere, has forgotten its own. -/
def Missed (f : Forest) (n : NodeId) : Prop :=
  (f.node n).cached ≠ none ∧ ∃ c ∈ f.children n,
    f.parent? c ≠ some n ∧ (f.node c).cached = none

instance (f : Forest) (n : NodeId) : Decidable (f.Missed n) :=
  inferInstanceAs (Decidable (_ ∧ _))

/-- Whoever was informed still is after flags have faded, if it can be
trusted and has missed nothing. -/
theorem Informed.fades (hinformed : f.Informed n) (hfg : Fades f g n)
    (htrust : g.Trusted n) (hmissed : ¬ g.Missed n) : g.Informed n := by
  rcases hfg with hnone | hunheard
  · exact .of_uncached hnone
  · have hbelow : ∀ {flags c}, (g.node n).cached = some flags →
        c ∈ g.children n → (g.node c).cached ≠ none := by
      intro flags c hsome hc hnone
      by_cases hparent : g.parent? c = some n
      · have hlink := (parent?_eq_some_iff.mp hparent).1
        exact htrust.below hsome hc hlink hnone
      · refine hmissed ⟨?_, c, hc, hparent, hnone⟩
        rw [hsome]
        exact nofun
    refine ⟨hbelow, fun hsome => ?_⟩
    rw [summary_congr hunheard.opcode hunheard.children fun c hc => ?_]
    · rw [hunheard.cached] at hsome
      exact hinformed.sums hsome
    · exact (hunheard.told c hc).resolve_left
        (hbelow hsome (hunheard.children.symm ▸ hc))

end InstructionTree.Forest
