/-
Versions.

Nothing but a commit writes a version. So whoever compares versions counts
commits (`Raises`), and whoever edits the slots of an owner and commits it
in the end has told everybody who does (`Tracks`): where a version is the
same as before, the slots are. Until the commit an owner is in arrears,
and says nothing of its slots.

Both relations speak of nodes that live on, and both can be put together
from step to step.
-/
import InstructionTree.Proofs.Forest.Works

namespace InstructionTree.Forest

variable {checks : Checks} {f g h : Forest} {n o p : NodeId} {j k : Nat}
  {late : NodeId → Prop}

-- ================================================================ commits

theorem version_dropCachesFrom (n : NodeId) :
    ∀ (steps : Nat) (next : Option NodeId) (f : Forest),
      ((dropCachesFrom steps next f).node n).version = (f.node n).version
  | 0, _, _ => rfl
  | _ + 1, none, _ => rfl
  | steps + 1, some m, f => by
      unfold dropCachesFrom
      split
      · rfl
      · rw [version_dropCachesFrom n steps, dropCache]
        exact f.field_update (F := Node.version) (by intro _; rfl) m n

/-- `commit` raises the version of its node by one, and no other. -/
theorem version_commit (hn : f.isAlive n = true) (o : NodeId) :
    ((f.commit o).node n).version
      = (f.node n).version + if n = o then 1 else 0 := by
  unfold commit invalidate
  rw [node_emit, version_dropCachesFrom, dropCache,
    field_update _ (F := Node.version) (by intro _; rfl), countBatch]
  by_cases hsame : n = o
  · subst hsame
    rw [node_update_self f hn, if_pos rfl]
  · rw [node_update_ne f hsame, if_neg hsame]
    rfl

-- ================================================================= raises

/-- Of the nodes that live on, `p` had its version raised by `k`, and no
other node. -/
structure Raises (p : NodeId) (k : Nat) (f g : Forest) : Prop where
  ages : Ages f g
  version : ∀ {n}, f.isAlive n = true → g.isAlive n = true →
    (g.node n).version = (f.node n).version + if n = p then k else 0

/-- A node that is alive in `f` and in `h` is alive in every forest between. -/
theorem Ages.alive_between (hfg : Ages f g) (hgh : Ages g h)
    (hf : f.isAlive n = true) (hh : h.isAlive n = true) :
    g.isAlive n = true :=
  hgh.alive (Nat.lt_of_lt_of_le (f.index_lt_of_alive hf) hfg.size) hh

namespace Raises

theorem refl (p : NodeId) (f : Forest) : Raises p 0 f f where
  ages := .refl f
  version _ _ := by
    rw [ite_self]
    rfl

theorem trans (hfg : Raises p j f g) (hgh : Raises p k g h) :
    Raises p (j + k) f h where
  ages := hfg.ages.trans hgh.ages
  version hf hh := by
    have hg := hfg.ages.alive_between hgh.ages hf hh
    rw [hgh.version hg hh, hfg.version hf hg]
    split <;> omega

/-- `Raises p 0` is `Raises q 0` for every `q`. -/
theorem none (hfg : Raises p 0 f g) (q : NodeId) : Raises q 0 f g where
  ages := hfg.ages
  version hf hg := by
    rw [hfg.version hf hg, ite_self, ite_self]

theorem version_eq (hfg : Raises p 0 f g) (hf : f.isAlive n = true)
    (hg : g.isAlive n = true) :
    (g.node n).version = (f.node n).version := by
  rw [hfg.version hf hg, ite_self, Nat.add_zero]

/-- What raises only the version of a node not created before raises no version
of a node that was. -/
theorem unborn (hfg : Raises ⟨f.size⟩ k f g) (q : NodeId) :
    Raises q 0 f g where
  ages := hfg.ages
  version {n} hf hg := by
    have hold : n ≠ ⟨f.size⟩ := by
      rintro rfl
      exact Nat.lt_irrefl _ (f.index_lt_of_alive hf)
    rw [hfg.version hf hg, if_neg hold, ite_self]

end Raises

theorem raises_update {k : Node → Node} (m : NodeId)
    (hop : ∀ x, (k x).opcode = x.opcode)
    (hversion : ∀ x, (k x).version = x.version) (p : NodeId) :
    Raises p 0 f (f.update m k) where
  ages := ages_update m hop
  version _ _ := by
    rw [ite_self]
    exact f.field_update (F := Node.version) hversion m _

theorem Touches.raises (hfg : Touches checks o f g) (p : NodeId) :
    Raises p 0 f g where
  ages := hfg.ages
  version _ hg := by
    rw [ite_self]
    exact hfg.field (F := Node.version) (fun _ _ _ _ _ => rfl) hg

theorem Sheds.raises (hfg : Sheds f g) (p : NodeId) : Raises p 0 f g where
  ages := hfg.ages
  version _ hg := by
    rw [ite_self, hfg.node_eq hg]
    rfl

theorem raises_commit (o : NodeId) : Raises o 1 f (f.commit o) where
  ages := (alike_commit o).ages
  version hf _ := version_commit hf o

theorem raises_enter (m c p : NodeId) : Raises p 0 f (f.enter m c) := by
  refine raises_update c ?_ ?_ p
  all_goals exact fun _ => rfl

theorem raises_detach (m c p : NodeId) : Raises p 0 f (f.detach m c) :=
  have htouches : Touches .strict m f (f.detach m c) := .single (.leave c)
  htouches.raises p

theorem raises_emit (e : Event) (p : NodeId) : Raises p 0 f (f.emit e) where
  ages := (alike_emit e).ages
  version _ _ := by
    rw [ite_self]
    rfl

theorem raises_hold (m p : NodeId) : Raises p 0 f (f.hold m) := by
  refine raises_update m ?_ ?_ p
  all_goals exact fun _ => rfl

theorem raises_release (m p : NodeId) : Raises p 0 f (f.release m) := by
  refine (raises_update m ?_ ?_ p).trans ((sheds_reap _ m).raises p)
  all_goals exact fun _ => rfl

theorem raises_beginTraversal (m p : NodeId) :
    Raises p 0 f (f.beginTraversal m) := by
  refine raises_update m ?_ ?_ p
  all_goals exact fun _ => rfl

theorem raises_endTraversal (m p : NodeId) :
    Raises p 0 f (endTraversal checks m f).state := by
  unfold endTraversal
  split
  · exact .refl p f
  · refine raises_update m ?_ ?_ p
    all_goals exact fun _ => rfl

theorem raises_holdAll (ns : List NodeId) (p : NodeId) :
    Raises p 0 f (f.holdAll ns) := by
  induction ns generalizing f with
  | nil => exact .refl p f
  | cons n rest ih => exact (raises_hold n p).trans ih

theorem raises_releaseAll (ns : List NodeId) (p : NodeId) :
    Raises p 0 f (f.releaseAll ns) := by
  induction ns generalizing f with
  | nil => exact .refl p f
  | cons n rest ih => exact (raises_release n p).trans ih

/-- `Touches` of an owner, its `commit` and `Sheds` raise its version by one.
-/
theorem Touches.raises_committed (hfg : Touches checks o f g)
    (hgh : Sheds (g.commit o) h) : Raises o 1 f h :=
  ((hfg.raises o).trans (raises_commit o)).trans (hgh.raises o)

/-- An edit `Carried` out at `o` raises no version but that of `o`. -/
theorem Carried.raises {α : Type} {out : Outcome Forest α}
    (hout : Carried checks o f out) : ∃ k, Raises o k f out.state := by
  cases hout with
  | idle | refused => exact ⟨0, .refl o f⟩
  | guarded e ev => exact ⟨0, raises_emit ev o⟩
  | broken _ hfg => exact ⟨0, hfg.raises o⟩
  | done a hfg hgh => exact ⟨1, hfg.raises_committed hgh⟩

/-- An edit that ended with a fault raises no version. -/
theorem Carried.raises_of_fault {α : Type} {e : Fault}
    (hout : Carried checks o f (.stop (.fault e) g : Outcome Forest α)) :
    Raises o 0 f g := by
  cases hout with
  | refused => exact .refl o f
  | guarded e ev => exact raises_emit ev o

-- ================================================================= tracks

/-- Of the nodes that live on, none had its version lowered, and one that
has the same version as before has the same slots, unless it is `late`. -/
structure Tracks (late : NodeId → Prop) (f g : Forest) : Prop where
  ages : Ages f g
  raised : ∀ {n}, f.isAlive n = true → g.isAlive n = true →
    (f.node n).version ≤ (g.node n).version
  slots : ∀ {n}, f.isAlive n = true → g.isAlive n = true → ¬ late n →
    (g.node n).version = (f.node n).version →
    (g.node n).slots = (f.node n).slots

namespace Tracks

theorem refl (late : NodeId → Prop) (f : Forest) : Tracks late f f where
  ages := .refl f
  raised _ _ := Nat.le_refl _
  slots _ _ _ _ := rfl

theorem trans (hfg : Tracks late f g) (hgh : Tracks late g h) :
    Tracks late f h where
  ages := hfg.ages.trans hgh.ages
  raised hf hh := by
    have hg := hfg.ages.alive_between hgh.ages hf hh
    exact Nat.le_trans (hfg.raised hf hg) (hgh.raised hg hh)
  slots hf hh hn hsame := by
    have hg := hfg.ages.alive_between hgh.ages hf hh
    have hfirst := hfg.raised hf hg
    have hsecond := hgh.raised hg hh
    rw [hgh.slots hg hh hn (by omega), hfg.slots hf hg hn (by omega)]

theorem mono {later : NodeId → Prop} (hfg : Tracks late f g)
    (hlate : ∀ n, late n → later n) : Tracks later f g where
  ages := hfg.ages
  raised := hfg.raised
  slots hf hg hn := hfg.slots hf hg fun h => hn (hlate _ h)

/-- `commit` of the one late node makes nobody late. -/
theorem commit (hfg : Tracks (· = o) f g) :
    Tracks (fun _ => False) f (g.commit o) := by
  have hage := alike_commit (f := g) o
  refine ⟨hfg.ages.trans hage.ages, fun {n} hf hh => ?_,
    fun {n} hf hh _ hsame => ?_⟩
  all_goals
    have hg : g.isAlive n = true := (hage.alive n).symm.trans hh
    have hraised := hfg.raised hf hg
    have hcommit := version_commit hg o
  · omega
  · have hother : n ≠ o := by
      rintro rfl
      rw [if_pos rfl] at hcommit
      omega
    rw [if_neg hother] at hcommit
    rw [slots_commit]
    exact hfg.slots hf hg hother (by omega)

end Tracks

/-- Steps that raise no version track, if they change slots of late nodes only.
-/
theorem Raises.tracks (hfg : Raises p 0 f g)
    (hslots : ∀ {n}, f.isAlive n = true → g.isAlive n = true → ¬ late n →
      (g.node n).slots = (f.node n).slots) : Tracks late f g where
  ages := hfg.ages
  raised hf hg := Nat.le_of_eq (hfg.version_eq hf hg).symm
  slots hf hg hn _ := hslots hf hg hn

/-- `Calm` steps that raise no version track. -/
theorem Calm.tracks (hfg : Calm f g) (hraises : Raises p 0 f g) :
    Tracks late f g :=
  hraises.tracks fun hf hg _ => hfg.slots hf hg

theorem Sheds.tracks (hfg : Sheds f g) : Tracks late f g :=
  hfg.calm.tracks (hfg.raises default)

theorem tracks_hold (n : NodeId) : Tracks late f (f.hold n) :=
  (alike_hold n).calm.tracks (raises_hold n default)

theorem tracks_release (f : Forest) (n : NodeId) :
    Tracks late f (f.release n) :=
  (calm_release f n).tracks (raises_release n default)

/-- `Touches` of `o` track with `o` late. -/
theorem Touches.tracks (hfg : Touches checks o f g) : Tracks (· = o) f g :=
  (hfg.raises o).tracks fun _ hg hn => hfg.slots_ne hg hn

theorem Touches.tracks_committed (hfg : Touches checks o f g)
    (hgh : Sheds (g.commit o) h) : Tracks (fun _ => False) f h :=
  hfg.tracks.commit.trans hgh.tracks

/-- An edit `Carried` out at `o` tracks, unless it broke off on the check of an
attach. -/
theorem Carried.tracks {α : Type} {out : Outcome Forest α}
    (hout : Carried checks o f out)
    (hwhole : ∀ a g, out ≠ .stop (.panic (.notATree a)) g) :
    Tracks (fun _ => False) f out.state := by
  cases hout with
  | idle | refused => exact .refl _ f
  | guarded e ev =>
      exact (alike_emit ev).calm.tracks (raises_emit ev o)
  | broken a => exact absurd rfl (hwhole a _)
  | done a hfg hgh => exact hfg.tracks_committed hgh

-- =============================================================== building

theorem raises_alloc (op : Opcode) (x : Operand) (p : NodeId) :
    Raises p 0 f (f.alloc (Node.fresh op x)).2 where
  ages := ages_alloc f _
  version {n} hf _ := by
    have hold : n ≠ (f.alloc (Node.fresh op x)).1 := by
      rintro rfl
      rw [f.not_alive_alloc] at hf
      cases hf
    rw [ite_self, node_alloc, if_neg hold]
    rfl

theorem Fill.raises {ns : List NodeId} (hfg : Fill checks n f ns g)
    {locks : List NodeId} (hs : f.Sound checks locks)
    (hn : f.isAlive n = true) : ∃ k, Raises n k f g := by
  cases hfg with
  | operand i c hc _ hout =>
      have hcarried : Carried checks n f
          (setSlotChild checks n i (some c) f) :=
        carried_setSlotChild i hn fun m hm => by cases hm; exact hc
      rw [hout] at hcarried
      exact hcarried.raises
  | range i ns hns hc hout =>
      have hcarried : Carried checks n f
          (Collection.addRange checks ⟨n, i⟩ ns f) :=
        Collection.carried_addRange hs hc hns
      rw [hout] at hcarried
      exact hcarried.raises

theorem Filled.raises {placed : List NodeId}
    (hfg : Filled checks n f placed g) {locks : List NodeId}
    (hs : f.Sound checks locks) (hn : f.isAlive n = true) :
    ∃ k, Raises n k f g := by
  induction hfg with
  | none => exact ⟨0, .refl n _⟩
  | more hstep _ ih =>
      obtain ⟨hs', -, halive⟩ := hstep.keeps hs hn
      obtain ⟨j, hfirst⟩ := hstep.raises hs hn
      obtain ⟨k, hrest⟩ := ih hs' ((halive n).trans hn)
      exact ⟨j + k, hfirst.trans hrest⟩

/-- `build` raises no version of a node that was there before. -/
theorem raises_build {op : Opcode} {x : Operand} {children : List NodeId}
    {locks : List NodeId} (hs : f.Sound checks locks)
    (hlive : ∀ c ∈ children, f.isAlive c = true) (p : NodeId) :
    Raises p 0 f (build checks op x children f).state := by
  have hs' := hs.alloc op x
  have hborn : (f.alloc (Node.fresh op x)).2.isAlive
      (f.alloc (Node.fresh op x)).1 = true := isAlive_alloc_self ..
  have hbuilds : Builds checks (f.alloc (Node.fresh op x)).1
      (f.alloc (Node.fresh op x)).2 op.layout children
      (build checks op x children f) := builds_build hs hlive
  have hall : ∃ k, Raises (f.alloc (Node.fresh op x)).1 k
      (f.alloc (Node.fresh op x)).2 (build checks op x children f).state := by
    generalize build checks op x children f = out at hbuilds ⊢
    cases hbuilds with
    | ok hfg => exact hfg.raises hs' hborn
    | refused e hfg =>
        obtain ⟨k, hraises⟩ := hfg.raises hs' hborn
        exact ⟨k, hraises.trans ((sheds_reap _ _).raises _)⟩
    | stop placed rest why hfg hall hfew hgh =>
        obtain ⟨j, hfilled⟩ := hfg.raises hs' hborn
        obtain ⟨k, hstopped⟩ := hgh.raises
        exact ⟨j + k, (hfilled.trans hstopped).trans
          ((sheds_reap _ _).raises _)⟩
  obtain ⟨k, hraises⟩ := hall
  have hwhole := (raises_alloc op x (f.alloc (Node.fresh op x)).1).trans
    hraises
  exact hwhole.unborn p

/-- `build` tracks: it changes no slots of a node that was there before. -/
theorem tracks_build {op : Opcode} {x : Operand} {children : List NodeId}
    {locks : List NodeId} (hs : f.Sound checks locks)
    (hlive : ∀ c ∈ children, f.isAlive c = true) :
    Tracks late f (build checks op x children f).state := by
  refine (raises_build hs hlive default).tracks fun {n} hf hg _ => ?_
  refine (works_build hs hlive).slots (.inl hg) ?_
  rintro rfl
  exact Nat.lt_irrefl _ (f.index_lt_of_alive hf)

end InstructionTree.Forest
