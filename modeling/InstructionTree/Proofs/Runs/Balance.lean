/-
Edits balance.

Freeing an owner changes how many positions hold a node, and tells the
node nothing. An edit is different, whatever was freed before it: what it
does to `slotRefs` is what it does to the slots of its owner, node by node
(`Balanced`). Every node that leaves is detached once, every node that
enters attached once. And `slotRefs` of a node that is detached is never
zero at that moment: the forest counts no more overdrafts after the edit
than before (`overdrafts_detach` tells the two apart).

What the edit itself does is done when it gives its references back. That
may free nodes, even the owner, but it is `Calm`.
-/
import InstructionTree.Proofs.Runs.Listed

namespace InstructionTree

open Forest

variable {checks : Checks} {locks : List NodeId} {f g h : Forest}
  {o : NodeId} {entered left more fewer : List NodeId}

namespace Forest

-- ============================================================= balanced

/-- `g` can be reached from `f` by steps that attach `entered` to `o` and
detach `left` from it without an overdraft, and just these positions of `o`
changed. -/
structure Balanced (o : NodeId) (entered left : List NodeId)
    (f g : Forest) : Prop where
  ages : Ages f g
  solvent : Solvent o f entered left g
  balance : ∀ n, (g.children o).count n + left.count n
    = (f.children o).count n + entered.count n
  others : ∀ {p}, p ≠ o → g.isAlive p = true → g.children p = f.children p

namespace Balanced

/-- `Calm` steps from `f` to `g` are `Balanced` with nobody entering or
leaving, if the children of the owner are the same in both. -/
theorem calm (hfg : Calm f g) (ho : g.children o = f.children o) :
    Balanced o [] [] f g where
  ages := hfg.ages
  solvent := Solvent.start.calm hfg
  balance _ := by rw [ho]
  others _ hp := hfg.children hp

theorem trans (hfg : Balanced o entered left f g)
    (hgh : Balanced o more fewer g h) :
    Balanced o (entered ++ more) (left ++ fewer) f h where
  ages := hfg.ages.trans hgh.ages
  solvent := hfg.solvent.trans hgh.solvent
  balance n := by
    have hfg := hfg.balance n
    have hgh := hgh.balance n
    rw [List.count_append, List.count_append]
    omega
  others {p} hne hp := by
    rw [hgh.others hne hp]
    cases hg : g.isAlive p with
    | true => exact hfg.others hne hg
    | false =>
        -- born since: nobody knew it
        have hf : f.isAlive p = false := by
          cases hf : f.isAlive p with
          | false => rfl
          | true =>
              have hold := f.index_lt_of_alive hf
              rw [hgh.ages.alive (Nat.lt_of_lt_of_le hold hfg.ages.size) hp]
                at hg
              cases hg
        rw [children_of_not_alive g hg, children_of_not_alive f hf]

/-- `slotRefs` changes like the positions in the slots of the owner. -/
theorem slotRefs_eq (hfg : Balanced o entered left f g) {n : NodeId}
    (hn : g.Spared n) :
    (g.node n).slotRefs + (f.children o).count n
      = (f.node n).slotRefs + (g.children o).count n := by
  have hcount := hfg.solvent.count hn
  have hbalance := hfg.balance n
  omega

end Balanced

theorem Exchange.balanced {i : Nat} {new : List NodeId}
    (hfg : Exchange o i entered left new f g) (hwf : f.WellFormed)
    (hcov : f.Covered) : Balanced o entered left f g where
  ages := hfg.account.ages
  solvent := hfg.account.solvent hwf hcov
  balance n := by
    have hown := hfg.account.count_children n
    have hbalance := hfg.balance n
    omega
  others hne hp := (hfg.account.others hne hp).2

theorem Filled.balanced (hfg : Filled checks o f entered g)
    (hs : f.Sound checks locks) (ho : f.isAlive o = true)
    (hcov : f.Covered) : Balanced o entered [] f g := by
  induction hfg with
  | none => exact .calm (.refl _) rfl
  | more hstep _ ih =>
      obtain ⟨hs', -, halive⟩ := hstep.keeps hs ho
      obtain ⟨i, new, removed, hedited⟩ := hstep.edited hs ho
      have hx := hedited.exchange
      exact (hx.balanced hs.toWellFormed hcov).trans
        (ih hs' ((halive o).trans ho) (hx.covered hs.toWellFormed hcov))

/-- Building a node is `Balanced` with the children as those who entered: the
new node at `⟨f.size⟩` holds each of them in its own slots. -/
theorem balanced_build {a : Opcode} {x : Operand} {children : List NodeId}
    {n : NodeId} (hs : f.Sound checks locks)
    (hlive : ∀ c ∈ children, f.isAlive c = true) (hcov : f.Covered)
    (hout : Forest.build checks a x children f = .ok n g) :
    Balanced ⟨f.size⟩ children [] f g := by
  have hborn : (f.alloc (Node.fresh a x)).2.isAlive
      (f.alloc (Node.fresh a x)).1 = true := isAlive_alloc_self ..
  have hcalm := calm_alloc f a x
  have hbuilds : Builds checks (f.alloc (Node.fresh a x)).1
      (f.alloc (Node.fresh a x)).2 a.layout children
      (Forest.build checks a x children f) := builds_build hs hlive
  rw [hout] at hbuilds
  cases hbuilds with
  | ok hfg =>
      exact (Balanced.calm hcalm (hcalm.children hborn)).trans
        (hfg.balanced (hs.alloc a x) hborn
          (hcalm.covered hs.toWellFormed hcov))

end Forest

-- ============================================================ operations

/-- The `body` of an operation about slots, with idle calls and no broken
contract, is `Balanced` at its owner, for some nodes that entered and some that
left. -/
theorem Operation.body_balanced {op : Operation} (hready : op.Ready locks f)
    (hs : f.Sound checks (op.keeps ++ locks)) (hcov : f.Covered)
    (hidle : ∀ j ∈ op.calls checks f, j.Idle checks (op.keeps ++ locks))
    (hedits : op.edits = true) (hnotify : ∀ o r, op ≠ .notify o r)
    (hunbroken : op.filters = false →
      ∀ p s, op.body checks f ≠ .stop (.panic p) s)
    (hbuilt : ∀ a x ns, op = .build a x ns →
      ∃ g, op.body checks f = .ok () g) :
    ∃ entered left, Balanced (op.owner f) entered left f
      (op.body checks f).state := by
  by_cases hbuild : ∃ a x ns, op = .build a x ns
  · obtain ⟨a, x, ns, rfl⟩ := hbuild
    obtain ⟨g, hbody⟩ := hbuilt a x ns rfl
    rw [hbody]
    obtain ⟨n, hout, -⟩ := Outcome.map_eq_ok hbody
    exact ⟨ns, [], balanced_build hs hready hcov hout⟩
  · rcases body_editsAt hready hs hcov hidle hedits hnotify
      (fun a x ns h => hbuild ⟨a, x, ns, h⟩) hunbroken
      with ⟨halike, -⟩ | ⟨left, -, i, _, _, hedited, -⟩
    · exact ⟨[], [], .calm halike.calm (halike.children _)⟩
    · exact ⟨_, left, hedited.exchange.balanced hs.toWellFormed hcov⟩

/-- Between `Alike` forests `op.owner` is the same node. -/
theorem Operation.owner_alike (op : Operation) (hfg : Alike f g) :
    op.owner g = op.owner f := by
  cases op with
  | create | build => exact congrArg NodeId.mk hfg.size
  | replaceWith | removeFromParent => rw [owner, owner, hfg.parent?]
  | _ => rfl

-- ================================================================== runs

/-- In every forest that a plain run reaches, an edit changes `slotRefs` of
every node like the positions in the slots of its owner, and none of its
detaches is an overdraft. The judge of a filtering edit may give up. -/
theorem Runs.conserves (hf : Runs checks Plain [] ∅ f) {op : Operation}
    (hready : op.Ready [] f) (hedits : op.edits = true)
    (hplain : Plain [] op f (op.run checks f))
    (hcalls : ∀ j ∈ op.calls checks (f.holdAll op.keeps),
      Runs checks Plain (j.node :: (op.keeps ++ [])) j.before j.after)
    (hbuilt : ∀ a x ns, op = .build a x ns →
      ∃ g, op.run checks f = .ok () g) :
    (op.run checks f).state.overdrafts = f.overdrafts
      ∧ ∃ entered left, Balanced (op.owner f) entered left f
        (op.body checks (f.holdAll op.keeps)).state
      ∧ Calm (op.body checks (f.holdAll op.keeps)).state
        (op.run checks f).state
      ∧ ∀ n, (op.run checks f).state.Spared n →
        ((op.run checks f).state.node n).slotRefs
            + (f.children (op.owner f)).count n
          = (f.node n).slotRefs
            + ((op.body checks (f.holdAll op.keeps)).state.children
              (op.owner f)).count n := by
  have hs : f.Sound checks [] := hf.sound_of_empty
  have hheld := alike_holdAll (f := f) op.keeps
  have hcov := hheld.calm.covered hs.toWellFormed hf.covered_of_empty
  have hbuilt' : ∀ a x ns, op = .build a x ns →
      ∃ g, op.body checks (f.holdAll op.keeps) = .ok () g := by
    intro a x ns hop
    obtain ⟨g, hg⟩ := hbuilt a x ns hop
    cases hbody : op.body checks (f.holdAll op.keeps) with
    | ok u k => exact ⟨k, rfl⟩
    | stop why k =>
        rw [Operation.run_of_body hbody] at hg
        cases hg
  obtain ⟨entered, left, hbody⟩ := Operation.body_balanced
    (hready.alike hheld) (hs.holdAll hready.keeps) hcov
    (fun j hj => (hcalls j hj).idle) hedits hplain.unforced
    (fun hfilters p s hstop =>
      hplain.unbroken hfilters p _ (Operation.run_of_body hstop)) hbuilt'
  rw [op.owner_alike hheld] at hbody
  have hall := (Balanced.calm hheld.calm (hheld.children _)).trans hbody
  have hgave : Calm (op.body checks (f.holdAll op.keeps)).state
      (op.run checks f).state := by
    rw [Operation.run, Outcome.state_always]
    exact calm_releaseAll op.keeps
  refine ⟨hgave.overdrafts.trans hall.solvent.overdrafts_eq, entered, left,
    hall, hgave, fun n hn => ?_⟩
  rw [hgave.slotRefs hn]
  exact hall.slotRefs_eq (hgave.ages.spared hn)

/-- A judge that rejects before its call `k`, and gives up there. -/
def Collection.quittingJudge (k : Nat) : Collection.Judge Nat := fun _ s =>
  if s.2 < k then .ok true (s.1, s.2 + 1)
  else .stop (.panic .judgeFailed) s

/-- A node stored twice in a block, which counts a third position since
another block with it was freed, and a judge that gives up at the second
one. -/
theorem Runs.conserves_of_quitting :
    let ops : List Operation :=
      [.create .block .none, .hold ⟨0⟩, .create .nop .none, .hold ⟨1⟩,
        .create .block .none, .hold ⟨2⟩, .change ⟨⟨2⟩, 0⟩ (.add ⟨1⟩),
        .drop ⟨2⟩, .change ⟨⟨0⟩, 0⟩ (.addRange [⟨1⟩, ⟨1⟩])]
    let f := played .strict ops ∅
    let op : Operation := .removeAll ⟨⟨0⟩, 0⟩ (Collection.quittingJudge 1) 0
    let g := (op.run .strict f).state
    Runs .strict Plain [] ∅ f
      ∧ op.run .strict f = .stop (.panic .judgeFailed) g
      ∧ (f.node ⟨1⟩).slotRefs = 3 ∧ f.children ⟨0⟩ = [⟨1⟩, ⟨1⟩]
      ∧ (g.node ⟨1⟩).slotRefs = 2 ∧ g.children ⟨0⟩ = [⟨1⟩]
      ∧ g.overdrafts = f.overdrafts := by
  intro ops f op g
  have hplays : Plays .strict (fun _ _ => true) [] ops ∅ := by decide +kernel
  have hf : Runs .strict Plain [] ∅ f :=
    hplays.runs (fun hop _ => hop.plain) .refl
  have hforced : ∀ o r, op ≠ .notify o r := by
    intro o r
    simp [op]
  have hbuilt : ∀ a x ns, op ≠ .build a x ns := by
    intro a x ns
    simp [op]
  have hsame : ∀ j ∈ op.calls .strict (f.holdAll op.keeps),
      j.after = j.before := by decide +kernel
  have hready : op.Ready [] f := by decide +kernel
  have hplain : Plain [] op f (op.run .strict f) := by
    refine ⟨hforced, ?_, fun h => absurd rfl h⟩
    intro hfilters
    cases hfilters
  obtain ⟨hoverdrafts, entered, left, -, -, hcount⟩ :=
    Runs.conserves hf hready rfl hplain
      (fun j hj => by rw [hsame j hj]; exact .refl)
      fun a x ns h => absurd h (hbuilt a x ns)
  have hcount := hcount ⟨1⟩ (.inl (by decide +kernel))
  have hrefs : (f.node ⟨1⟩).slotRefs = 3 := by decide +kernel
  have hbefore : (f.children (op.owner f)).count ⟨1⟩ = 2 := by decide +kernel
  have hafter : ((op.body .strict (f.holdAll op.keeps)).state.children
      (op.owner f)).count ⟨1⟩ = 1 := by decide +kernel
  refine ⟨hf, by decide +kernel, hrefs, by decide +kernel, ?_,
    by decide +kernel, hoverdrafts⟩
  show ((op.run .strict f).state.node ⟨1⟩).slotRefs = 2
  omega

/-- A notice about a node that left no slot is an overdraft. -/
example :
    (played .strict [.create .block .none, .hold ⟨0⟩, .create .nop .none,
      .hold ⟨1⟩, .notify ⟨0⟩ (.detach ⟨1⟩)] ∅).overdrafts = 1 := by
  decide

end InstructionTree
