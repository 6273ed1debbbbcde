/-
Asking for flags.

Asking a node asks the nodes below it that remember nothing, and all of them
remember what they answered (`answered_flagsWithin`). An answer is never
replaced by another, so asking breaks no promise (`Asked`): whoever had
cached flags keeps them, and a node that is asked for the first time answers
what its children add up to.

# Where asking ends

A node that remembers asks nobody (`asks`). There are as many levels as
there are identities; a way down that is longer than that comes to some node
twice, so where no ring is below a node, all ways down from it end in time
(`shallow_of_ringless`). Both walks down that the forest takes are walks
along a list of nodes for each node, `children` or `asks`, and are judged by
the same lemmas. Asking has no answer exactly where it meets a ring of nodes
that remember nothing (`flags?_eq_none_iff`).
-/
import InstructionTree.Proofs.Forest.Caches

namespace InstructionTree.Forest

variable {f g h : Forest} {n m : NodeId} {height : Nat}

-- ============================================================= ways down

section

variable {below fewer : NodeId → List NodeId}

/-- `p` leads to `c`. -/
abbrev Leads (below : NodeId → List NodeId) (p c : NodeId) : Prop :=
  c ∈ below p

/-- Every way down from `n` has at most `height` levels. -/
def Shallow (below : NodeId → List NodeId) : Nat → NodeId → Prop
  | 0, _ => False
  | height + 1, n => ∀ c ∈ below n, Shallow below height c

/-- No ring can be reached from `n`. -/
def Ringless (below : NodeId → List NodeId) (n : NodeId) : Prop :=
  ∀ {m}, Relation.ReflTransGen (Leads below) n m →
    ¬ Relation.TransGen (Leads below) m m

/-- If nodes lead to fewer, a bound on the ways down is still one. -/
theorem Shallow.mono (hsub : ∀ n, fewer n ⊆ below n) :
    ∀ {height : Nat} {n : NodeId},
      Shallow below height n → Shallow fewer height n
  | 0, _, h => h
  | _ + 1, n, h => fun c hc => (h c (hsub n hc)).mono hsub

/-- A node with a bound on its ways down is not below itself. -/
theorem Shallow.acyclic :
    ∀ {height : Nat} {n : NodeId}, Shallow below height n →
      ¬ Relation.TransGen (Leads below) n n
  | 0, _, h => h.elim
  | height + 1, n, h => fun hring => by
      obtain ⟨c, hc, hback⟩ := Relation.TransGen.head'_iff.mp hring
      exact (h c hc).acyclic (Relation.TransGen.tail' hback hc)

theorem Ringless.mono (hsub : ∀ n, fewer n ⊆ below n)
    (h : Ringless below n) : Ringless fewer n :=
  fun hreach hring =>
    h (Relation.ReflTransGen.mono (fun p _ hc => hsub p hc) _ _ hreach)
      (Relation.TransGen.mono (fun p _ hc => hsub p hc) _ _ hring)

theorem Ringless.child {c : NodeId} (h : Ringless below n)
    (hc : c ∈ below n) : Ringless below c :=
  fun hreach => h (.head hc hreach)

/-- A node with a bound on its ways down is `Ringless`. -/
theorem ringless_of_shallow :
    ∀ {height : Nat} {n : NodeId}, Shallow below height n →
      Ringless below n
  | 0, _, h => h.elim
  | height + 1, n, h => fun hreach => by
      rcases Relation.ReflTransGen.cases_head hreach with rfl | ⟨c, hc, hcm⟩
      · exact h.acyclic
      · exact ringless_of_shallow (h c hc) hcm

/-- Below `up`, and away from it, a way down ends when all identities are
used up. -/
theorem shallow_of_away
    (hclosed : ∀ {p c}, c ∈ below p → f.isAlive c = true) :
    ∀ (height : Nat) (n : NodeId) (up : List NodeId),
      f.isAlive n = true → Ringless below n → up.Nodup →
      (∀ u ∈ up, f.isAlive u = true
        ∧ ¬ Relation.ReflTransGen (Leads below) n u) →
      up.length + height = f.size → Shallow below height n := by
  intro height
  induction height with
  | zero =>
      intro n up hn _ hnodup hup hsize
      have hnew : n ∉ up := fun h => (hup n h).2 .refl
      have hle := length_le_size (f := f) (hnodup.cons hnew) fun m hm => by
        rcases List.mem_cons.mp hm with rfl | hm
        · exact hn
        · exact (hup m hm).1
      rw [List.length_cons] at hle
      omega
  | succ height ih =>
      intro n up hn hringless hnodup hup hsize c hc
      have hnew : n ∉ up := fun h => (hup n h).2 .refl
      refine ih c (n :: up) (hclosed hc) (hringless.child hc)
        (hnodup.cons hnew) (fun m hm => ?_) ?_
      · rcases List.mem_cons.mp hm with rfl | hm
        · exact ⟨hn, fun hback =>
            hringless .refl (Relation.TransGen.head' hc hback)⟩
        · exact ⟨(hup m hm).1, fun hreach =>
            (hup m hm).2 (.head hc hreach)⟩
      · rw [List.length_cons]
        omega

/-- `descentEndsWithin` a height answers `true` if that bounds every way down.
-/
theorem descentEndsWithin_of_shallow :
    ∀ {height : Nat} {ns : List NodeId},
      (∀ n ∈ ns, Shallow below height n) →
      descentEndsWithin below height ns = true
  | 0, [], _ => rfl
  | 0, n :: _, h => (h n (.head _)).elim
  | height + 1, ns, h => by
      unfold descentEndsWithin
      refine Bool.or_eq_true_iff.mpr (.inr ?_)
      refine descentEndsWithin_of_shallow fun c hc => ?_
      obtain ⟨n, hn, hcn⟩ :=
        List.mem_flatMap.mp (List.mem_eraseDups.mp hc)
      exact h n hn c hcn

theorem shallow_of_descentEndsWithin :
    ∀ {height : Nat} {ns : List NodeId},
      descentEndsWithin below height ns = true →
      ∀ n ∈ ns, Shallow below height n
  | 0, ns, h, n, hn => by
      rw [List.isEmpty_iff.mp h] at hn
      cases hn
  | height + 1, ns, h, n, hn => by
      unfold descentEndsWithin at h
      rcases Bool.or_eq_true_iff.mp h with hempty | hnext
      · rw [List.isEmpty_iff.mp hempty] at hn
        cases hn
      · exact fun c hc => shallow_of_descentEndsWithin hnext c
          (List.mem_eraseDups.mpr (List.mem_flatMap.mpr ⟨n, hn, hc⟩))

/-- Below a `Ringless` node every way down is bounded by the number of
identities, if only live nodes are led to. -/
theorem shallow_of_ringless
    (hclosed : ∀ {p c}, c ∈ below p → f.isAlive c = true)
    (hn : f.isAlive n = true) (hringless : Ringless below n) :
    Shallow below f.size n :=
  shallow_of_away hclosed f.size n [] hn hringless .nil nofun
    (Nat.zero_add _)

/-- Walking down level by level finds out whether a ring is below `n`. -/
theorem descentEndsWithin_iff
    (hclosed : ∀ {p c}, c ∈ below p → f.isAlive c = true)
    (hn : f.isAlive n = true) :
    descentEndsWithin below f.size [n] = true ↔ Ringless below n := by
  constructor
  · exact fun hends => ringless_of_shallow
      (shallow_of_descentEndsWithin hends n (.head _))
  · exact fun h => descentEndsWithin_of_shallow fun m hm =>
      List.mem_singleton.mp hm ▸ shallow_of_ringless hclosed hn h

end

/-- No ring of slots can be reached from `n`. -/
def Acyclic (f : Forest) (n : NodeId) : Prop := Ringless f.children n

/-- `p` asks `c` for its flags when it is asked itself. -/
abbrev Asks (f : Forest) (p c : NodeId) : Prop := c ∈ f.asks p

theorem asks_eq_nil (hsome : (f.node n).cached ≠ none) : f.asks n = [] :=
  if_pos (Option.isSome_iff_ne_none.mpr hsome)

theorem asks_eq_children (hnone : (f.node n).cached = none) :
    f.asks n = f.children n := by
  rw [asks, hnone]
  rfl

theorem asks_of_mem_children (hnone : (f.node n).cached = none)
    (hm : m ∈ f.children n) : f.Asks n m := by
  rwa [Asks, asks_eq_children hnone]

theorem asks_subset_children : f.asks n ⊆ f.children n := by
  unfold asks
  split
  · exact List.nil_subset _
  · exact List.Subset.refl _

theorem Closed.asks (hclosed : f.Closed) {p c : NodeId}
    (hc : c ∈ f.asks p) : f.isAlive c = true :=
  hclosed (asks_subset_children hc)

/-- A node that is `Acyclic` is `Ringless` for the questions as well: only
children are asked. -/
theorem Acyclic.asks (hacyclic : f.Acyclic n) : Ringless f.asks n :=
  Ringless.mono (fun _ => asks_subset_children) hacyclic

theorem shallow_of_acyclic (hclosed : f.Closed) (hn : f.isAlive n = true)
    (hacyclic : f.Acyclic n) : Shallow f.children f.size n :=
  shallow_of_ringless hclosed hn hacyclic

/-- The walk along the slots tells exactly whether a ring is below `n`. -/
theorem isAcyclicBelow_iff (hclosed : f.Closed)
    (hn : f.isAlive n = true) : f.isAcyclicBelow n = true ↔ f.Acyclic n :=
  descentEndsWithin_iff hclosed hn

/-- `flagsEnd` answers `true` exactly for the nodes that are `Ringless` for
questions. -/
theorem flagsEnd_iff (hclosed : f.Closed) (hn : f.isAlive n = true) :
    f.flagsEnd n = true ↔ Ringless f.asks n :=
  descentEndsWithin_iff hclosed.asks hn

/-- Asking for flags has no answer exactly where it comes to a ring of nodes
that remember nothing, through nodes that remember nothing. -/
theorem flags?_eq_none_iff (hclosed : f.Closed)
    (hn : f.isAlive n = true) :
    f.flags? n = none ↔ ∃ m, Relation.ReflTransGen f.Asks n m
      ∧ Relation.TransGen f.Asks m m := by
  have hends : f.flags? n = none ↔ ¬ Ringless f.asks n := by
    rw [← flagsEnd_iff hclosed hn, flags?]
    split <;> simp_all
  rw [hends, Ringless]
  push Not
  rfl

-- ================================================================= asked

/-- From `f` to `g` more nodes have cached flags and nothing else changed; who
was `Trusted` or `Informed` still is. -/
structure Asked (f g : Forest) : Prop where
  alike : Alike f g
  kept : ∀ {n flags}, (f.node n).cached = some flags →
    (g.node n).cached = some flags
  trusted : ∀ {n}, f.Trusted n → g.Trusted n
  informed : ∀ {n}, f.Informed n → g.Informed n

namespace Asked

theorem refl (f : Forest) : Asked f f :=
  ⟨.refl f, fun hsome => hsome, fun htrust => htrust, fun h => h⟩

theorem trans (hfg : Asked f g) (hgh : Asked g h) : Asked f h :=
  ⟨hfg.alike.trans hgh.alike, fun hsome => hgh.kept (hfg.kept hsome),
    fun htrust => hgh.trusted (hfg.trusted htrust),
    fun hinformed => hgh.informed (hfg.informed hinformed)⟩

/-- A node with cached flags keeps them. -/
theorem cached_eq (hfg : Asked f g) (hsome : (f.node n).cached ≠ none) :
    (g.node n).cached = (f.node n).cached := by
  obtain ⟨flags, hflags⟩ := Option.ne_none_iff_exists'.mp hsome
  rw [hflags, hfg.kept hflags]

theorem told_eq (hfg : Asked f g) (hsome : (f.node n).cached ≠ none) :
    g.told n = f.told n := by
  rw [told, told, hfg.cached_eq hsome]

/-- The nodes that `n` asks in `g` are among those it asks in `f`. -/
theorem asks_subset (hfg : Asked f g) (n : NodeId) :
    g.asks n ⊆ f.asks n := by
  by_cases hcached : (f.node n).cached = none
  · rw [asks_eq_children hcached, ← hfg.alike.children]
    exact asks_subset_children
  · rw [asks_eq_nil (hfg.cached_eq hcached ▸ hcached)]
    exact List.nil_subset _

/-- Whoever is reached by questions in `g` is reached by them in `f`. -/
theorem reach_of_asks (hfg : Asked f g)
    (hreach : Relation.ReflTransGen g.Asks n m) :
    Relation.ReflTransGen f.Asks n m :=
  Relation.ReflTransGen.mono (fun p _ hc => hfg.asks_subset p hc) _ _ hreach

end Asked

/-- `g` is `f` with the `summary` of `n` cached, where `n` had no cached flags
and all its children had. -/
structure Summed (n : NodeId) (f g : Forest) : Prop where
  alike : Alike f g
  uncached : (f.node n).cached = none
  below : ∀ c ∈ f.children n, (f.node c).cached ≠ none
  self : (g.node n).cached = some (f.summary n)
  other : ∀ {c}, c ≠ n → g.node c = f.node c

namespace Summed

variable (hfg : Summed n f g)
include hfg

/-- A node with cached flags keeps them: it is not `n`. -/
theorem cached_eq (hsome : (f.node m).cached ≠ none) :
    (g.node m).cached = (f.node m).cached := by
  rw [hfg.other]
  rintro rfl
  exact hsome hfg.uncached

theorem summary_eq (hbelow : ∀ c ∈ f.children m, (f.node c).cached ≠ none) :
    g.summary m = f.summary m :=
  summary_congr (hfg.alike.opcode m) (hfg.alike.children m)
    fun c hc => hfg.cached_eq (hbelow c hc)

/-- `n` itself is informed now. -/
theorem informed_self : g.Informed n where
  below {flags c} _ hc := by
    rw [hfg.alike.children] at hc
    rw [hfg.cached_eq (hfg.below c hc)]
    exact hfg.below c hc
  sums {flags} hsome := by
    rw [hfg.summary_eq hfg.below]
    exact Option.some.inj (hsome.symm.trans hfg.self)

/-- A node that was informed still is. -/
theorem informed (hinformed : f.Informed m) : g.Informed m := by
  by_cases hmn : m = n
  · exact hmn ▸ hfg.informed_self
  refine ⟨fun {flags c} hsome hc => ?_, fun hsome => ?_⟩
  · rw [hfg.other hmn] at hsome
    rw [hfg.alike.children] at hc
    have hremembers := hinformed.below hsome hc
    rwa [hfg.cached_eq hremembers]
  · rw [hfg.other hmn] at hsome
    rw [hfg.summary_eq fun c hc => hinformed.below hsome hc]
    exact hinformed.sums hsome

/-- A node that was trusted still is. -/
theorem trusted (htrust : f.Trusted m) : g.Trusted m := by
  by_cases hmn : m = n
  · rw [hmn]
    exact ⟨fun hsome hc _ => hfg.informed_self.below hsome hc,
      fun hsome _ => hfg.informed_self.sums hsome⟩
  refine ⟨fun {flags c} hsome hc hlink => ?_, fun hsome hall => ?_⟩
  · rw [hfg.other hmn] at hsome
    rw [hfg.alike.children] at hc
    rw [hfg.alike.link] at hlink
    have hremembers := htrust.below hsome hc hlink
    rwa [hfg.cached_eq hremembers]
  · rw [hfg.other hmn] at hsome
    have hlinked : ∀ c ∈ f.children m, (f.node c).link = some m := by
      intro c hc
      rw [← hfg.alike.link]
      exact hall c ((hfg.alike.children m).symm ▸ hc)
    rw [hfg.summary_eq fun c hc => htrust.below hsome hc (hlinked c hc)]
    exact htrust.sums hsome hlinked

theorem asked : Asked f g where
  alike := hfg.alike
  kept hsome := by
    rw [hfg.cached_eq, hsome]
    rw [hsome]
    exact nofun
  trusted := hfg.trusted
  informed := hfg.informed

end Summed

/-- A node without cached flags may cache its `summary`, if all its children
have cached flags. -/
theorem asked_remember (hn : f.isAlive n = true)
    (hnone : (f.node n).cached = none)
    (hbelow : ∀ c ∈ f.children n, (f.node c).cached ≠ none) :
    Asked f (f.update n fun x => { x with cached := some (f.summary n) }) :=
  have hsummed : Summed n f
      (f.update n fun x => { x with cached := some (f.summary n) }) :=
    { alike := alike_update n (fun _ => rfl) fun _ => Nat.le_refl _
      uncached := hnone
      below := hbelow
      self := by rw [node_update_self f hn]
      other := fun hc => f.node_update_ne hc }
  hsummed.asked

-- =============================================================== answers

/-- Asking `n` answered, and only `n` and whom it asked, directly or not,
remember more than before. -/
structure Answered (f : Forest) (n : NodeId) (out : Flags × Forest) :
    Prop where
  asked : Asked f out.2
  cached : (out.2.node n).cached = some out.1
  quiet : ∀ {m}, (f.node m).cached = none →
    ¬ Relation.ReflTransGen f.Asks n m → (out.2.node m).cached = none

/-- Asking all of `ns` added up to what they remember now. -/
structure Added (f : Forest) (ns : List NodeId) (flags : Flags)
    (out : Flags × Forest) : Prop where
  asked : Asked f out.2
  cached : ∀ c ∈ ns, (out.2.node c).cached ≠ none
  sum : out.1
    = ns.foldl (fun acc c => acc ∪ (out.2.told c).propagated) flags
  quiet : ∀ {m}, (f.node m).cached = none →
    (∀ c ∈ ns, ¬ Relation.ReflTransGen f.Asks c m) →
    (out.2.node m).cached = none

theorem Closed.alike (hclosed : f.Closed) (hfg : Alike f g) : g.Closed := by
  intro p c hc
  rw [hfg.children] at hc
  rw [hfg.alive]
  exact hclosed hc

theorem holds_alike (hfg : Alike f g) : g.Holds = f.Holds := by
  funext p c
  unfold Holds
  rw [hfg.children]

/-- If asking each node is `Answered`, then asking `ns` in turn is `Added`. -/
theorem added_inherit
    (hask : ∀ (n : NodeId) (f : Forest), f.Closed → f.isAlive n = true →
      Shallow f.asks height n → Answered f n (flagsWithin height n f)) :
    ∀ (ns : List NodeId) (flags : Flags) (f : Forest), f.Closed →
      (∀ c ∈ ns, f.isAlive c = true ∧ Shallow f.asks height c) →
      Added f ns flags
        (ns.foldl (inherit (flagsWithin height)) (flags, f)) := by
  intro ns
  induction ns with
  | nil =>
      exact fun flags f _ _ => ⟨.refl f, fun c hc => (by cases hc), rfl,
        fun hnone _ => hnone⟩
  | cons n rest ih =>
      intro flags f hclosed hns
      have hn := hns n (.head _)
      have hfirst := hask n f hclosed hn.1 hn.2
      have hfg := hfirst.asked.alike
      have hrest := ih (flags ∪ (flagsWithin height n f).1.propagated)
        (flagsWithin height n f).2 (hclosed.alike hfg) fun c hc =>
          ⟨(hfg.alive c).trans (hns c (.tail _ hc)).1,
            (hns c (.tail _ hc)).2.mono hfirst.asked.asks_subset⟩
      rw [List.foldl_cons]
      have hstep : inherit (flagsWithin height) (flags, f) n
          = (flags ∪ (flagsWithin height n f).1.propagated,
            (flagsWithin height n f).2) := rfl
      rw [hstep]
      have hcached := hrest.asked.kept hfirst.cached
      refine ⟨hfirst.asked.trans hrest.asked, fun c hc => ?_, ?_,
        fun {m} hnone hnot => ?_⟩
      · rcases List.mem_cons.mp hc with rfl | hc
        · rw [hcached]
          exact nofun
        · exact hrest.cached c hc
      · rw [hrest.sum, List.foldl_cons]
        congr 3
        rw [told, hcached]
        rfl
      · refine hrest.quiet (hfirst.quiet hnone (hnot n (.head _)))
          fun c hc hreach => ?_
        exact hnot c (.tail _ hc) (hfirst.asked.reach_of_asks hreach)

/-- Caching what was `Added` answers the node. -/
theorem Added.answered {g k : Forest}
    (hn : f.isAlive n = true) (hshallow : Shallow f.asks (height + 1) n)
    (hnone : (f.node n).cached = none) {flags : Flags}
    (hadded : Added f (f.children n) (f.node n).opcode.directFlags
      (flags, g))
    (hgk : Asked g k)
    (hquiet : ∀ {m}, (g.node m).cached = none →
      ¬ Relation.ReflTransGen f.Asks n m → (k.node m).cached = none)
    (hself : (g.node n).cached = none → (k.node n).cached = none) :
    Answered f n (k.summary n,
      k.update n fun x => { x with cached := some (k.summary n) }) := by
  have hfk := hadded.asked.trans hgk
  have hnk : k.isAlive n = true := (hfk.alike.alive n).trans hn
  have hasks : ∀ {c}, c ∈ f.children n → f.Asks n c :=
    fun hc => asks_of_mem_children hnone hc
  -- nobody whom `n` asks asks `n`
  have hring : ∀ c ∈ f.children n, ¬ Relation.ReflTransGen f.Asks c n :=
    fun c hc hback =>
      hshallow.acyclic (Relation.TransGen.head' (hasks hc) hback)
  have hremember := asked_remember hnk
    (hself (hadded.quiet hnone hring)) fun c hc => by
      rw [hfk.alike.children] at hc
      rw [hgk.cached_eq (hadded.cached c hc)]
      exact hadded.cached c hc
  refine ⟨hfk.trans hremember, ?_, fun {m} hm hnot => ?_⟩
  · rw [node_update_self k hnk]
  · have hmn : m ≠ n := fun h => hnot (h ▸ .refl)
    rw [node_update_ne k hmn]
    refine hquiet (hadded.quiet hm fun c hc hreach => ?_) hnot
    exact hnot (.head (hasks hc) hreach)

section

variable {g k : Forest} {last : NodeId} {flags tail : Flags}

/-- The `summary` of a node is what was `Added`, in a block with the flags of
the last child joined to it. -/
theorem Added.summary_eq (hadded :
    Added f (f.children n) (f.node n).opcode.directFlags (flags, g)) :
    g.summary n
      = (if (f.node n).opcode = .block then (f.children n).getLast?
          else none).elim flags
        fun last => flags ∪ (g.told last ∩ .endPointUnreachable) := by
  have hchildren : (g.node n).children = f.children n :=
    hadded.asked.alike.children n
  unfold summary
  dsimp only
  rw [hadded.asked.alike.opcode, hchildren, ← hadded.sum]
  cases if (f.node n).opcode = .block then (f.children n).getLast? else none
    with
  | none => rfl
  | some last => rfl

/-- Asking the last child once more, after what was `Added`, answers the
block. -/
theorem Added.answered_last (hn : f.isAlive n = true)
    (hshallow : Shallow f.asks (height + 1) n)
    (hnone : (f.node n).cached = none)
    (hadded : Added f (f.children n) (f.node n).opcode.directFlags (flags, g))
    (hlast : (if (f.node n).opcode = .block then (f.children n).getLast?
      else none) = some last)
    (hmem : last ∈ f.children n) (htail : Answered g last (tail, k)) :
    Answered f n (flags ∪ (tail ∩ .endPointUnreachable),
      k.update n fun x => { x with
        cached := some (flags ∪ (tail ∩ .endPointUnreachable)) }) := by
  have hgk := htail.asked
  have htold : g.told last = tail := by
    rw [← hgk.told_eq (hadded.cached last hmem), told, htail.cached]
    rfl
  have hsame : k.summary n = flags ∪ (tail ∩ .endPointUnreachable) := by
    rw [summary_congr (hgk.alike.opcode n) (hgk.alike.children n)
      fun c hc => hgk.cached_eq ?_, hadded.summary_eq, hlast]
    · rw [Option.elim_some, htold]
    · rw [hadded.asked.alike.children] at hc
      exact hadded.cached c hc
  -- whom the last child asks is below `n`
  have hbelow : ∀ {m}, Relation.ReflTransGen g.Asks last m →
      Relation.TransGen f.Asks n m := fun hreach =>
    Relation.TransGen.head' (asks_of_mem_children hnone hmem)
      (hadded.asked.reach_of_asks hreach)
  rw [← hsame]
  exact hadded.answered hn hshallow hnone hgk
    (fun hm hnot => htail.quiet hm fun hreach =>
      hnot (hbelow hreach).to_reflTransGen)
    fun hm => htail.quiet hm fun hreach => hshallow.acyclic (hbelow hreach)

end

/-- `flagsWithin` a height that bounds the questions is `Answered`: it caches
the flags it returns. -/
theorem answered_flagsWithin :
    ∀ (height : Nat) (n : NodeId) (f : Forest), f.Closed →
      f.isAlive n = true → Shallow f.asks height n →
      Answered f n (flagsWithin height n f) := by
  intro height
  induction height with
  | zero => exact fun _ _ _ _ h => h.elim
  | succ height ih =>
      intro n f hclosed hn hshallow
      unfold flagsWithin
      dsimp only
      split
      next flags hflags =>
        exact ⟨.refl f, hflags, fun hnone _ => hnone⟩
      next hnone =>
        have hasks : ∀ {c}, c ∈ f.children n → f.Asks n c :=
          fun hc => asks_of_mem_children hnone hc
        have hadded := added_inherit ih (f.children n)
          (f.node n).opcode.directFlags f hclosed
          fun c hc => ⟨hclosed hc, hshallow c (hasks hc)⟩
        have hkids : f.children n = (f.node n).children := rfl
        rw [← hkids]
        generalize (f.children n).foldl (inherit (flagsWithin height))
          ((f.node n).opcode.directFlags, f) = out at hadded ⊢
        obtain ⟨flags, g⟩ := out
        dsimp only
        split
        next hlast =>
          have hsummary : g.summary n = flags := by
            rw [hadded.summary_eq, hlast, Option.elim_none]
          rw [← hsummary]
          exact hadded.answered hn hshallow hnone (.refl g)
            (fun h _ => h) fun h => h
        next last hlast =>
          have hmem : last ∈ f.children n := by
            split at hlast
            · exact List.mem_of_getLast? hlast
            · cases hlast
          have hfg := hadded.asked.alike
          exact hadded.answered_last hn hshallow hnone hlast hmem
            (ih last g (hclosed.alike hfg)
              ((hfg.alive last).trans (hclosed hmem))
              ((hshallow last (hasks hmem)).mono hadded.asked.asks_subset))

-- =============================================================== results

/-- `flags?` of a node that is `Ringless` for questions returns flags that are
`Answered`. -/
theorem answered_flags (hclosed : f.Closed) (hn : f.isAlive n = true)
    (hringless : Ringless f.asks n) :
    ∃ flags g, f.flags? n = some (flags, g)
      ∧ Answered f n (flags, g) :=
  ⟨_, _, if_pos ((flagsEnd_iff hclosed hn).mpr hringless),
    answered_flagsWithin f.size n f hclosed hn
      (shallow_of_ringless hclosed.asks hn hringless)⟩

/-- `flags?`, whether it returns flags or none, leads to a forest that is
`Asked`. -/
theorem asked_flags (hclosed : f.Closed) (hn : f.isAlive n = true) :
    Asked f (((f.flags? n).map Prod.snd).getD f) := by
  unfold flags? flagsEnd
  split
  case isTrue hends =>
    exact (answered_flagsWithin f.size n f hclosed hn
      (shallow_of_descentEndsWithin hends n (.head _))).asked
  case isFalse => exact .refl f

end InstructionTree.Forest
