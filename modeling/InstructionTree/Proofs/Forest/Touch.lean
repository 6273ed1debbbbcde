/-
The small steps that an edit of an owner consists of.

Whatever an edit of `o` does, and wherever it stops, it only places nodes,
stores live nodes in slots of `o`, lets nodes enter and leave those slots,
and frees loose nodes (`Touch`). So what a small step keeps, every edit
keeps (`Touches.sound`), and what no small step looks at stays as it was
(`Touches.field`).

# How an edit ends

An edit that works may stop on the attach check, and then nothing follows
(`Tried`). An edit as a whole did nothing, or was refused and reported
this, or worked and committed `o` before it let go of the last nodes, or
broke off on the attach check (`Carried`).
-/
import InstructionTree.Proofs.Forest.Sound

namespace InstructionTree

-- =========================================================== successes

namespace Outcome

variable {σ α β : Type} {out : Outcome σ α} {s : σ}

@[simp] theorem state_map (out : Outcome σ α) (k : α → β) :
    (out.map k).state = out.state := by
  cases out <;> rfl

@[simp] theorem state_always (out : Outcome σ α) (k : σ → σ) :
    (out.always k).state = k out.state := by
  cases out <;> rfl

/-- If `out.next k` succeeded, `out` did, and `k` was applied to its state. -/
theorem next_eq_ok {k : σ → σ} {a : α} (h : out.next k = .ok a s) :
    ∃ t, out = .ok a t ∧ s = k t := by
  cases out with
  | ok b t =>
      cases h
      exact ⟨t, rfl, rfl⟩
  | stop why t => cases h

theorem always_eq_ok {k : σ → σ} {a : α} (h : out.always k = .ok a s) :
    ∃ t, out = .ok a t ∧ s = k t := by
  cases out with
  | ok b t =>
      cases h
      exact ⟨t, rfl, rfl⟩
  | stop why t => cases h

theorem always_eq_stop {k : σ → σ} {why : Stop}
    (h : out.always k = .stop why s) : ∃ t, out = .stop why t ∧ s = k t := by
  cases out with
  | ok a t => cases h
  | stop cause t =>
      cases h
      exact ⟨t, rfl, rfl⟩

theorem map_eq_ok {k : α → β} {b : β} (h : out.map k = .ok b s) :
    ∃ a, out = .ok a s ∧ b = k a := by
  cases out with
  | ok a t =>
      cases h
      exact ⟨a, rfl, rfl⟩
  | stop why t => cases h

/-- If `out.map k` stopped, `out` stopped alike. -/
theorem map_eq_stop {k : α → β} {why : Stop}
    (h : out.map k = .stop why s) : out = .stop why s := by
  cases out with
  | ok a t => cases h
  | stop why t =>
      cases h
      rfl

end Outcome

namespace Forest

variable {checks : Checks} {o : NodeId} {f g h : Forest}

/-- If `guarded` succeeded, the guard was down and the body succeeded. -/
theorem guarded_eq_ok {α : Type} {body : Edit α} {a : α}
    (h : guarded checks o body f = .ok a g) :
    f.isGuarded checks o = false ∧ body f = .ok a g := by
  unfold guarded at h
  split at h
  · cases h
  case isFalse hopen => exact ⟨by simpa using hopen, h⟩

/-- If `attach` succeeded, `breaksTree` found nobody and the node entered. -/
theorem attach_eq_ok {c : NodeId} {a : Unit}
    (h : attach checks o c f = .ok a g) :
    f.breaksTree checks o c = false ∧ g = f.enter o c := by
  unfold attach at h
  split at h
  · cases h
  case isFalse hbelow =>
    cases h
    exact ⟨by simpa using hbelow, rfl⟩

/-- Where `breaksTree` finds nobody, `attach` succeeds. -/
theorem attach_of_opens {c : NodeId}
    (hopens : f.breaksTree checks o c = false) :
    attach checks o c f = .ok () (f.enter o c) := by
  rw [attach, hopens]
  rfl

/-- `attach` that succeeded freed nobody. -/
theorem isAlive_attach {c : NodeId} {a : Unit}
    (h : attach checks o c f = .ok a g) (n : NodeId) :
    g.isAlive n = f.isAlive n := by
  rw [(attach_eq_ok h).2, isAlive_enter]

-- ========================================================= small steps

/-- One small step of an edit of `o`. -/
inductive Touch (checks : Checks) (o : NodeId) (f : Forest) :
    Forest → Prop where
  | place (n : NodeId) (k : Nat) : Touch checks o f (f.setPosition n k)
  | store (i : Nat) (items : List NodeId)
      (hlive : ∀ c ∈ items, f.isAlive c = true)
      (hfit : ∀ s, (f.node o).opcode.slot? i = some s →
        s.isCollection = false → items.length ≤ 1) :
      Touch checks o f (f.setSlot o i items)
  | enter (c : NodeId) (ho : f.isAlive o = true) (hc : f.isAlive c = true)
      (hbelow : f.breaksTree checks o c = false) :
      Touch checks o f (f.enter o c)
  | leave (c : NodeId) : Touch checks o f (f.detach o c)
  | free (n : NodeId) (hloose : f.isLoose n = true) :
      Touch checks o f (f.erase n)

/-- Small steps of an edit of `o`, one after the other. -/
abbrev Touches (checks : Checks) (o : NodeId) : Forest → Forest → Prop :=
  Relation.ReflTransGen (Touch checks o)

/-- `Sheds` is `Touches` of any owner. -/
theorem Sheds.touches (hfg : Sheds f g) : Touches checks o f g := by
  induction hfg with
  | refl => exact .refl
  | free n _ hloose ih => exact ih.tail (.free n hloose)

namespace Touch

variable {locks : List NodeId}

theorem size_eq (hfg : Touch checks o f g) : g.size = f.size := by
  cases hfg with
  | place n k => exact size_setPosition ..
  | store i items => exact size_setSlot ..
  | enter c => exact size_enter ..
  | leave c => exact size_detach ..
  | free n => exact size_erase ..

/-- A `Touch` reports nothing. -/
theorem events_eq (hfg : Touch checks o f g) : g.events = f.events := by
  cases hfg with
  | place | store | enter | leave => exact f.events_update ..
  | free n => rfl

/-- A node that is alive after a `Touch` was alive before. -/
theorem survivor (hfg : Touch checks o f g) {n : NodeId}
    (halive : g.isAlive n = true) : f.isAlive n = true := by
  cases hfg with
  | place m k => rwa [isAlive_setPosition] at halive
  | store i items => rwa [isAlive_setSlot] at halive
  | enter c => rwa [isAlive_enter] at halive
  | leave c => rwa [isAlive_detach] at halive
  | free m hloose =>
      rw [isAlive_erase] at halive
      split at halive
      · cases halive
      · exact halive

/-- A small step shows only to a view that looks at slots, places and
counts of slots. -/
theorem field {α : Type _} {F : Node → α}
    (hF : ∀ x s l k r, F { x with
      slots := s, link := l, position := k, slotRefs := r } = F x)
    (hfg : Touch checks o f g) {n : NodeId} (halive : g.isAlive n = true) :
    F (g.node n) = F (f.node n) := by
  cases hfg with
  | place m k =>
      exact f.field_setPosition (fun x k => hF x x.slots x.link k x.slotRefs)
        m k n
  | store i items =>
      exact f.field_setSlot
        (fun x s => hF x s x.link x.position x.slotRefs) o i items n
  | enter c =>
      exact f.field_enter
        (fun x l r => hF x x.slots l x.position r) o c n
  | leave c =>
      exact f.field_detach
        (fun x l r => hF x x.slots l x.position r) o c n
  | free m hloose =>
      rw [(Sheds.free m .refl hloose).node_eq halive]

/-- A `Touch` of `o` keeps the slots of every other node that lives on. -/
theorem slots_ne (hfg : Touch checks o f g) {n : NodeId}
    (halive : g.isAlive n = true) (hne : n ≠ o) :
    (g.node n).slots = (f.node n).slots := by
  cases hfg with
  | place m k => exact slots_setPosition ..
  | store i items => exact slots_setSlot_ne f i items hne
  | enter c => exact slots_enter ..
  | leave c => exact slots_detach ..
  | free m hloose => rw [(Sheds.free m .refl hloose).node_eq halive]

/-- A `Touch` keeps a forest sound. -/
theorem sound (hfg : Touch checks o f g) (hs : f.Sound checks locks) :
    g.Sound checks locks := by
  cases hfg with
  | place n k => exact hs.setPosition n k
  | store i items hlive hfit => exact hs.setSlot o i hlive hfit
  | enter c ho hc hbelow => exact hs.enter ho hbelow
  | leave c => exact hs.detach o c
  | free n hloose => exact hs.sheds (.free n .refl hloose)

end Touch

-- ======================================================= several steps

namespace Touches

variable {locks : List NodeId}

theorem size_eq (hfg : Touches checks o f g) : g.size = f.size := by
  induction hfg with
  | refl => rfl
  | tail _ hstep ih => rw [hstep.size_eq, ih]

theorem events_eq (hfg : Touches checks o f g) : g.events = f.events := by
  induction hfg with
  | refl => rfl
  | tail _ hstep ih => rw [hstep.events_eq, ih]

theorem survivor (hfg : Touches checks o f g) {n : NodeId}
    (halive : g.isAlive n = true) : f.isAlive n = true := by
  induction hfg with
  | refl => exact halive
  | tail _ hstep ih => exact ih (hstep.survivor halive)

/-- `Touches` keep every field of a node that lives on but slots, link,
position and `slotRefs`. -/
theorem field {α : Type _} {F : Node → α}
    (hF : ∀ x s l k r, F { x with
      slots := s, link := l, position := k, slotRefs := r } = F x)
    (hfg : Touches checks o f g) {n : NodeId}
    (halive : g.isAlive n = true) : F (g.node n) = F (f.node n) := by
  induction hfg with
  | refl => rfl
  | tail _ hstep ih =>
      rw [hstep.field hF halive, ih (hstep.survivor halive)]

theorem opcode_eq (hfg : Touches checks o f g) {n : NodeId}
    (halive : g.isAlive n = true) :
    (g.node n).opcode = (f.node n).opcode :=
  hfg.field (F := Node.opcode) (fun _ _ _ _ _ => rfl) halive

/-- `Touches` of `o` keep the slots of every other node that lives on. -/
theorem slots_ne (hfg : Touches checks o f g) {n : NodeId}
    (halive : g.isAlive n = true) (hne : n ≠ o) :
    (g.node n).slots = (f.node n).slots := by
  induction hfg with
  | refl => rfl
  | tail _ hstep ih =>
      rw [hstep.slots_ne halive hne, ih (hstep.survivor halive)]

/-- `Touches` keep a forest sound. -/
theorem sound (hfg : Touches checks o f g) (hs : f.Sound checks locks) :
    g.Sound checks locks := by
  induction hfg with
  | refl => exact hs
  | tail _ hstep ih => exact hstep.sound ih

end Touches

-- ================================================================ ages

/-- `g` is a later state of `f`: identities are used once, and the opcode
of a node never changes. -/
structure Ages (f g : Forest) : Prop where
  size : f.size ≤ g.size
  alive : ∀ {n : NodeId}, n.index < f.size → g.isAlive n = true →
    f.isAlive n = true
  opcode : ∀ {n : NodeId}, n.index < f.size → g.isAlive n = true →
    (g.node n).opcode = (f.node n).opcode

namespace Ages

theorem refl (f : Forest) : Ages f f :=
  ⟨Nat.le_refl _, fun _ h => h, fun _ _ => rfl⟩

theorem trans (hfg : Ages f g) (hgh : Ages g h) : Ages f h := by
  refine ⟨Nat.le_trans hfg.size hgh.size, fun hn halive => ?_,
    fun hn halive => ?_⟩
  · exact hfg.alive hn (hgh.alive (Nat.lt_of_lt_of_le hn hfg.size) halive)
  · have hn' := Nat.lt_of_lt_of_le hn hfg.size
    exact (hgh.opcode hn' halive).trans
      (hfg.opcode hn (hgh.alive hn' halive))

end Ages

/-- `Touches` use no identity twice, and change no opcode. -/
theorem Touches.ages (hfg : Touches checks o f g) : Ages f g :=
  ⟨Nat.le_of_eq hfg.size_eq.symm, fun _ h => hfg.survivor h,
    fun _ h => hfg.opcode_eq h⟩

theorem Alike.ages (hfg : Alike f g) : Ages f g :=
  ⟨Nat.le_of_eq hfg.size.symm, fun _ h => by rwa [hfg.alive] at h,
    fun _ _ => hfg.opcode _⟩

/-- `Sheds` uses no identity twice, and changes no opcode. -/
theorem Sheds.ages (hfg : Sheds f g) : Ages f g :=
  ⟨Nat.le_of_eq hfg.size_eq.symm, fun _ h => hfg.survivor h,
    fun _ h => by rw [hfg.node_eq h]⟩

/-- `update` that keeps the opcode uses no identity twice. -/
theorem ages_update {k : Node → Node} (m : NodeId)
    (hop : ∀ x, (k x).opcode = x.opcode) : Ages f (f.update m k) := by
  refine ⟨Nat.le_of_eq (size_update ..).symm, fun _ h => ?_, fun _ _ => ?_⟩
  · rwa [isAlive_update] at h
  · exact f.field_update (F := Node.opcode) hop m _

theorem ages_release (f : Forest) (n : NodeId) : Ages f (f.release n) := by
  refine Ages.trans (ages_update n ?_) (sheds_reap _ n).ages
  exact fun _ => rfl

/-- `alloc` uses no identity twice, and changes no opcode. -/
theorem ages_alloc (f : Forest) (x : Node) : Ages f (f.alloc x).2 := by
  have hne : ∀ {n : NodeId}, n.index < f.size → n ≠ (f.alloc x).1 := by
    rintro n hn rfl
    exact Nat.lt_irrefl _ hn
  refine ⟨?_, fun hn h => ?_, fun hn _ => ?_⟩
  · rw [size_alloc]
    exact Nat.le_succ _
  · rwa [isAlive_alloc, if_neg (hne hn)] at h
  · rw [node_alloc, if_neg (hne hn)]

-- ==================================================== how an edit ends

/-- A program that worked on `o`, and may have stopped on the check of an
attach. -/
inductive Tried (checks : Checks) (o : NodeId) (f : Forest) {α : Type} :
    Outcome Forest α → Prop where
  | ok (a : α) {g : Forest} (hfg : Touches checks o f g) :
      Tried checks o f (.ok a g)
  | stop (op : Opcode) {g : Forest} (hfg : Touches checks o f g) :
      Tried checks o f (.stop (.panic (.notATree op)) g)

/-- A whole edit of `o`. -/
inductive Carried (checks : Checks) (o : NodeId) (f : Forest) {α : Type} :
    Outcome Forest α → Prop where
  /-- There was nothing to do. -/
  | idle (a : α) : Carried checks o f (.ok a f)
  /-- The request was wrong. -/
  | refused (e : Fault) : Carried checks o f (.stop (.fault e) f)
  /-- A traversal forbids the edit. -/
  | guarded (e : Fault) (ev : Event) :
      Carried checks o f (.stop (.fault e) (f.emit ev))
  /-- The edit was done. -/
  | done (a : α) {g h : Forest} (hfg : Touches checks o f g)
      (hgh : Sheds (g.commit o) h) : Carried checks o f (.ok a h)
  /-- The edit broke off on the check of an attach. -/
  | broken (op : Opcode) {g : Forest} (hfg : Touches checks o f g) :
      Carried checks o f (.stop (.panic (.notATree op)) g)

/-- `attach` of a live node to a live owner is `Tried`. -/
theorem tried_attach {c : NodeId} (ho : f.isAlive o = true)
    (hc : f.isAlive c = true) :
    Tried checks o f (attach checks o c f) := by
  unfold attach
  split
  case isTrue => exact .stop _ .refl
  case isFalse hbelow =>
      exact .ok _ (.single (.enter c ho hc (by simpa using hbelow)))

namespace Tried

variable {α : Type} {out : Outcome Forest α}

/-- What is `Tried` after `Touches` is `Tried` from their start. -/
theorem after (hgout : Tried checks o g out)
    (hfg : Touches checks o f g) : Tried checks o f out := by
  cases hgout with
  | ok a hgh => exact .ok a (hfg.trans hgh)
  | stop op hgh => exact .stop op (hfg.trans hgh)

/-- `Touches` where a program did not stop leave it `Tried`. -/
theorem next (hfout : Tried checks o f out) {k : Forest → Forest}
    (hk : ∀ {a g}, out = .ok a g → Touches checks o g (k g)) :
    Tried checks o f (out.next k) := by
  cases hfout with
  | ok a hfg => exact .ok a (hfg.trans (hk rfl))
  | stop op hfg => exact .stop op hfg

/-- `Touches` after a program, stopped or not, leave it `Tried`. -/
theorem always (hfout : Tried checks o f out) {k : Forest → Forest}
    (hk : ∀ g, Touches checks o g (k g)) :
    Tried checks o f (out.always k) := by
  cases hfout with
  | ok a hfg => exact .ok a (hfg.trans (hk _))
  | stop op hfg => exact .stop op (hfg.trans (hk _))

/-- What was `Tried`, and then committed, is `Carried` out. -/
theorem commit (hfout : Tried checks o f out) :
    Carried checks o f (out.next fun g => g.commit o) := by
  cases hfout with
  | ok a hfg => exact .done a hfg .refl
  | stop op hfg => exact .broken op hfg

/-- Whether it was stopped or not, it worked on `o` only. -/
theorem touches (hfout : Tried checks o f out) :
    Touches checks o f out.state := by
  cases hfout with
  | ok a hfg => exact hfg
  | stop op hfg => exact hfg

theorem sound {locks : List NodeId} (hfout : Tried checks o f out)
    (hs : f.Sound checks locks) : out.state.Sound checks locks :=
  hfout.touches.sound hs

end Tried

namespace Carried

variable {α β : Type} {out : Outcome Forest α}

theorem map (hfout : Carried checks o f out) (k : α → β) :
    Carried checks o f (out.map k) := by
  cases hfout with
  | idle a => exact .idle (k a)
  | refused e => exact .refused e
  | guarded e ev => exact .guarded e ev
  | done a hfg hgh => exact .done (k a) hfg hgh
  | broken op hfg => exact .broken op hfg

/-- What is `Carried` out is so behind the guard. -/
theorem behindGuard {body : Edit α} (hbody : Carried checks o f (body f)) :
    Carried checks o f (Forest.guarded checks o body f) := by
  unfold Forest.guarded
  split
  · exact .guarded _ _
  · exact hbody

/-- However an edit ended, it keeps a forest sound: what it frees at last was
let go of by a commit, and a refusal only reports. -/
theorem sound {locks : List NodeId} (hfout : Carried checks o f out)
    (hs : f.Sound checks locks) : out.state.Sound checks locks := by
  cases hfout with
  | idle a => exact hs
  | refused e => exact hs
  | guarded e ev => exact hs.alike (alike_emit ev)
  | done a hfg hgh =>
      exact ((hfg.sound hs).alike (alike_commit o)).sheds hgh
  | broken op hfg => exact hfg.sound hs

theorem sound_of_ok {locks : List NodeId} {a : α}
    (hfout : Carried checks o f out) (hs : f.Sound checks locks)
    (hout : out = .ok a g) : g.Sound checks locks := by
  have hsound := hfout.sound hs
  rwa [hout] at hsound

/-- An edit that was `Carried` out uses no identity twice and changes no
opcode, however it ended. -/
theorem ages (hfout : Carried checks o f out) : Ages f out.state := by
  cases hfout with
  | idle a => exact .refl f
  | refused e => exact .refl f
  | guarded e ev => exact (alike_emit ev).ages
  | done a hfg hgh =>
      exact hfg.ages.trans ((alike_commit o).ages.trans hgh.ages)
  | broken op hfg => exact hfg.ages

/-- An edit that ended with a fault left the forest `Alike`. -/
theorem alike_of_stop {why : Stop}
    (hout : Carried checks o f (.stop why g : Outcome Forest α))
    (hwhy : ∀ p, why ≠ .panic p) : Alike f g := by
  cases hout with
  | refused => exact .refl f
  | guarded e ev => exact alike_emit ev
  | broken op => exact absurd rfl (hwhy _)

end Carried

/-- `requireUntraversed` is `Carried` out: it does nothing, or is refused. -/
theorem carried_requireUntraversed :
    Carried checks o f (requireUntraversed checks o f) := by
  apply Carried.behindGuard
  exact .idle ()

end Forest

end InstructionTree
