/-
A filtering pass whose judge puts other nodes into the collection.

A traversal lets a single child be replaced, so a judge may do that to the
element it is asked about, and to those it was not asked about yet. The
pass knows nothing of it. It tests and renumbers the node that it asked
about, but it exchanges what is stored.

# Who is where

`Fitted` is what holds between two calls, and inside of a call. What was
not judged yet has its place: a replacement sets it. A survivor has its
place, too, if it is the node that the pass asked about. If the judge put
it there in its own call, nobody renumbered it, and its place is still the
index at which it was judged (`Survives`). Nobody is linked elsewhere:
rejecting a node drops no link of another one, and the node under
judgement is stored at its index or nowhere (`Lone`).
-/
import InstructionTree.Proofs.Collection.Compaction
import InstructionTree.Proofs.Collection.Stored
import InstructionTree.Proofs.Collection.Success

namespace InstructionTree.Collection

open Forest

variable {checks : Checks} {locks : List NodeId} {c : Collection}
  {f g h : Forest} {done calls : List Judgement} {pass last next : Pass}
  {count len k i : Nat} {stopped : Option Stop} {n x e old : NodeId}
  {j : Judgement}

-- ======================================================== one replacement

/-- A replacement that was made: the elements, the links and the places
afterwards, of the nodes that are not freed. -/
structure Replaced (c : Collection) (i : Nat) (n old : NodeId)
    (f g : Forest) : Prop where
  items : c.items g = (c.items f).set i n
  other : ∀ {e}, e ≠ n → e ≠ old → g.Spared e →
    (g.node e).link = (f.node e).link
      ∧ (g.node e).position = (f.node e).position
  entered : g.Spared n →
    (g.node n).link = some c.owner ∧ (g.node n).position = c.base + i

/-- Overwriting, entering and detaching change link and position of `n` and
`old` only. -/
theorem node_exchanged (hen : e ≠ n) (heold : e ≠ old) :
    (((((c.overwritten f i n).enter c.owner n).detach c.owner old).node
          e).link = (f.node e).link)
      ∧ (((c.overwritten f i n).enter c.owner n).detach c.owner old |>.node
          e).position = (f.node e).position := by
  have hstored : ((c.overwritten f i n).node e).link = (f.node e).link := by
    rw [overwritten, setItems, link_setSlot, place, link_setPosition]
  have hplaced : ((c.overwritten f i n).node e).position
      = (f.node e).position := by
    rw [overwritten, setItems, position_setSlot, place,
      position_setPosition_ne f _ hen]
  rw [position_detach, position_enter]
  refine ⟨?_, hplaced⟩
  rw [node_detach_ne _ heold, Forest.enter,
    node_update_ne _ hen]
  exact hstored

theorem node_exchanged_self (hn : f.isAlive n = true) (hne : n ≠ old) :
    (((((c.overwritten f i n).enter c.owner n).detach c.owner old).node
          n).link = some c.owner)
      ∧ (((c.overwritten f i n).enter c.owner n).detach c.owner old |>.node
          n).position = c.base + i := by
  have hlive : (c.overwritten f i n).isAlive n = true := by
    rw [overwritten, setItems, isAlive_setSlot, place, isAlive_setPosition]
    exact hn
  have hplaced : ((c.overwritten f i n).node n).position = c.base + i := by
    rw [overwritten, setItems, position_setSlot, place,
      position_setPosition_self f _ hn]
  rw [position_detach, position_enter]
  refine ⟨?_, hplaced⟩
  rw [node_detach_ne _ hne, Forest.enter,
    node_update_self _ hlive]

/-- `set` to another node is `Replaced`. -/
theorem replaced_set {u : Unit} (hc : c.Fits f) (hwf : f.WellFormed)
    (hn : f.isAlive n = true) (hold : (c.items f)[i]? = some old)
    (hne : n ≠ old) (hout : c.set checks i n f = .ok u g)
    (ho : g.isAlive c.owner = true) : Replaced c i n old f g := by
  have halive : (c.set checks i n f).state.isAlive c.owner = true := by
    rw [hout]
    exact ho
  have hitems := items_set hc hwf i n halive
  rw [hout] at hitems
  obtain ⟨old', hold', hset⟩ := set_eq_ok hout
  cases hold.symm.trans hold'
  obtain ⟨-, hg⟩ := hset.resolve_left fun h => hne h.1.symm
  have hcalm : Calm (((c.overwritten f i n).enter c.owner n).detach c.owner
      old) g := by
    rw [hg]
    exact (alike_commit c.owner).calm.trans (sheds_reap _ old).calm
  refine ⟨hitems, fun {e} hen heold he => ?_, fun he => ?_⟩
  · rw [hcalm.link he, hcalm.position he]
    exact node_exchanged hen heold
  · rw [hcalm.link he, hcalm.position he]
    exact node_exchanged_self hn hne

-- ======================================================== who is where

/-- The place of the survivor `e` at index `i`, which call `m` found or left
at index `m`: it leads to `e`, or to `m` if the pass did not ask about
`e`. -/
def Survives (c : Collection) (done : List Judgement) (i : Nat) (e : NodeId)
    (position : Nat) : Prop :=
  ∃ m j, done[m]? = some j ∧ j.keeps = true ∧ i = newIndex done m
    ∧ (c.items j.after)[m]? = some e
    ∧ position = c.base + if e = j.node then i else m

/-- The links and places of `len` elements after the calls `done`; nothing
is known of what was rejected. -/
structure Fitted (c : Collection) (len : Nat) (done : List Judgement)
    (g : Forest) : Prop where
  length : (c.items g).length = len
  within : done.length ≤ len
  nodup : (c.items g).Nodup
  kept : ∀ {i e}, (c.items g)[i]? = some e → i < (keptNodes done).length →
    (g.node e).link = some c.owner
      ∧ Survives c done i e (g.node e).position
  ahead : ∀ {i e}, (c.items g)[i]? = some e → done.length ≤ i →
    (g.node e).link = some c.owner ∧ (g.node e).position = c.base + i

/-- If `x` is stored, then at index `k`. -/
def Lone (c : Collection) (k : Nat) (x : NodeId) (g : Forest) : Prop :=
  ∀ i, (c.items g)[i]? = some x → i = k

theorem Judgement.rejects_of_keeps (hj : j.keeps = true) :
    j.rejects = false := by
  rw [Judgement.keeps] at hj
  rw [Judgement.rejects]
  cases hverdict : j.verdict with
  | ok answer _ =>
      rw [hverdict] at hj
      exact (Bool.not_eq_true' answer).mp hj
  | stop _ _ => rfl

/-- `Survives` after `done` is `Survives` after one more call. -/
theorem Survives.concat {position : Nat}
    (hsurvives : Survives c done i e position) :
    Survives c (done ++ [j]) i e position := by
  obtain ⟨m, j', hj', hkept, hi, hstored, hposition⟩ := hsurvives
  have hlt := (List.getElem?_eq_some_iff.mp hj').1
  exact ⟨m, j', by rw [List.getElem?_append_left hlt, hj'], hkept,
    by rw [newIndex_concat hlt, hi], hstored, hposition⟩

/-- In a list without repetitions an element has one index. -/
theorem index_unique {items : List NodeId} (hnodup : items.Nodup) {a b : Nat}
    (ha : items[a]? = some e) (hb : items[b]? = some e) : a = b := by
  obtain ⟨hlt, ha⟩ := List.getElem?_eq_some_iff.mp ha
  obtain ⟨hlt', hb⟩ := List.getElem?_eq_some_iff.mp hb
  exact (hnodup.getElem_inj_iff).mp (ha.trans hb.symm)

section

-- two elements of a list change places

variable {items : List NodeId} {a b : Nat} {first second : NodeId}

theorem getElem?_exchanged_ne (ha : i ≠ a) (hb : i ≠ b) :
    ((items.set a second).set b first)[i]? = items[i]? := by
  rw [List.getElem?_set_ne (Ne.symm hb), List.getElem?_set_ne (Ne.symm ha)]

variable (hfirst : items[a]? = some first) (hsecond : items[b]? = some second)
include hfirst hsecond

theorem getElem?_exchanged :
    ((items.set a second).set b first)[a]? = some second := by
  by_cases hab : a = b
  · subst hab
    cases hfirst.symm.trans hsecond
    obtain ⟨hlt, rfl⟩ := List.getElem?_eq_some_iff.mp hfirst
    rw [List.set_set, List.getElem?_set_self hlt]
  · rw [List.getElem?_set_ne (Ne.symm hab),
      List.getElem?_set_self (List.getElem?_eq_some_iff.mp hfirst).1]

theorem nodup_exchanged (hnodup : items.Nodup) :
    ((items.set a second).set b first).Nodup := by
  obtain ⟨hlt, rfl⟩ := List.getElem?_eq_some_iff.mp hfirst
  obtain ⟨hlt', rfl⟩ := List.getElem?_eq_some_iff.mp hsecond
  exact (List.set_set_perm hlt hlt').nodup_iff.mpr hnodup

end

/-- What keeping `x` shows in: its element, at index `k`, changed places with
the one at `a`, and `x` itself was renumbered if it was where it is looked
for. -/
structure Exchanged (c : Collection) (a k : Nat) (x : NodeId) (g h : Forest) :
    Prop where
  items : ∃ first stored, (c.items g)[a]? = some first
    ∧ (c.items g)[k]? = some stored
    ∧ c.items h = ((c.items g).set a stored).set k first
  link : ∀ e, (h.node e).link = (g.node e).link
  other : ∀ e, e ≠ x → (h.node e).position = (g.node e).position
  tested : (g.node x).link = some c.owner →
    (g.node x).position = c.base + k → (h.node x).position = c.base + a

/-- `keep` succeeds if `kept` and `judged` are indices of elements, and is
`Exchanged`. -/
theorem exchanged_keep (hc : c.Fits g) (hwf : g.WellFormed)
    (hkept : pass.kept < (c.items g).length)
    (hjudged : pass.judged < (c.items g).length) (x : NodeId) :
    ∃ k, c.keep x pass g = (some { pass with
          kept := pass.kept + 1, judged := pass.judged + 1 }, k)
      ∧ Exchanged c pass.kept pass.judged x g k := by
  have hfirst := List.getElem?_eq_getElem hkept
  have hsecond := List.getElem?_eq_getElem hjudged
  generalize (c.items g)[pass.kept] = first at hfirst
  generalize (c.items g)[pass.judged] = second at hsecond
  refine ⟨_, keep_eq hfirst hsecond, ⟨first, second, hfirst, hsecond, ?_⟩,
    fun e => ?_, fun e hne => ?_, fun hlink hposition => ?_⟩
  · refine items_setItems ((isAlive_renumber ..).trans hc.alive) ?_
    rw [c.field_renumber (F := Node.slots) fun _ _ => rfl]
    exact hc.bound hwf
  · rw [setItems, link_setSlot]
    exact c.field_renumber (F := Node.link) (fun _ _ => rfl) ..
  · rw [setItems, position_setSlot]
    exact position_renumber_miss fun hxe => absurd hxe.symm hne
  · rw [setItems, position_setSlot]
    exact position_renumber_hit hlink hposition

namespace Fitted

/-- Elements that occur once, and are linked and placed where they are, are
`Fitted` before the first call. -/
theorem start (hnodup : (c.items f).Nodup)
    (hplaces : ∀ i e, (c.items f)[i]? = some e →
      (f.node e).link = some c.owner ∧ (f.node e).position = c.base + i) :
    Fitted c (c.items f).length [] f where
  length := rfl
  within := Nat.zero_le _
  nodup := hnodup
  kept _ hi := absurd hi (Nat.not_lt_zero _)
  ahead hi _ := hplaces _ _ hi

theorem calm (hp : Fitted c len done g) (hgh : Calm g h)
    (hg : g.isAlive c.owner = true) (hwf : h.WellFormed)
    (ho : h.isAlive c.owner = true) : Fitted c len done h := by
  have hitems : c.items h = c.items g := items_of_calm hgh hg ho
  have hspared : ∀ {i e}, (c.items h)[i]? = some e → h.Spared e := fun he =>
    .inl (alive_of_mem_items hwf (List.mem_of_getElem? he))
  refine ⟨hitems ▸ hp.length, hp.within, hitems ▸ hp.nodup,
    fun {i e} he hi => ?_,
    fun {i e} he hi => ?_⟩
  · rw [hgh.link (hspared he), hgh.position (hspared he)]
    exact hp.kept (hitems ▸ he) hi
  · rw [hgh.link (hspared he), hgh.position (hspared he)]
    exact hp.ahead (hitems ▸ he) hi

/-- An element that was not judged yet is replaced by a node that the
collection lacks. -/
theorem replace (hp : Fitted c len done g) (hgh : Replaced c i n old g h)
    (hold : (c.items g)[i]? = some old) (hi : done.length ≤ i)
    (hn : n ∉ c.items g) (hwf : h.WellFormed) : Fitted c len done h := by
  have hspared : ∀ {k e}, (c.items h)[k]? = some e → h.Spared e := fun he =>
    .inl (alive_of_mem_items hwf (List.mem_of_getElem? he))
  -- the others are neither the node that came nor the one that left
  have hother : ∀ {k e}, (c.items h)[k]? = some e → k ≠ i →
      (c.items g)[k]? = some e
        ∧ (h.node e).link = (g.node e).link
        ∧ (h.node e).position = (g.node e).position := by
    intro k e he hk
    have he' := he
    rw [hgh.items, List.getElem?_set_ne (Ne.symm hk)] at he'
    refine ⟨he', hgh.other ?_ ?_ (hspared he)⟩
    · rintro rfl
      exact hn (List.mem_of_getElem? he')
    · rintro rfl
      exact hk (index_unique hp.nodup he' hold)
  have hlen := length_keptNodes_add done
  refine ⟨?_, hp.within, ?_, fun {k e} he hk => ?_, fun {k e} he hk => ?_⟩
  · rw [hgh.items, List.length_set, hp.length]
  · rw [hgh.items]
    exact hp.nodup.set hn
  · obtain ⟨hbefore, hlink, hposition⟩ := hother he (by omega)
    rw [hlink, hposition]
    exact hp.kept hbefore hk
  · by_cases hki : k = i
    · subst hki
      have hlt := (List.getElem?_eq_some_iff.mp hold).1
      have hthere := he
      rw [hgh.items, List.getElem?_set_self hlt] at hthere
      cases hthere
      exact hgh.entered (hspared he)
    · obtain ⟨hbefore, hlink, hposition⟩ := hother he hki
      rw [hlink, hposition]
      exact hp.ahead hbefore hk

/-- `reject` of the node under judgement keeps the elements `Fitted`. -/
theorem reject (hp : Fitted c len done g) (hlt : done.length < len)
    (hlone : Lone c done.length j.node g) (hj : j.rejects = true)
    (pass : Pass) :
    Fitted c len (done ++ [j]) (c.reject j.node pass g).2 := by
  have hkept : keptNodes (done ++ [j]) = keptNodes done := by
    rw [keptNodes_concat, hj, if_pos rfl, List.append_nil]
  have hlen := length_keptNodes_add done
  have hother : ∀ {i e}, (c.items g)[i]? = some e → i ≠ done.length →
      ((c.reject j.node pass g).2.node e).link = (g.node e).link := by
    intro i e he hi
    rw [Collection.reject, node_detach_ne]
    rintro rfl
    exact hi (hlone i he)
  have hitems : c.items (c.reject j.node pass g).2 = c.items g :=
    items_detach _ _
  have hposition : ∀ e, ((c.reject j.node pass g).2.node e).position
      = (g.node e).position := fun e => position_detach ..
  refine ⟨hitems ▸ hp.length, ?_, hitems ▸ hp.nodup, fun {i e} he hi => ?_,
    fun {i e} he hi => ?_⟩
  · rw [List.length_append, List.length_singleton]
    exact hlt
  · rw [hitems] at he
    rw [hkept] at hi
    obtain ⟨hlink, hsurvives⟩ := hp.kept he hi
    rw [hother he (by omega), hposition]
    exact ⟨hlink, hsurvives.concat⟩
  · rw [hitems] at he
    rw [List.length_append, List.length_singleton] at hi
    obtain ⟨hlink, hplace⟩ := hp.ahead he (by omega)
    rw [hother he (by omega), hposition]
    exact ⟨hlink, hplace⟩

/-- `keep` keeps the elements `Fitted`: whatever is stored at the index under
judgement joins the survivors. -/
theorem keep (hp : Fitted c len done g) (hlt : done.length < len)
    (hlone : Lone c done.length j.node g) (hj : j.keeps = true)
    (hafter : j.after = g)
    (hgh : Exchanged c (keptNodes done).length done.length j.node g h) :
    Fitted c len (done ++ [j]) h := by
  have hrejects : j.rejects = false := Judgement.rejects_of_keeps hj
  have hlen := length_keptNodes_add done
  obtain ⟨first, stored, hfirst, hstored, hitems⟩ := hgh.items
  -- elsewhere the node that was asked about is not
  have hother : ∀ {i e}, (c.items h)[i]? = some e →
      i ≠ (keptNodes done).length → i ≠ done.length →
      (c.items g)[i]? = some e ∧ (h.node e).link = (g.node e).link
        ∧ (h.node e).position = (g.node e).position := by
    intro i e he hia hik
    rw [hitems, getElem?_exchanged_ne hia hik] at he
    refine ⟨he, hgh.link e, hgh.other e ?_⟩
    rintro rfl
    exact hik (hlone i he)
  refine ⟨?_, ?_, ?_, fun {i e} he hi => ?_, fun {i e} he hi => ?_⟩
  · rw [hitems, List.length_set, List.length_set, hp.length]
  · rw [List.length_append, List.length_singleton]
    exact hlt
  · rw [hitems]
    exact nodup_exchanged hfirst hstored hp.nodup
  · rw [keptNodes_concat, hrejects, if_neg Bool.false_ne_true,
      List.length_append, List.length_singleton] at hi
    by_cases hia : i = (keptNodes done).length
    · subst hia
      rw [hitems, getElem?_exchanged hfirst hstored] at he
      cases he
      obtain ⟨howner, hplace⟩ := hp.ahead hstored (Nat.le_refl _)
      rw [hgh.link]
      refine ⟨howner, done.length, j, List.getElem?_concat_length, hj, ?_,
        hafter ▸ hstored, ?_⟩
      · rw [newIndex_concat_kept hrejects, newIndex_length]
      · split
        next hsame =>
          rw [hsame] at howner hplace ⊢
          exact hgh.tested howner hplace
        next hne => rw [hgh.other _ hne, hplace]
    · obtain ⟨hbefore, hlink, hposition⟩ := hother he hia (by omega)
      obtain ⟨howner, hsurvives⟩ := hp.kept hbefore (by omega)
      rw [hlink, hposition]
      exact ⟨howner, hsurvives.concat⟩
  · rw [List.length_append, List.length_singleton] at hi
    obtain ⟨hbefore, hlink, hposition⟩ := hother he (by omega) (by omega)
    rw [hlink, hposition]
    exact hp.ahead hbefore (by omega)

end Fitted

-- =============================================================== the pass

theorem Lone.calm (hlone : Lone c k x g) (hgh : Calm g h)
    (hg : g.isAlive c.owner = true) (ho : h.isAlive c.owner = true) :
    Lone c k x h := fun i he =>
  hlone i (items_of_calm hgh hg ho ▸ he)

/-- `Lone` is kept by a replacement that brings another node. -/
theorem Lone.replace (hlone : Lone c k x g)
    (hgh : Replaced c i n old g h) (hne : n ≠ x) : Lone c k x h := by
  intro m hm
  rw [hgh.items, List.getElem?_set] at hm
  split at hm
  · split at hm
    · cases hm
      exact absurd rfl hne
    · cases hm
  · exact hlone m hm

/-- However the exchange of an element that was not judged yet ended, short
of a panic, who is where is known. -/
theorem Fitted.set (hp : Fitted c len done f)
    (hlone : Lone c done.length x f) (hs : f.Sound checks locks)
    (ho : c.owner ∈ locks) (hc : c.Fits f) (hi : done.length ≤ i)
    (hlive : f.isAlive n = true) (hn : n ∉ c.items f) (hne : n ≠ x)
    (hunbroken : ∀ p s, c.set checks i n f ≠ .stop (.panic p) s) :
    Fitted c len done (c.set checks i n f).state
      ∧ Lone c done.length x (c.set checks i n f).state := by
  have hcarried : Carried checks c.owner f (c.set checks i n f) :=
    carried_set hs hc i hlive
  have hs' := hcarried.sound hs
  cases hset : c.set checks i n f with
  | ok u k =>
      rw [hset] at hs'
      obtain ⟨old, hold, -⟩ := set_eq_ok hset
      have hother : n ≠ old := by
        rintro rfl
        exact hn (List.mem_of_getElem? hold)
      have hreplaced := replaced_set hc hs.toWellFormed hlive hold hother
        hset (hs'.alive ho)
      exact ⟨hp.replace hreplaced hold hi hn hs'.toWellFormed,
        hlone.replace hreplaced hne⟩
  | stop why k =>
      rw [hset] at hcarried hs' hunbroken
      have hsame := hcarried.alike_of_stop fun p => by
        rintro rfl
        exact hunbroken p k rfl
      exact ⟨hp.calm hsame.calm hc.alive hs'.toWellFormed (hs'.alive ho),
        hlone.calm hsame.calm hc.alive (hs'.alive ho)⟩

/-- A call that replaces elements which were not judged yet by nodes that
the collection lacks. -/
structure Judgement.Refits (checks : Checks) (locks : List NodeId)
    (c : Collection) (len : Nat) (done : List Judgement) (j : Judgement) :
    Prop where
  keeps : j.Keeps checks locks
  fitted : j.before.Sound checks (j.node :: locks) → c.Fits j.before →
    Fitted c len done j.before → Lone c done.length j.node j.before →
    Fitted c len done j.after ∧ Lone c done.length j.node j.after

/-- Where all calls are such, the first one is, and so are the others after
it. -/
theorem Judgement.refits_cons {rest : List Judgement}
    (hrefits : ∀ k (j' : Judgement), (j :: rest)[k]? = some j' →
      j'.Refits checks locks c len (done ++ (j :: rest).take k)) :
    j.Refits checks locks c len done
      ∧ ∀ k (j' : Judgement), rest[k]? = some j' →
        j'.Refits checks locks c len (done ++ [j] ++ rest.take k) := by
  refine ⟨?_, fun k j' hj' => ?_⟩
  · have hcall := hrefits 0 j rfl
    rwa [List.take_zero, List.append_nil] at hcall
  · have hcall := hrefits (k + 1) j' hj'
    rwa [List.take_succ_cons, List.append_cons] at hcall

/-- The elements are `Fitted`, and the pass counts the calls that are `done`.
-/
structure Refitted (c : Collection) (len : Nat) (done : List Judgement)
    (pass : Pass) (g : Forest) : Prop where
  fitted : Fitted c len done g
  kept : pass.kept = (keptNodes done).length
  judged : pass.judged = done.length

namespace Refitted

/-- A call that `Refits` keeps the pass `Refitted`. -/
theorem asked (hp : Refitted c len done pass g)
    {out : Outcome Forest Bool} (hs : g.Sound checks locks)
    (ho : c.owner ∈ locks) (hc : c.Fits g)
    (hn : (c.items g)[pass.judged]? = some n)
    (hrefits : Judgement.Refits checks locks c len done ⟨n, g.hold n, out⟩) :
    Refitted c len done pass out.state ∧ done.length < len
      ∧ Lone c done.length n out.state
      ∧ out.state.Sound checks (n :: locks) ∧ c.Fits out.state := by
  obtain ⟨hs', hages⟩ :=
    Judgement.Keeps.run hrefits.keeps hs (List.mem_of_getElem? hn)
  have hheld := hs.hold
    (alive_of_mem_items hs.toWellFormed (List.mem_of_getElem? hn))
  rw [hp.judged] at hn
  have hlt := (List.getElem?_eq_some_iff.mp hn).1
  have hlone : Lone c done.length n g := fun _ he =>
    index_unique hp.fitted.nodup he hn
  have hcalm := (alike_hold (f := g) n).calm
  have howner := hheld.alive (.tail _ ho)
  obtain ⟨hafter, hlone'⟩ := hrefits.fitted hheld
    (hc.ages hcalm.ages howner)
    (hp.fitted.calm hcalm hc.alive hheld.toWellFormed howner)
    (hlone.calm hcalm hc.alive howner)
  exact ⟨⟨hafter, hp.kept, hp.judged⟩, hp.fitted.length ▸ hlt, hlone', hs',
    hc.ages hages (hs'.alive (.tail _ ho))⟩

/-- `release` of the element after its call leaves the pass `Refitted`. -/
theorem release (hp : Refitted c len done pass g) (ho : c.owner ∈ locks)
    (hs : g.Sound checks (n :: locks)) (hc : c.Fits g) :
    Refitted c len done pass (g.release n)
      ∧ (g.release n).Sound checks locks ∧ c.Fits (g.release n) := by
  have hs' := hs.unlock
  have howner := hs'.alive ho
  exact ⟨⟨hp.fitted.calm (calm_release g n) hc.alive hs'.toWellFormed howner,
    hp.kept, hp.judged⟩, hs', hc.ages (ages_release g n) howner⟩

theorem reject (hp : Refitted c len done pass g) (hlt : done.length < len)
    (hlone : Lone c done.length j.node g) (hj : j.rejects = true) :
    Refitted c len (done ++ [j]) (c.reject j.node pass g).1
      (c.reject j.node pass g).2 where
  fitted := hp.fitted.reject hlt hlone hj pass
  kept := by
    rw [keptNodes_concat, hj, if_pos rfl, List.append_nil]
    exact hp.kept
  judged := by
    rw [List.length_append, List.length_singleton]
    exact congrArg (· + 1) hp.judged

theorem keep (hp : Refitted c len done pass g) (hlt : done.length < len)
    (hlone : Lone c done.length j.node g) (hj : j.keeps = true)
    (hafter : j.after = g) (hc : c.Fits g) (hwf : g.WellFormed) :
    ∃ next k, c.keep j.node pass g = (some next, k)
      ∧ Refitted c len (done ++ [j]) next k := by
  have hlen := length_keptNodes_add done
  have hlength := hp.fitted.length
  have hkept := hp.kept
  have hjudged := hp.judged
  have hlow : pass.kept < (c.items g).length := by omega
  have hhigh : pass.judged < (c.items g).length := by omega
  obtain ⟨k, hkeep, hgk⟩ := exchanged_keep hc hwf hlow hhigh j.node
  rw [hkept, hjudged] at hgk
  refine ⟨_, k, hkeep, hp.fitted.keep hlt hlone hj hafter hgk, ?_, ?_⟩
  · rw [keptNodes_concat, Judgement.rejects_of_keeps hj,
      if_neg Bool.false_ne_true, List.length_append, List.length_singleton,
      hkept]
  · rw [List.length_append, List.length_singleton, hjudged]

end Refitted

/-- A pass whose calls `Refits` is `Refitted` at its end; a call that stopped
it counts as not made. -/
theorem Sifts.refitted
    (hsifts : Sifts c count pass g calls last stopped h)
    (ho : c.owner ∈ locks) (hs : g.Sound checks locks) (hc : c.Fits g)
    (hrefits : ∀ k (j : Judgement), calls[k]? = some j →
      j.Refits checks locks c len (done ++ calls.take k))
    (hp : Refitted c len done pass g) :
    ∃ done', Refitted c len done' last h
      ∧ (done ++ calls = done'
        ∨ ∃ j, (∃ why k, j.verdict = .stop why k)
          ∧ done ++ calls = done' ++ [j]) := by
  induction hsifts generalizing done with
  | full | short => exact ⟨done, hp, .inl (List.append_nil _)⟩
  | @failed _ pass g k n why hn =>
      obtain ⟨hcall, -⟩ := Judgement.refits_cons hrefits
      obtain ⟨hk, -, -, hsk, hck⟩ := hp.asked hs ho hc hn hcall
      exact ⟨done, (hk.release ho hsk hck).1, .inr ⟨_, ⟨why, k, rfl⟩, rfl⟩⟩
  | @rejected _ pass _ g k _ n _ _ hn _ ih =>
      obtain ⟨hcall, hlater⟩ := Judgement.refits_cons hrefits
      obtain ⟨hk, hlt, hlone, hsk, hck⟩ := hp.asked hs ho hc hn hcall
      have hnext := hk.reject (j := ⟨n, g.hold n, .ok true k⟩) hlt hlone rfl
      have htouches : Touches checks c.owner k (c.reject n pass k).2 :=
        touches_reject n pass
      have hs' := htouches.sound hsk
      obtain ⟨hgiven, hsg, hcg⟩ := hnext.release ho hs'
        (hck.ages htouches.ages (hs'.alive (.tail _ ho)))
      obtain ⟨done', hlast, hdone⟩ := ih hsg hcg hlater hgiven
      exact ⟨done', hlast, by simpa using hdone⟩
  | @kept _ pass next _ g k k' _ n _ _ hn hkept _ ih =>
      obtain ⟨hcall, hlater⟩ := Judgement.refits_cons hrefits
      obtain ⟨hk, hlt, hlone, hsk, hck⟩ := hp.asked hs ho hc hn hcall
      obtain ⟨next', k'', hkept', hnext⟩ := hk.keep
        (j := ⟨n, g.hold n, .ok false k⟩) hlt hlone rfl rfl hck
        hsk.toWellFormed
      cases hkept.symm.trans hkept'
      have htouches : Touches checks c.owner k k' :=
        touches_kept hsk.toWellFormed hck hkept
      have hs' := htouches.sound hsk
      obtain ⟨hgiven, hsg, hcg⟩ := hnext.release ho hs'
        (hck.ages htouches.ages (hs'.alive (.tail _ ho)))
      obtain ⟨done', hlast, hdone⟩ := ih hsg hcg hlater hgiven
      exact ⟨done', hlast, by simpa using hdone⟩
  | @lost _ pass g k k' n hn hkept =>
      -- the exchange can not fail
      obtain ⟨hcall, -⟩ := Judgement.refits_cons hrefits
      obtain ⟨hk, hlt, hlone, hsk, hck⟩ := hp.asked hs ho hc hn hcall
      obtain ⟨next', k'', hkept', -⟩ := hk.keep
        (j := ⟨n, g.hold n, .ok false k⟩) hlt hlone rfl rfl hck
        hsk.toWellFormed
      cases hkept.symm.trans hkept'

-- ========================================================= the compaction

/-- The index that the element `e` caches after a pass that left it at index
`i`, and that found or got it at index `m`. -/
def cachedIndex (calls : List Judgement) (m i : Nat) (e : NodeId) : Nat :=
  if (calls[m]?).any (fun j => j.keeps && j.node != e) then m else i

/-- What is known of the element `e` that a pass left at index `i`: it was
at index `m` until call `m` kept it, or that never happened. -/
def Settled (c : Collection) (calls : List Judgement) (i : Nat) (e : NodeId)
    (position : Nat) : Prop :=
  ∃ m, i = newIndex calls m
    ∧ (∀ j, calls[m]? = some j → j.rejects = false
      ∧ (j.keeps = true → (c.items j.after)[m]? = some e))
    ∧ position = c.base + cachedIndex calls m i e

theorem Survives.settled {position : Nat}
    (hsurvives : Survives c done i e position) :
    Settled c done i e position := by
  obtain ⟨m, j, hj, hkeeps, hi, hstored, hposition⟩ := hsurvives
  refine ⟨m, hi, fun j' hj' => ?_, ?_⟩
  · cases hj.symm.trans hj'
    exact ⟨Judgement.rejects_of_keeps hkeeps, fun _ => hstored⟩
  · rw [hposition, cachedIndex, hj, Option.any_some, hkeeps, Bool.true_and]
    by_cases hsame : e = j.node
    · rw [if_pos hsame, if_neg (by simp [hsame])]
    · rw [if_neg hsame, if_pos (by simpa using Ne.symm hsame)]

/-- `Settled` after `done` is `Settled` after one more call that gave up. -/
theorem Settled.concat_stopped {position : Nat} {why : Stop} {k : Forest}
    (hsettled : Settled c done i e position)
    (hj : j.verdict = .stop why k) :
    Settled c (done ++ [j]) i e position := by
  obtain ⟨m, hi, hkept, hposition⟩ := hsettled
  have hrejects : j.rejects = false := by rw [Judgement.rejects, hj]
  have hkeeps : j.keeps = false := by rw [Judgement.keeps, hj]
  refine ⟨m, by rw [newIndex_concat_kept hrejects, hi], fun j' hj' => ?_, ?_⟩
  · rw [List.getElem?_append] at hj'
    split at hj'
    · exact hkept j' hj'
    · rw [List.mem_singleton.mp (List.mem_of_getElem? hj'), hkeeps]
      exact ⟨hrejects, fun h => by cases h⟩
  · have hsame : ((done ++ [j])[m]?).any (fun j => j.keeps && j.node != e)
        = (done[m]?).any fun j => j.keeps && j.node != e := by
      rw [List.getElem?_append]
      split
      · rfl
      next hge =>
        rw [List.getElem?_eq_none (Nat.le_of_not_lt hge)]
        cases hlast : [j][m - done.length]? with
        | none => rfl
        | some j' =>
            rw [List.mem_singleton.mp (List.mem_of_getElem? hlast),
              Option.any_some, hkeeps]
            rfl
    rw [hposition, cachedIndex, cachedIndex, hsame]

/-- At an index that was not judged `cachedIndex` is the index itself. -/
theorem cachedIndex_of_le {m : Nat} (hm : done.length ≤ m) (i : Nat)
    (e : NodeId) : cachedIndex done m i e = i := by
  rw [cachedIndex, List.getElem?_eq_none hm]
  rfl

/-- After `compact` every element is linked to the owner and `Settled`. -/
theorem Refitted.compacted (hp : Refitted c len done pass g)
    (hs : g.Sound checks locks) (ho : c.owner ∈ locks) (hc : c.Fits g)
    (he : (c.items (pass.compact c g))[i]? = some e) :
    ((pass.compact c g).node e).link = some c.owner
      ∧ Settled c done i e ((pass.compact c g).node e).position := by
  have htouches : Touches checks c.owner g (pass.compact c g) :=
    touches_compact hs.toWellFormed hc pass
  have hs' := htouches.sound hs
  have hspared : (pass.compact c g).Spared e := .inl
    (alive_of_mem_items hs'.toWellFormed (List.mem_of_getElem? he))
  have hlen := length_keptNodes_add done
  have hlength := hp.fitted.length
  have hwithin := hp.fitted.within
  have hstop : min pass.judged (c.length g) = done.length := by
    rw [length, hlength, hp.judged]
    omega
  generalize hfirst : (keptNodes done).length = a at hlen
  have hstart : min pass.kept done.length = a := by
    rw [hp.kept]
    omega
  have hitems := items_compact hs.toWellFormed hc pass (hs'.alive ho)
  rw [hstop, hstart] at hitems
  obtain ⟨zone, -, hcompact⟩ := compact_eq pass hstop hstart
  rw [hitems] at he
  rw [hcompact] at hspared ⊢
  -- since the last call nothing happened to places and links
  have hshown := @shown_stored c g
    ((c.items g).take a ++ (c.items g).drop done.length) zone e
  generalize (c.setItems g ((c.items g).take a
    ++ (c.items g).drop done.length)).reapAll zone = k at hspared hshown ⊢
  obtain ⟨-, hposition, hlink⟩ := hshown (spared_renumberFrom hspared)
  rw [link_renumberFrom, hlink]
  have hfront : ((c.items g).take a).length = a := by
    rw [List.length_take, hlength]
    omega
  rcases Nat.lt_or_ge i a with hlt | hge
  · rw [List.getElem?_append_left (by omega), List.getElem?_take, if_pos hlt]
      at he
    obtain ⟨howner, hsurvives⟩ := hp.fitted.kept he (by omega)
    refine ⟨howner, ?_⟩
    rw [position_renumberFrom_ne, hposition]
    · exact hsurvives.settled
    · -- it does not occur among what was not judged
      intro m hm
      split at hm
      · cases hm
      · rw [List.getElem?_drop] at hm
        have hsame := index_unique hp.fitted.nodup he hm
        omega
  · rw [List.getElem?_append_right (by omega), hfront] at he
    have hahead := he
    rw [List.getElem?_drop] at hahead
    obtain ⟨howner, hplace⟩ := hp.fitted.ahead hahead (Nat.le_add_right ..)
    have hsum := newIndex_of_le (i := done.length + (i - a))
      (Nat.le_add_right ..)
    refine ⟨howner, done.length + (i - a), by omega, fun j hj => ?_, ?_⟩
    · rw [List.getElem?_eq_none (Nat.le_add_right ..)] at hj
      cases hj
    · rw [cachedIndex_of_le (Nat.le_add_right ..)]
      split
      next hnone =>
        rw [renumberFrom, hposition, hplace]
        omega
      next hsome =>
        rw [position_renumberFrom_left (by omega) _ _ (i - a) k he
          (hlink.trans howner) (by rw [hposition, hplace]; omega)]
        omega

/-- After a `removeAll` whose calls `Refits` every element is linked to the
owner and `Settled`, however the filtering ended. -/
theorem settled_removeAll {σ : Type} {judge : Judge σ} {st : σ}
    (hs : f.Sound checks locks) (ho : c.owner ∈ locks) (hc : c.Fits f)
    (hp : Fitted c len [] f)
    (hrefits : ∀ k (j : Judgement),
      (c.removalCalls checks judge (f, st))[k]? = some j →
      j.Refits checks locks c len
        ((c.removalCalls checks judge (f, st)).take k))
    (hg : ((c.removeAll checks judge (f, st)).mapState Prod.fst).state = g)
    (he : (c.items g)[i]? = some e) :
    (g.node e).link = some c.owner
      ∧ Settled c (c.removalCalls checks judge (f, st)) i e
        (g.node e).position := by
  cases hguard : f.isGuarded checks c.owner with
  | true =>
      obtain ⟨hrefused, hnone⟩ := removeAll_guarded hguard judge st
      rw [hrefused] at hg
      subst hg
      rw [hnone]
      obtain ⟨hlink, hposition⟩ := hp.ahead he (Nat.zero_le _)
      exact ⟨hlink, i, by simp [newIndex], fun j hj => (by cases hj),
        hposition⟩
  | false =>
      obtain ⟨pass, stopped, k, hsifts, -, hstate⟩ :=
        removeAll_unguarded checks c judge st hguard
      rw [hg] at hstate
      generalize c.removalCalls checks judge (f, st) = calls
        at hrefits hsifts ⊢
      have hbegin := alike_beginTraversal (f := f) c.owner
      have hs0 := hs.alike hbegin
      have hc0 := hc.alike hbegin
      obtain ⟨hk, hages⟩ := hsifts.sound ho hs0 hc0 fun j hj => by
        obtain ⟨k, hj⟩ := List.mem_iff_getElem?.mp hj
        exact (hrefits k j hj).keeps
      obtain ⟨done, hlast, hdone⟩ := hsifts.refitted ho hs0 hc0
        hrefits ⟨hp.calm hbegin.calm hc.alive hs0.toWellFormed
          (hs0.alive ho), rfl, rfl⟩
      rw [List.nil_append] at hdone
      have hck := hc0.ages hages (hk.alive ho)
      have hend : Alike (pass.compact c k) g := hstate ▸ alike_finish pass
      have hitems : c.items g = c.items (pass.compact c k) :=
        slot_congr (hend.slots c.owner) c.slot
      obtain ⟨hlink, hsettled⟩ := hlast.compacted hk ho hck (hitems ▸ he)
      rw [hend.link, hend.position]
      refine ⟨hlink, ?_⟩
      rcases hdone with rfl | ⟨j, ⟨why, k, hj⟩, rfl⟩
      · exact hsettled
      · exact hsettled.concat_stopped hj

end InstructionTree.Collection
