/-
Counters of 32 bits.

What a counter shows is a number below `UInt32.size`. Raised at its end it
starts over from zero; lowered at zero it stays there. So what it shows is
the number of raises less the number of lowers only as long as it never
started over. It remembers how often it did (`wraps`), for whoever has to
say when it can be trusted; nothing that runs looks at that.
-/

namespace InstructionTree

/-- A counter of 32 bits. -/
structure Counter where
  value : UInt32
  /-- How often it started over. -/
  wraps : Nat
deriving DecidableEq

namespace Counter

/-- A counter that was never raised. -/
def zero : Counter := ⟨0, 0⟩

instance : Inhabited Counter := ⟨zero⟩

/-- The number that it shows. -/
def shown (c : Counter) : Nat := c.value.toNat

/-- Whether it starts over if it is raised. -/
def isFull (c : Counter) : Bool := c.value + 1 == 0

/-- The counter after it was raised. -/
def next (c : Counter) : Counter :=
  ⟨c.value + 1, if c.isFull then c.wraps + 1 else c.wraps⟩

/-- The counter after it was lowered. -/
def prev (c : Counter) : Counter :=
  if c.value = 0 then c else { c with value := c.value - 1 }

-- ============================================================= what it shows

variable (c : Counter)

theorem shown_lt : c.shown < UInt32.size := c.value.toNat_lt

/-- A counter is full at the largest number that it can show. -/
theorem isFull_iff : c.isFull = true ↔ c.shown + 1 = UInt32.size := by
  have hlt := c.shown_lt
  have hsum : (c.value + 1).toNat = (c.shown + 1) % UInt32.size :=
    UInt32.toNat_add ..
  rw [isFull, beq_iff_eq, ← UInt32.toNat_inj, hsum]
  constructor
  · intro hzero
    have hdvd := Nat.dvd_of_mod_eq_zero hzero
    exact Nat.le_antisymm hlt (Nat.le_of_dvd c.shown.succ_pos hdvd)
  · intro hsize
    rw [hsize]
    rfl

@[simp] theorem shown_zero : zero.shown = 0 := rfl

variable {c}

/-- A counter that is not full shows one more after it was raised. -/
theorem shown_next (hroom : c.isFull = false) :
    c.next.shown = c.shown + 1 := by
  have hlt := c.shown_lt
  have hne : c.shown + 1 ≠ UInt32.size := by
    rw [← Bool.not_eq_true, isFull_iff] at hroom
    exact hroom
  have hsum : c.next.shown = (c.shown + 1) % UInt32.size :=
    UInt32.toNat_add ..
  rw [hsum, Nat.mod_eq_of_lt (Nat.lt_of_le_of_ne hlt hne)]

/-- A counter that shows nothing has room. -/
theorem isFull_of_shown_zero (hzero : c.shown = 0) : c.isFull = false := by
  rw [← Bool.not_eq_true, isFull_iff, hzero]
  decide

/-- A counter that is full starts over. -/
theorem shown_next_of_full (hfull : c.isFull = true) : c.next.shown = 0 :=
  congrArg UInt32.toNat (beq_iff_eq.mp hfull)

/-- A counter that is lowered shows one less, if it can. -/
theorem shown_prev : c.prev.shown = c.shown - 1 := by
  unfold prev
  split
  next hzero => rw [shown, hzero]; rfl
  next hpos =>
    have hle : (1 : UInt32) ≤ c.value := by
      rw [UInt32.le_iff_toNat_le]
      refine Nat.pos_of_ne_zero fun hzero => hpos ?_
      exact UInt32.toNat_inj.mp hzero
    exact UInt32.toNat_sub_of_le _ _ hle

@[simp] theorem wraps_prev : c.prev.wraps = c.wraps := by
  unfold prev
  split <;> rfl

/-- A counter starts over when it is raised and full, and only then. -/
theorem wraps_next_eq_zero_iff :
    c.next.wraps = 0 ↔ c.wraps = 0 ∧ c.isFull = false := by
  unfold next
  cases c.isFull with
  | true => simp
  | false => simp

-- ============================================================ what it counts

/-- A counter that never started over shows `k`. -/
def Counts (c : Counter) (k : Nat) : Prop := c.wraps = 0 → c.shown = k

namespace Counts

variable {k : Nat}

theorem zero : Counter.zero.Counts 0 := fun _ => rfl

/-- One more is counted, also where the counter starts over: from then on
nothing is said of it. -/
theorem next (hc : c.Counts k) : c.next.Counts (k + 1) := by
  intro hwraps
  obtain ⟨hnone, hroom⟩ := wraps_next_eq_zero_iff.mp hwraps
  rw [shown_next hroom, hc hnone]

/-- One less is counted. -/
theorem prev (hc : c.Counts k) : c.prev.Counts (k - 1) := by
  intro hwraps
  rw [wraps_prev] at hwraps
  rw [shown_prev, hc hwraps]

end Counts

end Counter

end InstructionTree
