import Circ.Api.Step

/-!
# What one operation does to one block

Seen from one block, every operation of `strong.rs` is one of a few effects:
a snapshot of it is taken, a handle to it is created by `increment_strong`,
handles to it are given up by one `decrement_strong(n)`, its `try_zero` runs,
or it is allocated; every other block is left as it was.  `View.Ok` is the
count invariant of one block, and `View.Ok.apply` shows that each effect keeps
it, given what the operation knows when it acts (`Effect.Allowed`) and that
fewer than `2 ^ 32 - 1` owners remain.

The invariant: the count is the number of owners, except while a `try_zero` is
pending, when the count is zero with no owner left, or is one more than the
owners: a resurrecting `increment_strong` has handed the closure a permission
to decrement once more.
-/

namespace Circ.Api

/-- What the count protocol sees of one block. -/
@[ext]
structure View where
  owners : Nat
  pending : Nat
  strong : Nat
  disposed : Nat
  /-- Some snapshot of the block has been taken. -/
  snapshot : Bool

/-- The view of an unallocated block. -/
def View.zero : View := ⟨0, 0, 0, 0, false⟩

def State.view (s : State) (b : Nat) : View :=
  ⟨s.owners b, s.closures.count b, (s.blocks b).strong, (s.blocks b).disposed,
    decide (some b ∈ s.snapshots)⟩

/-- The count invariant of one block. -/
structure View.Ok (v : View) : Prop where
  strong_lt : v.strong < 2 ^ 32
  count : v.pending = 0 ∧ v.strong = v.owners ∨
    v.pending = 1 ∧ v.disposed = 0 ∧ (v.strong = 0 ∧ v.owners = 0 ∨ v.strong = v.owners + 1)
  disposed : v.disposed ≠ 0 → v.disposed = 1 ∧ v.strong = 0
  /-- A snapshot can only be made counted while the block is alive. -/
  snapshot : v.snapshot = true → v.disposed ≠ 0 ∨ 0 < v.strong ∨ v.pending ≠ 0

/-- What an operation does to one block. -/
inductive Effect
  | skip
  /-- A snapshot is taken from a handle. -/
  | snap
  /-- `increment_strong` for a new handle. -/
  | inc
  /-- `k` owners are given up by one `decrement_strong(n)`. -/
  | dec (k n : Nat)
  /-- A deferred `try_zero` runs. -/
  | tryZero
  /-- The block is allocated with `n` handles. -/
  | alloc (n : Nat)

namespace Effect

def apply : Effect → View → View
  | .skip, v => v
  | .snap, v => { v with snapshot := true }
  | .inc, v => { v with owners := v.owners + 1, strong := incrementStrong v.strong }
  | .dec k n, v =>
    { v with
      owners := v.owners - k, strong := (decrementStrong v.strong n).1,
      pending := v.pending + if (decrementStrong v.strong n).2 then 1 else 0 }
  | .tryZero, v =>
    if v.strong = 0 then { v with pending := v.pending - 1, disposed := v.disposed + 1 }
    else
      { v with
        strong := (decrementStrong v.strong 1).1,
        pending := v.pending - 1 + if (decrementStrong v.strong 1).2 then 1 else 0 }
  | .alloc n, v => { v with owners := v.owners + n, strong := n % 2 ^ 32, disposed := 0 }

/-- What the operation knows of the block when it acts: it holds a handle to
it, or a live snapshot of it; the closure it runs is pending. -/
def Allowed : Effect → View → Prop
  | .skip, _ => True
  | .snap, v => 0 < v.owners
  | .inc, v => 0 < v.owners ∨ v.snapshot = true ∧ v.disposed = 0
  | .dec k n, v => 0 < k ∧ k ≤ v.owners ∧ n = k % 2 ^ 32
  | .tryZero, v => 0 < v.pending
  | .alloc _, _ => True

def isAlloc : Effect → Bool
  | .alloc _ => true
  | _ => false

/-- Only an allocation does anything to an unallocated block. -/
theorem apply_zero {e : Effect} (h : e.Allowed View.zero) (hn : e.isAlloc = false) :
    e.apply View.zero = View.zero := by
  cases e with
  | skip => rfl
  | alloc => simp [isAlloc] at hn
  | snap | inc | dec | tryZero => simp [Allowed, View.zero] at h <;> omega

end Effect

namespace View.Ok

variable {v : View}

/-- A block with an owner has a positive count. -/
theorem strong_pos (h : v.Ok) (ho : 0 < v.owners) : 0 < v.strong ∧ v.disposed = 0 := by
  have := h.disposed
  rcases h.count with ⟨-, h1⟩ | ⟨-, h0, ⟨-, h2⟩ | h2⟩ <;> omega

theorem snap (h : v.Ok) (ho : 0 < v.owners) : (Effect.snap.apply v).Ok :=
  { h with snapshot := fun _ => .inr (.inl (h.strong_pos ho).1) }

/-- `increment_strong` from a handle, or from a live snapshot: the count goes
up by one, or by two when it was zero and the pending `try_zero` gets its
permission. -/
theorem inc (h : v.Ok) (ha : Effect.inc.Allowed v) (hb : v.owners + 2 < 2 ^ 32) :
    (Effect.inc.apply v).Ok := by
  have hpos :
      0 < v.strong ∨ v.strong = 0 ∧ v.pending = 1 ∧ v.owners = 0 ∧ v.disposed = 0 := by
    rcases ha with ho | ⟨hs, hd⟩
    · exact .inl (h.strong_pos ho).1
    · have := h.snapshot hs
      rcases h.count with ⟨h0, h1⟩ | ⟨h0, h1, ⟨h2, h3⟩ | h2⟩ <;> omega
  rcases hpos with hpos | ⟨h0, h1, h2, h3⟩
  · have hd : v.disposed = 0 := by have := h.disposed; omega
    have hle : v.strong ≤ v.owners + 1 := by rcases h.count with h | h <;> omega
    have e : incrementStrong v.strong = v.strong + 1 := incrementStrong_of_pos hpos (by omega)
    refine ⟨by simp only [Effect.apply, e]; omega, ?_, fun h' => absurd hd h', fun _ => ?_⟩
    · rcases h.count with h | h <;> simp only [Effect.apply, e] <;> omega
    · simp [Effect.apply, e]
  · refine ⟨?_, .inr ⟨?_, ?_, .inr ?_⟩, fun h' => absurd h3 h',
      fun _ => .inr (.inl ?_)⟩ <;>
      simp [Effect.apply, h0, h1, h2, h3]

/-- `decrement_strong(k)` giving up `k` owned handles. -/
theorem dec {k n : Nat} (h : v.Ok) (ha : (Effect.dec k n).Allowed v) (hb : v.owners < 2 ^ 32) :
    (Effect.dec k n).apply v |>.Ok := by
  obtain ⟨hk, hko, rfl⟩ := ha
  obtain ⟨hpos, hd⟩ := h.strong_pos (by omega)
  have hn : k % 2 ^ 32 = k := Nat.mod_eq_of_lt (by omega)
  have hle : k ≤ v.strong := by rcases h.count with h | h <;> omega
  have e := decrementStrong_of_le h.strong_lt hle
  have := h.strong_lt
  simp only [hn, e, Effect.apply, beq_iff_eq]
  refine ⟨by dsimp only; omega, ?_, fun h' => absurd hd h', fun _ => ?_⟩ <;>
    rcases h.count with h | h <;> split_ifs <;> dsimp only <;> omega

/-- A `try_zero` disposes a block whose count is zero, and otherwise gives back
its permission with a fresh `decrement_strong(1)`. -/
theorem tryZero (h : v.Ok) (ha : Effect.tryZero.Allowed v) : (Effect.tryZero.apply v).Ok := by
  have hp : v.pending = 1 ∧ v.disposed = 0 := by
    have : 0 < v.pending := ha
    rcases h.count with h | h <;> omega
  by_cases h0 : v.strong = 0
  · have ho : v.owners = 0 := by rcases h.count with h | h <;> omega
    refine ⟨?_, .inl ⟨?_, ?_⟩, fun _ => ⟨?_, ?_⟩, fun _ => .inl ?_⟩ <;>
      simp [Effect.apply, h0, hp, ho]
  · have e := decrementStrong_of_le h.strong_lt (Nat.one_le_iff_ne_zero.2 h0)
    have hs : v.strong = v.owners + 1 := by rcases h.count with h | h <;> omega
    have := h.strong_lt
    simp only [Effect.apply, h0, e, if_false, beq_iff_eq]
    refine ⟨by dsimp only; omega, ?_, fun h' => absurd hp.2 h', fun _ => ?_⟩ <;>
      split_ifs <;> dsimp only <;> omega

/-- A fresh block holds as many owners as its count says. -/
theorem alloc {n : Nat} (hv : v = View.zero) (hb : n < 2 ^ 32) :
    ((Effect.alloc n).apply v).Ok := by
  subst hv
  exact ⟨by simp only [Effect.apply]; omega,
    .inl ⟨rfl, by simp only [Effect.apply, View.zero]; omega⟩,
    by simp [Effect.apply], by simp [Effect.apply, View.zero]⟩

/-- **Every effect keeps the count invariant of a block**, while fewer than
`2 ^ 32 - 1` owners are left after it; a block is allocated fresh. -/
theorem apply {e : Effect} (h : v.Ok) (ha : e.Allowed v) (hz : e.isAlloc → v = View.zero)
    (hpre : v.owners < 2 ^ 32 - 1) (hpost : (e.apply v).owners < 2 ^ 32 - 1) :
    (e.apply v).Ok := by
  cases e with
  | skip => exact h
  | snap => exact h.snap ha
  | inc => exact h.inc ha (by simp only [Effect.apply] at hpost; omega)
  | dec k n => exact h.dec ha (by omega)
  | tryZero => exact h.tryZero ha
  | alloc n =>
    obtain rfl := hz rfl
    exact View.Ok.alloc rfl (by simp [Effect.apply, View.zero] at hpost; omega)

end View.Ok

end Circ.Api
