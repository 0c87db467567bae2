import Circ.Protocol.Preservation
import Circ.Api.Effect

/-!
# The protocol seen by the sequential model

`Circ.Api` takes every operation of `strong.rs` as one step and keeps, for each
block, the count invariant `View.Ok`.  Here that invariant is checked against
the concurrent protocol of `Circ.Protocol`: whenever no thread is inside a
counter operation and every `try_zero` under way waits in an EBR bag, the
block's count, handles, pending closures, `dispose` runs and snapshots satisfy
`View.Ok` (`protocol_view_ok`).  So the invariant the sequential model proves
of every sequence of operations also holds between the operations of every
interleaving of any number of threads.
-/

namespace Circ.Protocol

open State

variable {n : Nat} {s : State n}

/-- No thread is inside a counter operation, and every closure waits in an EBR
bag. -/
def State.Settled (s : State n) : Prop :=
  (∀ t, (s.threads t).pc = .idle) ∧ ∀ c ∈ s.closures, ∃ d, c = .deferred d

/-- The block as the sequential model sees it: its handles are its owners and
its closures the pending `try_zero`s; a snapshot of it is held when some
thread holds one. -/
def State.view (s : State n) : Api.View :=
  ⟨s.handles, s.closures.length, s.strong, s.disposed,
    (List.finRange n).any fun t => (s.threads t).snapshot⟩

/-- At most one closure is under way: none, or one. -/
theorem closures_nil_or_singleton (h : s.closures.length ≤ 1) :
    s.closures = [] ∨ ∃ c, s.closures = [c] := by
  match s.closures, h with
  | [], _ => exact .inl rfl
  | [c], _ => exact .inr ⟨c, rfl⟩

/-- Between operations a `try_zero` is pending exactly when a closure waits. -/
theorem State.Settled.pending_iff (hq : s.Settled) : s.Pending ↔ s.closures ≠ [] := by
  constructor
  · rintro (⟨t, ht⟩ | ⟨c, hc, -⟩)
    · simp [(hq.1 t)] at ht
    · exact List.ne_nil_of_mem hc
  · intro h
    obtain ⟨c, hc⟩ := List.exists_mem_of_ne_nil _ h
    obtain ⟨d, rfl⟩ := hq.2 c hc
    exact .inr ⟨_, hc, trivial⟩

/-- Between operations the block is dying exactly when `dispose` has run. -/
theorem State.Settled.dying_iff (hq : s.Settled) : s.Dying ↔ s.disposed ≠ 0 := by
  refine ⟨fun h => ?_, fun h => .inr (.inr h)⟩
  rcases h with h | h | h
  · obtain ⟨d, ⟨⟩⟩ := hq.2 _ h
  · obtain ⟨d, ⟨⟩⟩ := hq.2 _ h
  · exact h

/-- The invariant of the protocol, read between operations, is the count
invariant of the sequential model. -/
theorem Inv.view_ok (hs : Inv s) (hq : s.Settled) : s.view.Ok := by
  have hc := hs.count
  refine ⟨hs.strong_lt, ?_, fun h => ?_, fun hsn => ?_⟩
  · rcases closures_nil_or_singleton hs.closures_le with hcl | ⟨c, hcl⟩
    · have hx : s.strong ≠ s.handles + 1 := fun h =>
        absurd hcl (hq.pending_iff.1 (hs.extra_pending h))
      exact .inl ⟨by simp [view, hcl], by simp only [view]; omega⟩
    · have hpend : s.Pending := hq.pending_iff.2 (by simp [hcl])
      have hd0 : s.disposed = 0 := by
        by_contra hd
        obtain ⟨d, hd'⟩ := hq.2 c (by simp [hcl])
        have := hs.disposed_deleting hd c (by simp [hcl])
        rw [hd'] at this
        cases this
      refine .inr ⟨by simp [view, hcl], hd0, ?_⟩
      rcases hc with h | h
      · exact .inl ⟨h.trans (hs.pending_empty hpend h), hs.pending_empty hpend h⟩
      · exact .inr h
  · simp only [view] at h ⊢
    exact ⟨by have := hs.disposed_le; omega, hs.dying_zero (hq.dying_iff.2 h)⟩
  · obtain ⟨t, -, ht⟩ := List.any_eq_true.1 hsn
    have hnd := (hs.thread_ok t).busy_alive (.inl ht)
    by_contra hcon
    simp only [view, not_or, not_lt, Nat.le_zero, not_not, List.length_eq_zero] at hcon
    have hh : s.handles = 0 := by rcases hc with h | h <;> omega
    exact hnd (hs.dead (fun hp => hq.pending_iff.1 hp hcon.2.2) hh)

/-- **The sequential count invariant holds between operations.**  In every
state that an interleaving of any number of threads reaches while the count
stays below `2 ^ 32`, whenever no thread is inside `increment_strong` or
`decrement_strong` and every `try_zero` under way waits in an EBR bag, the
block satisfies the count invariant of the sequential model: its count is its
number of handles, or, while a `try_zero` is pending, zero with no handle or
one more than the handles; `dispose` has run at most once, on a zero count; and
a block of which some thread holds a snapshot has a count, a pending
`try_zero`, or has been disposed. -/
theorem protocol_view_ok (h : Reachable s) (hq : s.Settled) : s.view.Ok :=
  h.inv.view_ok hq

/-- A resurrection between operations: thread 0 loads a snapshot under its
guard, thread 1 drops the only handle, thread 0 calls `counted` on the
snapshot (both `fetch_add`s), and thread 1 defers its `try_zero`, which waits
behind thread 0's guard.  The count is one more than the handles, with the
`try_zero` pending. -/
theorem protocol_view_ok_resurrected :
    ∃ s : State 2, Reachable s ∧ s.Settled ∧ s.strong = 2 ∧ s.handles = 1 ∧
      s.closures = [.deferred 1] ∧ s.view.Ok := by
  have hs : Reachable (n := 2) _ :=
    ((((((Reachable.init (n := 2)).step (a := .pin 0) rfl nofun).step (a := .load 0) rfl nofun).step
      (a := .drop 1) rfl nofun).step (a := .counted 0) rfl fun _ => by decide).step
      (a := .incrementAgain 0) rfl fun _ => by decide).step (a := .defer 1) rfl nofun
  refine ⟨_, hs, ?settled, rfl, rfl, rfl, protocol_view_ok hs ?settled⟩
  exact ⟨by decide, fun c hc => ⟨1, List.mem_singleton.1 hc⟩⟩

end Circ.Protocol
