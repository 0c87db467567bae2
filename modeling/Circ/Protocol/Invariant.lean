import Circ.Protocol.Step

/-!
# The invariant of the strong-count protocol

The count is the number of handles, plus one while a resurrecting
`increment_strong` has handed a permission to the `try_zero` under way.  At
most one `try_zero` is ever under way, owed by a thread between its
`fetch_sub` and its `defer`, or by a closure.  While that `try_zero` holds no
permission nobody holds a handle, and every thread that could still resurrect
the block (one holding a snapshot, or between the two `fetch_add`s) holds a
guard older than the closure, so the closure cannot yet read the count.

`Inv` states this; `Inv.init` and the step lemmas of this file show it holds
initially and after each action.
-/

namespace Circ.Protocol

variable {n : Nat}

/-- A closure that has not yet read zero. -/
def Closure.Live : Closure → Prop
  | .disposing | .deleting => False
  | _ => True

namespace State

/-- Some thread owes the `defer` of a `try_zero`. -/
def Deferring (s : State n) : Prop := ∃ t, (s.threads t).pc = .deferring

/-- A `try_zero` is under way and has not read zero. -/
def Pending (s : State n) : Prop := s.Deferring ∨ ∃ c ∈ s.closures, c.Live

/-- The block is being destroyed, or has been. -/
def Dying (s : State n) : Prop :=
  .disposing ∈ s.closures ∨ .deleting ∈ s.closures ∨ s.disposed ≠ 0

/-- What a thread's record may be, given the rest of the state. -/
structure ThreadOk (s : State n) (th : Thread) : Prop where
  guard_lt : ∀ g, th.guard = some g → g < s.clock
  snapshot_guard : th.snapshot = true → th.guard.isSome
  busy_alive : th.snapshot = true ∨ th.pc ≠ .idle → ¬ s.Dying
  deferring_alone : th.pc = .deferring → s.closures = []
  /-- A snapshot holder blocks the waiting `try_zero` that holds no permission. -/
  snapshot_blocks : th.snapshot = true → s.strong = s.handles →
    ∀ d, .deferred d ∈ s.closures → th.pinnedBefore d = true
  /-- Between its two `fetch_add`s a thread has given the permission, and the
  `try_zero` it went to has not yet read the count. -/
  incrementing : th.pc = .incrementing → s.strong = s.handles + 1 ∧ th.guard.isSome ∧
    (s.Deferring ∨ .redeferring ∈ s.closures ∨
      ∃ d, .deferred d ∈ s.closures ∧ th.pinnedBefore d = true)

end State

open State

/-- The invariant of every reachable state. -/
structure Inv (s : State n) : Prop where
  closures_le : s.closures.length ≤ 1
  count : s.strong = s.handles ∨ s.strong = s.handles + 1
  strong_lt : s.strong < 2 ^ 32
  extra_pending : s.strong = s.handles + 1 → s.Pending
  pending_empty : s.Pending → s.strong = s.handles → s.handles = 0
  redecrement_extra : .redecrement ∈ s.closures → s.strong = s.handles + 1
  dying_zero : s.Dying → s.strong = 0
  dead : ¬ s.Pending → s.handles = 0 → s.Dying
  disposed_le : s.disposed ≤ 1
  deleted_le : s.deleted ≤ s.disposed
  disposing_first : .disposing ∈ s.closures → s.disposed = 0
  deleting_once : .deleting ∈ s.closures → s.disposed = 1 ∧ s.deleted = 0
  disposed_deleting : s.disposed ≠ 0 → ∀ c ∈ s.closures, c = .deleting
  deleted_done : s.disposed ≠ 0 → s.closures = [] → s.deleted = 1
  stamp_lt : ∀ d, .deferred d ∈ s.closures → d < s.clock
  deferring_unique :
    ∀ t u, (s.threads t).pc = .deferring → (s.threads u).pc = .deferring → t = u
  thread_ok : ∀ t, ThreadOk s (s.threads t)

/-! ### Frame lemmas -/

namespace State

@[simp] theorem setThread_strong (s : State n) (t : Fin n) (th : Thread) :
    (s.setThread t th).strong = s.strong := rfl

@[simp] theorem setThread_handles (s : State n) (t : Fin n) (th : Thread) :
    (s.setThread t th).handles = s.handles := rfl

@[simp] theorem setThread_closures (s : State n) (t : Fin n) (th : Thread) :
    (s.setThread t th).closures = s.closures := rfl

@[simp] theorem setThread_clock (s : State n) (t : Fin n) (th : Thread) :
    (s.setThread t th).clock = s.clock := rfl

@[simp] theorem setThread_disposed (s : State n) (t : Fin n) (th : Thread) :
    (s.setThread t th).disposed = s.disposed := rfl

@[simp] theorem setThread_deleted (s : State n) (t : Fin n) (th : Thread) :
    (s.setThread t th).deleted = s.deleted := rfl

theorem setThread_threads (s : State n) (t u : Fin n) (th : Thread) :
    (s.setThread t th).threads u = if u = t then th else s.threads u := by
  simp [setThread, Function.update_apply]

@[simp] theorem setThread_threads_self (s : State n) (t : Fin n) (th : Thread) :
    (s.setThread t th).threads t = th := by
  simp [setThread_threads]

theorem setThread_threads_ne (s : State n) {t u : Fin n} (th : Thread) (h : u ≠ t) :
    (s.setThread t th).threads u = s.threads u := by
  simp [setThread_threads, h]

/-- Changing a record without changing whether it owes a `defer` keeps the
`try_zero` owed by threads. -/
theorem deferring_setThread {s : State n} {t : Fin n} {th : Thread}
    (hpc : th.pc = .deferring ↔ (s.threads t).pc = .deferring) :
    (s.setThread t th).Deferring ↔ s.Deferring := by
  simp only [Deferring, setThread_threads]
  constructor <;> rintro ⟨u, hu⟩ <;> refine ⟨u, ?_⟩ <;> by_cases h : u = t <;> simp_all

end State

/-- A record acceptable in a state stays so when another record changes
without changing whether it owes a `defer`. -/
theorem State.ThreadOk.setThread {s : State n} {t : Fin n} {th th' : Thread}
    (hpc : th.pc = .deferring ↔ (s.threads t).pc = .deferring) (h : ThreadOk s th') :
    ThreadOk (s.setThread t th) th' :=
  { h with incrementing := fun hi => by simpa [deferring_setThread hpc] using h.incrementing hi }

/-- Replacing a record by an acceptable one that owes a `defer` exactly when
the old one did keeps the invariant. -/
theorem Inv.setThread {s : State n} (hs : Inv s) {t : Fin n} {th : Thread}
    (hpc : th.pc = .deferring ↔ (s.threads t).pc = .deferring) (hok : ThreadOk s th) :
    Inv (s.setThread t th) := by
  have hd := deferring_setThread hpc
  have hp : (s.setThread t th).Pending ↔ s.Pending := by simp [Pending, hd]
  refine { hs with
    extra_pending := fun h => hp.2 (hs.extra_pending h)
    pending_empty := fun h => hs.pending_empty (hp.1 h)
    dead := fun h => hs.dead (mt hp.2 h)
    deferring_unique := fun u v hu hv => hs.deferring_unique u v ?_ ?_
    thread_ok := fun u => ?_ }
  · by_cases h : u = t <;> simp_all [setThread_threads]
  · by_cases h : v = t <;> simp_all [setThread_threads]
  · by_cases h : u = t
    · subst h; simpa using hok.setThread hpc
    · simpa [setThread_threads_ne _ _ h] using (hs.thread_ok u).setThread hpc

/-- A list of at most one element that has `c` at position `i` is `[c]`. -/
theorem closures_eq_singleton {cs : List Closure} {i : Nat} {c : Closure}
    (hle : cs.length ≤ 1) (h : cs[i]? = some c) : i = 0 ∧ cs = [c] := by
  match cs, i, h with
  | [c'], 0, h => simp_all

/-! ### The initial state -/

theorem Inv.init : Inv (State.init n) where
  closures_le := by simp [State.init]
  count := by simp [State.init]
  strong_lt := by simp [State.init]
  extra_pending := by simp [State.init]
  pending_empty := by simp [State.init, Pending, Deferring, Thread.fresh]
  redecrement_extra := by simp [State.init]
  dying_zero := by simp [State.init, Dying]
  dead := by simp [State.init]
  disposed_le := by simp [State.init]
  deleted_le := by simp [State.init]
  disposing_first := by simp [State.init]
  deleting_once := by simp [State.init]
  disposed_deleting := by simp [State.init]
  deleted_done := by simp [State.init]
  stamp_lt := by simp [State.init]
  deferring_unique := by simp [State.init, Thread.fresh]
  thread_ok _ := ⟨by simp [State.init, Thread.fresh], by simp [State.init, Thread.fresh],
    by simp [State.init, Thread.fresh], by simp [State.init, Thread.fresh],
    by simp [State.init, Thread.fresh], by simp [State.init, Thread.fresh]⟩

end Circ.Protocol
