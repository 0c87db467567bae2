import Circ.Protocol.Preservation

/-!
# Never destroyed twice, never leaked

From the invariant of every reachable state: at most one `try_zero` is under
way, `dispose` and `delete_object` run at most once and only on a block that
nobody can reach, and a block whose handles are all gone is not leaked: once
every thread has left its operation and released its guard, the closure under
way runs to `dispose` and `delete_object` (`Inv.quiet_dies`).  Its run
terminates because `remaining` decreases with every closure step.
-/

namespace Circ.Protocol

open State

variable {n : Nat} {s : State n}

/-- No handle is left and every thread is idle with its guard released. -/
def State.Quiet (s : State n) : Prop :=
  s.handles = 0 ∧ ∀ t, (s.threads t).pc = .idle ∧ (s.threads t).guard = none

/-- The closure steps left before the block is deleted, with a weight of four
for every unit of count that a `try_zero` still has to give back. -/
def State.remaining (s : State n) : Nat :=
  4 * s.strong + match s.closures with
    | [] => 0
    | .deleting :: _ => 1
    | .disposing :: _ => 2
    | .redecrement :: _ => 2
    | .deferred _ :: _ => 3
    | .redeferring :: _ => 4

/-- In a quiet state some closure step is enabled and brings the block closer
to deletion. -/
theorem Inv.quiet_progress (hs : Inv s) (hq : s.Quiet) (hc : s.closures ≠ []) :
    ∃ a s', step s a = some s' ∧ a.increments = false ∧ s'.Quiet ∧
      s'.remaining < s.remaining := by
  obtain ⟨c, hcl⟩ : ∃ c, s.closures = [c] := by
    match h : s.closures, hs.closures_le with
    | [c], _ => exact ⟨c, rfl⟩
    | [], _ => exact absurd h hc
  have hrel : ∀ d, s.Released d := fun d t => by simp [Thread.pinnedBefore, (hq.2 t).2]
  have hmem : c ∈ s.closures := by simp [hcl]
  cases c with
  | deferred d =>
    refine ⟨.tryZero 0,
      { s with closures := [if s.strong = 0 then .disposing else .redecrement] },
      by simp [step, hcl, hrel d], rfl, hq, ?_⟩
    by_cases h0 : s.strong = 0 <;> simp [remaining, hcl, h0]
  | redecrement =>
    have h1 : s.strong = 1 := by simpa [hq.1] using hs.redecrement_extra hmem
    refine ⟨.redecrement 0, { s with strong := 0, closures := [.redeferring] }, ?_, rfl, hq, ?_⟩
    · have e : decrementStrong 1 1 = (0, true) := by decide
      simp [step, hcl, h1, e]
    · simp [remaining, hcl, h1]
  | redeferring =>
    exact ⟨.redefer 0, { s with closures := [.deferred s.clock], clock := s.clock + 1 },
      by simp [step, hcl], rfl, hq, by simp [remaining, hcl]⟩
  | disposing =>
    exact ⟨.dispose 0, { s with closures := [.deleting], disposed := s.disposed + 1 },
      by simp [step, hcl], rfl, hq, by simp [remaining, hcl]⟩
  | deleting =>
    exact ⟨.deleteObject 0, { s with closures := [], deleted := s.deleted + 1 },
      by simp [step, hcl], rfl, hq, by simp [remaining, hcl]⟩

/-- **No leak.**  From a quiet state the closure under way runs to `dispose`
and `delete_object`. -/
theorem Inv.quiet_dies (hs : Inv s) (hq : s.Quiet) :
    ∃ s', Steps s s' ∧ s'.disposed = 1 ∧ s'.deleted = 1 := by
  obtain ⟨k, h⟩ : ∃ k, s.remaining = k := ⟨_, rfl⟩
  induction k using Nat.strong_induction_on generalizing s with
  | _ k ih =>
    by_cases hc : s.closures = []
    · have hnp : ¬ s.Pending := by
        rintro (⟨t, ht⟩ | ⟨c, hc', -⟩)
        · simp [(hq.2 t).1] at ht
        · simp [hc] at hc'
      have hd : s.disposed ≠ 0 := by simpa [Dying, hc] using hs.dead hnp hq.1
      exact ⟨s, .refl, by have := hs.disposed_le; omega, hs.deleted_done hd hc⟩
    · obtain ⟨a, s', hstep, ha, hq', hlt⟩ := hs.quiet_progress hq hc
      obtain ⟨s'', hrun, hd⟩ :=
        ih _ (h ▸ hlt) (hs.next hstep (by simp [ha])) hq' rfl
      exact ⟨s'', .head ⟨a, hstep⟩ hrun, hd⟩

/-- **Safety of the strong count.**  In every state that an interleaving of any
number of threads reaches while the count stays below `2 ^ 32`:
* at most one `try_zero` for the block is under way: at most one closure
  exists, and a thread that owes the `defer` of one is the only such thread and
  finds no closure;
* `dispose` and `delete_object` have each run at most once, `delete_object`
  never before `dispose`;
* once `dispose` has run the count is zero, no handle is left, no thread holds a
  snapshot and none is inside an increment or a decrement;
* the block is not leaked: when no handle is left and every thread is idle with
  its guard released, the closures run to `dispose` and `delete_object`. -/
theorem strong_protocol_safe (h : Reachable s) :
    (s.closures.length ≤ 1 ∧ ∀ t, (s.threads t).pc = .deferring →
      s.closures = [] ∧ ∀ u, (s.threads u).pc = .deferring → u = t) ∧
    (s.disposed ≤ 1 ∧ s.deleted ≤ s.disposed) ∧
    (s.disposed = 1 → s.strong = 0 ∧ s.handles = 0 ∧
      ∀ t, (s.threads t).snapshot = false ∧ (s.threads t).pc = .idle) ∧
    (s.Quiet → ∃ s', Steps s s' ∧ s'.disposed = 1 ∧ s'.deleted = 1) := by
  have hs := h.inv
  refine ⟨⟨hs.closures_le, fun t ht => ⟨(hs.thread_ok t).deferring_alone ht,
      fun u hu => hs.deferring_unique u t hu ht⟩⟩, ⟨hs.disposed_le, hs.deleted_le⟩,
    fun hd => ?_, hs.quiet_dies⟩
  have hdy : s.Dying := .inr (.inr (by omega))
  have h0 := hs.dying_zero hdy
  exact ⟨h0, by rcases hs.count with h | h <;> omega, hs.quiet_of_dying hdy⟩

/-- One thread drops the only handle and defers its `try_zero`: a quiet state
whose closure still waits in its bag, from which the block is disposed and
deleted.  After that `try_zero` and the `dispose`, the block has been disposed
once, with no handle, no snapshot and no operation under way. -/
theorem strong_protocol_safe_dispose :
    ∃ q s : State 1, Reachable q ∧ Reachable s ∧ q.Quiet ∧ q.closures = [.deferred 0] ∧
      s.Quiet ∧ s.disposed = 1 ∧ s.closures = [.deleting] ∧
      ((q.closures.length ≤ 1 ∧ ∀ t, (q.threads t).pc = .deferring →
        q.closures = [] ∧ ∀ u, (q.threads u).pc = .deferring → u = t) ∧
      (q.disposed ≤ 1 ∧ q.deleted ≤ q.disposed) ∧
      (q.disposed = 1 → q.strong = 0 ∧ q.handles = 0 ∧
        ∀ t, (q.threads t).snapshot = false ∧ (q.threads t).pc = .idle) ∧
      (q.Quiet → ∃ s', Steps q s' ∧ s'.disposed = 1 ∧ s'.deleted = 1)) ∧
      ((s.closures.length ≤ 1 ∧ ∀ t, (s.threads t).pc = .deferring →
        s.closures = [] ∧ ∀ u, (s.threads u).pc = .deferring → u = t) ∧
      (s.disposed ≤ 1 ∧ s.deleted ≤ s.disposed) ∧
      (s.disposed = 1 → s.strong = 0 ∧ s.handles = 0 ∧
        ∀ t, (s.threads t).snapshot = false ∧ (s.threads t).pc = .idle) ∧
      (s.Quiet → ∃ s', Steps s s' ∧ s'.disposed = 1 ∧ s'.deleted = 1)) := by
  have hq : Reachable (n := 1) _ :=
    ((Reachable.init (n := 1)).step (a := .drop 0) rfl nofun).step (a := .defer 0) rfl nofun
  have hs : Reachable (n := 1) _ := (hq.step (a := .tryZero 0) rfl nofun).step (a := .dispose 0) rfl nofun
  exact ⟨_, _, hq, hs, ⟨rfl, by decide⟩, rfl, ⟨rfl, by decide⟩, rfl, rfl,
    strong_protocol_safe hq, strong_protocol_safe hs⟩

end Circ.Protocol
