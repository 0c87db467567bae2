import Circ.Api.Count

/-!
# Handles made at once

`Rc::new_many::<N>` and `Rc::new_many_iter(obj, n)` allocate a block whose
strong count is `N as u32` (or `n as u32`) and hand out its handles at once, or
one by one through `NewRcIter::next`; `NewRcIter::abort` and the iterator's
drop give back the handles not yet handed out in one
`decrement_strong(remain as u32)`.

For `0 < n < 2 ^ 32 - 1` this is sound, whatever else runs: the block is
disposed at most once, only when none of its handles is left and the iterator
has nothing left to hand out, and from then on its pending `try_zero`
disposes it (`newMany_disposed_once`).  Note that an iterator that has handed
out everything owns nothing: the block may be disposed before it is dropped.

Outside that range it is not.  A count of zero gives a block that nothing ever
disposes (`newMany_zero_leaks`).  A count of `2 ^ 32 + 1` is a `u32` count
of one: dropping the first handle disposes the block while the iterator still
has `2 ^ 32` handles to hand out, and dropping the iterator then gives back
`2 ^ 32 as u32 = 0` by a `fetch_sub(0)` that reads zero and so defers a second
`try_zero`, which disposes the block again (`newManyIter_disposed_twice`).
-/

namespace Circ.Api

open State

variable {s s' : State} {b : Nat}

/-- The block can still be disposed, or has been: it has a count or a pending
`try_zero`, or `dispose` has run on it. -/
def View.Live (v : View) : Prop := 0 < v.strong ∨ 0 < v.pending ∨ 0 < v.disposed

/-- A block that can still be disposed stays so: a count only reaches zero by
a `decrement_strong` that defers a `try_zero`, and a `try_zero` either disposes
the block or decrements it in turn. -/
theorem View.Ok.live_apply {v : View} {e : Effect} (h : v.Ok) (ha : e.Allowed v)
    (hpost : (e.apply v).owners < 2 ^ 32 - 1) (hl : v.Live) (hna : e.isAlloc = false) :
    (e.apply v).Live := by
  have hlt := h.strong_lt
  cases e with
  | skip => exact hl
  | snap => exact hl
  | inc =>
    left
    simp only [Effect.apply, Circ.incrementStrong, wrapAdd] at hpost ⊢
    have hle : v.strong ≤ v.owners + 1 := by rcases h.count with h | h <;> omega
    split_ifs <;> omega
  | dec k n =>
    obtain ⟨hk, hko, rfl⟩ := ha
    have hle : k ≤ v.strong := by rcases h.count with h | h <;> omega
    have hn : k % 2 ^ 32 = k := Nat.mod_eq_of_lt (by omega)
    simp only [View.Live, Effect.apply, hn, decrementStrong_of_le hlt hle, beq_iff_eq]
    split_ifs <;> omega
  | tryZero =>
    by_cases h0 : v.strong = 0
    · simp [View.Live, Effect.apply, h0]
    · simp only [View.Live, Effect.apply, h0, if_false,
        decrementStrong_of_le hlt (Nat.one_le_iff_ne_zero.2 h0), beq_iff_eq]
      split_ifs <;> omega
  | alloc => simp [Effect.isAlloc] at hna

/-- The tracked block was allocated before the run and can still be disposed,
or has been, all along a run that keeps fewer than `2 ^ 32 - 1` owners. -/
theorem Reach.live {s0 : State} (h0 : Inv s0) (hb0 : ∀ b, s0.owners b < 2 ^ 32 - 1)
    (hl : (s0.view b).Live) (hn : b < s0.next) (h : Reach (2 ^ 32 - 1) s0 s) :
    (s.view b).Live ∧ b < s.next := by
  induction h with
  | refl => exact ⟨hl, hn⟩
  | @step s₁ s₂ op hr hstep hbound ih =>
    obtain ⟨c, e, hc⟩ := step_changes hstep
    obtain ⟨hs, -⟩ := hr.inv h0 hb0
    have hnext : b < s₂.next := by have := ih.2; have := hc.next; split_ifs at this <;> omega
    refine ⟨?_, hnext⟩
    by_cases hbc : b = c
    · subst hbc
      have hna : e.isAlloc = false := by
        cases ha : e.isAlloc
        · rfl
        · have := hc.alloc_next ha
          omega
      rw [hc.self]
      exact (hs.ok b).live_apply hc.allowed (hc.self ▸ hbound b) ih.1 hna
    · exact hc.others b hbc ▸ ih.1

/-- The deferred `try_zero` of a block with count zero disposes it. -/
theorem disposed_tryZero_of_zero (h : (s.blocks b).strong = 0) :
    ((s.tryZero b).blocks b).disposed = (s.blocks b).disposed + 1 := by
  simp [State.tryZero, h]

/-- The deferred `try_zero` of a block with count one takes it to zero and
defers a fresh `try_zero`. -/
theorem tryZero_of_one (h : (s.blocks b).strong = 1) :
    ((s.tryZero b).blocks b).strong = 0 ∧ ((s.tryZero b).blocks b).disposed =
      (s.blocks b).disposed ∧ b ∈ (s.tryZero b).closures := by
  simp [State.tryZero, h, Circ.decrementStrong, wrapSub]

@[simp] theorem owners_tryZero : (s.tryZero b).owners = s.owners := by
  unfold State.tryZero
  split_ifs <;> simp

/-- A block with no owner left, that can still be disposed, is disposed by at
most two runs of its pending `try_zero`: the second when the first finds the
permission of a resurrection and gives it back. -/
theorem Inv.disposes (hs : Inv s) (hb : ∀ b, s.owners b < 2 ^ 32 - 1) (hl : (s.view b).Live)
    (ho : s.owners b = 0) : ∃ s', Reach (2 ^ 32 - 1) s s' ∧ (s'.blocks b).disposed = 1 := by
  have hok := hs.ok b
  by_cases hd : (s.blocks b).disposed = 0
  · have hp : b ∈ s.closures ∧ ((s.blocks b).strong = 0 ∨ (s.blocks b).strong = 1) := by
      have := hok.count
      simp only [View.Live, view] at hl this
      rw [← List.count_pos_iff]
      omega
    have step1 : step s (.tryZero b) = some (s.tryZero b) := by simp [step, hp.1]
    have hb1 : ∀ c, (s.tryZero b).owners c < 2 ^ 32 - 1 := by simpa using hb
    rcases hp.2 with h0 | h1
    · exact ⟨_, .step .refl step1 hb1, by simp [disposed_tryZero_of_zero h0, hd]⟩
    · obtain ⟨h0, hd1, hin⟩ := tryZero_of_one h1
      have step2 : step (s.tryZero b) (.tryZero b) = some ((s.tryZero b).tryZero b) := by
        simp [step, hin]
      exact ⟨_, .step (.step .refl step1 hb1) step2 (by simpa using hb),
        by simp [disposed_tryZero_of_zero h0, hd1, hd]⟩
  · exact ⟨s, .refl, (hok.disposed hd).1⟩

/-- A block allocated with a count of zero, that nothing points at and no
closure waits for, stays so whatever runs. -/
theorem Reach.orphan {B : Nat} {s0 : State} (hz : s0.view b = View.zero) (hn : b < s0.next)
    (h : Reach B s0 s) : s.view b = View.zero ∧ b < s.next := by
  induction h with
  | refl => exact ⟨hz, hn⟩
  | @step s₁ s₂ op _ hstep _ ih =>
    obtain ⟨c, e, hc⟩ := step_changes hstep
    have hnext : b < s₂.next := by have := ih.2; have := hc.next; split_ifs at this <;> omega
    refine ⟨?_, hnext⟩
    by_cases hbc : b = c
    · subst hbc
      have hna : e.isAlloc = false := by
        cases ha : e.isAlloc
        · rfl
        · have := hc.alloc_next ha
          omega
      rw [hc.self, ih.1]
      exact Effect.apply_zero (ih.1 ▸ hc.allowed) hna
    · exact hc.others b hbc ▸ ih.1

/-- The block a `new_many` or `new_many_iter` of `n` handles allocates: owned
`n` times, with a count of `n as u32`, and nothing else of the state changed
for the other blocks. -/
theorem step_newMany {s0 s1 : State} {op : Op} {n : Nat}
    (hop : op = .newMany n ∨ op = .newManyIter n) (h1 : step s0 op = some s1) :
    s1.next = s0.next + 1 ∧ ((s1.blocks s0.next).strong = n % 2 ^ 32 ∧
      (s1.blocks s0.next).disposed = 0) ∧
    ∀ b, s1.owners b = s0.owners b + if b = s0.next then n else 0 := by
  rcases hop with rfl | rfl <;> obtain rfl := Option.some.inj h1 <;>
    simp [Block.alloc, Ptr.owns, Iter.held, eq_comm]

/-- **Handles made at once.**  Let `new_many::<N>` or `new_many_iter` allocate
a block with `0 < n < 2 ^ 32 - 1` handles in a reachable state, and let any
operations follow, with deferred `try_zero`s run at any points, while fewer
than `2 ^ 32 - 1` owners of any block remain.  Then the block is disposed at
most once; only when none of its handles is left and no iterator over it has
anything left to hand out; and once that is so and it has not been disposed,
running its pending `try_zero` disposes it. -/
theorem newMany_disposed_once {s0 s1 s : State} {op : Op} {n : Nat}
    (hop : op = .newMany n ∨ op = .newManyIter n) (hn : 0 < n) (hn' : n < 2 ^ 32 - 1)
    (h0 : Reachable (2 ^ 32 - 1) s0) (h1 : step s0 op = some s1) (h : Reach (2 ^ 32 - 1) s1 s) :
    (s.blocks s0.next).disposed ≤ 1 ∧
    (0 < (s.blocks s0.next).disposed → s.owners s0.next = 0) ∧
    (s.owners s0.next = 0 → ∃ s', Reach (2 ^ 32 - 1) s s' ∧ (s'.blocks s0.next).disposed = 1) := by
  obtain ⟨hs0, hb0⟩ := h0.inv Inv.empty (fun _ => by simp [State.empty, owners])
  obtain ⟨hnext, ⟨hstrong, -⟩, hown⟩ := step_newMany hop h1
  have hfresh : s0.owners s0.next = 0 := by
    have := hs0.fresh _ le_rfl
    simp only [view, View.zero, View.mk.injEq] at this
    exact this.1
  have hb1 : ∀ b, s1.owners b < 2 ^ 32 - 1 := fun b => by
    have := hb0 b
    rw [hown]
    split_ifs with hb
    · subst hb
      omega
    · omega
  obtain ⟨c, e, hc⟩ := step_changes h1
  have hs1 := hs0.changes hc hb0 hb1
  obtain ⟨hs, hbs⟩ := h.inv hs1 hb1
  have hpos : 0 < (s1.blocks s0.next).strong := by
    rw [hstrong, Nat.mod_eq_of_lt (by omega)]
    exact hn
  have hl := (h.live hs1 hb1 (.inl hpos) (by omega)).1
  have hok := hs.ok s0.next
  refine ⟨?_, fun hd => ?_, hs.disposes hbs hl⟩
  · by_cases hd : (s.blocks s0.next).disposed = 0
    · omega
    · exact (hok.disposed hd).1.le
  · have hcount := hok.count
    have hdisp := hok.disposed
    simp only [view] at hcount hdisp hd ⊢
    omega

/-- `new_many::<2>` and the drop of both handles: the block has no owner, is
not disposed, and its `try_zero` is pending; once that `try_zero` has run, the
block is disposed, once. -/
theorem newMany_disposed_once_two :
    ∃ s2 s3 : State, Reach (2 ^ 32 - 1) ((State.empty.alloc 2).pushRcs (List.replicate 2 (some 0))) s2 ∧
      Reach (2 ^ 32 - 1) ((State.empty.alloc 2).pushRcs (List.replicate 2 (some 0))) s3 ∧
      s2.owners 0 = 0 ∧ (s2.blocks 0).disposed = 0 ∧ s2.closures = [0] ∧ (s3.blocks 0).disposed = 1 ∧
      ((s2.blocks 0).disposed ≤ 1 ∧ (0 < (s2.blocks 0).disposed → s2.owners 0 = 0) ∧
        (s2.owners 0 = 0 → ∃ s', Reach (2 ^ 32 - 1) s2 s' ∧ (s'.blocks 0).disposed = 1)) ∧
      ((s3.blocks 0).disposed ≤ 1 ∧ (0 < (s3.blocks 0).disposed → s3.owners 0 = 0) ∧
        (s3.owners 0 = 0 → ∃ s', Reach (2 ^ 32 - 1) s3 s' ∧ (s'.blocks 0).disposed = 1)) := by
  have h2 : Reach (2 ^ 32 - 1) ((State.empty.alloc 2).pushRcs (List.replicate 2 (some 0))) _ :=
    ((Reach.refl : Reach (2 ^ 32 - 1) ((State.empty.alloc 2).pushRcs (List.replicate 2 (some 0)))
      _).step_small (rfl : step _ (.rcDrop 0) = _) (by decide)).step_small
      (rfl : step _ (.rcDrop 1) = _) (by decide)
  have h3 := h2.step_small (rfl : step _ (.tryZero 0) = _) (by decide)
  exact ⟨_, _, h2, h3, by decide, rfl, rfl, rfl,
    newMany_disposed_once (.inl rfl) (by decide) (by decide) .refl rfl h2,
    newMany_disposed_once (.inl rfl) (by decide) (by decide) .refl rfl h3⟩

/-- **A count of zero leaks.**  `new_many::<0>` and `new_many_iter(obj, 0)`
allocate a block that no later operation ever disposes. -/
theorem newMany_zero_leaks {B : Nat} {s0 s1 s : State} {op : Op}
    (hop : op = .newMany 0 ∨ op = .newManyIter 0) (h0 : Reachable (2 ^ 32 - 1) s0)
    (h1 : step s0 op = some s1) (h : Reach B s1 s) : (s.blocks s0.next).disposed = 0 := by
  obtain ⟨hs0, -⟩ := h0.inv Inv.empty (fun _ => by simp [State.empty, owners])
  have hz := hs0.fresh _ le_rfl
  simp only [view, View.zero, View.mk.injEq, decide_eq_false_iff_not] at hz
  have hz1 : s1.view s0.next = View.zero := by
    rcases hop with rfl | rfl <;> obtain rfl := Option.some.inj h1 <;>
      simp [view, View.zero, hz, Block.alloc, Iter.held]
  have := (h.orphan hz1 (by rw [(step_newMany hop h1).1]; omega)).1
  simpa [view, View.zero] using congrArg View.disposed this

/-- `new_many_iter(obj, 0)`, the iterator's `next` and its drop, then a second
block made by `Rc::new`, dropped and disposed: the iterator's block is still
not disposed. -/
theorem newMany_zero_leaks_iter :
    ∃ s, Reach (2 ^ 32 - 1) ((State.empty.alloc 0).pushIter ⟨0, 0⟩) s ∧ s.iters = [⟨0, 0⟩] ∧
      (s.blocks 1).disposed = 1 ∧ (s.blocks 0).disposed = 0 := by
  have h : Reach (2 ^ 32 - 1) ((State.empty.alloc 0).pushIter ⟨0, 0⟩) _ :=
    (((((Reach.refl : Reach (2 ^ 32 - 1) ((State.empty.alloc 0).pushIter ⟨0, 0⟩) _).step_small
      (rfl : step _ (.iterNext 0) = _) (by decide)).step_small
      (rfl : step _ (.iterDrop 0) = _) (by decide)).step_small (rfl : step _ .rcNew = _)
      (by decide)).step_small (rfl : step _ (.rcDrop 0) = _) (by decide)).step_small
      (rfl : step _ (.tryZero 1) = _) (by decide)
  exact ⟨_, h, rfl, rfl, newMany_zero_leaks (.inr rfl) .refl rfl h⟩

/-- `new_many_iter(obj, 2 ^ 32 + 1)`, one handle taken and dropped, and its
`try_zero` run: the block is disposed while the iterator still has `2 ^ 32`
handles to hand out.  The iterator's drop and the `try_zero` it defers then
dispose the block a second time. -/
theorem newManyIter_disposed_twice :
    (run State.empty [.newManyIter (2 ^ 32 + 1), .iterNext 0, .rcDrop 0, .tryZero 0]).map
      (fun s => ((s.blocks 0).disposed, s.iters)) = some (1, [⟨2 ^ 32, 0⟩]) ∧
    (run State.empty [.newManyIter (2 ^ 32 + 1), .iterNext 0, .rcDrop 0, .tryZero 0,
      .iterDrop 0, .tryZero 0]).map (fun s => (s.blocks 0).disposed) = some 2 := by
  decide

end Circ.Api
