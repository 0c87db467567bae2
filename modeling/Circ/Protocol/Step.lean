import Circ.RcInner
import Mathlib.Logic.Relation

/-!
# The strong-count protocol of one block

Threads share one `RcInner` block.  Each atomic action of
`internal/utils.rs` is one step: the first `fetch_add` of
`increment_strong` (from `Rc::clone`, or from `Snapshot::counted` on a
snapshot held under a pinned guard), its second `fetch_add` when the first
returned zero, the `fetch_sub` of `decrement_strong`, the `CsEBR::defer` of
`try_zero` when that `fetch_sub` returned one, and the steps of a deferred
`try_zero`: its `fetch_add(0)` read, then `dispose` and `delete_object`, or a
fresh `decrement_strong`.

Guards carry the stamp of the moment they were pinned and a deferred closure
the stamp of its `defer`, both taken from one clock.  A closure runs only once
no guard older than it is still pinned: the EBR guarantee of `CsEBR::defer`.
Handles (`Rc` values and `AtomicRc` slots) are counted, since the protocol does
not care who holds them.
-/

namespace Circ.Protocol

/-- Where a thread stands inside the counter operations. -/
inductive Pc
  | idle
  /-- `increment_strong`'s first `fetch_add` returned zero; the second is due. -/
  | incrementing
  /-- `decrement_strong`'s `fetch_sub` returned one; the `defer` is due. -/
  | deferring
  deriving DecidableEq, Repr

/-- One thread, as far as the block is concerned. -/
structure Thread where
  /-- The stamp of the thread's pinned guard. -/
  guard : Option Nat
  /-- A `Snapshot` of the block loaded under that guard. -/
  snapshot : Bool
  pc : Pc
  deriving DecidableEq, Repr

/-- A `try_zero` closure of the block, named by the step it owes. -/
inductive Closure
  /-- In an EBR bag since stamp `stamp`. -/
  | deferred (stamp : Nat)
  /-- Read a positive count; owes `decrement_strong`'s `fetch_sub`. -/
  | redecrement
  /-- That `fetch_sub` returned one; owes the `defer` of a fresh `try_zero`. -/
  | redeferring
  /-- Read zero; owes `dispose`. -/
  | disposing
  /-- Owes `delete_object`. -/
  | deleting
  deriving DecidableEq, Repr

/-- The block, its handles, `n` threads and the closures in flight. -/
structure State (n : Nat) where
  /-- The value of the `AtomicU32` strong count. -/
  strong : Nat
  /-- `Rc` values and `AtomicRc` slots pointing at the block. -/
  handles : Nat
  threads : Fin n → Thread
  closures : List Closure
  clock : Nat
  /-- How often `dispose` has run. -/
  disposed : Nat
  /-- How often `delete_object` has run. -/
  deleted : Nat

/-- One atomic action of one thread, or one step of the `i`-th closure. -/
inductive Action (n : Nat)
  | pin (t : Fin n)
  | unpin (t : Fin n)
  | load (t : Fin n)
  | clone (t : Fin n)
  | counted (t : Fin n)
  | incrementAgain (t : Fin n)
  | drop (t : Fin n)
  | defer (t : Fin n)
  | tryZero (i : Nat)
  | redecrement (i : Nat)
  | redefer (i : Nat)
  | dispose (i : Nat)
  | deleteObject (i : Nat)
  deriving DecidableEq, Repr

/-- The actions that add one to the count. -/
def Action.increments : Action n → Bool
  | .clone _ | .counted _ | .incrementAgain _ => true
  | _ => false

/-- The thread still holds a guard pinned before stamp `d`. -/
def Thread.pinnedBefore (th : Thread) (d : Nat) : Bool :=
  match th.guard with
  | some g => decide (g < d)
  | none => false

/-- A freshly started, unpinned thread. -/
def Thread.fresh : Thread := ⟨none, false, .idle⟩

namespace State

variable {n : Nat}

/-- Just after `Rc::new`: count one, one handle, no guard. -/
def init (n : Nat) : State n :=
  ⟨1, 1, fun _ => Thread.fresh, [], 0, 0, 0⟩

/-- Replace the record of thread `t`. -/
def setThread (s : State n) (t : Fin n) (th : Thread) : State n :=
  { s with threads := Function.update s.threads t th }

/-- Every guard pinned before stamp `d` has been released. -/
def Released (s : State n) (d : Nat) : Prop := ∀ t, (s.threads t).pinnedBefore d = false

instance (s : State n) (d : Nat) : Decidable (s.Released d) :=
  inferInstanceAs (Decidable (∀ t : Fin n, (s.threads t).pinnedBefore d = false))

/-- The first `fetch_add(1)` of `increment_strong` by `t`: the new handle
exists at once, unless the count was zero and the second `fetch_add` is due. -/
def incrementFirst (s : State n) (t : Fin n) : State n :=
  if s.strong = 0 then
    { s.setThread t { s.threads t with pc := .incrementing } with strong := wrapAdd s.strong 1 }
  else
    { s with strong := wrapAdd s.strong 1, handles := s.handles + 1 }

end State

open State

/-- One step of the protocol; `none` when the action is not enabled. -/
def step {n : Nat} (s : State n) : Action n → Option (State n)
  | .pin t =>
    if (s.threads t).pc = .idle ∧ (s.threads t).guard = none then
      some { s.setThread t { s.threads t with guard := some s.clock } with clock := s.clock + 1 }
    else none
  | .unpin t =>
    if (s.threads t).pc = .idle ∧ (s.threads t).guard.isSome then
      some (s.setThread t { s.threads t with guard := none, snapshot := false })
    else none
  | .load t =>
    if (s.threads t).pc = .idle ∧ (s.threads t).guard.isSome ∧ 0 < s.handles then
      some (s.setThread t { s.threads t with snapshot := true })
    else none
  | .clone t =>
    if (s.threads t).pc = .idle ∧ 0 < s.handles then some (s.incrementFirst t) else none
  | .counted t =>
    if (s.threads t).pc = .idle ∧ (s.threads t).snapshot then some (s.incrementFirst t)
    else none
  | .incrementAgain t =>
    if (s.threads t).pc = .incrementing then
      some { s.setThread t { s.threads t with pc := .idle } with
        strong := wrapAdd s.strong 1, handles := s.handles + 1 }
    else none
  | .drop t =>
    if (s.threads t).pc = .idle ∧ 0 < s.handles then
      some { s.setThread t { s.threads t with
          pc := if (decrementStrong s.strong 1).2 then .deferring else .idle } with
        strong := (decrementStrong s.strong 1).1, handles := s.handles - 1 }
    else none
  | .defer t =>
    if (s.threads t).pc = .deferring then
      some { s.setThread t { s.threads t with pc := .idle } with
        closures := s.closures ++ [.deferred s.clock], clock := s.clock + 1 }
    else none
  | .tryZero i =>
    match s.closures[i]? with
    | some (.deferred d) =>
      if s.Released d then
        some { s with
          closures := s.closures.set i (if s.strong = 0 then .disposing else .redecrement) }
      else none
    | _ => none
  | .redecrement i =>
    if s.closures[i]? = some .redecrement then
      some { s with
        strong := (decrementStrong s.strong 1).1,
        closures := if (decrementStrong s.strong 1).2 then s.closures.set i .redeferring
          else s.closures.eraseIdx i }
    else none
  | .redefer i =>
    if s.closures[i]? = some .redeferring then
      some { s with closures := s.closures.set i (.deferred s.clock), clock := s.clock + 1 }
    else none
  | .dispose i =>
    if s.closures[i]? = some .disposing then
      some { s with closures := s.closures.set i .deleting, disposed := s.disposed + 1 }
    else none
  | .deleteObject i =>
    if s.closures[i]? = some .deleting then
      some { s with closures := s.closures.eraseIdx i, deleted := s.deleted + 1 }
    else none

/-- States reached from `init n` along runs in which the count stays below
`2 ^ 32`: no step adds one to the count `2 ^ 32 - 1`. -/
inductive Reachable {n : Nat} : State n → Prop
  | init : Reachable (init n)
  | step {s s' : State n} {a : Action n} :
      Reachable s → step s a = some s' → (a.increments → s.strong + 1 < 2 ^ 32) →
      Reachable s'

/-- Any number of steps, of any actions. -/
def Steps {n : Nat} : State n → State n → Prop :=
  Relation.ReflTransGen fun s s' => ∃ a, step s a = some s'

end Circ.Protocol
