import Circ.Api.State

/-!
# The public operations of `strong.rs`

Each public operation is one step on the client's state: it reads the
variables it is given, moves handles between them and calls the counter
operations of `RcInner` that the source calls.  A deferred `try_zero` runs as a
step of its own, at any point after its `defer`.

A step is `none` when a variable does not exist, or when the operation cannot
have that outcome: a compare-and-exchange succeeds only on a slot that points
at the expected block, and may always fail (a weak one spuriously, any of them
on a differing tag, which this level does not see).  `Snapshot::counted` is
called only on a snapshot whose block is not disposed, since the guard it
lives under keeps the block from being disposed.
-/

namespace Circ.Api

/-- A handle `OwnRc::take` and `EdgeTaker::take` can empty. -/
inductive Owner
  /-- The `Rc` value in variable `i`. -/
  | rc (i : Nat)
  /-- The `AtomicRc` slot `j`. -/
  | atomic (j : Nat)
  deriving DecidableEq, Repr

/-- A public operation, with the variables it reads.  `Rc::finalize` is
`rcDrop` with a guard at hand, `NewRcIter::abort` is `iterDrop` with one,
`From<Snapshot> for Rc` is `counted`, and `compare_exchange_weak` is
`compareExchange`. -/
inductive Op
  | rcNull
  | rcNew
  /-- `Rc::new_many::<N>`. -/
  | newMany (n : Nat)
  /-- `Rc::new_many_iter(obj, count)`. -/
  | newManyIter (count : Nat)
  | iterNext (i : Nat)
  | iterDrop (i : Nat)
  | rcClone (i : Nat)
  | rcDrop (i : Nat)
  /-- `OwnRc::take`. -/
  | take (o : Owner)
  | rcSnapshot (i : Nat)
  | counted (k : Nat)
  | atomicNew
  | atomicNull
  /-- `From<Rc> for AtomicRc`. -/
  | atomicFromRc (i : Nat)
  /-- `From<&Rc> for AtomicRc`. -/
  | atomicFromRcRef (i : Nat)
  | load (j : Nat)
  | store (j i : Nat)
  | swap (j i : Nat)
  /-- Slot `j`, expected snapshot `k`, desired `Rc` in variable `i`. -/
  | compareExchange (j k i : Nat) (success : Bool)
  | compareExchangeTag (j k : Nat) (success : Bool)
  | atomicDrop (j : Nat)
  | edgeTake (o : Owner)
  | downgrade (i : Nat)
  /-- `Rc::weak_many::<N>` on the `Rc` in variable `i`. -/
  | weakMany (i n : Nat)
  | weakDrop (w : Nat)
  /-- The deferred `try_zero` of block `b` runs. -/
  | tryZero (b : Nat)
  deriving DecidableEq, Repr

namespace State

/-- The handle in an `OwnRc`. -/
def owner (s : State) : Owner → Option Ptr
  | .rc i => s.rcs[i]?
  | .atomic j => s.slots[j]?

/-- Empty an `OwnRc`, as `mem::take` does. -/
def clear (s : State) : Owner → State
  | .rc i => s.setRc i none
  | .atomic j => s.setSlot j none

/-- `if let Some(cnt) = p.as_raw().as_ref() { cnt.increment_strong() }`. -/
def acquire (s : State) (p : Ptr) : State := s.ifSome p s.incrementStrong

/-- `if let Some(cnt) = p.as_raw().as_mut() { RcInner::decrement_strong(cnt, n, ..) }`. -/
def release (s : State) (p : Ptr) (n : Nat) : State := s.ifSome p (s.decrementStrong · n)

/-- `if let Some(cnt) = p.as_raw().as_ref() { cnt.increment_weak(n) }`. -/
def acquireWeak (s : State) (p : Ptr) (n : Nat) : State := s.ifSome p (s.incrementWeak · n)

/-- The drop of a `Weak` holding `p`: `decrement_weak(1)` when it is not null. -/
def releaseWeak (s : State) (p : Ptr) : State := s.ifSome p s.decrementWeak

/-! Acquiring a count changes only the blocks, and the weak count only their
weak counts. -/

variable {s : State} {p : Ptr}

@[simp] theorem acquire_closures : (s.acquire p).closures = s.closures := by cases p <;> rfl
@[simp] theorem acquire_next : (s.acquire p).next = s.next := by cases p <;> rfl
@[simp] theorem acquire_snapshots : (s.acquire p).snapshots = s.snapshots := by cases p <;> rfl
@[simp] theorem acquire_owners : (s.acquire p).owners = s.owners := by cases p <;> rfl

@[simp] theorem acquireWeak_closures {n : Nat} : (s.acquireWeak p n).closures = s.closures := by
  cases p <;> rfl
@[simp] theorem acquireWeak_next {n : Nat} : (s.acquireWeak p n).next = s.next := by
  cases p <;> rfl
@[simp] theorem acquireWeak_snapshots {n : Nat} : (s.acquireWeak p n).snapshots = s.snapshots := by
  cases p <;> rfl
@[simp] theorem acquireWeak_owners {n : Nat} : (s.acquireWeak p n).owners = s.owners := by
  cases p <;> rfl
@[simp] theorem acquireWeak_strong {n b : Nat} :
    ((s.acquireWeak p n).blocks b).strong = (s.blocks b).strong := by
  cases p <;> simp [acquireWeak]
@[simp] theorem acquireWeak_disposed {n b : Nat} :
    ((s.acquireWeak p n).blocks b).disposed = (s.blocks b).disposed := by
  cases p <;> simp [acquireWeak]

@[simp] theorem releaseWeak_closures : (s.releaseWeak p).closures = s.closures := by cases p <;> rfl
@[simp] theorem releaseWeak_next : (s.releaseWeak p).next = s.next := by cases p <;> rfl
@[simp] theorem releaseWeak_snapshots : (s.releaseWeak p).snapshots = s.snapshots := by
  cases p <;> rfl
@[simp] theorem releaseWeak_owners : (s.releaseWeak p).owners = s.owners := by cases p <;> rfl
@[simp] theorem releaseWeak_strong {b : Nat} :
    ((s.releaseWeak p).blocks b).strong = (s.blocks b).strong := by
  cases p <;> simp [releaseWeak]
@[simp] theorem releaseWeak_disposed {b : Nat} :
    ((s.releaseWeak p).blocks b).disposed = (s.blocks b).disposed := by
  cases p <;> simp [releaseWeak]

end State

open State

/-- One operation; `none` when it is not enabled. -/
def step (s : State) : Op → Option State
  | .rcNull => some (s.pushRc none)
  | .rcNew => some ((s.alloc 1).pushRc (some s.next))
  | .newMany n => some ((s.alloc n).pushRcs (List.replicate n (some s.next)))
  | .newManyIter count => some ((s.alloc count).pushIter ⟨count, s.next⟩)
  | .iterNext i => s.iters[i]?.map fun it =>
    if it.remain = 0 then s
    else (s.setIter i { it with remain := it.remain - 1 }).pushRc (some it.ptr)
  | .iterDrop i => s.iters[i]?.map fun it =>
    if 0 < it.remain then
      (s.setIter i { it with remain := 0 }).decrementStrong it.ptr (it.remain % 2 ^ 32)
    else s
  | .rcClone i => s.rcs[i]?.map fun p => (s.acquire p).pushRc p
  | .rcDrop i => s.rcs[i]?.map fun p => (s.setRc i none).release p 1
  | .take o => (s.owner o).map fun p => (s.clear o).pushRc p
  | .rcSnapshot i => s.rcs[i]?.map s.pushSnapshot
  | .counted k => s.snapshots[k]?.bind fun p =>
    if s.live p then some ((s.acquire p).pushRc p) else none
  | .atomicNew => some ((s.alloc 1).pushSlot (some s.next))
  | .atomicNull => some (s.pushSlot none)
  | .atomicFromRc i => s.rcs[i]?.map fun p => (s.setRc i none).pushSlot p
  | .atomicFromRcRef i => s.rcs[i]?.map fun p => (s.acquire p).pushSlot p
  | .load j => s.slots[j]?.map s.pushSnapshot
  | .store j i => s.slots[j]?.bind fun q => s.rcs[i]?.map fun p =>
    ((s.setSlot j p).setRc i none).release q 1
  | .swap j i => s.slots[j]?.bind fun q => s.rcs[i]?.map fun p =>
    ((s.setSlot j p).setRc i none).pushRc q
  | .compareExchange j k i success => s.slots[j]?.bind fun q => s.snapshots[k]?.bind fun e =>
    s.rcs[i]?.bind fun p =>
      if success then
        if q = e then some (((s.setSlot j p).setRc i none).pushRc q) else none
      else some (s.pushSnapshot q)
  | .compareExchangeTag j k success => s.slots[j]?.bind fun q => s.snapshots[k]?.bind fun e =>
    if success then
      if q = e then some (s.pushSnapshot q) else none
    else some ((s.pushSnapshot e).pushSnapshot q)
  | .atomicDrop j => s.slots[j]?.map fun q => (s.setSlot j none).release q 1
  | .edgeTake o => (s.owner o).map fun p => (s.clear o).pushTaken p
  | .downgrade i => s.rcs[i]?.map fun p => (s.acquireWeak p 1).pushWeaks [p]
  | .weakMany i n => s.rcs[i]?.map fun p =>
    (s.acquireWeak p (n % 2 ^ 32)).pushWeaks (List.replicate n none)
  | .weakDrop w => s.weaks[w]?.map fun p => (s.setWeak w none).releaseWeak p
  | .tryZero b => if b ∈ s.closures then some (s.tryZero b) else none

/-- Run a list of operations. -/
def run (s : State) : List Op → Option State
  | [] => some s
  | op :: ops => (step s op).bind fun s' => run s' ops

/-- States reached from `s0` by steps after each of which every block has
fewer than `bound` owners. -/
inductive Reach (bound : Nat) (s0 : State) : State → Prop
  | refl : Reach bound s0 s0
  | step {s s' : State} {op : Op} : Reach bound s0 s → step s op = some s' →
      (∀ b, s'.owners b < bound) → Reach bound s0 s'

/-- States reached from the empty heap while every block has fewer than
`bound` owners. -/
def Reachable (bound : Nat) : State → Prop := Reach bound State.empty

/-- A step to a state with fewer variables than the bound, counting what the
iterators have still to hand out, keeps every block below it. -/
theorem Reach.step_small {bound : Nat} {s0 s s' : State} {op : Op} (h : Reach bound s0 s)
    (hs : Circ.Api.step s op = some s')
    (hsize : s'.rcs.length + s'.slots.length + s'.taken.length + (s'.iters.map Iter.remain).sum
      < bound) : Reach bound s0 s' :=
  .step h hs fun b => lt_of_le_of_lt (State.owners_le_size (s := s') b) hsize

end Circ.Api
