import Circ.RcInner
import Mathlib.Logic.Function.Basic
import Mathlib.Algebra.Order.BigOperators.Group.List
import Mathlib.Algebra.Order.Ring.Nat

/-!
# The handles of `strong.rs`

The public operations of `strong.rs` act on counted blocks through handles.
This file fixes the state they act on, as one client sees it between two
operations: the blocks with their counts, the deferred `try_zero` closures,
and the client's variables of each handle type: `Rc` values, `AtomicRc`
slots, the buffer of an `EdgeTaker`, `NewRcIter`s, `Snapshot`s and `Weak`s.

A pointer is seen as the block it names, or null.  Tags and epoch tags change
no count; they only decide whether a compare-and-exchange succeeds, which
`Circ.Slot` models word by word.  A variable whose handle has been moved out
or dropped reads as null (`mem::take` leaves exactly that), and an iterator
that has been dropped as one with nothing left to hand out, so the indices of
variables never shift.

`RcInner::alloc` and the weak count live in a later `crate::utils` that is not
part of the source; they follow the spec (§3, §4.2): a block starts with the
strong count it is asked for and a weak count of one.
-/

namespace Circ.Api

/-- A pointer as the counts see it: the block it names, or null. -/
abbrev Ptr := Option Nat

/-- A counted block `RcInner`: its strong and weak counts, as the `u32` values
the atomics hold, and how often `dispose` has run on it. -/
structure Block where
  strong : Nat
  weak : Nat
  disposed : Nat
  deriving DecidableEq, Repr

/-- A block that has not been allocated. -/
def Block.unused : Block := ⟨0, 0, 0⟩

/-- Modelled from the spec: `RcInner::alloc(obj, count)`: the strong count is
`count as u32`, and the weak count stands for all strong handles together. -/
def Block.alloc (count : Nat) : Block := ⟨count % 2 ^ 32, 1, 0⟩

/-- A `NewRcIter`: how many handles it still has to hand out, and its block. -/
structure Iter where
  remain : Nat
  ptr : Nat
  deriving DecidableEq, Repr

/-- The blocks, the closures in EBR bags, and the client's variables. -/
@[ext]
structure State where
  blocks : Nat → Block
  /-- Blocks `0, …, next - 1` have been allocated. -/
  next : Nat
  /-- The deferred `try_zero` closures, by block. -/
  closures : List Nat
  rcs : List Ptr
  slots : List Ptr
  /-- The buffer of an `EdgeTaker`. -/
  taken : List Ptr
  iters : List Iter
  snapshots : List Ptr
  weaks : List Ptr

/-- How many owners of block `b` a handle holding `p` counts for. -/
def Ptr.owns (b : Nat) (p : Ptr) : Nat := if p = some b then 1 else 0

@[simp] theorem Ptr.owns_none (b : Nat) : Ptr.owns b none = 0 := rfl

/-- The handles of block `b` that iterator `it` has still to hand out. -/
def Iter.held (b : Nat) (it : Iter) : Nat := if it.ptr = b then it.remain else 0

namespace State

/-- Nothing allocated, no variable. -/
def empty : State := ⟨fun _ => Block.unused, 0, [], [], [], [], [], [], []⟩

/-- The owners of block `b`: the `Rc` values, `AtomicRc` slots and
`EdgeTaker` entries that point at it, and what every `NewRcIter` over it has
still to hand out.  Snapshots and weak handles own nothing. -/
def owners (s : State) (b : Nat) : Nat :=
  (s.rcs.map (Ptr.owns b)).sum + (s.slots.map (Ptr.owns b)).sum +
    (s.taken.map (Ptr.owns b)).sum + (s.iters.map (Iter.held b)).sum

/-- Allocate the block `next`. -/
@[simps]
def alloc (s : State) (count : Nat) : State :=
  { s with blocks := Function.update s.blocks s.next (Block.alloc count), next := s.next + 1 }

@[simps] def pushRcs (s : State) (ps : List Ptr) : State := { s with rcs := s.rcs ++ ps }
@[simps] def pushRc (s : State) (p : Ptr) : State := { s with rcs := s.rcs ++ [p] }
@[simps] def setRc (s : State) (i : Nat) (p : Ptr) : State := { s with rcs := s.rcs.set i p }
@[simps] def pushSlot (s : State) (p : Ptr) : State := { s with slots := s.slots ++ [p] }
@[simps] def setSlot (s : State) (j : Nat) (p : Ptr) : State := { s with slots := s.slots.set j p }
@[simps] def pushTaken (s : State) (p : Ptr) : State := { s with taken := s.taken ++ [p] }
@[simps] def pushIter (s : State) (it : Iter) : State := { s with iters := s.iters ++ [it] }
@[simps] def setIter (s : State) (i : Nat) (it : Iter) : State :=
  { s with iters := s.iters.set i it }
@[simps] def pushSnapshot (s : State) (p : Ptr) : State :=
  { s with snapshots := s.snapshots ++ [p] }
@[simps] def pushWeaks (s : State) (ps : List Ptr) : State := { s with weaks := s.weaks ++ ps }
@[simps] def setWeak (s : State) (w : Nat) (p : Ptr) : State := { s with weaks := s.weaks.set w p }

/-- `if let Some(cnt) = p.as_raw().as_mut() { f(cnt) }`. -/
def ifSome (s : State) (p : Ptr) (f : Nat → State) : State :=
  match p with
  | some b => f b
  | none => s

@[simp] theorem ifSome_some (s : State) (b : Nat) (f : Nat → State) : s.ifSome (some b) f = f b :=
  rfl

@[simp] theorem ifSome_none (s : State) (f : Nat → State) : s.ifSome none f = s := rfl

/-- `RcInner::increment_strong` on block `b`: a `fetch_add(1)`, and a second
one when the first returned zero. -/
@[simps]
def incrementStrong (s : State) (b : Nat) : State :=
  { s with
    blocks := Function.update s.blocks b
      { s.blocks b with strong := Circ.incrementStrong (s.blocks b).strong } }

/-- Modelled from the spec: `RcInner::decrement_strong(n)` on block `b`, with
the count `n` of `strong.rs`: a `fetch_sub(n)`, and the `defer` of a
`try_zero` when it returned `n`. -/
@[simps]
def decrementStrong (s : State) (b n : Nat) : State :=
  { s with
    blocks := Function.update s.blocks b
      { s.blocks b with strong := (Circ.decrementStrong (s.blocks b).strong n).1 },
    closures := s.closures ++ if (Circ.decrementStrong (s.blocks b).strong n).2 then [b] else [] }

/-- Modelled from the spec: `RcInner::increment_weak(n)` on block `b`, a
`fetch_add(n)` on the weak count. -/
@[simps]
def incrementWeak (s : State) (b n : Nat) : State :=
  { s with
    blocks := Function.update s.blocks b { s.blocks b with weak := wrapAdd (s.blocks b).weak n } }

/-- Modelled from the spec: `RcInner::decrement_weak(1)` on block `b`, a
`fetch_sub(1)` on the weak count. -/
@[simps]
def decrementWeak (s : State) (b : Nat) : State :=
  { s with
    blocks := Function.update s.blocks b { s.blocks b with weak := wrapSub (s.blocks b).weak 1 } }

/-! Updating one count of a block leaves its other counts. -/

section

variable (f : Nat → Block) (b c x : Nat)

@[simp] theorem weak_update_strong :
    (Function.update f c { f c with strong := x } b).weak = (f b).weak := by
  by_cases h : b = c <;> simp [Function.update_apply, h]
@[simp] theorem disposed_update_strong :
    (Function.update f c { f c with strong := x } b).disposed = (f b).disposed := by
  by_cases h : b = c <;> simp [Function.update_apply, h]
@[simp] theorem strong_update_weak :
    (Function.update f c { f c with weak := x } b).strong = (f b).strong := by
  by_cases h : b = c <;> simp [Function.update_apply, h]
@[simp] theorem disposed_update_weak :
    (Function.update f c { f c with weak := x } b).disposed = (f b).disposed := by
  by_cases h : b = c <;> simp [Function.update_apply, h]

end

/-- `dispose` of block `b`. -/
@[simps]
def dispose (s : State) (b : Nat) : State :=
  { s with
    blocks := Function.update s.blocks b { s.blocks b with disposed := (s.blocks b).disposed + 1 } }

/-- A closure of block `b` leaves its EBR bag to run. -/
@[simps]
def dequeue (s : State) (b : Nat) : State := { s with closures := s.closures.erase b }

/-- Modelled from the spec: the weak decrement after `dispose`.  The deferred
`try_zero` of block `b` runs: its `fetch_add(0)` reads the count; zero means
`dispose`, which then gives back the weak unit of the strong handles (spec
§4.2), and more means a fresh `decrement_strong(1)`. -/
def tryZero (s : State) (b : Nat) : State :=
  if (s.blocks b).strong = 0 then ((s.dequeue b).dispose b).decrementWeak b
  else (s.dequeue b).decrementStrong b 1

/-- A `Snapshot` of `p` may still be used: its block has not been disposed.
Its guard keeps the block from being disposed while it is pinned, which
`Circ.Protocol` proves; here a snapshot of a disposed block is not used. -/
def live (s : State) : Ptr → Bool
  | some b => (s.blocks b).disposed == 0
  | none => true

end State

/-! ### Counting owners -/

/-- Replacing one entry of a list changes the sum of `f` by the difference. -/
theorem sum_map_set_add {α : Type} {f : α → Nat} {l : List α} {i : Nat} {y : α}
    (h : l[i]? = some y) (x : α) : ((l.set i x).map f).sum + f y = (l.map f).sum + f x := by
  induction l generalizing i with
  | nil => simp at h
  | cons a l ih =>
    cases i with
    | zero =>
      obtain rfl : a = y := by simpa using h
      simp only [List.set_cons_zero, List.map_cons, List.sum_cons]
      omega
    | succ i =>
      have := ih (i := i) (by simpa using h)
      simp only [List.set_cons_succ, List.map_cons, List.sum_cons]
      omega

/-- An entry of a list counts at most the sum. -/
theorem le_sum_map {α : Type} {f : α → Nat} {l : List α} {i : Nat} {y : α}
    (h : l[i]? = some y) : f y ≤ (l.map f).sum :=
  List.le_sum_of_mem (List.mem_map_of_mem f (List.getElem?_mem h))

namespace State

variable {s : State} {b : Nat}

/-- A block has no more owners than the client has variables, counting what
each iterator has still to hand out. -/
theorem owners_le_size (b : Nat) :
    s.owners b ≤ s.rcs.length + s.slots.length + s.taken.length + (s.iters.map Iter.remain).sum := by
  have hp : ∀ l : List Ptr, (l.map (Ptr.owns b)).sum ≤ l.length := fun l => by
    simpa using List.sum_le_card_nsmul (l.map (Ptr.owns b)) 1 (List.forall_mem_map.2 fun p _ => by
      unfold Ptr.owns; split_ifs <;> omega)
  have hi : (s.iters.map (Iter.held b)).sum ≤ (s.iters.map Iter.remain).sum :=
    List.sum_le_sum fun it _ => by unfold Iter.held; split_ifs <;> omega
  have := hp s.rcs
  have := hp s.slots
  have := hp s.taken
  simp only [owners]
  omega

@[simp] theorem owners_pushRcs (ps : List Ptr) :
    (s.pushRcs ps).owners b = s.owners b + (ps.map (Ptr.owns b)).sum := by
  simp only [owners, pushRcs_rcs, pushRcs_slots, pushRcs_taken, pushRcs_iters, List.map_append,
    List.sum_append]
  omega

@[simp] theorem owners_pushRc (p : Ptr) : (s.pushRc p).owners b = s.owners b + p.owns b := by
  simp only [owners, pushRc_rcs, pushRc_slots, pushRc_taken, pushRc_iters, List.map_append,
    List.sum_append, List.map_cons, List.map_nil, List.sum_cons, List.sum_nil]
  omega

@[simp] theorem owners_pushSlot (p : Ptr) : (s.pushSlot p).owners b = s.owners b + p.owns b := by
  simp only [owners, pushSlot_rcs, pushSlot_slots, pushSlot_taken, pushSlot_iters,
    List.map_append, List.sum_append, List.map_cons, List.map_nil, List.sum_cons, List.sum_nil]
  omega

@[simp] theorem owners_pushTaken (p : Ptr) : (s.pushTaken p).owners b = s.owners b + p.owns b := by
  simp only [owners, pushTaken_rcs, pushTaken_slots, pushTaken_taken, pushTaken_iters,
    List.map_append, List.sum_append, List.map_cons, List.map_nil, List.sum_cons, List.sum_nil]
  omega

@[simp] theorem owners_pushIter (it : Iter) :
    (s.pushIter it).owners b = s.owners b + it.held b := by
  simp only [owners, pushIter_rcs, pushIter_slots, pushIter_taken, pushIter_iters,
    List.map_append, List.sum_append, List.map_cons, List.map_nil, List.sum_cons, List.sum_nil]
  omega

theorem owns_le_of_rc {i : Nat} {p : Ptr} (h : s.rcs[i]? = some p) : p.owns b ≤ s.owners b := by
  have := le_sum_map (f := Ptr.owns b) h
  simp only [owners]
  omega

theorem owns_le_of_slot {j : Nat} {p : Ptr} (h : s.slots[j]? = some p) :
    p.owns b ≤ s.owners b := by
  have := le_sum_map (f := Ptr.owns b) h
  simp only [owners]
  omega

theorem held_le_of_iter {i : Nat} {it : Iter} (h : s.iters[i]? = some it) :
    it.held b ≤ s.owners b := by
  have := le_sum_map (f := Iter.held b) h
  simp only [owners]
  omega

@[simp] theorem owners_setRc {i : Nat} {q : Ptr} (h : s.rcs[i]? = some q) (p : Ptr) :
    (s.setRc i p).owners b = s.owners b - q.owns b + p.owns b := by
  have := sum_map_set_add (f := Ptr.owns b) h p
  have := owns_le_of_rc (b := b) h
  simp only [owners, setRc_rcs, setRc_slots, setRc_taken, setRc_iters] at *
  omega

@[simp] theorem owners_setSlot {j : Nat} {q : Ptr} (h : s.slots[j]? = some q) (p : Ptr) :
    (s.setSlot j p).owners b = s.owners b - q.owns b + p.owns b := by
  have := sum_map_set_add (f := Ptr.owns b) h p
  have := owns_le_of_slot (b := b) h
  simp only [owners, setSlot_rcs, setSlot_slots, setSlot_taken, setSlot_iters] at *
  omega

@[simp] theorem owners_setIter {i : Nat} {it : Iter} (h : s.iters[i]? = some it) (it' : Iter) :
    (s.setIter i it').owners b = s.owners b - it.held b + it'.held b := by
  have := sum_map_set_add (f := Iter.held b) h it'
  have := held_le_of_iter (b := b) h
  simp only [owners, setIter_rcs, setIter_slots, setIter_taken, setIter_iters] at *
  omega

/-- A `defer` adds one closure of its block. -/
@[simp] theorem count_deferred (a c : Nat) (P : Prop) [Decidable P] :
    (if P then [c] else []).count a = if P ∧ c = a then 1 else 0 := by
  split_ifs <;> simp_all [List.count_singleton]

/-! ### Frame lemmas -/

@[simp] theorem owners_alloc (n : Nat) : (s.alloc n).owners = s.owners := rfl
@[simp] theorem owners_pushSnapshot (p : Ptr) : (s.pushSnapshot p).owners = s.owners := rfl
@[simp] theorem owners_pushWeaks (ps : List Ptr) : (s.pushWeaks ps).owners = s.owners := rfl
@[simp] theorem owners_setWeak (w : Nat) (p : Ptr) : (s.setWeak w p).owners = s.owners := rfl
@[simp] theorem owners_incrementStrong (c : Nat) : (s.incrementStrong c).owners = s.owners := rfl
@[simp] theorem owners_decrementStrong (c n : Nat) : (s.decrementStrong c n).owners = s.owners :=
  rfl
@[simp] theorem owners_incrementWeak (c n : Nat) : (s.incrementWeak c n).owners = s.owners := rfl
@[simp] theorem owners_decrementWeak (c : Nat) : (s.decrementWeak c).owners = s.owners := rfl
@[simp] theorem owners_dispose (c : Nat) : (s.dispose c).owners = s.owners := rfl
@[simp] theorem owners_dequeue (c : Nat) : (s.dequeue c).owners = s.owners := rfl

end State

end Circ.Api
