import Circ.Tagged

/-!
# The abstract atomic cell

What an `AtomicRc` slot is for: an atomic cell holding a pointer up to its
epoch tag, that is the address and the user tag.  Each operation takes effect
at once, at its linearization step, between its invocation and the moment its
caller takes the result.  The compare-and-exchange operations compare the cell
with the expected value and, only when they are equal, replace it; a failure
reports the value seen and hands back the handle that was to be installed.
-/

namespace Circ.Cell

variable {k : Nat}

/-- An operation on the cell. -/
inductive Op (k : Nat)
  | load
  | store (v : Word)
  | swap (v : Word)
  /-- Replace `expected` by `new`; on failure hand back the handle `desired`. -/
  | compareExchange (expected new : Word) (desired : Raw k)
  | compareExchangeTag (expected new : Word)
  deriving DecidableEq, Repr

/-- What an operation returns. -/
inductive Ret (k : Nat)
  | snapshot (v : Word)
  | unit
  | rc (v : Word)
  | ok (v : Word)
  | err (desired : Raw k) (current : Word)
  | tagOk (v : Word)
  | tagErr (desired current : Word)
  deriving DecidableEq, Repr

/-- The atomic effect of an operation on a cell holding `cell`: the new value
and the result. -/
def Op.apply (cell : Word) : Op k → Word × Ret k
  | .load => (cell, .snapshot cell)
  | .store v => (v, .unit)
  | .swap v => (v, .rc cell)
  | .compareExchange e v d => if cell = e then (v, .ok e) else (cell, .err d cell)
  | .compareExchangeTag e v => if cell = e then (v, .tagOk e) else (cell, .tagErr v cell)

/-- A client thread of the cell. -/
inductive Thread (k : Nat)
  | idle
  | pending (op : Op k)
  | done (r : Ret k)
  deriving DecidableEq, Repr

/-- The cell and `n` client threads. -/
structure State (k n : Nat) where
  cell : Word
  threads : Fin n → Thread k

/-- Invocation, the atomic effect, and the return of an operation. -/
inductive Action (k n : Nat)
  | invoke (t : Fin n) (op : Op k)
  | linearize (t : Fin n)
  | reset (t : Fin n)

/-- One step of the cell; `none` when the action is not enabled. -/
def step {n : Nat} (s : State k n) : Action k n → Option (State k n)
  | .invoke t op =>
    match s.threads t with
    | .idle => some { s with threads := Function.update s.threads t (.pending op) }
    | _ => none
  | .linearize t =>
    match s.threads t with
    | .pending op =>
      some ⟨(op.apply s.cell).1, Function.update s.threads t (.done (op.apply s.cell).2)⟩
    | _ => none
  | .reset t =>
    match s.threads t with
    | .done _ => some { s with threads := Function.update s.threads t .idle }
    | _ => none

/-- States of the cell reached from `cell0` with every thread idle. -/
inductive Reachable {n : Nat} (cell0 : Word) : State k n → Prop
  | init : Reachable cell0 ⟨cell0, fun _ => .idle⟩
  | step {s s' : State k n} {a : Action k n} :
      Reachable cell0 s → step s a = some s' → Reachable cell0 s'

end Circ.Cell
