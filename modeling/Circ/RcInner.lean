import Mathlib.Algebra.Group.Nat.Basic
import Mathlib.Data.Nat.Defs

/-!
# The strong count of `RcInner`

`RcInner<T>` keeps its strong count in an `AtomicU32`, so `fetch_add` and
`fetch_sub` wrap at `2 ^ 32`.  This file fixes that arithmetic and the two
counter operations of `internal/utils.rs` as a single caller sees them:
`increment_strong` adds one and, when it found zero, adds a second unit, the
permission for the `try_zero` already under way to decrement once more;
`decrement_strong` subtracts and defers `try_zero` when it took the count to
zero.  A deferred `try_zero` runs as steps of its own (`Circ.Protocol`,
`Circ.Api`).

`strong.rs` calls a later `RcInner` (in `crate::utils`, absent from the
source) whose `decrement_strong` takes a count `n`; following the spec (§4.2)
it defers when its `fetch_sub(n)` returned exactly `n`, which for `n = 1` is
the code below.
-/

namespace Circ

/-- The value `fetch_add(n)` leaves in an `AtomicU32` that held `v`. -/
def wrapAdd (v n : Nat) : Nat := (v + n) % 2 ^ 32

/-- The value `fetch_sub(n)` leaves in an `AtomicU32` that held `v`. -/
def wrapSub (v n : Nat) : Nat := (v + (2 ^ 32 - n % 2 ^ 32)) % 2 ^ 32

/-- Below the modulus `fetch_add` is addition. -/
theorem wrapAdd_of_lt {v n : Nat} (h : v + n < 2 ^ 32) : wrapAdd v n = v + n :=
  Nat.mod_eq_of_lt h

/-- Down to zero `fetch_sub` is subtraction. -/
theorem wrapSub_of_le {v n : Nat} (hv : v < 2 ^ 32) (h : n ≤ v) : wrapSub v n = v - n := by
  have hn : n % 2 ^ 32 = n := Nat.mod_eq_of_lt (by omega)
  rw [wrapSub, hn, show v + (2 ^ 32 - n) = v - n + 2 ^ 32 by omega, Nat.add_mod_right,
    Nat.mod_eq_of_lt (by omega)]

/-- `RcInner::increment_strong` as one call: `fetch_add(1)`, and a second
`fetch_add(1)` when the first returned zero. -/
def incrementStrong (v : Nat) : Nat :=
  if v = 0 then wrapAdd (wrapAdd v 1) 1 else wrapAdd v 1

/-- Modelled from the spec: `RcInner::decrement_strong` with a count `n`, as
`strong.rs` calls it, as one call: the value its `fetch_sub(n)` leaves, and
whether it defers `try_zero` (the `fetch_sub` returned `n`).  For `n = 1` it is
the code of `internal/utils.rs`. -/
def decrementStrong (v n : Nat) : Nat × Bool := (wrapSub v n, v == n)

theorem incrementStrong_of_pos {v : Nat} (hv : 0 < v) (h : v + 1 < 2 ^ 32) :
    incrementStrong v = v + 1 := by
  simp [incrementStrong, Nat.pos_iff_ne_zero.mp hv, wrapAdd_of_lt h]

@[simp] theorem incrementStrong_zero : incrementStrong 0 = 2 := rfl

theorem decrementStrong_of_le {v n : Nat} (hv : v < 2 ^ 32) (h : n ≤ v) :
    decrementStrong v n = (v - n, v == n) := by
  simp [decrementStrong, wrapSub_of_le hv h]

end Circ
