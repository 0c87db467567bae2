import Circ.Queue.Preservation
import Mathlib.Data.List.Perm.Subperm

/-!
# The doubly linked queue is an atomic FIFO queue

The queue the nodes stand for is `State.view`: the items of the nodes linked
after `head`, walked as `dequeue` walks them.  Every step of every interleaving
leaves it alone, appends one item, or takes the first one off, as an atomic
queue would (`queue_refines_atomicQueue`).  An item is appended at the store
that links its node, made by its own `enqueue` or by the `enqueue` after it,
while its own `enqueue` is still running; an item is taken off by the
`compare_exchange` of a `dequeue` on `head`, which returns that node, and the
node has an item for `Output::output` to unwrap.  A `dequeue` that returns
`None` reads a null `next` when the queue is empty (`view_of_loadNext_null`).
-/

namespace Circ.Queue

variable {T : Type} {n : Nat}

/-! ### The atomic queue -/

namespace AtomicQueue

/-- Add `x` at the back. -/
def enqueue (q : List T) (x : T) : List T := q ++ [x]

/-- Take the front off and return it. -/
def dequeue : List T → Option T × List T
  | [] => (none, [])
  | x :: q => (some x, q)

end AtomicQueue

/-! ### What the nodes stand for -/

/-- The nodes linked from `o`, at most `fuel` of them. -/
def State.walk (s : State T n) : Nat → Option Nat → List Nat
  | 0, _ => []
  | fuel + 1, o =>
    match o with
    | none => []
    | some a => a :: s.walk fuel (s.nodes a).next

/-- The queue: the items of the nodes linked after `head`.  No list of
distinct nodes is longer than `size`. -/
def State.view (s : State T n) : List T :=
  (s.walk s.size (s.nodes s.head).next).filterMap fun a => (s.nodes a).item

theorem State.init_view : (State.init : State T n).view = [] := rfl

section View

variable {s s' : State T n} {A A' : List Nat}

theorem State.ListFrom.walk_eq {o : Option Nat} (h : s.ListFrom o A) {fuel : Nat}
    (hlen : A.length ≤ fuel) : s.walk fuel o = A := by
  induction A generalizing o fuel with
  | nil => cases fuel <;> simp [State.walk, show o = none from h]
  | cons a A ih =>
    obtain ⟨fuel, rfl⟩ : ∃ f, fuel = f + 1 := ⟨fuel - 1, by simp at hlen; omega⟩
    simp [State.walk, h.1, ih h.2 (by simpa using hlen)]

/-- The linked nodes are distinct allocated nodes. -/
theorem State.Heap.length_le (hh : s.Heap A) : A.length ≤ s.size := by
  have hsub : A ⊆ List.range s.size := fun a ha => List.mem_range.2 (hh.lt_size a ha)
  simpa using (hh.nodup.subperm hsub).length_le

/-- The queue is the items of the nodes after `head`. -/
theorem State.Heap.view_eq (hh : s.Heap A) {B C : List Nat} (hA : A = B ++ s.head :: C) :
    s.view = C.filterMap fun a => (s.nodes a).item := by
  have hlen : C.length ≤ s.size := le_trans (by simp [hA]; omega) hh.length_le
  have hl : s.ListFrom (some 0) (B ++ s.head :: C) := hA ▸ hh.list
  rw [State.view, hl.suffix.2.walk_eq hlen]

end View

/-! ### Every step is a step of the atomic queue -/

/-- A step of the queue seen through `State.view`: the queue does not change;
or the node of an `enqueue` still at its last store is linked, and its item is
added at the back as `AtomicQueue.enqueue` does; or the `compare_exchange` of a
`dequeue` takes the front off as `AtomicQueue.dequeue` does, and returns its
node, whose item `Output::output` reads. -/
def QueueStep (s s' : State T n) : Prop :=
  s'.view = s.view ∨
  (∃ u lt m x, s.threads u = .link lt m ∧ (s.nodes m).item = some x ∧
    s'.view = AtomicQueue.enqueue s.view x) ∨
  (∃ t lh ln x, s.threads t = .casHead lh ln ∧ s'.threads t = .dequeued (some ln) ∧
    (s.nodes ln).item = some x ∧ AtomicQueue.dequeue s.view = (some x, s'.view))

section Refinement

variable {s s' : State T n} {A A' : List Nat} {t : Fin n}

/-- A linked node other than the first sentinel holds an item. -/
theorem State.Heap.item_eq_some (hh : s.Heap A) {a : Nat} (ha : a ∈ A) (h0 : a ≠ 0) :
    ∃ x, (s.nodes a).item = some x :=
  Option.ne_none_iff_exists'.1 (hh.item a ha h0)

/-- The nodes after `head` are not the first sentinel. -/
theorem State.Heap.ne_zero_of_after (hh : s.Heap A) {B C : List Nat} {a : Nat}
    (hA : A = B ++ s.head :: C) (ha : a ∈ C) : a ≠ 0 :=
  hh.ne_zero_of_mem_tail (by subst hA; cases B <;> simp [ha])

theorem Stepped.queueStep (hs : Inv s A) (hst : Stepped s A s' A' t) : QueueStep s s' := by
  have hh := hs.heap
  have hh' := hst.inv.heap
  obtain ⟨own, hg⟩ := hst.grows
  obtain ⟨B, C, hA⟩ := List.append_of_mem hh.head
  -- the items of linked nodes do not change
  have hitems : ∀ D : List Nat, (∀ a ∈ D, a ∈ A) →
      D.filterMap (fun a => (s'.nodes a).item) = D.filterMap fun a => (s.nodes a).item :=
    fun D hD => List.filterMap_congr fun a ha => (hg.pub a (.inl (hD a ha))).2
  have hC : ∀ a ∈ C, a ∈ A := fun a ha => by simp [hA, ha]
  rcases hst.effect with ⟨rfl, hhead⟩ | ⟨u, lt, m, rfl, hhead, hu⟩ | ⟨lh, ln, hA', ht, ht', rfl, hhead⟩
  · -- no node is linked and `head` stays
    refine .inl ?_
    rw [hh'.view_eq (B := B) (C := C) (by rw [hhead]; exact hA), hh.view_eq hA, hitems C hC]
  · -- the node `m` of the `enqueue` at its last store is linked
    have hmA : m ∉ A := fun h => (List.nodup_append.1 hh'.nodup).2.2 h (List.mem_singleton_self m)
    have hmt : m = s.tail := (hg.linked m (by simp)).resolve_left hmA
    obtain ⟨x, hx⟩ := hh'.item_eq_some (a := m) (by simp) fun h0 => hmA (by rw [h0]; exact hh.zero_mem)
    rw [(hg.pub m (.inr hmt)).2] at hx
    refine .inr (.inl ⟨u, lt, m, x, hu, hx, ?_⟩)
    rw [hh'.view_eq (B := B) (C := C ++ [m]) (by rw [hhead, hA]; simp), hh.view_eq hA,
      List.filterMap_append, hitems C hC, AtomicQueue.enqueue]
    simp [(hg.pub m (.inr hmt)).2, hx]
  · -- the `compare_exchange` of `dequeue` moves `head` to `ln`
    subst A'
    obtain ⟨-, hln⟩ : s.ThreadOk A (.casHead s.head ln) := ht ▸ hs.thread_ok t
    have hl : s.ListFrom (some 0) (B ++ s.head :: C) := hA ▸ hh.list
    obtain ⟨c, C, rfl⟩ : ∃ c C', C = c :: C' := by
      cases C with
      | nil => exact absurd (hln.symm.trans hl.suffix.2) nofun
      | cons c C => exact ⟨c, C, rfl⟩
    obtain rfl : ln = c := Option.some.inj (hln.symm.trans hl.suffix.2.1)
    obtain ⟨x, hx⟩ := hh.item_eq_some (hC ln (List.mem_cons_self _ _))
      (hh.ne_zero_of_after hA (List.mem_cons_self _ _))
    refine .inr (.inr ⟨t, s.head, ln, x, ht, ht', hx, ?_⟩)
    rw [hh'.view_eq (B := B ++ [s.head]) (C := C) (by rw [hhead, hA]; simp), hh.view_eq hA,
      hitems C fun a ha => hC a (List.mem_cons_of_mem _ ha), List.filterMap_cons_some (f := fun a => (s.nodes a).item) hx]
    rfl

/-- **The doubly linked queue refines an atomic FIFO queue.**  From every
reachable state, every step of every thread leaves the queue unchanged; or
stores the missing link of an `enqueue` still running, which adds that
`enqueue`'s item at the back as `AtomicQueue.enqueue` would; or is a
successful `compare_exchange` of `dequeue` on `head`, which takes the front
item off as `AtomicQueue.dequeue` would and returns the node holding it. -/
theorem queue_refines_atomicQueue {a : Action T n} (hr : Reachable s) (h : step s a = some s') :
    QueueStep s s' := by
  obtain ⟨A, hs⟩ := hr.inv
  obtain ⟨t, A', hst⟩ := hs.step h
  exact hst.queueStep hs

theorem queue_refines_atomicQueue_link :
    ∃ s s' : State Nat 1, Reachable s ∧ step s (.exec 0) = some s' ∧ QueueStep s s' ∧
      s.view = [] ∧ s'.view = [5] := by
  have hr : Reachable (T := Nat) (n := 1) _ :=
    .runs (l := [.invoke 0 (.enqueue 5), .exec 0, .exec 0, .exec 0, .exec 0]) .init rfl
  exact ⟨_, _, hr, rfl, queue_refines_atomicQueue hr (a := .exec 0) rfl, rfl, rfl⟩

/-- **A `dequeue` returns `None` only on an empty queue.**  When a `dequeue`
loads a null `next` from the `head` it read, the queue is empty at that
instant. -/
theorem view_of_loadNext_null (hr : Reachable s) {lh : Nat} (ht : s.threads t = .loadNext lh)
    (hnull : (s.nodes lh).next = none) : s.view = [] := by
  obtain ⟨A, hs⟩ := hr.inv
  obtain ⟨B, C, hA, hh⟩ : s.ThreadOk A (.loadNext lh) := ht ▸ hs.thread_ok t
  have hl : s.ListFrom (some 0) (B ++ lh :: C) := hA ▸ hs.heap.list
  obtain rfl : C = [] := by
    cases C with
    | nil => rfl
    | cons c C => exact absurd (hnull.symm.trans hl.suffix.2.1) nofun
  obtain rfl : s.head = lh := List.mem_singleton.1 hh
  rw [hs.heap.view_eq hA]
  rfl

theorem view_of_loadNext_null_init :
    ∃ s : State Nat 1, Reachable s ∧ s.threads 0 = .loadNext 0 ∧ (s.nodes 0).next = none ∧
      s.view = [] := by
  have hr : Reachable (T := Nat) (n := 1) _ := .runs (l := [.invoke 0 .dequeue, .exec 0]) .init rfl
  exact ⟨_, hr, rfl, rfl, view_of_loadNext_null hr (t := 0) rfl rfl⟩

end Refinement

end Circ.Queue
