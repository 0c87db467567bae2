import Circ.Queue.Step
import Mathlib.Data.List.Chain

/-!
# The invariant of the doubly linked queue

Every node that `next` ever linked stays linked: following `next` from the
first sentinel gives a finite list `A` of distinct nodes, in the order their
`enqueue`s moved the tail, ending in null, with each node's `prev` naming the
one before it.  `head` is a node of `A`; the nodes before it are the
sentinels `dequeue` left behind, those after it the items of the queue.

`tail` is the last node of `A`, or a node one past it whose link is still
missing (`State.Pending`): the `enqueue` that moved the tail to it has not
stored it yet, and no other `enqueue` can move the tail before the link is
stored, by that `enqueue` or by a helper.  So at most one link is ever
missing.

Besides, each thread holds what its next action needs (`State.ThreadOk`): an
`enqueue` owns its node, which no other thread sees, until its
`compare_exchange` publishes it; the tail it read is still published; a
`dequeue` that read `head` still has `head` at or after that node, and the
node a returned `dequeue` holds is an item node at or before `head`, which no
other thread holds (`Inv.found_unique`).
-/

namespace Circ.Queue

variable {T : Type} {n : Nat}

namespace State

variable (s : State T n)

/-- The nodes linked by `next` from the pointer `o`, ending in null. -/
def ListFrom : Option Nat → List Nat → Prop
  | o, [] => o = none
  | o, a :: A => o = some a ∧ ListFrom (s.nodes a).next A

/-- The tail `m` one past the linked nodes `A`: its `prev` is their last node
and nothing links it yet. -/
def Pending (A : List Nat) (m : Nat) : Prop :=
  m ∉ A ∧ (s.nodes m).prev = A.getLast? ∧ (s.nodes m).next = none ∧ m ≠ 0 ∧ m < s.size ∧
    (s.nodes m).item ≠ none

/-- A published node: linked, or the tail. -/
def Pub (A : List Nat) (a : Nat) : Prop := a ∈ A ∨ a = s.tail

/-- The node `m` of an `enqueue`, which no other thread sees. -/
def Owns (A : List Nat) (m : Nat) : Prop :=
  m ≠ 0 ∧ m < s.size ∧ m ∉ A ∧ m ≠ s.tail ∧ (s.nodes m).next = none ∧ (s.nodes m).item ≠ none

/-- What a thread at `pc` holds. -/
def ThreadOk (A : List Nat) : Pc T → Prop
  | .loadTail m => s.Owns A m
  | .help m lt => s.Owns A m ∧ (s.nodes m).prev = some lt ∧ s.Pub A lt
  | .store m lp lt =>
    s.Owns A m ∧ (s.nodes m).prev = some lt ∧ s.Pub A lt ∧ (s.nodes lt).prev = some lp
  | .casTail m lt => s.Owns A m ∧ (s.nodes m).prev = some lt ∧ lt ∈ A
  | .link lt m => s.Pub A m ∧ (s.nodes m).prev = some lt
  | .loadNext lh => ∃ B C, A = B ++ lh :: C ∧ s.head ∈ lh :: C
  | .casHead lh ln => lh ∈ A ∧ (s.nodes lh).next = some ln
  | .dequeued (some ln) => ln ≠ 0 ∧ ∃ B C, A = B ++ ln :: C ∧ s.head ∈ ln :: C
  | _ => True

end State

/-- The nodes, `head` and `tail`, with `A` the nodes linked from the first
sentinel. -/
structure State.Heap (s : State T n) (A : List Nat) : Prop where
  list : s.ListFrom (some 0) A
  nodup : A.Nodup
  lt_size : ∀ a ∈ A, a < s.size
  prev : A.Chain' fun a b => (s.nodes b).prev = some a
  prev_zero : (s.nodes 0).prev = none
  item : ∀ a ∈ A, a ≠ 0 → (s.nodes a).item ≠ none
  head : s.head ∈ A
  tail : A.getLast? = some s.tail ∨ s.Pending A s.tail

/-- The invariant. -/
structure Inv (s : State T n) (A : List Nat) : Prop where
  heap : s.Heap A
  pending : s.tail ∉ A → ∃ u lt, s.threads u = .link lt s.tail
  thread_ok : ∀ t, s.ThreadOk A (s.threads t)
  owner_unique : ∀ t u m, (s.threads t).owned = some m → (s.threads u).owned = some m → t = u
  found_unique : ∀ t u a, (s.threads t).found = some a → (s.threads u).found = some a → t = u

/-- How a step of thread `t` changes the queue: no node is linked and `head`
stays; the node of an `enqueue` at its last store is linked after the others,
by that `enqueue` or by a helper; or the `compare_exchange` of thread `t`'s
`dequeue` moves `head` one node on and returns that node. -/
def QueueEffect (s : State T n) (A : List Nat) (s' : State T n) (A' : List Nat) (t : Fin n) :
    Prop :=
  (A' = A ∧ s'.head = s.head) ∨
  (∃ u lt m, A' = A ++ [m] ∧ s'.head = s.head ∧ s.threads u = .link lt m) ∨
  (∃ lh ln, A' = A ∧ s.threads t = .casHead lh ln ∧ s'.threads t = .dequeued (some ln) ∧
    s.head = lh ∧ s'.head = ln)

/-- What a step keeps for the other threads, when the only node it publishes
is `own`. -/
structure Grows (s : State T n) (A : List Nat) (s' : State T n) (A' : List Nat)
    (own : Option Nat) : Prop where
  size_le : s.size ≤ s'.size
  more : ∃ E, A' = A ++ E
  linked : ∀ a ∈ A', a ∈ A ∨ a = s.tail
  next : ∀ a < s.size, ∀ b, (s.nodes a).next = some b → (s'.nodes a).next = some b
  pub : ∀ a, s.Pub A a → (s'.nodes a).prev = (s.nodes a).prev ∧ (s'.nodes a).item = (s.nodes a).item
  tail : s'.tail = s.tail ∨ s.tail ∈ A ∧ own = some s'.tail
  head : s'.head = s.head ∨ (s.nodes s.head).next = some s'.head
  priv : ∀ m, m < s.size → ¬ s.Pub A m → own ≠ some m → s'.nodes m = s.nodes m

/-- One step of thread `t` from a state with the invariant: the invariant holds
after it, the other threads keep what they hold, and the queue changes as
`QueueEffect` says. -/
structure Stepped (s : State T n) (A : List Nat) (s' : State T n) (A' : List Nat) (t : Fin n) :
    Prop where
  inv : Inv s' A'
  grows : ∃ own, Grows s A s' A' own
  effect : QueueEffect s A s' A' t

/-! ### Lists of linked nodes -/

section Lists

variable {s s' : State T n} {o : Option Nat} {A : List Nat}

theorem State.ListFrom.frame (h : s.ListFrom o A)
    (hf : ∀ a ∈ A, (s'.nodes a).next = (s.nodes a).next) : s'.ListFrom o A := by
  induction A generalizing o with
  | nil => exact h
  | cons a A ih =>
    exact ⟨h.1, (hf a (List.mem_cons_self _ _)).symm ▸
      ih h.2 fun b hb => hf b (List.mem_cons_of_mem _ hb)⟩

/-- The `next` of a linked node is a linked node after the first. -/
theorem State.ListFrom.next_mem_tail (h : s.ListFrom o A) {a b : Nat} (ha : a ∈ A)
    (hb : (s.nodes a).next = some b) : b ∈ A.tail := by
  induction A generalizing o with
  | nil => cases ha
  | cons c A ih =>
    rcases List.mem_cons.1 ha with rfl | ha
    · cases A with
      | nil => exact absurd (hb.symm.trans h.2) nofun
      | cons d A => exact List.mem_cons.2 (.inl (Option.some.inj (hb.symm.trans h.2.1)))
    · exact List.mem_of_mem_tail (ih h.2 ha)

theorem State.ListFrom.next_mem (h : s.ListFrom o A) {a b : Nat} (ha : a ∈ A)
    (hb : (s.nodes a).next = some b) : b ∈ A :=
  List.mem_of_mem_tail (h.next_mem_tail ha hb)

/-- The last node's `next` is null. -/
theorem State.ListFrom.next_getLast (h : s.ListFrom o A) {l : Nat} (hl : A.getLast? = some l) :
    (s.nodes l).next = none := by
  induction A generalizing o with
  | nil => cases hl
  | cons c A ih =>
    cases A with
    | nil =>
      obtain rfl : c = l := by simpa using hl
      exact h.2
    | cons d A => exact ih h.2 (by simpa using hl)

/-- The part from a node on. -/
theorem State.ListFrom.suffix {B C : List Nat} {a : Nat} (h : s.ListFrom o (B ++ a :: C)) :
    s.ListFrom (some a) (a :: C) := by
  induction B generalizing o with
  | nil => exact ⟨rfl, h.2⟩
  | cons b B ih => exact ih h.2

/-- Linking `m` after the last node adds it at the end. -/
theorem State.ListFrom.append (h : s.ListFrom o A) (hnd : A.Nodup) {l m : Nat}
    (hl : A.getLast? = some l) (hm : m ∉ A) (hmn : (s.nodes m).next = none) :
    (s.setNext l (some m)).ListFrom o (A ++ [m]) := by
  induction A generalizing o with
  | nil => cases hl
  | cons c A ih =>
    cases A with
    | nil =>
      obtain rfl : c = l := by simpa using hl
      have hml : m ≠ c := fun e => hm (by simp [e])
      exact ⟨h.1, by simp [State.setNext_nodes], by simp [State.ListFrom, State.setNext_nodes, hml, hmn]⟩
    | cons d A =>
      rw [List.getLast?_cons_cons] at hl
      have hcl : c ≠ l := fun e => (List.nodup_cons.1 hnd).1 (e ▸ List.mem_of_getLast?_eq_some hl)
      refine ⟨h.1, ?_⟩
      rw [State.setNext_nodes, if_neg hcl]
      exact ih h.2 (List.nodup_cons.1 hnd).2 hl fun h' => hm (List.mem_cons_of_mem _ h')

/-- A linked node other than the first is the `next` of the node its `prev`
names. -/
theorem State.ListFrom.next_of_prev (h : s.ListFrom o A)
    (hp : A.Chain' fun a b => (s.nodes b).prev = some a) {a b : Nat} (hb : b ∈ A.tail)
    (hprev : (s.nodes b).prev = some a) : (s.nodes a).next = some b := by
  induction A generalizing o with
  | nil => cases hb
  | cons c A ih =>
    cases A with
    | nil => cases hb
    | cons d A =>
      rcases List.mem_cons.1 hb with rfl | hb
      · obtain rfl : c = a := Option.some.inj ((List.chain'_cons.1 hp).1.symm.trans hprev)
        exact h.2.1
      · exact ih h.2 (List.chain'_cons.1 hp).2 hb

end Lists

/-! ### What the other threads keep -/

section Grows

variable {s s' : State T n} {A A' : List Nat} {own : Option Nat}

theorem State.Pub.grow (hg : Grows s A s' A' own) {a : Nat} (h : s.Pub A a) : s'.Pub A' a := by
  obtain ⟨E, rfl⟩ := hg.more
  rcases h with h | rfl
  · exact .inl (List.mem_append_left _ h)
  · rcases hg.tail with h | ⟨h, -⟩
    · exact .inr h.symm
    · exact .inl (List.mem_append_left _ h)

theorem State.Owns.grow (hg : Grows s A s' A' own) {m : Nat} (h : s.Owns A m)
    (hown : own ≠ some m) : s'.Owns A' m ∧ s'.nodes m = s.nodes m := by
  obtain ⟨h0, hlt, hA, htail, hnext, hitem⟩ := h
  have hsame := hg.priv m hlt (fun hp => hp.elim hA htail) hown
  refine ⟨⟨h0, lt_of_lt_of_le hlt hg.size_le, fun h => (hg.linked m h).elim hA htail, ?_,
    by rw [hsame]; exact hnext, by rw [hsame]; exact hitem⟩, hsame⟩
  rcases hg.tail with h | ⟨-, h⟩
  · rw [h]; exact htail
  · exact fun e => hown (e ▸ h)

/-- A dequeuer's view of `head` survives any step. -/
theorem State.ListFrom.head_grow (hl : s.ListFrom (some 0) A) (hg : Grows s A s' A' own)
    {B C : List Nat} {lh : Nat} (hA : A = B ++ lh :: C) (hh : s.head ∈ lh :: C) :
    ∃ B C, A' = B ++ lh :: C ∧ s'.head ∈ lh :: C := by
  obtain ⟨E, rfl⟩ := hg.more
  refine ⟨B, C ++ E, by simp [hA], ?_⟩
  rw [← List.cons_append]
  rcases hg.head with h | h
  · exact List.mem_append_left _ (h ▸ hh)
  · exact List.mem_append_left _ ((hA ▸ hl).suffix.next_mem hh h)

theorem State.ThreadOk.grow (hh : s.Heap A) (hg : Grows s A s' A' own) {pc : Pc T}
    (hown : ∀ m, pc.owned = some m → own ≠ some m) (h : s.ThreadOk A pc) :
    s'.ThreadOk A' pc := by
  cases pc with
  | loadTail m => exact (State.Owns.grow hg h (hown m rfl)).1
  | help m lt =>
    obtain ⟨ho, hsame⟩ := h.1.grow hg (hown m rfl)
    exact ⟨ho, hsame ▸ h.2.1, h.2.2.grow hg⟩
  | store m lp lt =>
    obtain ⟨ho, hsame⟩ := h.1.grow hg (hown m rfl)
    exact ⟨ho, hsame ▸ h.2.1, h.2.2.1.grow hg, (hg.pub lt h.2.2.1).1 ▸ h.2.2.2⟩
  | casTail m lt =>
    obtain ⟨ho, hsame⟩ := h.1.grow hg (hown m rfl)
    obtain ⟨E, rfl⟩ := hg.more
    exact ⟨ho, hsame ▸ h.2.1, List.mem_append_left _ h.2.2⟩
  | link lt m => exact ⟨h.1.grow hg, (hg.pub m h.1).1 ▸ h.2⟩
  | loadNext lh =>
    obtain ⟨B, C, hA, hh'⟩ := h
    exact hh.list.head_grow hg hA hh'
  | casHead lh ln =>
    obtain ⟨E, rfl⟩ := hg.more
    exact ⟨List.mem_append_left _ h.1, hg.next _ (hh.lt_size _ h.1) _ h.2⟩
  | dequeued found =>
    cases found with
    | none => trivial
    | some ln =>
      obtain ⟨h0, B, C, hA, hh'⟩ := h
      exact ⟨h0, hh.list.head_grow hg hA hh'⟩
  | idle | alloc | enqueued | loadHead => trivial

/-- A node that at most one thread holds stays so when thread `t` moves to a
`pc` whose node no other thread holds; for the node an `enqueue` owns and the
node a `dequeue` returned. -/
theorem unique_update {f : Pc T → Option Nat} {threads : Fin n → Pc T} {t : Fin n} {pc : Pc T}
    (h : ∀ u v m, f (threads u) = some m → f (threads v) = some m → u = v)
    (hfresh : ∀ m, f pc = some m → ∀ u, u ≠ t → f (threads u) ≠ some m) (u v : Fin n) (m : Nat)
    (hu : f (Function.update threads t pc u) = some m)
    (hv : f (Function.update threads t pc v) = some m) : u = v := by
  simp only [Function.update_apply] at hu hv
  split_ifs at hu hv with hut hvt hvt
  · exact hut.trans hvt.symm
  · exact absurd hv (hfresh m hu v hvt)
  · exact absurd hu (hfresh m hv u hut)
  · exact h u v m hu hv

/-- The invariant after a step that moves thread `t` to `pc`, from the heap
part after it and what it keeps for the other threads. -/
theorem Inv.next (hs : Inv s A) (hh : s'.Heap A') (hg : Grows s A s' A' own) {t : Fin n}
    {pc : Pc T} (hthreads : s'.threads = Function.update s.threads t pc)
    (hpc : s'.ThreadOk A' pc)
    (hown : ∀ u, u ≠ t → ∀ m, (s.threads u).owned = some m → own ≠ some m)
    (hfresh : ∀ m, pc.owned = some m → ∀ u, u ≠ t → (s.threads u).owned ≠ some m)
    (hfound : ∀ a, pc.found = some a → ∀ u, u ≠ t → (s.threads u).found ≠ some a)
    (hpend : s'.tail ∉ A' → ∃ u lt, s'.threads u = .link lt s'.tail) : Inv s' A' where
  heap := hh
  pending := hpend
  thread_ok u := by
    by_cases hu : u = t
    · subst hu
      simpa [hthreads] using hpc
    · simpa [hthreads, hu] using (hs.thread_ok u).grow hs.heap hg (hown u hu)
  owner_unique := hthreads ▸ unique_update hs.owner_unique hfresh
  found_unique := hthreads ▸ unique_update hs.found_unique hfound

end Grows

end Circ.Queue
