import Mathlib.Logic.Function.Basic

/-!
# The doubly linked queue of the tests

`tests/doubly_linked_queue.rs` builds a concurrent FIFO queue on the pointers
of the library.  Its nodes are linked both ways: a `Weak` field `prev` names
the node enqueued before, an `AtomicRc` field `next` the node enqueued after.
`enqueue` points its node's `prev` at the tail it read, swings `tail` to its
node with a `compare_exchange`, and only then stores its node in the old
tail's `next`.  Between the two, the queue has a tail that `next` does not
reach yet; the next `enqueue` finds it through `ltail.prev` and stores the
missing link itself before it moves the tail ("help the previous enqueue to
complete").  `dequeue` swings `head` along `next`, the node it leaves being
the new sentinel.

This file is the program: the heap of nodes, `head` and `tail`, and every
thread running `enqueue` or `dequeue` as a sequence of atomic actions, one per
step.  As for Harris's list, a node is an index into an unbounded heap, node
zero being the first sentinel, and nodes are never freed.  `Weak::as_snapshot`
therefore always gives the node back; the code frees a node only after `head`
has passed it, when its `next` is already set, so the helping store is skipped
either way.  No tag is used, so an `AtomicRc` field is the node it points to.
-/

namespace Circ.Queue

/-- A `Node<T>`: its item (`None` in a sentinel), its `Weak` field `prev` and
its `AtomicRc` field `next`. -/
structure Node (T : Type) where
  item : Option T
  prev : Option Nat
  next : Option Nat

/-- Where a thread is in its call, with its local variables. -/
inductive Pc (T : Type)
  | idle
  /-- `Rc::new_many(Node::new(item))` of `enqueue`. -/
  | alloc (item : T)
  /-- `self.tail.load`, then `node.prev = ltail.downgrade()` on the node no
  other thread sees yet. -/
  | loadTail (node : Nat)
  /-- `ltail.prev.as_snapshot`, and the load of that node's `next`. -/
  | help (node ltail : Nat)
  /-- `lprev.next.store(ltail.upgrade())`. -/
  | store (node lprev ltail : Nat)
  /-- `self.tail.compare_exchange(ltail, node)`. -/
  | casTail (node ltail : Nat)
  /-- `ltail.next.store(sub)` after the tail moved to `node`. -/
  | link (ltail node : Nat)
  /-- `enqueue` has returned. -/
  | enqueued
  /-- `self.head.load` at the top of the loop of `dequeue`. -/
  | loadHead
  /-- `lhead.next.load`. -/
  | loadNext (lhead : Nat)
  /-- `self.head.compare_exchange(lhead, lnext.upgrade())`. -/
  | casHead (lhead lnext : Nat)
  /-- `dequeue` has returned the node it found, or `None`. -/
  | dequeued (found : Option Nat)
  deriving DecidableEq, Repr

/-- The node an `enqueue` in progress owns, which no other thread sees yet. -/
def Pc.owned {T : Type} : Pc T → Option Nat
  | .loadTail m | .help m _ | .store m _ _ | .casTail m _ => some m
  | _ => none

/-- The node a returned `dequeue` found, which `Output::output` reads. -/
def Pc.found {T : Type} : Pc T → Option Nat
  | .dequeued found => found
  | _ => none

theorem Pc.eq_of_found {T : Type} {pc : Pc T} {a : Nat} (h : pc.found = some a) :
    pc = .dequeued (some a) := by
  cases pc <;> cases h
  rfl

/-- A call to the queue. -/
inductive Request (T : Type)
  | enqueue (item : T)
  | dequeue

/-- The heap of nodes, of which those below `size` are allocated, the fields
`head` and `tail` of `DoubleLink`, and `n` threads. -/
structure State (T : Type) (n : Nat) where
  nodes : Nat → Node T
  size : Nat
  head : Nat
  tail : Nat
  threads : Fin n → Pc T

variable {T : Type} {n : Nat}

/-- The `next` field of node `a` takes the value `b`. -/
def State.setNext (s : State T n) (a : Nat) (b : Option Nat) : State T n :=
  { s with nodes := Function.update s.nodes a { s.nodes a with next := b } }

/-- The `prev` field of node `a` takes the value `b`. -/
def State.setPrev (s : State T n) (a : Nat) (b : Option Nat) : State T n :=
  { s with nodes := Function.update s.nodes a { s.nodes a with prev := b } }

/-- A new node at index `size`. -/
def State.alloc (s : State T n) (node : Node T) : State T n :=
  { s with nodes := Function.update s.nodes s.size node, size := s.size + 1 }

/-- Thread `t` moves to `pc`. -/
def State.setThread (s : State T n) (t : Fin n) (pc : Pc T) : State T n :=
  { s with threads := Function.update s.threads t pc }

section Frame

variable (s : State T n) (a c : Nat) (b : Option Nat) (node : Node T) (t : Fin n) (pc : Pc T)

@[simp] theorem State.setNext_size : (s.setNext a b).size = s.size := rfl
@[simp] theorem State.setNext_head : (s.setNext a b).head = s.head := rfl
@[simp] theorem State.setNext_tail : (s.setNext a b).tail = s.tail := rfl
@[simp] theorem State.setNext_threads : (s.setNext a b).threads = s.threads := rfl
@[simp] theorem State.setPrev_size : (s.setPrev a b).size = s.size := rfl
@[simp] theorem State.setPrev_head : (s.setPrev a b).head = s.head := rfl
@[simp] theorem State.setPrev_tail : (s.setPrev a b).tail = s.tail := rfl
@[simp] theorem State.setPrev_threads : (s.setPrev a b).threads = s.threads := rfl
@[simp] theorem State.alloc_size : (s.alloc node).size = s.size + 1 := rfl
@[simp] theorem State.alloc_head : (s.alloc node).head = s.head := rfl
@[simp] theorem State.alloc_tail : (s.alloc node).tail = s.tail := rfl
@[simp] theorem State.alloc_threads : (s.alloc node).threads = s.threads := rfl
@[simp] theorem State.setThread_nodes : (s.setThread t pc).nodes = s.nodes := rfl
@[simp] theorem State.setThread_size : (s.setThread t pc).size = s.size := rfl
@[simp] theorem State.setThread_head : (s.setThread t pc).head = s.head := rfl
@[simp] theorem State.setThread_tail : (s.setThread t pc).tail = s.tail := rfl

@[simp] theorem State.setThread_threads_self : (s.setThread t pc).threads t = pc := by
  simp [State.setThread]

theorem State.setThread_threads_ne {u : Fin n} (h : u ≠ t) :
    (s.setThread t pc).threads u = s.threads u := by
  simp [State.setThread, h]

theorem State.setNext_nodes :
    (s.setNext a b).nodes c = if c = a then { s.nodes a with next := b } else s.nodes c := by
  simp [State.setNext, Function.update_apply]

theorem State.setPrev_nodes :
    (s.setPrev a b).nodes c = if c = a then { s.nodes a with prev := b } else s.nodes c := by
  simp [State.setPrev, Function.update_apply]

theorem State.alloc_nodes : (s.alloc node).nodes c = if c = s.size then node else s.nodes c := by
  simp [State.alloc, Function.update_apply]

@[simp] theorem State.setNext_prev : ((s.setNext a b).nodes c).prev = (s.nodes c).prev := by
  rw [State.setNext_nodes]; split_ifs with h <;> simp [h]

@[simp] theorem State.setNext_item : ((s.setNext a b).nodes c).item = (s.nodes c).item := by
  rw [State.setNext_nodes]; split_ifs with h <;> simp [h]

@[simp] theorem State.setPrev_next : ((s.setPrev a b).nodes c).next = (s.nodes c).next := by
  rw [State.setPrev_nodes]; split_ifs with h <;> simp [h]

@[simp] theorem State.setPrev_item : ((s.setPrev a b).nodes c).item = (s.nodes c).item := by
  rw [State.setPrev_nodes]; split_ifs with h <;> simp [h]

/-- Storing the value a `next` field already holds changes nothing. -/
theorem State.setNext_self : s.setNext a (s.nodes a).next = s := by
  simp [State.setNext]

end Frame

/-- One atomic action of thread `t` at `pc`; `none` when it has none. -/
def State.exec (s : State T n) (t : Fin n) : Pc T → Option (State T n)
  | .idle | .enqueued | .dequeued _ => none
  | .alloc item => some ((s.alloc ⟨some item, none, none⟩).setThread t (.loadTail s.size))
  | .loadTail m => some ((s.setPrev m (some s.tail)).setThread t (.help m s.tail))
  | .help m lt =>
    match (s.nodes lt).prev with
    | none => some (s.setThread t (.casTail m lt))
    | some lp =>
      if (s.nodes lp).next = none then some (s.setThread t (.store m lp lt))
      else some (s.setThread t (.casTail m lt))
  | .store m lp lt => some ((s.setNext lp (some lt)).setThread t (.casTail m lt))
  | .casTail m lt =>
    if s.tail = lt then some ({ s with tail := m }.setThread t (.link lt m))
    else some (s.setThread t (.loadTail m))
  | .link lt m => some ((s.setNext lt (some m)).setThread t .enqueued)
  | .loadHead => some (s.setThread t (.loadNext s.head))
  | .loadNext lh =>
    match (s.nodes lh).next with
    | none => some (s.setThread t (.dequeued none))
    | some ln => some (s.setThread t (.casHead lh ln))
  | .casHead lh ln =>
    if s.head = lh then some ({ s with head := ln }.setThread t (.dequeued (some ln)))
    else some (s.setThread t .loadHead)

/-- A step of the system. -/
inductive Action (T : Type) (n : Nat)
  /-- Thread `t` calls the queue. -/
  | invoke (t : Fin n) (req : Request T)
  /-- Thread `t` performs its next atomic action. -/
  | exec (t : Fin n)
  /-- Thread `t` takes the result of its call. -/
  | reset (t : Fin n)

/-- The first local step of a call. -/
def Request.start : Request T → Pc T
  | .enqueue item => .alloc item
  | .dequeue => .loadHead

/-- One step; `none` when the action is not enabled. -/
def step (s : State T n) : Action T n → Option (State T n)
  | .invoke t req =>
    match s.threads t with
    | .idle => some (s.setThread t req.start)
    | _ => none
  | .exec t => s.exec t (s.threads t)
  | .reset t =>
    match s.threads t with
    | .enqueued | .dequeued _ => some (s.setThread t .idle)
    | _ => none

/-- An action moves thread `t` alone; it gives it a node to return only at a
successful `compare_exchange` on `head`, which returns the node after `head`. -/
theorem State.exec_threads {s s' : State T n} {t : Fin n} {pc : Pc T} (h : s.exec t pc = some s') :
    ∃ pc', s'.threads = Function.update s.threads t pc' ∧
      ∀ b, pc'.found = some b → pc = .casHead s.head b := by
  cases pc with
  | idle | enqueued | dequeued => cases h
  | help m lt =>
    simp only [State.exec] at h
    split at h
    · cases h; exact ⟨_, rfl, nofun⟩
    · split_ifs at h <;> cases h <;> exact ⟨_, rfl, nofun⟩
  | casTail m lt => simp only [State.exec] at h; split_ifs at h <;> cases h <;> exact ⟨_, rfl, nofun⟩
  | loadNext lh => simp only [State.exec] at h; split at h <;> cases h <;> exact ⟨_, rfl, nofun⟩
  | casHead lh ln =>
    simp only [State.exec] at h
    split_ifs at h with hhd <;> cases h
    · exact ⟨_, rfl, fun b hb => by cases hb; rw [hhd]⟩
    · exact ⟨_, rfl, nofun⟩
  | alloc | loadTail | store | link | loadHead => cases h; exact ⟨_, rfl, nofun⟩

theorem step_threads {s s' : State T n} {a : Action T n} (h : step s a = some s') :
    ∃ t pc, s'.threads = Function.update s.threads t pc ∧
      ∀ b, pc.found = some b → s.threads t = .casHead s.head b := by
  cases a with
  | invoke t req =>
    simp only [step] at h
    split at h <;> cases h
    exact ⟨t, _, rfl, fun b hb => by cases req <;> cases hb⟩
  | exec t => exact ⟨t, State.exec_threads h⟩
  | reset t => simp only [step] at h; split at h <;> cases h <;> exact ⟨t, _, rfl, nofun⟩

/-- `DoubleLink::new`: one sentinel, which `head` and `tail` point to. -/
def State.init : State T n :=
  ⟨fun _ => ⟨none, none, none⟩, 1, 0, 0, fun _ => .idle⟩

/-- The states every interleaving of calls reaches from a new queue. -/
inductive Reachable : State T n → Prop
  | init : Reachable State.init
  | step {s s' : State T n} {a : Action T n} : Reachable s → step s a = some s' → Reachable s'

/-- The state after the actions `l`, one after another, when each is enabled. -/
def State.runs (s : State T n) : List (Action T n) → Option (State T n)
  | [] => some s
  | a :: l => (step s a).bind fun s' => s'.runs l

theorem Reachable.runs {s s' : State T n} {l : List (Action T n)} (hs : Reachable s)
    (h : s.runs l = some s') : Reachable s' := by
  induction l generalizing s with
  | nil => cases h; exact hs
  | cons a l ih =>
    obtain ⟨s1, h1, h2⟩ := Option.bind_eq_some.1 h
    exact ih (hs.step h1) h2

end Circ.Queue
