import Mathlib.Order.Lattice
import Mathlib.Logic.Function.Basic

/-!
# Harris's list map on `AtomicRc`

`tests/harris_list.rs` builds a concurrent ordered map on the pointers of
`strong.rs`: a list of nodes linked by `AtomicRc` fields `next`, sorted by key
behind a dummy head.  A node is removed in two steps: `compare_exchange_tag`
sets the user tag of its own `next` to one (the node is *marked*), and a
`compare_exchange` on the predecessor's `next` unlinks it.  `find_harris`
skips the marked nodes it meets and unlinks the whole run of them with one
`compare_exchange` before it returns.

This file is the program: the heap of nodes, and every thread running
`harris_get`, `harris_insert` or `harris_remove` as a sequence of atomic
actions on the `next` fields, one per step.  An `AtomicRc` is an atomic cell
over words up to their epoch tag (`Circ.Slot.atomicRc_refines_cell`), so a
field is modelled as such a cell: a `Link`, the node it points to and its user
tag, and `compare_exchange` succeeds exactly when the field equals the
expected link.  Nodes are never reused while a thread can still reach them,
which is what the reference counts and the epoch guards of the library
provide; a node is an index into an unbounded heap.  The reference counts
themselves play no part in the algorithm and are left out.
-/

namespace Circ.Harris

/-- A pointer word up to its epoch tag: the node it points to (`none` for the
null pointer) and its user tag. -/
structure Link where
  ptr : Option Nat
  tag : Nat
  deriving DecidableEq, Repr

/-- `Tagged::null`. -/
def Link.null : Link := ⟨none, 0⟩

/-- `with_tag`; the program only uses the tags zero and one, which fit in the
alignment of a node. -/
def Link.withTag (l : Link) (t : Nat) : Link := ⟨l.ptr, t⟩

@[simp] theorem Link.withTag_ptr (l : Link) (t : Nat) : (l.withTag t).ptr = l.ptr := rfl
@[simp] theorem Link.withTag_tag (l : Link) (t : Nat) : (l.withTag t).tag = t := rfl

/-- A `Node<K, V>`: its key, its value and its `next` field. -/
structure Node (K V : Type) where
  key : K
  value : V
  next : Link

/-- The operation a thread runs, with the node `harris_insert` allocated. -/
inductive Task (K V : Type)
  | get (key : K)
  | insert (key : K) (value : V) (node : Nat)
  | remove (key : K)

/-- The key the operation looks for. -/
def Task.key {K V : Type} : Task K V → K
  | .get k | .insert k _ _ | .remove k => k

/-- Where a thread is in its operation, with its local variables. -/
inductive Pc (K V : Type)
  | idle
  /-- `Rc::new(Node::new(key, value))` of `ListMap::insert`. -/
  | alloc (key : K) (value : V)
  /-- `Cursor::new` at the top of the loop of `ListMap::get`. -/
  | start (task : Task K V)
  /-- The loop of `find_harris`, with the cursor and `prev_next`. -/
  | find (task : Task K V) (prev prevNext curr : Link)
  /-- The clean-up `compare_exchange` of `find_harris`, with its result. -/
  | cleanup (task : Task K V) (prev prevNext curr : Link) (found : Option V)
  /-- `node.next.swap(self.curr.counted())` of `Cursor::insert`. -/
  | swapNext (key : K) (value : V) (node : Nat) (prev curr : Link)
  /-- The `compare_exchange` of `Cursor::insert` that links the node. -/
  | publish (key : K) (value : V) (node : Nat) (prev curr : Link)
  /-- `curr_node.next.load` of `Cursor::remove`, with the value found. -/
  | loadNext (key : K) (prev curr : Link) (found : V)
  /-- The `compare_exchange_tag` of `Cursor::remove` that marks the node. -/
  | mark (key : K) (prev curr next : Link) (found : V)
  /-- The `compare_exchange` of `Cursor::remove` that unlinks the node. -/
  | unlink (key : K) (prev curr next : Link) (found : V)
  /-- The operation has returned. -/
  | done (result : Option V)

/-- The node an insertion in progress owns, not yet linked. -/
def Pc.owned {K V : Type} : Pc K V → Option Nat
  | .start (.insert _ _ m) | .find (.insert _ _ m) _ _ _ | .cleanup (.insert _ _ m) _ _ _ _
  | .swapNext _ _ m _ _ | .publish _ _ m _ _ => some m
  | _ => none

/-- A call to the map. -/
inductive Request (K V : Type)
  | get (key : K)
  | insert (key : K) (value : V)
  | remove (key : K)

/-- The heap of nodes, of which those below `size` are allocated and node zero
is the dummy head, and `n` threads. -/
structure State (K V : Type) (n : Nat) where
  nodes : Nat → Node K V
  size : Nat
  threads : Fin n → Pc K V

section

variable {K V : Type} {n : Nat}

/-- The `next` field of node `a` takes the value `l`. -/
def State.setNext (s : State K V n) (a : Nat) (l : Link) : State K V n :=
  { s with nodes := Function.update s.nodes a { s.nodes a with next := l } }

/-- `Box::new`: a new node at index `size`. -/
def State.alloc (s : State K V n) (node : Node K V) : State K V n :=
  { s with nodes := Function.update s.nodes s.size node, size := s.size + 1 }

/-- Thread `t` moves to `pc`. -/
def State.setThread (s : State K V n) (t : Fin n) (pc : Pc K V) : State K V n :=
  { s with threads := Function.update s.threads t pc }

@[simp] theorem State.alloc_size (s : State K V n) (node : Node K V) :
    (s.alloc node).size = s.size + 1 := rfl
@[simp] theorem State.alloc_threads (s : State K V n) (node : Node K V) :
    (s.alloc node).threads = s.threads := rfl

theorem State.alloc_nodes (s : State K V n) (node : Node K V) (a : Nat) :
    (s.alloc node).nodes a = if a = s.size then node else s.nodes a := by
  simp [alloc, Function.update_apply]

@[simp] theorem State.setNext_size (s : State K V n) (a : Nat) (l : Link) :
    (s.setNext a l).size = s.size := rfl
@[simp] theorem State.setNext_threads (s : State K V n) (a : Nat) (l : Link) :
    (s.setNext a l).threads = s.threads := rfl
@[simp] theorem State.setThread_nodes (s : State K V n) (t : Fin n) (pc : Pc K V) :
    (s.setThread t pc).nodes = s.nodes := rfl
@[simp] theorem State.setThread_size (s : State K V n) (t : Fin n) (pc : Pc K V) :
    (s.setThread t pc).size = s.size := rfl

theorem State.setNext_nodes (s : State K V n) (a b : Nat) (l : Link) :
    (s.setNext a l).nodes b = if b = a then { s.nodes a with next := l } else s.nodes b := by
  simp [setNext, Function.update_apply]

@[simp] theorem State.setNext_key (s : State K V n) (a b : Nat) (l : Link) :
    ((s.setNext a l).nodes b).key = (s.nodes b).key := by
  by_cases h : b = a <;> simp [setNext_nodes, h]

@[simp] theorem State.setNext_value (s : State K V n) (a b : Nat) (l : Link) :
    ((s.setNext a l).nodes b).value = (s.nodes b).value := by
  by_cases h : b = a <;> simp [setNext_nodes, h]

theorem State.setNext_next (s : State K V n) (a b : Nat) (l : Link) :
    ((s.setNext a l).nodes b).next = if b = a then l else (s.nodes b).next := by
  by_cases h : b = a <;> simp [setNext_nodes, h]

@[simp] theorem State.setThread_threads_self (s : State K V n) (t : Fin n) (pc : Pc K V) :
    (s.setThread t pc).threads t = pc := by
  simp [setThread]

theorem State.setThread_threads_ne (s : State K V n) {t u : Fin n} (pc : Pc K V) (h : u ≠ t) :
    (s.setThread t pc).threads u = s.threads u := by
  simp [setThread, h]

/-- What the operation does with the result `Ok(found)` of `find_harris` and
the cursor (`prev`, `curr`): `harris_get` returns `found`; `harris_insert`
returns a value found and otherwise calls `Cursor::insert`; `harris_remove`
returns `None` when nothing was found and otherwise calls `Cursor::remove`. -/
def Task.resume : Task K V → Link → Link → Option V → Pc K V
  | .get _, _, _, found => .done found
  | .insert _ _ _, _, _, some w => .done (some w)
  | .insert k v m, prev, curr, none => .swapNext k v m prev curr
  | .remove _, _, _, none => .done none
  | .remove k, prev, curr, some w => .loadNext k prev curr w

/-- The end of `find_harris` after its loop: `Ok(found)` at once when
`prev_next` and `curr` are the same pointer, the clean-up `compare_exchange`
otherwise. -/
def Task.finish (task : Task K V) (prev prevNext curr : Link) (found : Option V) : Pc K V :=
  if prevNext = curr then task.resume prev curr found
  else .cleanup task prev prevNext curr found

@[simp] theorem Pc.owned_find (task : Task K V) (prev pn curr : Link) :
    (Pc.find task prev pn curr).owned = (Pc.start task).owned := by
  cases task <;> rfl

@[simp] theorem Pc.owned_cleanup (task : Task K V) (prev pn curr : Link) (found : Option V) :
    (Pc.cleanup task prev pn curr found).owned = (Pc.start task).owned := by
  cases task <;> rfl

theorem Task.owned_resume {task : Task K V} {prev curr : Link} {found : Option V} {m : Nat}
    (h : (task.resume prev curr found).owned = some m) : (Pc.start task).owned = some m := by
  cases task <;> cases found <;> simp_all [Task.resume, Pc.owned]

theorem Task.owned_finish {task : Task K V} {prev pn curr : Link} {found : Option V} {m : Nat}
    (h : (task.finish prev pn curr found).owned = some m) : (Pc.start task).owned = some m := by
  unfold Task.finish at h
  split_ifs at h
  · exact Task.owned_resume h
  · simpa using h

end

variable {K V : Type} [LinearOrder K] {n : Nat}

/-- One atomic action of a thread at `pc`, with the local work that follows it
up to the next one; `none` when the thread has nothing to do, or panics on
`unwrap` of a null pointer. -/
def State.exec [Inhabited K] [Inhabited V] (s : State K V n) (t : Fin n) :
    Pc K V → Option (State K V n)
  | .idle | .done _ => none
  | .alloc k v => some ((s.alloc ⟨k, v, .null⟩).setThread t (.start (.insert k v s.size)))
  | .start task =>
    some (s.setThread t (.find task ⟨some 0, 0⟩ (s.nodes 0).next (s.nodes 0).next))
  | .find task prev prevNext curr =>
    match curr.ptr with
    | none => some (s.setThread t (task.finish prev prevNext curr none))
    | some c =>
      let next := (s.nodes c).next
      if next.tag ≠ 0 then some (s.setThread t (.find task prev prevNext (next.withTag 0)))
      else
        match compare (s.nodes c).key task.key with
        | .lt => some (s.setThread t (.find task curr next next))
        | .eq => some (s.setThread t (task.finish prev prevNext curr (some (s.nodes c).value)))
        | .gt => some (s.setThread t (task.finish prev prevNext curr none))
  | .cleanup task prev prevNext curr found =>
    match prev.ptr with
    | none => none
    | some p =>
      if (s.nodes p).next = prevNext then
        some ((s.setNext p curr).setThread t (task.resume prev curr found))
      else some (s.setThread t (.start task))
  | .swapNext k v m prev curr => some ((s.setNext m curr).setThread t (.publish k v m prev curr))
  | .publish k v m prev curr =>
    match prev.ptr with
    | none => none
    | some p =>
      if (s.nodes p).next = curr then
        some ((s.setNext p ⟨some m, 0⟩).setThread t (.done none))
      else some (s.setThread t (.start (.insert k v m)))
  | .loadNext k prev curr w =>
    match curr.ptr with
    | none => none
    | some c => some (s.setThread t (.mark k prev curr (s.nodes c).next w))
  | .mark k prev curr next w =>
    match curr.ptr with
    | none => none
    | some c =>
      if (s.nodes c).next = next.withTag 0 then
        some ((s.setNext c (next.withTag 1)).setThread t (.unlink k prev curr next w))
      else some (s.setThread t (.start (.remove k)))
  | .unlink _ prev curr next w =>
    match prev.ptr with
    | none => none
    | some p =>
      if (s.nodes p).next = curr then some ((s.setNext p next).setThread t (.done (some w)))
      else some (s.setThread t (.done (some w)))

/-- A step of the system. -/
inductive Action (K V : Type) (n : Nat)
  /-- Thread `t` calls the map. -/
  | invoke (t : Fin n) (req : Request K V)
  /-- Thread `t` performs its next atomic action. -/
  | exec (t : Fin n)
  /-- Thread `t` takes the result of its call. -/
  | reset (t : Fin n)

/-- The first local step of a call: `harris_insert` allocates its node first. -/
def Request.start : Request K V → Pc K V
  | .get k => .start (.get k)
  | .insert k v => .alloc k v
  | .remove k => .start (.remove k)

/-- One step; `none` when the action is not enabled. -/
def step [Inhabited K] [Inhabited V] (s : State K V n) : Action K V n → Option (State K V n)
  | .invoke t req =>
    match s.threads t with
    | .idle => some (s.setThread t req.start)
    | _ => none
  | .exec t => s.exec t (s.threads t)
  | .reset t =>
    match s.threads t with
    | .done _ => some (s.setThread t .idle)
    | _ => none

/-- `ListMap::new`: the dummy head `Node::head()` alone, every thread idle. -/
def State.init [Inhabited K] [Inhabited V] : State K V n :=
  ⟨fun _ => ⟨default, default, .null⟩, 1, fun _ => .idle⟩

/-- The states every interleaving of calls reaches from a new map. -/
inductive Reachable [Inhabited K] [Inhabited V] : State K V n → Prop
  | init : Reachable State.init
  | step {s s' : State K V n} {a : Action K V n} : Reachable s → step s a = some s' → Reachable s'

/-- The state after the actions `as`, one after another, when each is enabled. -/
def State.runs [Inhabited K] [Inhabited V] (s : State K V n) :
    List (Action K V n) → Option (State K V n)
  | [] => some s
  | a :: as => (step s a).bind fun s' => s'.runs as

theorem Reachable.runs [Inhabited K] [Inhabited V] {s s' : State K V n} {l : List (Action K V n)}
    (hs : Reachable s) (h : s.runs l = some s') : Reachable s' := by
  induction l generalizing s with
  | nil => cases h; exact hs
  | cons a as ih =>
    obtain ⟨s1, h1, h2⟩ := Option.bind_eq_some.1 h
    exact ih (hs.step h1) h2

end Circ.Harris
