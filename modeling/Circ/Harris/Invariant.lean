import Circ.Harris.Step
import Mathlib.Data.List.Basic

/-!
# The invariant of Harris's list

The nodes linked one after another from the head form a list `L` sorted by
strictly increasing key.  A node leaves that list only once it is marked, and
a marked node's `next` never changes again; so a node that some thread has
reached is in the list or marked (it is *published*), and a `next` of a marked
node leads to a published node.

What each thread holds is stated against this: the `prev` of its cursor is the
head or a published node with a key below the key it looks for; its `curr` is
published; and between `prev_next` and `curr` lies a run of marked nodes
(`MarkedPath`), which is what the clean-up `compare_exchange` unlinks.  An
insertion owns its new node, which no other thread can reach.

`Grows` says what every step keeps of this for the other threads: keys and
values never change, marked nodes keep their `next`, published nodes stay
published, and the node another thread owns is left alone.
-/

namespace Circ.Harris

variable {K V : Type} {n : Nat}

namespace State

variable (s : State K V n)

/-- Node `a` is marked: its `next` carries a nonzero tag. -/
def Marked (a : Nat) : Prop := (s.nodes a).next.tag ≠ 0

/-- `L` lists the nodes reached from the link `l` one after another, up to a
null `next`. -/
def ListFrom : Link → List Nat → Prop
  | l, [] => l.ptr = none
  | l, a :: L => l.ptr = some a ∧ ListFrom (s.nodes a).next L

/-- Node `a` is in the list `L` or marked. -/
def Pub (L : List Nat) (a : Nat) : Prop := a ∈ L ∨ s.Marked a

/-- A link that is null or points to a published node. -/
def LinkOk (L : List Nat) (l : Link) : Prop := ∀ c, l.ptr = some c → s.Pub L c

/-- From `l` to `l'` through marked nodes only, as `find_harris` skips them. -/
inductive MarkedPath : Link → Link → Prop
  | refl (l : Link) : MarkedPath l l
  | skip {l l' : Link} {a : Nat} : l.ptr = some a → s.Marked a →
      MarkedPath ((s.nodes a).next.withTag 0) l' → MarkedPath l l'

/-- The shared part of the invariant, with `L` the list after the head. -/
structure Heap [LinearOrder K] (L : List Nat) : Prop where
  size_pos : 0 < s.size
  list : s.ListFrom (s.nodes 0).next L
  sorted : L.Pairwise fun a b => (s.nodes a).key < (s.nodes b).key
  list_lt : ∀ c ∈ L, c ≠ 0 ∧ c < s.size
  marked_lt : ∀ a, s.Marked a → a ≠ 0 ∧ a < s.size
  marked_next : ∀ a, s.Marked a → s.LinkOk L (s.nodes a).next

/-- The `prev` of a cursor looking for `k`: the head, or a published node with
a smaller key. -/
def PrevOk [LinearOrder K] (L : List Nat) (k : K) (prev : Link) : Prop :=
  prev.tag = 0 ∧ ∃ p, prev.ptr = some p ∧ (p = 0 ∨ s.Pub L p ∧ (s.nodes p).key < k)

/-- What `find_harris` found for `k` at `curr`: the node with key `k` and the
value returned, or (for `None`) a greater key or the end of the list. -/
def FoundOk [LinearOrder K] (k : K) (curr : Link) : Option V → Prop
  | some w => ∃ c, curr.ptr = some c ∧ (s.nodes c).key = k ∧ (s.nodes c).value = w
  | none => ∀ c, curr.ptr = some c → k < (s.nodes c).key

/-- Node `m`, allocated by an insertion of `k` and `v`, is neither in the list
nor marked. -/
def Owns (L : List Nat) (m : Nat) (k : K) (v : V) : Prop :=
  m ≠ 0 ∧ m < s.size ∧ m ∉ L ∧ ¬ s.Marked m ∧ (s.nodes m).key = k ∧ (s.nodes m).value = v

/-- An insertion owns its node. -/
def TaskOk (L : List Nat) : Task K V → Prop
  | .insert k v m => s.Owns L m k v
  | _ => True

/-- The cursor of `find_harris` looking for `k`. -/
def CursorOk [LinearOrder K] (L : List Nat) (k : K) (prev prevNext curr : Link) : Prop :=
  s.PrevOk L k prev ∧ prevNext.tag = 0 ∧ curr.tag = 0 ∧ s.LinkOk L curr ∧
    s.MarkedPath prevNext curr

/-- What a thread at `pc` holds. -/
def ThreadOk [LinearOrder K] (L : List Nat) : Pc K V → Prop
  | .idle | .alloc _ _ | .done _ => True
  | .start task => s.TaskOk L task
  | .find task prev pn curr => s.TaskOk L task ∧ s.CursorOk L task.key prev pn curr
  | .cleanup task prev pn curr found =>
    s.TaskOk L task ∧ s.CursorOk L task.key prev pn curr ∧ s.FoundOk task.key curr found
  | .swapNext k v m prev curr =>
    s.Owns L m k v ∧ s.PrevOk L k prev ∧ curr.tag = 0 ∧ s.LinkOk L curr ∧
      s.FoundOk k curr none
  | .publish k v m prev curr =>
    s.Owns L m k v ∧ s.PrevOk L k prev ∧ curr.tag = 0 ∧ s.LinkOk L curr ∧
      s.FoundOk k curr none ∧ (s.nodes m).next = curr
  | .loadNext k prev curr w =>
    s.PrevOk L k prev ∧ curr.tag = 0 ∧ s.LinkOk L curr ∧ s.FoundOk k curr (some w)
  | .mark k prev curr next w =>
    s.PrevOk L k prev ∧ curr.tag = 0 ∧ s.LinkOk L curr ∧ s.FoundOk k curr (some w) ∧
      s.LinkOk L next ∧ (next.tag ≠ 0 → ∀ c, curr.ptr = some c → s.Marked c)
  | .unlink k prev curr next _ =>
    s.PrevOk L k prev ∧ curr.tag = 0 ∧
      (∃ c, curr.ptr = some c ∧ s.Marked c ∧ (s.nodes c).next.ptr = next.ptr) ∧
      next.tag = 0 ∧ s.LinkOk L next

end State

/-- The invariant: the heap part, every thread's part, and at most one owner
of each new node. -/
structure Inv [LinearOrder K] (s : State K V n) (L : List Nat) : Prop where
  heap : s.Heap L
  thread_ok : ∀ t, s.ThreadOk L (s.threads t)
  owner_unique : ∀ t u m, (s.threads t).owned = some m → (s.threads u).owned = some m → t = u

/-- Node `c` is in the list and unmarked: its key is in the map. -/
def State.Live (s : State K V n) (L : List Nat) (c : Nat) : Prop := c ∈ L ∧ ¬ s.Marked c

/-- How a step of thread `t` changes the live nodes: not at all; by the new node
of the `compare_exchange` of `Cursor::insert`, whose key no node of the list
had; or by the node that the `compare_exchange_tag` of `Cursor::remove`
marks. -/
def LiveEffect (s : State K V n) (L : List Nat) (s' : State K V n) (L' : List Nat) (t : Fin n) :
    Prop :=
  (∀ c, s'.Live L' c ↔ s.Live L c) ∨
  (∃ k v m prev curr, s.threads t = .publish k v m prev curr ∧ s'.threads t = .done none ∧
    (∀ c, s'.Live L' c ↔ s.Live L c ∨ c = m) ∧ ∀ c ∈ L, (s.nodes c).key ≠ k) ∨
  (∃ k prev curr next w c, s.threads t = .mark k prev curr next w ∧
    s'.threads t = .unlink k prev curr next w ∧ curr.ptr = some c ∧ s.Live L c ∧
    ∀ c', s'.Live L' c' ↔ s.Live L c' ∧ c' ≠ c)

/-- What a step keeps for the other threads, when it may write the node `own`
its own thread owns. -/
structure Grows (s : State K V n) (L : List Nat) (s' : State K V n) (L' : List Nat)
    (own : Option Nat) : Prop where
  size_le : s.size ≤ s'.size
  key : ∀ a < s.size, (s'.nodes a).key = (s.nodes a).key
  value : ∀ a < s.size, (s'.nodes a).value = (s.nodes a).value
  marked : ∀ a, s.Marked a → (s'.nodes a).next = (s.nodes a).next
  pub : ∀ a, s.Pub L a → s'.Pub L' a
  priv : ∀ m, m ≠ 0 → m < s.size → m ∉ L → ¬ s.Marked m → own ≠ some m →
    s'.nodes m = s.nodes m ∧ m ∉ L'

/-- One step of thread `t` from a state with the invariant: the invariant holds
after it, the other threads keep what they hold, and the live nodes change as
`LiveEffect` says. -/
structure Stepped [LinearOrder K] (s : State K V n) (L : List Nat) (s' : State K V n)
    (L' : List Nat) (t : Fin n) : Prop where
  inv : Inv s' L'
  grows : ∃ own, Grows s L s' L' own
  live : LiveEffect s L s' L' t

/-! ### Lists of linked nodes -/

section Lists

variable {s s' : State K V n} {l l' : Link} {L : List Nat}

theorem State.listFrom_congr (he : l'.ptr = l.ptr) : s.ListFrom l' L ↔ s.ListFrom l L := by
  cases L <;> simp [State.ListFrom, he]

/-- The list from a link depends only on the `next` fields of its nodes. -/
theorem State.ListFrom.frame (h : s.ListFrom l L)
    (hf : ∀ a ∈ L, (s'.nodes a).next.ptr = (s.nodes a).next.ptr) : s'.ListFrom l L := by
  induction L generalizing l with
  | nil => exact h
  | cons a L ih =>
    exact ⟨h.1, (State.listFrom_congr (hf a (by simp))).2
      (ih h.2 fun b hb => hf b (List.mem_cons_of_mem a hb))⟩

/-- The node a link of the list points to is the first of the list. -/
theorem State.ListFrom.mem_of_ptr (h : s.ListFrom l L) {b : Nat} (hb : l.ptr = some b) :
    b ∈ L := by
  cases L with
  | nil => simp [State.ListFrom, hb] at h
  | cons c L =>
    obtain rfl : c = b := Option.some.inj (h.1.symm.trans hb)
    exact List.mem_cons_self _ _

/-- The successor of a node of the list is in the list. -/
theorem State.ListFrom.next_mem (h : s.ListFrom l L) {a b : Nat} (ha : a ∈ L)
    (hb : (s.nodes a).next.ptr = some b) : b ∈ L := by
  induction L generalizing l with
  | nil => simp at ha
  | cons c L ih =>
    rcases List.mem_cons.1 ha with rfl | ha
    · exact List.mem_cons_of_mem _ (h.2.mem_of_ptr hb)
    · exact List.mem_cons_of_mem _ (ih h.2 ha)

/-- The list splits at each of its nodes. -/
theorem State.ListFrom.split (h : s.ListFrom l L) {a : Nat} (ha : a ∈ L) :
    ∃ A B, L = A ++ a :: B ∧ s.ListFrom (s.nodes a).next B := by
  induction L generalizing l with
  | nil => simp at ha
  | cons c L ih =>
    rcases List.mem_cons.1 ha with rfl | ha
    · exact ⟨[], L, rfl, h.2⟩
    · obtain ⟨A, B, rfl, hB⟩ := ih h.2 ha
      exact ⟨c :: A, B, rfl, hB⟩

/-- Replacing the part of the list after node `p`, when only `p`'s `next` has
changed before it. -/
theorem State.ListFrom.rebuild {A B B' : List Nat} {p : Nat} (h : s.ListFrom l (A ++ p :: B))
    (hA : ∀ a ∈ A, (s'.nodes a).next.ptr = (s.nodes a).next.ptr)
    (hB : s'.ListFrom (s'.nodes p).next B') : s'.ListFrom l (A ++ p :: B') := by
  induction A generalizing l with
  | nil => exact ⟨h.1, hB⟩
  | cons a A ih =>
    exact ⟨h.1, (State.listFrom_congr (hA a (by simp))).2
      (ih h.2 fun b hb => hA b (List.mem_cons_of_mem a hb))⟩

/-- A run of marked nodes from `l1` to `l2` is a first part of the list from
`l1`, and the rest is the list from `l2`. -/
theorem State.MarkedPath.split {l1 l2 : Link} (hp : s.MarkedPath l1 l2) {M : List Nat}
    (h : s.ListFrom l1 M) :
    ∃ seg M2, M = seg ++ M2 ∧ s.ListFrom l2 M2 ∧ ∀ x ∈ seg, s.Marked x := by
  induction hp generalizing M with
  | refl => exact ⟨[], M, rfl, h, by simp⟩
  | @skip l l' a ha hm _ ih =>
    cases M with
    | nil => simp [State.ListFrom, ha] at h
    | cons b M =>
      obtain rfl : a = b := Option.some.inj (ha.symm.trans h.1)
      obtain ⟨seg, M2, rfl, h2, hseg⟩ := ih ((State.listFrom_congr (by simp)).2 h.2)
      exact ⟨a :: seg, M2, rfl, h2, by simpa [hm] using hseg⟩

/-- A run of marked nodes goes on past a marked node at its end. -/
theorem State.MarkedPath.snoc {l1 l2 : Link} (h : s.MarkedPath l1 l2) {c : Nat}
    (hc : l2.ptr = some c) (hm : s.Marked c) : s.MarkedPath l1 ((s.nodes c).next.withTag 0) := by
  induction h with
  | refl => exact .skip hc hm (.refl _)
  | skip ha hm' _ ih => exact .skip ha hm' (ih hc)

end Lists

/-! ### What the other threads keep -/

section Grows

variable {s s' : State K V n} {L L' : List Nat} {own : Option Nat}

theorem Grows.marked' (hg : Grows s L s' L' own) {a : Nat} (ha : s.Marked a) : s'.Marked a := by
  simpa [State.Marked, hg.marked a ha] using ha

theorem State.LinkOk.grow (hg : Grows s L s' L' own) {l : Link} (h : s.LinkOk L l) :
    s'.LinkOk L' l := fun c hc => hg.pub c (h c hc)

theorem State.MarkedPath.grow (hg : Grows s L s' L' own) {l1 l2 : Link}
    (h : s.MarkedPath l1 l2) : s'.MarkedPath l1 l2 := by
  induction h with
  | refl => exact .refl _
  | skip ha hm _ ih => exact .skip ha (hg.marked' hm) (by rwa [hg.marked _ hm])

theorem State.Owns.grow (hg : Grows s L s' L' own) {m : Nat} {k : K} {v : V}
    (h : s.Owns L m k v) (hm : own ≠ some m) : s'.Owns L' m k v ∧ s'.nodes m = s.nodes m := by
  obtain ⟨h0, hlt, hL, hmk, hk, hv⟩ := h
  obtain ⟨hnode, hL'⟩ := hg.priv m h0 hlt hL hmk hm
  exact ⟨⟨h0, lt_of_lt_of_le hlt hg.size_le, hL', by simpa [State.Marked, hnode] using hmk,
    by rw [hnode, hk], by rw [hnode, hv]⟩, hnode⟩

theorem State.TaskOk.grow (hg : Grows s L s' L' own) {task : Task K V} (h : s.TaskOk L task)
    (hm : ∀ k v m, task = .insert k v m → own ≠ some m) : s'.TaskOk L' task := by
  cases task with
  | insert k v m => exact (State.Owns.grow hg h (hm k v m rfl)).1
  | _ => trivial

variable [LinearOrder K]

theorem State.Heap.pub_lt (hh : s.Heap L) {a : Nat} (ha : s.Pub L a) : a ≠ 0 ∧ a < s.size :=
  ha.elim (hh.list_lt a) (hh.marked_lt a)

theorem State.PrevOk.grow (hh : s.Heap L) (hg : Grows s L s' L' own) {k : K} {prev : Link}
    (h : s.PrevOk L k prev) : s'.PrevOk L' k prev := by
  obtain ⟨htag, p, hp, h0 | ⟨hpub, hk⟩⟩ := h
  · exact ⟨htag, p, hp, .inl h0⟩
  · exact ⟨htag, p, hp, .inr ⟨hg.pub p hpub, by rwa [hg.key p (hh.pub_lt hpub).2]⟩⟩

theorem State.FoundOk.grow (hh : s.Heap L) (hg : Grows s L s' L' own) {k : K} {curr : Link}
    (hc : s.LinkOk L curr) {found : Option V} (h : s.FoundOk k curr found) :
    s'.FoundOk k curr found := by
  cases found with
  | some w =>
    obtain ⟨c, hcp, hk, hv⟩ := h
    have hlt := (hh.pub_lt (hc c hcp)).2
    exact ⟨c, hcp, by rw [hg.key c hlt, hk], by rw [hg.value c hlt, hv]⟩
  | none => exact fun c hcp => by rw [hg.key c (hh.pub_lt (hc c hcp)).2]; exact h c hcp

theorem State.CursorOk.grow (hh : s.Heap L) (hg : Grows s L s' L' own) {k : K}
    {prev pn curr : Link} (h : s.CursorOk L k prev pn curr) : s'.CursorOk L' k prev pn curr :=
  ⟨h.1.grow hh hg, h.2.1, h.2.2.1, h.2.2.2.1.grow hg, h.2.2.2.2.grow hg⟩

/-- **A thread keeps what it holds** across a step of another thread. -/
theorem State.ThreadOk.grow (hh : s.Heap L) (hg : Grows s L s' L' own) {pc : Pc K V}
    (h : s.ThreadOk L pc) (hm : ∀ m, pc.owned = some m → own ≠ some m) : s'.ThreadOk L' pc := by
  cases pc with
  | idle | alloc | done => trivial
  | start task => exact State.TaskOk.grow hg h fun k v m ht => hm m (by subst ht; rfl)
  | find task prev pn curr =>
    exact ⟨State.TaskOk.grow hg h.1 fun k v m ht => hm m (by subst ht; rfl), h.2.grow hh hg⟩
  | cleanup task prev pn curr found =>
    exact ⟨State.TaskOk.grow hg h.1 fun k v m ht => hm m (by subst ht; rfl),
      h.2.1.grow hh hg, h.2.2.grow hh hg h.2.1.2.2.2.1⟩
  | swapNext k v m prev curr =>
    obtain ⟨ho, hp, ht, hc, hf⟩ := h
    exact ⟨(State.Owns.grow hg ho (hm m rfl)).1, hp.grow hh hg, ht, hc.grow hg,
      hf.grow hh hg hc⟩
  | publish k v m prev curr =>
    obtain ⟨ho, hp, ht, hc, hf, hn⟩ := h
    obtain ⟨ho', hnode⟩ := State.Owns.grow hg ho (hm m rfl)
    exact ⟨ho', hp.grow hh hg, ht, hc.grow hg, hf.grow hh hg hc, by rw [hnode, hn]⟩
  | loadNext k prev curr w =>
    obtain ⟨hp, ht, hc, hf⟩ := h
    exact ⟨hp.grow hh hg, ht, hc.grow hg, hf.grow hh hg hc⟩
  | mark k prev curr next w =>
    obtain ⟨hp, ht, hc, hf, hn, hmk⟩ := h
    exact ⟨hp.grow hh hg, ht, hc.grow hg, hf.grow hh hg hc, hn.grow hg,
      fun htag c hcp => hg.marked' (hmk htag c hcp)⟩
  | unlink k prev curr next w =>
    obtain ⟨hp, ht, ⟨c, hcp, hmk, hnp⟩, hnt, hn⟩ := h
    exact ⟨hp.grow hh hg, ht, ⟨c, hcp, hg.marked' hmk, by rw [hg.marked c hmk, hnp]⟩, hnt,
      hn.grow hg⟩

/-- The node an insertion owns. -/
theorem State.ThreadOk.owns {pc : Pc K V} (h : s.ThreadOk L pc) {m : Nat}
    (hm : pc.owned = some m) : ∃ k v, s.Owns L m k v := by
  cases pc with
  | start task | find task | cleanup task =>
    cases task with
    | insert k v m' =>
      obtain rfl : m' = m := by simpa [Pc.owned] using hm
      first | exact ⟨k, v, h⟩ | exact ⟨k, v, h.1⟩
    | _ => simp [Pc.owned] at hm
  | swapNext k v m' | publish k v m' =>
    obtain rfl : m' = m := by simpa [Pc.owned] using hm
    exact ⟨k, v, h.1⟩
  | _ => simp [Pc.owned] at hm

/-- **The invariant after a step**, from the heap part after it, what the other
threads keep, and what the stepping thread holds after it. -/
theorem Inv.next {s s' : State K V n} (hs : Inv s L) (hh : s'.Heap L')
    (hg : Grows s L s' L' own) {t : Fin n} {pc : Pc K V}
    (hthreads : s'.threads = Function.update s.threads t pc)
    (hpc : s'.ThreadOk L' pc)
    (hown : ∀ u, u ≠ t → ∀ m, (s.threads u).owned = some m → own ≠ some m)
    (hfresh : ∀ m, pc.owned = some m → ∀ u, u ≠ t → (s.threads u).owned ≠ some m) :
    Inv s' L' where
  heap := hh
  thread_ok u := by
    by_cases hu : u = t
    · subst hu
      simpa [hthreads] using hpc
    · simpa [hthreads, hu] using (hs.thread_ok u).grow hs.heap hg (hown u hu)
  owner_unique u v m hu hv := by
    rw [hthreads] at hu hv
    by_cases hut : u = t <;> by_cases hvt : v = t
    · rw [hut, hvt]
    · subst hut
      exact absurd (by simpa [hvt] using hv) (hfresh m (by simpa using hu) v hvt)
    · subst hvt
      exact absurd (by simpa [hut] using hu) (hfresh m (by simpa using hv) u hut)
    · exact hs.owner_unique u v m (by simpa [hut] using hu) (by simpa [hvt] using hv)

end Grows

end Circ.Harris
