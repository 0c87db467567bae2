import Circ.Queue.Invariant
import Mathlib.Data.List.Nodup

/-!
# Every step keeps the invariant of the doubly linked queue

The nodes change in five ways.  `Rc::new_many` adds a node nobody sees, and
`node.prev = ltail.downgrade()` writes a node only its `enqueue` sees: what is
published stays (`State.Heap.frame`).  The `compare_exchange` of `enqueue`
moves the tail one past the linked nodes, which is allowed only when no link
is missing (`State.Heap.setTail`).  A store to a `next`, by the `enqueue` that
moved the tail or by a helper, either writes the value already there, or links
the missing tail after the others (`State.Heap.append`).  The
`compare_exchange` of `dequeue` moves `head` along `next`
(`State.Heap.setHead`).

Each atomic action then has its lemma, and `Reachable.inv` collects them.
-/

namespace Circ.Queue

variable {T : Type} {n : Nat}

section Heap

variable {s s' : State T n} {A : List Nat}

theorem State.Heap.zero_mem (hh : s.Heap A) : 0 ∈ A := by
  cases A with
  | nil => exact absurd hh.list nofun
  | cons a A => exact List.mem_cons.2 (.inl (Option.some.inj hh.list.1))

theorem State.Heap.tail_lt (hh : s.Heap A) : s.tail < s.size :=
  hh.tail.elim (fun h => hh.lt_size _ (List.mem_of_getLast?_eq_some h)) fun h => h.2.2.2.2.1

/-- The last linked node, when the tail is one of them. -/
theorem State.Heap.getLast?_of_mem (hh : s.Heap A) (h : s.tail ∈ A) : A.getLast? = some s.tail :=
  hh.tail.resolve_right fun hp => hp.1 h

/-- A step that changes no published node, nor `head` and `tail`. -/
theorem State.Heap.frame (hh : s.Heap A) (hn : ∀ a, s.Pub A a → s'.nodes a = s.nodes a)
    (hsize : s.size ≤ s'.size) (hhead : s'.head = s.head) (htail : s'.tail = s.tail) :
    s'.Heap A where
  list := hh.list.frame fun a ha => by rw [hn a (.inl ha)]
  nodup := hh.nodup
  lt_size a ha := lt_of_lt_of_le (hh.lt_size a ha) hsize
  prev := (List.Chain'.iff_mem.1 hh.prev).imp fun a b ⟨_, hb, h⟩ => by
    rw [hn b (.inl hb)]; exact h
  prev_zero := by rw [hn 0 (.inl hh.zero_mem)]; exact hh.prev_zero
  item a ha := by rw [hn a (.inl ha)]; exact hh.item a ha
  head := hhead ▸ hh.head
  tail := by
    rw [htail]
    refine hh.tail.imp id fun hp => ?_
    have hsame := hn s.tail (.inr rfl)
    exact ⟨hp.1, hsame ▸ hp.2.1, hsame ▸ hp.2.2.1, hp.2.2.2.1,
      lt_of_lt_of_le hp.2.2.2.2.1 hsize, hsame ▸ hp.2.2.2.2.2⟩

/-- **Linking the missing tail** after the last linked node `l`. -/
theorem State.Heap.append (hh : s.Heap A) (hp : s.Pending A s.tail) {l : Nat}
    (hl : A.getLast? = some l) : (s.setNext l (some s.tail)).Heap (A ++ [s.tail]) where
  list := hh.list.append hh.nodup hl hp.1 hp.2.2.1
  nodup := hh.nodup.append (List.nodup_singleton _) (List.disjoint_singleton.2 hp.1)
  lt_size a ha := by
    rcases List.mem_append.1 ha with ha | ha
    · exact hh.lt_size a ha
    · exact List.mem_singleton.1 ha ▸ hp.2.2.2.2.1
  prev := by
    simp only [State.setNext_prev]
    exact List.chain'_append.2 ⟨hh.prev, List.chain'_singleton _, fun x hx y hy => by
      obtain rfl := Option.some.inj (Option.mem_def.1 hy)
      rw [hp.2.1, ← Option.mem_def]
      exact hx⟩
  prev_zero := by simpa using hh.prev_zero
  item a ha a0 := by
    rw [State.setNext_item]
    rcases List.mem_append.1 ha with ha | ha
    · exact hh.item a ha a0
    · exact List.mem_singleton.1 ha ▸ hp.2.2.2.2.2
  head := List.mem_append_left _ hh.head
  tail := .inl (by simp)

/-- **The `compare_exchange` of `enqueue`** moves the tail from the last linked
node to a node `m` whose `prev` names it. -/
theorem State.Heap.setTail (hh : s.Heap A) (htail : s.tail ∈ A) {m : Nat} (h0 : m ≠ 0)
    (hlt : m < s.size) (hm : m ∉ A) (hprev : (s.nodes m).prev = some s.tail)
    (hnext : (s.nodes m).next = none) (hitem : (s.nodes m).item ≠ none) :
    ({ s with tail := m } : State T n).Heap A :=
  { hh with
    list := hh.list.frame fun _ _ => rfl
    tail := .inr ⟨hm, by rw [hh.getLast?_of_mem htail]; exact hprev, hnext, h0, hlt, hitem⟩ }

/-- **The `compare_exchange` of `dequeue`** moves `head` along `next`. -/
theorem State.Heap.setHead (hh : s.Heap A) {ln : Nat} (hnext : (s.nodes s.head).next = some ln) :
    ({ s with head := ln } : State T n).Heap A :=
  { hh with list := hh.list.frame fun _ _ => rfl, head := hh.list.next_mem hh.head hnext }

/-- The first sentinel is the first linked node only. -/
theorem State.Heap.ne_zero_of_mem_tail (hh : s.Heap A) {a : Nat} (ha : a ∈ A.tail) : a ≠ 0 := by
  rintro rfl
  cases A with
  | nil => cases ha
  | cons c A =>
    obtain rfl : 0 = c := Option.some.inj hh.list.1
    exact (List.nodup_cons.1 hh.nodup).1 ha

/-- The node after a linked node is not the first sentinel. -/
theorem State.Heap.next_ne_zero (hh : s.Heap A) {a b : Nat} (ha : a ∈ A)
    (hb : (s.nodes a).next = some b) : b ≠ 0 :=
  hh.ne_zero_of_mem_tail (hh.list.next_mem_tail ha hb)

/-- A node at or before `head` is not the node after `head`. -/
theorem State.Heap.next_head_ne (hh : s.Heap A) {B C : List Nat} {a b : Nat}
    (hA : A = B ++ a :: C) (hhead : s.head ∈ a :: C) (hb : (s.nodes s.head).next = some b) :
    b ≠ a := by
  subst hA
  rintro rfl
  exact (List.nodup_cons.1 hh.nodup.of_append_right).1 (hh.list.suffix.next_mem_tail hhead hb)

theorem Grows.self (t : Fin n) (pc : Pc T) : Grows s A (s.setThread t pc) A none where
  size_le := le_rfl
  more := ⟨[], by simp⟩
  linked a ha := .inl ha
  next _ _ _ h := h
  pub _ _ := ⟨rfl, rfl⟩
  tail := .inl rfl
  head := .inl rfl
  priv _ _ _ _ := rfl

theorem Grows.setThread {own : Option Nat} {A' : List Nat} (hg : Grows s A s' A' own) (t : Fin n)
    (pc : Pc T) : Grows s A (s'.setThread t pc) A' own := { hg with }

theorem State.ThreadOk.owns {pc : Pc T} (h : s.ThreadOk A pc) {m : Nat} (hm : pc.owned = some m) :
    s.Owns A m := by
  cases pc <;> simp only [Pc.owned, Option.some.injEq, reduceCtorEq] at hm <;> subst hm
  exacts [h, h.1, h.1, h.1]

/-- The `prev` of a linked node names the node whose `next` it is. -/
theorem State.Heap.next_of_prev (hh : s.Heap A) {a b : Nat} (hb : b ∈ A)
    (hprev : (s.nodes b).prev = some a) : (s.nodes a).next = some b := by
  refine hh.list.next_of_prev hh.prev ?_ hprev
  cases A with
  | nil => cases hb
  | cons c A =>
    obtain rfl : 0 = c := Option.some.inj hh.list.1
    rcases List.mem_cons.1 hb with rfl | hb
    · rw [hh.prev_zero] at hprev; cases hprev
    · exact hb

/-- Linking the missing tail keeps what the other threads hold. -/
theorem Grows.append (hh : s.Heap A) {l : Nat} (hl : A.getLast? = some l) :
    Grows s A (s.setNext l (some s.tail)) (A ++ [s.tail]) none where
  size_le := le_rfl
  more := ⟨_, rfl⟩
  linked a ha := (List.mem_append.1 ha).imp_right List.mem_singleton.1
  next a _ b h := by
    rw [State.setNext_nodes]
    split_ifs with hal
    · subst hal; rw [hh.list.next_getLast hl] at h; cases h
    · exact h
  pub _ _ := by simp
  tail := .inl rfl
  head := .inl rfl
  priv m _ hm _ := by
    rw [State.setNext_nodes, if_neg fun (e : m = l) => hm (.inl (e ▸ List.mem_of_getLast?_eq_some hl))]

end Heap

/-! ### One lemma per atomic action -/

section Steps

variable {s s' : State T n} {A : List Nat} {t : Fin n}

/-- The pending `enqueue` keeps its last store when a step moves another thread. -/
theorem Inv.pending_setThread (hs : Inv s A) {s1 : State T n} (hs1 : s1.threads = s.threads)
    (htail : s1.tail = s.tail) (hlink : s.tail ∉ A → ∀ lt, s.threads t ≠ .link lt s.tail)
    (pc : Pc T) : s1.tail ∉ A → ∃ u lt, (s1.setThread t pc).threads u = .link lt s1.tail := by
  intro h
  rw [htail] at h ⊢
  obtain ⟨u, lt, hu⟩ := hs.pending h
  have hut : u ≠ t := fun e => hlink h lt (e ▸ hu)
  exact ⟨u, lt, by rw [State.setThread_threads_ne _ _ _ hut, hs1]; exact hu⟩

/-- A step that moves thread `t` alone keeps the invariant and the queue. -/
theorem Inv.setThread (hs : Inv s A) {pc : Pc T} (hpc : s.ThreadOk A pc)
    (hfresh : ∀ m, pc.owned = some m → (s.threads t).owned = some m)
    (hlink : s.tail ∉ A → ∀ lt, s.threads t ≠ .link lt s.tail) (hfound : pc.found = none) :
    Stepped s A (s.setThread t pc) A t where
  inv := hs.next (hs.heap.frame (fun _ _ => rfl) le_rfl rfl rfl) (Grows.self t pc) rfl
    (hpc.grow hs.heap (Grows.self t pc) fun _ _ => nofun) (fun _ _ _ _ => nofun)
    (fun m hm u hu hu' => hu (hs.owner_unique u t m hu' (hfresh m hm)))
    (fun _ h => nomatch hfound.symm.trans h) (hs.pending_setThread rfl rfl hlink pc)
  grows := ⟨none, Grows.self t pc⟩
  effect := .inl ⟨rfl, rfl⟩

/-- No other thread owns the node of thread `t`. -/
theorem Inv.own_ne (hs : Inv s A) {m0 : Nat} (ht : (s.threads t).owned = some m0) :
    ∀ u, u ≠ t → ∀ m, (s.threads u).owned = some m → some m0 ≠ some m :=
  fun u hu m hm heq => hu (hs.owner_unique u t m hm (by rw [ht, heq]))

/-- The thread at the last store of the pending `enqueue` is not thread `t`. -/
theorem Inv.link_ne {pc : Pc T} (ht : s.threads t = pc) (hpc : ∀ lt m, pc ≠ .link lt m) :
    s.tail ∉ A → ∀ lt, s.threads t ≠ .link lt s.tail :=
  fun _ lt h => hpc lt s.tail (ht ▸ h)

/-- **A store of the missing link**, by its `enqueue` or by a helper. -/
theorem Inv.append (hs : Inv s A) (htail : s.tail ∉ A) {l : Nat} (hl : A.getLast? = some l)
    {pc : Pc T} (hpc : (s.setNext l (some s.tail)).ThreadOk (A ++ [s.tail]) pc)
    (hfresh : ∀ m, pc.owned = some m → (s.threads t).owned = some m) (hfound : pc.found = none) :
    Stepped s A ((s.setNext l (some s.tail)).setThread t pc) (A ++ [s.tail]) t := by
  have hh := hs.heap
  have hp : s.Pending A s.tail := hh.tail.resolve_left fun h => htail (List.mem_of_getLast?_eq_some h)
  have hg := Grows.append hh hl
  obtain ⟨u, lt, hu⟩ := hs.pending htail
  refine ⟨hs.next ((hh.append hp hl).frame (fun _ _ => rfl) le_rfl rfl rfl) (hg.setThread t pc) rfl
    ((hpc.grow (hh.append hp hl) (Grows.self t pc) fun _ _ => nofun))
    (fun _ _ _ _ => nofun) (fun m hm u hu hu' => hu (hs.owner_unique u t m hu' (hfresh m hm)))
    (fun _ h => nomatch hfound.symm.trans h) fun h => absurd (List.mem_append_right _ (List.mem_singleton_self _)) h, ⟨none, hg.setThread t pc⟩,
    .inr (.inl ⟨u, lt, s.tail, rfl, rfl, hu⟩)⟩

/-- `Rc::new_many` gives the `enqueue` a node nobody else can reach. -/
theorem Inv.exec_alloc (hs : Inv s A) {x : T} (ht : s.threads t = .alloc x)
    (h : s.exec t (.alloc x) = some s') : Stepped s A s' A t := by
  cases h
  have hh := hs.heap
  have hpub : ∀ a, s.Pub A a → a < s.size := fun a ha => ha.elim (hh.lt_size a) fun e => e ▸ hh.tail_lt
  have hsame : ∀ a, a < s.size → (s.alloc ⟨some x, none, none⟩).nodes a = s.nodes a := fun a ha => by
    rw [State.alloc_nodes, if_neg (Nat.ne_of_lt ha)]
  have hg : Grows s A (s.alloc ⟨some x, none, none⟩) A none :=
    { size_le := Nat.le_succ _
      more := ⟨[], by simp⟩
      linked := fun a ha => .inl ha
      next := fun a ha b hb => by rw [hsame a ha]; exact hb
      pub := fun a ha => by rw [hsame a (hpub a ha)]; exact ⟨rfl, rfl⟩
      tail := .inl rfl
      head := .inl rfl
      priv := fun m hm _ _ => hsame m hm }
  have hh' : ((s.alloc ⟨some x, none, none⟩).setThread t (.loadTail s.size)).Heap A :=
    (hh.frame (fun a ha => hsame a (hpub a ha)) hg.size_le rfl rfl).frame (fun _ _ => rfl) le_rfl rfl rfl
  refine ⟨hs.next hh' (hg.setThread _ _) rfl
    ⟨(hh.lt_size 0 hh.zero_mem).ne', Nat.lt_succ_self _, fun h => lt_irrefl _ (hh.lt_size _ h),
      ne_of_gt hh.tail_lt, by simp [State.alloc_nodes], by simp [State.alloc_nodes]⟩
    (fun _ _ _ _ => nofun) (fun m hm u _ hu => ?_) (fun _ => nofun)
    (hs.pending_setThread rfl rfl (Inv.link_ne ht fun _ _ => nofun) _),
    ⟨none, hg.setThread _ _⟩, .inl ⟨rfl, rfl⟩⟩
  obtain rfl : s.size = m := Option.some.inj hm
  exact lt_irrefl _ ((hs.thread_ok u).owns hu).2.1

/-- `node.prev = ltail.downgrade()` writes the node only this `enqueue` sees. -/
theorem Inv.exec_loadTail (hs : Inv s A) {m : Nat} (ht : s.threads t = .loadTail m)
    (h : s.exec t (.loadTail m) = some s') : Stepped s A s' A t := by
  cases h
  have hh := hs.heap
  have ho : s.Owns A m := by simpa [ht, State.ThreadOk] using hs.thread_ok t
  have hsame : ∀ a, a ≠ m → (s.setPrev m (some s.tail)).nodes a = s.nodes a := fun a ha => by
    rw [State.setPrev_nodes, if_neg ha]
  have hpub : ∀ a, s.Pub A a → a ≠ m := fun a ha e => ha.elim (fun h => ho.2.2.1 (e ▸ h))
    fun h => ho.2.2.2.1 (e ▸ h)
  have hg : Grows s A (s.setPrev m (some s.tail)) A (some m) :=
    { size_le := le_rfl
      more := ⟨[], by simp⟩
      linked := fun a ha => .inl ha
      next := fun a _ b hb => by simpa using hb
      pub := fun a ha => by rw [hsame a (hpub a ha)]; exact ⟨rfl, rfl⟩
      tail := .inl rfl
      head := .inl rfl
      priv := fun a _ _ ha => hsame a fun e => ha (e ▸ rfl) }
  have hh' : ((s.setPrev m (some s.tail)).setThread t (.help m s.tail)).Heap A :=
    (hh.frame (fun a ha => hsame a (hpub a ha)) le_rfl rfl rfl).frame (fun _ _ => rfl) le_rfl rfl rfl
  refine ⟨hs.next hh' (hg.setThread _ _) rfl ⟨?_, by simp [State.setPrev_nodes], .inr rfl⟩
    (hs.own_ne (by rw [ht]; rfl)) (fun m' hm' u hu hu' => hu (hs.owner_unique u t m' hu'
      (by rw [ht]; exact hm'))) (fun _ => nofun) (hs.pending_setThread rfl rfl (Inv.link_ne ht fun _ _ => nofun) _),
    ⟨some m, hg.setThread _ _⟩, .inl ⟨rfl, rfl⟩⟩
  obtain ⟨h0, hlt, hA, htl, hnext, hitem⟩ := ho
  exact ⟨h0, hlt, hA, htl, by simpa using hnext, by simpa using hitem⟩

/-- A published tail whose `prev` is null, or names a node with a `next`, is
linked. -/
theorem Inv.mem_of_help (hs : Inv s A) {lt : Nat} (hpub : s.Pub A lt)
    (hprev : ∀ lp, (s.nodes lt).prev = some lp → (s.nodes lp).next ≠ none) : lt ∈ A := by
  by_contra hlt
  obtain rfl : lt = s.tail := hpub.resolve_left hlt
  have hp : s.Pending A s.tail :=
    hs.heap.tail.resolve_left fun h => hlt (List.mem_of_getLast?_eq_some h)
  obtain ⟨l, hl⟩ : ∃ l, A.getLast? = some l :=
    Option.ne_none_iff_exists'.1 (by simpa using List.ne_nil_of_mem hs.heap.zero_mem)
  exact hprev l (hp.2.1.trans hl) (hs.heap.list.next_getLast hl)

/-- `ltail.prev.as_snapshot` and the load of `lprev.next`: help, or go on. -/
theorem Inv.exec_help (hs : Inv s A) {m lt : Nat} (ht : s.threads t = .help m lt)
    (h : s.exec t (.help m lt) = some s') : Stepped s A s' A t := by
  obtain ⟨ho, hmp, hpub⟩ : s.ThreadOk A (.help m lt) := ht ▸ hs.thread_ok t
  have hfresh : ∀ pc : Pc T, pc.owned = some m → ∀ m', pc.owned = some m' →
      (s.threads t).owned = some m' := fun pc hpc m' h => by rw [ht, ← h, hpc]; rfl
  have hlink := Inv.link_ne (A := A) ht fun _ _ => nofun
  rcases hp : (s.nodes lt).prev with _ | lp
  · simp only [State.exec, hp] at h
    cases h
    exact hs.setThread ⟨ho, hmp, hs.mem_of_help hpub fun lp h => by rw [hp] at h; cases h⟩
      (hfresh _ rfl) hlink rfl
  · simp only [State.exec, hp] at h
    split_ifs at h with hn
    · cases h
      exact hs.setThread ⟨ho, hmp, hpub, hp⟩ (hfresh _ rfl) hlink rfl
    · cases h
      exact hs.setThread ⟨ho, hmp, hs.mem_of_help hpub fun lp' h => by
        rw [hp] at h; cases h; exact hn⟩ (hfresh _ rfl) hlink rfl

/-- `lprev.next.store(ltail.upgrade())` of a helping `enqueue`. -/
theorem Inv.exec_store (hs : Inv s A) {m lp lt : Nat} (ht : s.threads t = .store m lp lt)
    (h : s.exec t (.store m lp lt) = some s') : ∃ A', Stepped s A s' A' t := by
  cases h
  obtain ⟨ho, hmp, hpub, hlp⟩ : s.ThreadOk A (.store m lp lt) := ht ▸ hs.thread_ok t
  have hfresh : ∀ m', (Pc.casTail (T := T) m lt).owned = some m' → (s.threads t).owned = some m' :=
    fun m' h => by rw [ht]; exact h
  by_cases hlt : lt ∈ A
  · -- the link is there: the store writes what `next` holds
    rw [← hs.heap.next_of_prev hlt hlp, State.setNext_self]
    exact ⟨A, hs.setThread ⟨ho, hmp, hlt⟩ hfresh (Inv.link_ne ht fun _ _ => nofun) rfl⟩
  · -- `lt` is the tail one past the last linked node `lp`
    obtain rfl : lt = s.tail := hpub.resolve_left hlt
    have hp : s.Pending A s.tail :=
      hs.heap.tail.resolve_left fun h => hlt (List.mem_of_getLast?_eq_some h)
    have hl : A.getLast? = some lp := hp.2.1.symm.trans hlp
    obtain ⟨ho', hsame⟩ := State.Owns.grow (Grows.append hs.heap hl) ho nofun
    exact ⟨_, hs.append hlt hl ⟨ho', hsame ▸ hmp, List.mem_append_right _ (List.mem_singleton_self _)⟩
      hfresh rfl⟩

/-- The `compare_exchange` of `enqueue` on `tail`. -/
theorem Inv.exec_casTail (hs : Inv s A) {m lt : Nat} (ht : s.threads t = .casTail m lt)
    (h : s.exec t (.casTail m lt) = some s') : Stepped s A s' A t := by
  obtain ⟨ho, hmp, hlt⟩ : s.ThreadOk A (.casTail m lt) := ht ▸ hs.thread_ok t
  simp only [State.exec] at h
  split_ifs at h with htl
  · cases h
    subst htl
    obtain ⟨h0, hms, hmA, -, hnext, hitem⟩ := ho
    have hg : Grows s A { s with tail := m } A (some m) :=
      { size_le := le_rfl
        more := ⟨[], by simp⟩
        linked := fun a ha => .inl ha
        next := fun _ _ _ h => h
        pub := fun _ _ => ⟨rfl, rfl⟩
        tail := .inr ⟨hlt, rfl⟩
        head := .inl rfl
        priv := fun _ _ _ _ => rfl }
    exact ⟨hs.next ((hs.heap.setTail hlt h0 hms hmA hmp hnext hitem).frame (fun _ _ => rfl) le_rfl
      rfl rfl) (hg.setThread _ _) rfl ⟨.inr rfl, hmp⟩ (hs.own_ne (by rw [ht]; rfl)) (fun _ => nofun)
      (fun _ => nofun) fun _ => ⟨t, s.tail, by simp⟩, ⟨some m, hg.setThread _ _⟩, .inl ⟨rfl, rfl⟩⟩
  · cases h
    exact hs.setThread ho (fun m' hm' => by rw [ht]; exact hm') (Inv.link_ne ht fun _ _ => nofun) rfl

/-- `ltail.next.store(sub)` of the `enqueue` that moved the tail. -/
theorem Inv.exec_link (hs : Inv s A) {lt m : Nat} (ht : s.threads t = .link lt m)
    (h : s.exec t (.link lt m) = some s') : ∃ A', Stepped s A s' A' t := by
  cases h
  obtain ⟨hpub, hmp⟩ : s.ThreadOk A (.link lt m) := ht ▸ hs.thread_ok t
  by_cases hm : m ∈ A
  · -- a helper stored the link already
    rw [← hs.heap.next_of_prev hm hmp, State.setNext_self]
    exact ⟨A, hs.setThread trivial nofun (fun htail lt' h => htail (by rw [ht] at h; cases h; exact hm)) rfl⟩
  · obtain rfl : m = s.tail := hpub.resolve_left hm
    have hp : s.Pending A s.tail :=
      hs.heap.tail.resolve_left fun h => hm (List.mem_of_getLast?_eq_some h)
    exact ⟨_, hs.append hm (hp.2.1.symm.trans hmp) trivial nofun rfl⟩

theorem Inv.exec_loadHead (hs : Inv s A) (ht : s.threads t = .loadHead)
    (h : s.exec t .loadHead = some s') : Stepped s A s' A t := by
  cases h
  obtain ⟨B, C, hA⟩ := List.append_of_mem hs.heap.head
  exact hs.setThread ⟨B, C, hA, List.mem_cons_self _ _⟩ nofun (Inv.link_ne ht fun _ _ => nofun) rfl

/-- `lhead.next.load`: the queue is empty, or `dequeue` tries to move `head`. -/
theorem Inv.exec_loadNext (hs : Inv s A) {lh : Nat} (ht : s.threads t = .loadNext lh)
    (h : s.exec t (.loadNext lh) = some s') : Stepped s A s' A t := by
  obtain ⟨B, C, hA, -⟩ : s.ThreadOk A (.loadNext lh) := ht ▸ hs.thread_ok t
  have hlink := Inv.link_ne (A := A) ht fun _ _ => nofun
  simp only [State.exec] at h
  split at h <;> cases h
  · exact hs.setThread trivial nofun hlink rfl
  · rename_i ln hln
    exact hs.setThread ⟨by rw [hA]; simp, hln⟩ nofun hlink rfl

/-- The `compare_exchange` of `dequeue` on `head`. -/
theorem Inv.exec_casHead (hs : Inv s A) {lh ln : Nat} (ht : s.threads t = .casHead lh ln)
    (h : s.exec t (.casHead lh ln) = some s') : Stepped s A s' A t := by
  obtain ⟨hlh, hln⟩ : s.ThreadOk A (.casHead lh ln) := ht ▸ hs.thread_ok t
  have hlink := Inv.link_ne (A := A) ht fun _ _ => nofun
  simp only [State.exec] at h
  split_ifs at h with hhd
  · cases h
    subst hhd
    have hg : Grows s A { s with head := ln } A none :=
      { size_le := le_rfl
        more := ⟨[], by simp⟩
        linked := fun a ha => .inl ha
        next := fun _ _ _ h => h
        pub := fun _ _ => ⟨rfl, rfl⟩
        tail := .inl rfl
        head := .inr hln
        priv := fun _ _ _ _ => rfl }
    -- the node returned is after every node another `dequeue` returned
    have hfound : ∀ u, u ≠ t → (s.threads u).found ≠ some ln := fun u _ hu => by
      obtain ⟨-, B, C, hA, hhead⟩ : s.ThreadOk A (.dequeued (some ln)) :=
        Pc.eq_of_found hu ▸ hs.thread_ok u
      exact hs.heap.next_head_ne hA hhead hln rfl
    obtain ⟨B, C, hA⟩ := List.append_of_mem (hs.heap.list.next_mem hlh hln)
    exact ⟨hs.next ((hs.heap.setHead hln).frame (fun _ _ => rfl) le_rfl rfl rfl) (hg.setThread _ _)
      rfl ⟨hs.heap.next_ne_zero hlh hln, B, C, hA, List.mem_cons_self _ _⟩ (fun _ _ _ _ => nofun)
      nofun (fun _ ha => by cases ha; exact hfound) (hs.pending_setThread rfl rfl hlink _),
      ⟨none, hg.setThread _ _⟩, .inr (.inr ⟨s.head, ln, rfl, ht, by simp, rfl, rfl⟩)⟩
  · cases h
    exact hs.setThread trivial nofun hlink rfl

/-- **Every atomic action of a thread keeps the invariant.** -/
theorem Inv.exec (hs : Inv s A) (h : s.exec t (s.threads t) = some s') :
    ∃ A', Stepped s A s' A' t := by
  cases ht : s.threads t with
  | idle | enqueued | dequeued => simp [ht, State.exec] at h
  | alloc x => rw [ht] at h; exact ⟨A, hs.exec_alloc ht h⟩
  | loadTail m => rw [ht] at h; exact ⟨A, hs.exec_loadTail ht h⟩
  | help m lt => rw [ht] at h; exact ⟨A, hs.exec_help ht h⟩
  | store m lp lt => rw [ht] at h; exact hs.exec_store ht h
  | casTail m lt => rw [ht] at h; exact ⟨A, hs.exec_casTail ht h⟩
  | link lt m => rw [ht] at h; exact hs.exec_link ht h
  | loadHead => rw [ht] at h; exact ⟨A, hs.exec_loadHead ht h⟩
  | loadNext lh => rw [ht] at h; exact ⟨A, hs.exec_loadNext ht h⟩
  | casHead lh ln => rw [ht] at h; exact ⟨A, hs.exec_casHead ht h⟩

theorem Inv.step (hs : Inv s A) {a : Action T n} (h : step s a = some s') :
    ∃ t A', Stepped s A s' A' t := by
  cases a with
  | invoke t req =>
    simp only [Circ.Queue.step] at h
    split at h
    · cases h
      rename_i hidle
      exact ⟨t, A, hs.setThread (by cases req <;> trivial)
        (fun _ h => by cases req <;> simp [Request.start, Pc.owned] at h)
        (Inv.link_ne hidle fun _ _ => nofun) (by cases req <;> rfl)⟩
    · cases h
  | exec t => exact ⟨t, hs.exec h⟩
  | reset t =>
    simp only [Circ.Queue.step] at h
    split at h <;> cases h <;> rename_i hret
    · exact ⟨t, A, hs.setThread trivial nofun (Inv.link_ne hret fun _ _ => nofun) rfl⟩
    · exact ⟨t, A, hs.setThread trivial nofun (Inv.link_ne hret fun _ _ => nofun) rfl⟩

theorem Inv.init : Inv (State.init : State T n) [0] where
  heap :=
    { list := ⟨rfl, rfl⟩
      nodup := List.nodup_singleton 0
      lt_size := by simp [State.init]
      prev := List.chain'_singleton 0
      prev_zero := rfl
      item := by simp
      head := List.mem_singleton_self 0
      tail := .inl rfl }
  pending h := absurd (List.mem_singleton_self 0) h
  thread_ok _ := trivial
  owner_unique _ _ _ h := by simp [State.init, Pc.owned] at h
  found_unique _ _ _ h := by simp [State.init, Pc.found] at h

/-- **The invariant holds in every reachable state.** -/
theorem Reachable.inv {s : State T n} (h : Reachable s) : ∃ A, Inv s A := by
  induction h with
  | init => exact ⟨[0], Inv.init⟩
  | step _ hstep ih =>
    obtain ⟨A, hs⟩ := ih
    obtain ⟨_, A', h⟩ := hs.step hstep
    exact ⟨A', h.inv⟩

/-- **At most one link is missing.**  In every reachable state the nodes linked
from the first sentinel end at the tail, or one before it: then the tail's
`prev` names the last linked node, its `next` is null, and the `enqueue` that
moved the tail there is at its last store. -/
theorem Reachable.tail_linked {s : State T n} (h : Reachable s) :
    ∃ A, s.ListFrom (some 0) A ∧ (A.getLast? = some s.tail ∨
      s.tail ∉ A ∧ (s.nodes s.tail).prev = A.getLast? ∧ (s.nodes s.tail).next = none ∧
        ∃ u lt, s.threads u = .link lt s.tail) :=
  let ⟨A, hs⟩ := h.inv
  ⟨A, hs.heap.list, hs.heap.tail.imp id fun hp => ⟨hp.1, hp.2.1, hp.2.2.1, hs.pending hp.1⟩⟩

theorem tail_linked_pending :
    ∃ s : State Nat 1, Reachable s ∧ s.tail = 1 ∧ s.threads 0 = .link 0 1 ∧
      ∃ A, s.ListFrom (some 0) A ∧ (A.getLast? = some s.tail ∨
        s.tail ∉ A ∧ (s.nodes s.tail).prev = A.getLast? ∧ (s.nodes s.tail).next = none ∧
          ∃ u lt, s.threads u = .link lt s.tail) := by
  have hr : Reachable (T := Nat) (n := 1) _ :=
    .runs (l := [.invoke 0 (.enqueue 5), .exec 0, .exec 0, .exec 0, .exec 0]) .init rfl
  exact ⟨_, hr, rfl, rfl, Reachable.tail_linked hr⟩

/-- **A link, once stored, is never overwritten.**  Over any run from a
reachable state, the `next` of an allocated node keeps the node it points to:
the helping store, whose null check can be stale by the time it stores, and
the store of the `enqueue` itself only ever write a null `next`, or the value
already there.  Like the whole model, this is under sequentially consistent
atomics and for a node that has not been reclaimed: the model frees no node,
and `pop_outgoings` takes a node's `next` only when it reclaims the node. -/
theorem Reachable.next_stable {s s' : State T n} {l : List (Action T n)} (hr : Reachable s)
    (h : s.runs l = some s') {c b : Nat} (hc : c < s.size) (hb : (s.nodes c).next = some b) :
    (s'.nodes c).next = some b := by
  induction l generalizing s with
  | nil => cases h; exact hb
  | cons a l ih =>
    obtain ⟨s1, h1, h2⟩ := Option.bind_eq_some.1 h
    obtain ⟨A, hs⟩ := hr.inv
    obtain ⟨_, _, hst⟩ := hs.step h1
    obtain ⟨_, hg⟩ := hst.grows
    exact ih (hr.step h1) h2 (lt_of_lt_of_le hc hg.size_le) (hg.next c hc b hb)

theorem next_stable_two_enqueues :
    ∃ s s' : State Nat 2, Reachable s ∧
      s.runs [.invoke 1 (.enqueue 6), .exec 1, .exec 1, .exec 1, .exec 1, .exec 1] = some s' ∧
      (s.nodes 0).next = some 1 ∧ (s'.nodes 0).next = some 1 ∧ (s'.nodes 1).next = some 2 := by
  have hr : Reachable (T := Nat) (n := 2) _ :=
    .runs (l := [.invoke 0 (.enqueue 5), .exec 0, .exec 0, .exec 0, .exec 0, .exec 0]) .init rfl
  refine ⟨_, _, hr, rfl, rfl, ?_, rfl⟩
  refine Reachable.next_stable hr
    (l := [.invoke 1 (.enqueue 6), .exec 1, .exec 1, .exec 1, .exec 1, .exec 1]) ?_ (by decide) rfl
  rfl

/-- **`Output::output` never panics.**  In every reachable state, the node a
returned `dequeue` holds has an item, which `Output::output` unwraps.  This
is under sequentially consistent atomics, and for a node not reclaimed: the
snapshot in the `Output` keeps its node, and the model frees no node. -/
theorem Reachable.output_item {s : State T n} (hr : Reachable s) {a : Nat}
    (ht : s.threads t = .dequeued (some a)) : ∃ x, (s.nodes a).item = some x := by
  obtain ⟨A, hs⟩ := hr.inv
  obtain ⟨h0, B, C, hA, -⟩ : s.ThreadOk A (.dequeued (some a)) := ht ▸ hs.thread_ok t
  exact Option.ne_none_iff_exists'.1 (hs.heap.item a (by simp [hA]) h0)

theorem output_item_dequeued :
    ∃ s : State Nat 1, Reachable s ∧ s.threads 0 = .dequeued (some 1) ∧
      ∃ x, (s.nodes 1).item = some x := by
  have hr : Reachable (T := Nat) (n := 1) _ :=
    .runs (l := [.invoke 0 (.enqueue 5), .exec 0, .exec 0, .exec 0, .exec 0, .exec 0, .reset 0,
      .invoke 0 .dequeue, .exec 0, .exec 0, .exec 0]) .init rfl
  exact ⟨_, hr, rfl, Reachable.output_item hr (t := 0) rfl⟩

/-- No step gives another thread a node at or before `head` to return. -/
theorem Inv.found_step (hs : Inv s A) {B C : List Nat} {a : Nat} (hA : A = B ++ a :: C)
    (hhead : s.head ∈ a :: C) (hheld : ∀ u, (s.threads u).found = some a → u = t)
    {act : Action T n} (h : Circ.Queue.step s act = some s') (u : Fin n)
    (hu : (s'.threads u).found = some a) : u = t := by
  obtain ⟨v, pc, hth, hpc⟩ := step_threads h
  rw [hth] at hu
  rcases eq_or_ne u v with rfl | huv
  · rw [Function.update_same] at hu
    obtain ⟨-, hln⟩ : s.ThreadOk A (.casHead s.head a) := hpc a hu ▸ hs.thread_ok u
    exact absurd rfl (hs.heap.next_head_ne hA hhead hln)
  · rw [Function.update_noteq huv] at hu
    exact hheld u hu

/-- **A node is returned by one `dequeue` only.**  From a reachable state in
which the `dequeue` of thread `t` has returned node `a`, over any run, no other
thread holds `a` as its result: a `dequeue` returns the node after `head`, and
`head` never moves back. -/
theorem Reachable.found_once {s s' : State T n} {l : List (Action T n)} (hr : Reachable s)
    (h : s.runs l = some s') {a : Nat} (ht : s.threads t = .dequeued (some a)) {u : Fin n}
    (hut : u ≠ t) : s'.threads u ≠ .dequeued (some a) := by
  intro hu
  obtain ⟨A, hs⟩ := hr.inv
  obtain ⟨-, B, C, hA, hhead⟩ : s.ThreadOk A (.dequeued (some a)) := ht ▸ hs.thread_ok t
  have hheld : ∀ v, (s.threads v).found = some a → v = t :=
    fun v hv => hs.found_unique v t a hv (by rw [ht]; rfl)
  clear hr ht
  induction l generalizing s A B C with
  | nil => cases h; exact hut (hheld u (by rw [hu]; rfl))
  | cons act l ih =>
    obtain ⟨s1, h1, h2⟩ := Option.bind_eq_some.1 h
    obtain ⟨_, A1, hst⟩ := hs.step h1
    obtain ⟨_, hg⟩ := hst.grows
    obtain ⟨B1, C1, hA1, hhead1⟩ := hs.heap.list.head_grow hg hA hhead
    exact ih h2 A1 hst.inv B1 C1 hA1 hhead1 (hs.found_step hA hhead hheld h1)

theorem found_once_two_dequeues :
    ∃ s s' : State Nat 2, Reachable s ∧
      s.runs [.invoke 1 .dequeue, .exec 1, .exec 1, .exec 1] = some s' ∧
      s.threads 0 = .dequeued (some 1) ∧ s'.threads 1 = .dequeued (some 2) ∧
      s'.threads 1 ≠ .dequeued (some 1) := by
  have hr : Reachable (T := Nat) (n := 2) _ :=
    .runs (l := [.invoke 0 (.enqueue 5), .exec 0, .exec 0, .exec 0, .exec 0, .exec 0, .reset 0,
      .invoke 0 (.enqueue 6), .exec 0, .exec 0, .exec 0, .exec 0, .exec 0, .reset 0,
      .invoke 0 .dequeue, .exec 0, .exec 0, .exec 0]) .init rfl
  refine ⟨_, _, hr, rfl, rfl, rfl, ?_⟩
  refine Reachable.found_once hr (l := [.invoke 1 .dequeue, .exec 1, .exec 1, .exec 1]) (t := 0)
    (u := 1) ?_ rfl (by decide)
  rfl

end Steps

end Circ.Queue
