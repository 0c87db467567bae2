import Circ.Harris.Invariant
import Mathlib.Data.List.Pairwise

/-!
# Every step keeps the invariant of Harris's list

The shared heap changes in four ways only.  `Rc::new` adds a node nobody can
reach.  A successful clean-up `compare_exchange` of `find_harris`, or the one
of `Cursor::remove`, replaces the `next` of an unmarked node by the link at the
end of a run of marked nodes that follows it: the run leaves the list, which
stays sorted (`State.Heap.snip`).  The `compare_exchange` of `Cursor::insert`
links the new node between `prev` and `curr`, whose keys bound its key
(`State.Heap.insert`).  The `compare_exchange_tag` of `Cursor::remove` marks a
node of the list and changes no pointer (`State.Heap.mark`).

Each atomic action then has its lemma, and `Reachable.inv` collects them.
-/

namespace Circ.Harris

variable {K V : Type} {n : Nat}

section Frame

variable {s : State K V n} {L L' : List Nat} {own : Option Nat} {p : Nat} {l : Link}

theorem State.marked_alloc {node : Node K V} {a : Nat} :
    (s.alloc node).Marked a ↔ if a = s.size then node.next.tag ≠ 0 else s.Marked a := by
  by_cases h : a = s.size <;> simp [State.Marked, State.alloc_nodes, h]

theorem State.marked_setNext {a : Nat} :
    (s.setNext p l).Marked a ↔ if a = p then l.tag ≠ 0 else s.Marked a := by
  by_cases h : a = p <;> simp [State.Marked, State.setNext_next, h]

/-- An untagged write to an unmarked node marks nothing. -/
theorem State.marked_setNext_clean (hp : ¬ s.Marked p) (hl : l.tag = 0) {a : Nat} :
    (s.setNext p l).Marked a ↔ s.Marked a := by
  rw [State.marked_setNext]
  split_ifs with h
  · subst h
    simp [hl, hp]
  · rfl

/-- A write to the `next` of an unmarked node keeps what the other threads
hold, when the nodes leaving the list are marked and no owned node is
touched. -/
theorem Grows.setNext (hp : ¬ s.Marked p) (hpub : ∀ c ∈ L, c ∈ L' ∨ s.Marked c)
    (hpriv : ∀ m, m ≠ 0 → m ∉ L → ¬ s.Marked m → own ≠ some m → m ≠ p ∧ m ∉ L') :
    Grows s L (s.setNext p l) L' own where
  size_le := le_refl _
  key a _ := by simp
  value a _ := by simp
  marked a ha := by rw [State.setNext_next, if_neg (fun h : a = p => hp (h ▸ ha))]
  pub a ha := by
    have hm : ∀ {c}, s.Marked c → (s.setNext p l).Marked c := fun {c} hc => by
      rwa [State.marked_setNext, if_neg (fun h : c = p => hp (h ▸ hc))]
    rcases ha with ha | ha
    · exact (hpub a ha).imp id hm
    · exact .inr (hm ha)
  priv m h0 _ hL hm hown := by
    obtain ⟨hmp, hL'⟩ := hpriv m h0 hL hm hown
    exact ⟨by simp [State.setNext_nodes, hmp], hL'⟩

theorem Grows.setThread {s' : State K V n} (hg : Grows s L s' L' own) (t : Fin n) (pc : Pc K V) :
    Grows s L (s'.setThread t pc) L' own := { hg with }

/-- Moving a thread changes no node. -/
theorem Grows.self (t : Fin n) (pc : Pc K V) : Grows s L (s.setThread t pc) L none where
  size_le := le_refl _
  key _ _ := rfl
  value _ _ := rfl
  marked _ _ := rfl
  pub _ h := h
  priv _ _ _ hL _ _ := ⟨rfl, hL⟩

@[simp] theorem State.live_setThread {t : Fin n} {pc : Pc K V} {c : Nat} :
    (s.setThread t pc).Live L c ↔ s.Live L c := Iff.rfl

variable [LinearOrder K]

/-- In a list sorted by key, a key names one node. -/
theorem State.eq_of_key_eq (h : L.Pairwise fun a b => (s.nodes a).key < (s.nodes b).key)
    {a b : Nat} (ha : a ∈ L) (hb : b ∈ L) (hkey : (s.nodes a).key = (s.nodes b).key) : a = b :=
  by_contra fun hne => (h.imp ne_of_lt).forall (fun _ _ h => h.symm) ha hb hne hkey

theorem State.Heap.setThread (hh : s.Heap L) (t : Fin n) (pc : Pc K V) :
    (s.setThread t pc).Heap L := { hh with list := hh.list.frame fun _ _ => rfl }

theorem State.Heap.nodup (hh : s.Heap L) : (0 :: L).Nodup :=
  List.nodup_cons.2 ⟨fun h => (hh.list_lt 0 h).1 rfl, hh.sorted.imp fun h he => by
    subst he
    exact lt_irrefl _ h⟩

theorem State.Heap.not_marked_head (hh : s.Heap L) : ¬ s.Marked 0 := fun h =>
  (hh.marked_lt 0 h).1 rfl

/-- The `next` of a published node leads to a published node. -/
theorem State.Heap.next_ok (hh : s.Heap L) {c : Nat} (hc : s.Pub L c) :
    s.LinkOk L (s.nodes c).next :=
  hc.elim (fun hL _ hb => .inl (hh.list.next_mem hL hb)) (hh.marked_next c)

theorem State.Heap.head_ok (hh : s.Heap L) : s.LinkOk L (s.nodes 0).next :=
  fun _ hb => .inl (hh.list.mem_of_ptr hb)

/-- The list, head included, split at one of its nodes. -/
theorem State.Heap.split (hh : s.Heap L) (hp : p = 0 ∨ p ∈ L) :
    ∃ A B, 0 :: L = A ++ p :: B ∧ s.ListFrom (s.nodes p).next B ∧
      (∀ a ∈ A, a ≠ p) ∧ ∀ b ∈ B, b ≠ p := by
  have hW : s.ListFrom ⟨some 0, 0⟩ (0 :: L) := ⟨rfl, hh.list⟩
  obtain ⟨A, B, hAB, hB⟩ := hW.split (a := p) (by rcases hp with rfl | hp <;> simp [*])
  have hnd := hh.nodup
  rw [hAB, List.Nodup, List.pairwise_append, List.pairwise_cons] at hnd
  exact ⟨A, B, hAB, hB, fun a ha => hnd.2.2 a ha p (List.mem_cons_self _ _),
    fun b hb => (hnd.2.1.1 b hb).symm⟩

/-- Changing what follows `p` keeps the head first. -/
theorem head_append_cons {A B M : List Nat} (h : 0 :: L = A ++ p :: B) :
    ∃ L', A ++ p :: M = 0 :: L' := by
  cases A with
  | nil =>
    obtain ⟨rfl, -⟩ := List.cons.inj h
    exact ⟨M, rfl⟩
  | cons a A =>
    obtain ⟨rfl, -⟩ := List.cons.inj h
    exact ⟨A ++ p :: M, rfl⟩

/-- The heap part after an untagged write, from the new list. -/
theorem State.Heap.setNext (hh : s.Heap L) (hg : Grows s L (s.setNext p l) L' own)
    (hl : l.tag = 0) (hlist : (s.setNext p l).ListFrom ⟨some 0, 0⟩ (0 :: L'))
    (hsorted : L'.Pairwise fun a b => (s.nodes a).key < (s.nodes b).key)
    (hlt : ∀ c ∈ L', c ≠ 0 ∧ c < s.size) : (s.setNext p l).Heap L' where
  size_pos := hh.size_pos
  list := hlist.2
  sorted := by simpa using hsorted
  list_lt := hlt
  marked_lt a ha := by
    rw [State.marked_setNext] at ha
    split_ifs at ha with hap
    · exact absurd hl ha
    · exact hh.marked_lt a ha
  marked_next a ha := by
    rw [State.marked_setNext] at ha
    split_ifs at ha with hap
    · exact absurd hl ha
    · rw [State.setNext_next, if_neg hap]
      exact (hh.marked_next a ha).grow hg

/-- **Unlinking a run of marked nodes.**  When the `next` of `p`, the head or a
node of the list, is the untagged `l1`, and a run of marked nodes leads from
`l1` to `l2`, setting it to `l2` takes that run out of the list and nothing
else. -/
theorem State.Heap.snip (hh : s.Heap L) (hp : p = 0 ∨ p ∈ L) {l1 l2 : Link}
    (hnext : (s.nodes p).next = l1) (hl1 : l1.tag = 0) (hpath : s.MarkedPath l1 l2)
    (hl2 : l2.tag = 0) :
    ∃ L', (s.setNext p l2).Heap L' ∧ Grows s L (s.setNext p l2) L' none ∧
      ∀ c, (s.setNext p l2).Live L' c ↔ s.Live L c := by
  obtain ⟨A, B, hW, hB, hA, hBp⟩ := hh.split hp
  obtain ⟨seg, M2, rfl, hM2, hseg⟩ := hpath.split (hnext ▸ hB)
  obtain ⟨L', hL'⟩ := head_append_cons (M := M2) hW
  have hsub : L'.Sublist L := by
    rw [← List.cons_sublist_cons (a := 0), ← hL', hW]
    exact ((List.sublist_append_right seg M2).cons₂ p).append_left A
  have hgone : ∀ c ∈ L, c ∉ L' → s.Marked c := by
    intro c hc hc'
    have h1 : c ∈ A ++ p :: (seg ++ M2) := hW ▸ List.mem_cons_of_mem 0 hc
    have h2 : c ∉ A ++ p :: M2 := by
      rw [hL']
      rintro (_ | ⟨_, h⟩)
      · exact (hh.list_lt 0 hc).1 rfl
      · exact hc' h
    simp only [List.mem_append, List.mem_cons] at h1 h2
    rcases h1 with h1 | rfl | h1 | h1
    · exact absurd (.inl h1) h2
    · exact absurd (.inr (.inl rfl)) h2
    · exact hseg c h1
    · exact absurd (.inr (.inr h1)) h2
  have hpm : ¬ s.Marked p := by simp [State.Marked, hnext, hl1]
  have hg : Grows s L (s.setNext p l2) L' none :=
    .setNext hpm (fun c hc => (em (c ∈ L')).imp_right (hgone c hc)) fun m _ hL _ _ =>
      ⟨fun h => by subst h; rcases hp with rfl | hp <;> simp_all, fun h => hL (hsub.subset h)⟩
  have hlist : (s.setNext p l2).ListFrom ⟨some 0, 0⟩ (0 :: L') := by
    rw [← hL']
    refine (show s.ListFrom ⟨some 0, 0⟩ (A ++ p :: (seg ++ M2)) from hW ▸ ⟨rfl, hh.list⟩).rebuild
      (fun a ha => by simp [State.setNext_next, hA a ha]) ?_
    rw [State.setNext_next, if_pos rfl]
    exact hM2.frame fun b hb => by simp [State.setNext_next, hBp b (by simp [hb])]
  refine ⟨L', hh.setNext hg hl2 hlist (hh.sorted.sublist hsub)
    (fun c hc => hh.list_lt c (hsub.subset hc)), hg, fun c => ?_⟩
  rw [State.Live, State.Live, State.marked_setNext_clean hpm hl2]
  exact ⟨fun h => ⟨hsub.subset h.1, h.2⟩, fun h => ⟨by_contra fun h' => h.2 (hgone c h.1 h'), h.2⟩⟩

/-- A new element between two parts of a sorted list. -/
theorem pairwise_insert {α : Type} {R : α → α → Prop} {A B : List α} {m : α}
    (h : (A ++ B).Pairwise R) (hA : ∀ a ∈ A, R a m) (hB : ∀ b ∈ B, R m b) :
    (A ++ m :: B).Pairwise R := by
  rw [List.pairwise_append] at h ⊢
  refine ⟨h.1, List.pairwise_cons.2 ⟨hB, h.2.1⟩, fun a ha b hb => ?_⟩
  rcases List.mem_cons.1 hb with rfl | hb
  · exact hA a ha
  · exact h.2.2 a ha b hb

/-- Every node of the sorted list from `curr` has a key above `k` when the
first one has. -/
theorem State.ListFrom.key_gt {s : State K V n} {curr : Link} {B : List Nat} {k : K}
    (hB : s.ListFrom curr B) (hsorted : B.Pairwise fun a b => (s.nodes a).key < (s.nodes b).key)
    (hgt : ∀ c, curr.ptr = some c → k < (s.nodes c).key) : ∀ b ∈ B, k < (s.nodes b).key := by
  cases B with
  | nil => simp
  | cons c B =>
    have hc := hgt c hB.1
    intro b hb
    rcases List.mem_cons.1 hb with rfl | hb
    · exact hc
    · exact hc.trans (List.rel_of_pairwise_cons hsorted hb)

/-- **Linking a new node.**  When the `next` of `p`, the head or a node of the
list with a key below that of `m`, is `curr`, null or a node with a greater
key, setting it to the new node `m`, whose `next` is `curr`, puts `m` into the
list right after `p`. -/
theorem State.Heap.insert (hh : s.Heap L) {m : Nat}
    (hp : p = 0 ∨ p ∈ L ∧ (s.nodes p).key < (s.nodes m).key) {curr : Link}
    (hnext : (s.nodes p).next = curr) (hcurr : curr.tag = 0) (hm0 : m ≠ 0) (hmlt : m < s.size)
    (hmL : m ∉ L) (hmk : ¬ s.Marked m) (hmnext : (s.nodes m).next = curr)
    (hgt : ∀ c, curr.ptr = some c → (s.nodes m).key < (s.nodes c).key) :
    ∃ L', (s.setNext p ⟨some m, 0⟩).Heap L' ∧ Grows s L (s.setNext p ⟨some m, 0⟩) L' (some m) ∧
      (∀ c, (s.setNext p ⟨some m, 0⟩).Live L' c ↔ s.Live L c ∨ c = m) ∧
      ∀ c ∈ L, (s.nodes c).key ≠ (s.nodes m).key := by
  obtain ⟨A, B, hW, hB, hA, hBp⟩ := hh.split (hp.imp_right And.left)
  rw [hnext] at hB
  have hmp : m ≠ p := by rintro rfl; rcases hp with rfl | ⟨hp, -⟩ <;> simp_all
  have hlist : (s.setNext p ⟨some m, 0⟩).ListFrom ⟨some 0, 0⟩ (A ++ p :: m :: B) :=
    (show s.ListFrom ⟨some 0, 0⟩ (A ++ p :: B) from hW ▸ ⟨rfl, hh.list⟩).rebuild
      (fun a ha => by simp [State.setNext_next, hA a ha])
      ⟨by simp [State.setNext_next], by
        rw [State.setNext_next, if_neg hmp, hmnext]
        exact hB.frame fun b hb => by simp [State.setNext_next, hBp b hb]⟩
  have hpm : ¬ s.Marked p := by simp [State.Marked, hnext, hcurr]
  -- the list after the head, with and without `m`
  obtain ⟨L', hL', hmem, hsorted⟩ : ∃ L', A ++ p :: m :: B = 0 :: L' ∧
      (∀ c, c ∈ L' ↔ c ∈ L ∨ c = m) ∧
      L'.Pairwise fun a b => (s.nodes a).key < (s.nodes b).key := by
    cases A with
    | nil =>
      obtain ⟨rfl, rfl⟩ := List.cons.inj hW
      refine ⟨m :: L, rfl, fun c => by simp [or_comm], List.pairwise_cons.2
        ⟨hB.key_gt hh.sorted hgt, hh.sorted⟩⟩
    | cons a A =>
      simp only [List.cons_append, List.cons.injEq] at hW
      obtain ⟨rfl, rfl⟩ := hW
      have hkp := (hp.resolve_left fun h => (hh.list_lt p (by simp)).1 h).2
      have hs := List.pairwise_append.1 hh.sorted
      refine ⟨A ++ p :: m :: B, rfl, fun c => by simp [or_comm, or_left_comm, or_assoc],
        ?_⟩
      rw [show A ++ p :: m :: B = (A ++ [p]) ++ m :: B by simp]
      refine pairwise_insert (by simpa using hh.sorted) (fun x hx => ?_)
        (hB.key_gt (List.pairwise_cons.1 hs.2.1).2 hgt)
      rcases List.mem_append.1 hx with hx | hx
      · exact (hs.2.2 x hx p (List.mem_cons_self _ _)).trans hkp
      · exact List.mem_singleton.1 hx ▸ hkp
  have hg : Grows s L (s.setNext p ⟨some m, 0⟩) L' (some m) :=
    .setNext hpm (fun c hc => .inl ((hmem c).2 (.inl hc))) fun m' hm0' hL _ hown =>
      ⟨fun h => by subst h; rcases hp with rfl | ⟨hp, -⟩ <;> simp_all,
        fun h => ((hmem m').1 h).elim hL fun h => hown (by rw [h])⟩
  refine ⟨L', hh.setNext hg rfl (hL' ▸ hlist) hsorted (fun c hc => ?_), hg, fun c => ?_,
    fun c hc heq => hmL (s.eq_of_key_eq hsorted ((hmem c).2 (.inl hc)) ((hmem m).2 (.inr rfl)) heq ▸ hc)⟩
  · rcases (hmem c).1 hc with hc | rfl
    · exact hh.list_lt c hc
    · exact ⟨hm0, hmlt⟩
  · rw [State.Live, State.Live, State.marked_setNext_clean hpm rfl, hmem]
    exact ⟨fun ⟨h1, h2⟩ => h1.imp (⟨·, h2⟩) id,
      fun h => h.elim (fun h => ⟨.inl h.1, h.2⟩) fun h => ⟨.inr h, h ▸ hmk⟩⟩

/-- **Marking a node of the list** changes no pointer of the list. -/
theorem State.Heap.mark (hh : s.Heap L) {c : Nat} (hc : c ∈ L) (hclean : ¬ s.Marked c)
    (hptr : l.ptr = (s.nodes c).next.ptr) (hl : l.tag ≠ 0) :
    (s.setNext c l).Heap L ∧ Grows s L (s.setNext c l) L none ∧
      ∀ c', (s.setNext c l).Live L c' ↔ s.Live L c' ∧ c' ≠ c := by
  have hg : Grows s L (s.setNext c l) L none :=
    .setNext hclean (fun c hc => .inl hc) fun m _ hL _ _ => ⟨fun h => hL (h ▸ hc), hL⟩
  refine ⟨⟨hh.size_pos, ?_, by simpa using hh.sorted, hh.list_lt, fun a ha => ?_,
    fun a ha => ?_⟩, hg, fun c' => ?_⟩
  · rw [State.setNext_next, if_neg (fun h => (hh.list_lt c hc).1 h.symm)]
    exact hh.list.frame fun a _ => by by_cases h : a = c <;> simp [State.setNext_next, h, hptr]
  · rw [State.marked_setNext] at ha
    split_ifs at ha with hac
    · exact hac ▸ hh.list_lt c hc
    · exact hh.marked_lt a ha
  · rw [State.marked_setNext] at ha
    rw [State.setNext_next]
    split_ifs at ha ⊢ with hac
    · exact fun b hb => .inl (hh.list.next_mem hc (hptr ▸ hb))
    · exact (hh.marked_next a ha).grow hg
  · rw [State.Live, State.Live, State.marked_setNext]
    by_cases h : c' = c <;> simp [h, hl]

end Frame

/-! ### One lemma per atomic action -/

section Steps

variable [LinearOrder K] {s : State K V n} {L : List Nat} {t : Fin n}

/-- What a thread holds when `find_harris` returns `Ok(found)`. -/
theorem State.resume_ok {task : Task K V} {prev curr : Link} {found : Option V}
    (htask : s.TaskOk L task) (hprev : s.PrevOk L task.key prev) (hc : curr.tag = 0)
    (hcl : s.LinkOk L curr) (hf : s.FoundOk task.key curr found) :
    s.ThreadOk L (task.resume prev curr found) := by
  cases task with
  | get k => trivial
  | insert k v m => cases found with
    | some w => trivial
    | none => exact ⟨htask, hprev, hc, hcl, hf⟩
  | remove k => cases found with
    | some w => exact ⟨hprev, hc, hcl, hf⟩
    | none => trivial

theorem State.finish_ok {task : Task K V} {prev pn curr : Link} {found : Option V}
    (htask : s.TaskOk L task) (hcur : s.CursorOk L task.key prev pn curr)
    (hf : s.FoundOk task.key curr found) : s.ThreadOk L (task.finish prev pn curr found) := by
  unfold Task.finish
  split_ifs
  · exact s.resume_ok htask hcur.1 hcur.2.2.1 hcur.2.2.2.1 hf
  · exact ⟨htask, hcur, hf⟩

/-- A step that moves thread `t` alone keeps the invariant and every node. -/
theorem Inv.setThread (hs : Inv s L) {pc : Pc K V} (hpc : s.ThreadOk L pc)
    (hfresh : ∀ m, pc.owned = some m → (s.threads t).owned = some m) :
    Stepped s L (s.setThread t pc) L t where
  inv := hs.next (hs.heap.setThread t pc) (Grows.self t pc) rfl
    (hpc.grow hs.heap (Grows.self t pc) fun _ _ => nofun) (fun _ _ _ _ => nofun)
    fun m hm u hu hu' => hu (hs.owner_unique u t m hu' (hfresh m hm))
  grows := ⟨none, Grows.self t pc⟩
  live := .inl fun _ => Iff.rfl

/-- A step that writes the heap, then moves thread `t`. -/
theorem Inv.write (hs : Inv s L) {s1 : State K V n} {L' : List Nat} {own : Option Nat}
    (hh : s1.Heap L') (hg : Grows s L s1 L' own) (hs1 : s1.threads = s.threads)
    (hown : ∀ u, u ≠ t → ∀ m, (s.threads u).owned = some m → own ≠ some m)
    {pc : Pc K V} (hpc : s1.ThreadOk L' pc)
    (hfresh : ∀ m, pc.owned = some m → (s.threads t).owned = some m)
    (hlive : LiveEffect s L (s1.setThread t pc) L' t) : Stepped s L (s1.setThread t pc) L' t where
  inv := hs.next (hh.setThread t pc) (hg.setThread t pc) (by simp [State.setThread, hs1])
    (hpc.grow hh (Grows.self t pc) fun _ _ => nofun) hown
    fun m hm u hu hu' => hu (hs.owner_unique u t m hu' (hfresh m hm))
  grows := ⟨own, hg.setThread t pc⟩
  live := hlive

/-- No other thread owns the node of thread `t`. -/
theorem Inv.own_ne (hs : Inv s L) {m0 : Nat} (ht : (s.threads t).owned = some m0) :
    ∀ u, u ≠ t → ∀ m, (s.threads u).owned = some m → some m0 ≠ some m :=
  fun u hu m hm heq => hu (hs.owner_unique u t m hm (by rw [ht, heq]))

/-- The `prev` of a successful `compare_exchange` is the head or in the list:
its `next` was the untagged expected link. -/
theorem State.PrevOk.mem {k : K} {prev l : Link} {p : Nat} (h : s.PrevOk L k prev)
    (hp : prev.ptr = some p) (hnext : (s.nodes p).next = l) (hl : l.tag = 0) : p = 0 ∨ p ∈ L := by
  obtain ⟨-, p', hp', h0 | ⟨hpub, -⟩⟩ := h <;> obtain rfl : p = p' := Option.some.inj (hp.symm.trans hp')
  · exact .inl h0
  · exact .inr (hpub.resolve_right fun hm => hm (by rw [hnext]; exact hl))

/-- The key of the `prev` of a cursor, when it is not the head. -/
theorem State.PrevOk.key_lt {k : K} {prev : Link} {p : Nat} (h : s.PrevOk L k prev)
    (hp : prev.ptr = some p) (hp0 : p ≠ 0) : (s.nodes p).key < k := by
  obtain ⟨-, p', hp', h0 | ⟨-, hkey⟩⟩ := h <;> obtain rfl : p = p' := Option.some.inj (hp.symm.trans hp')
  · exact absurd h0 hp0
  · exact hkey

variable [Inhabited K] [Inhabited V] {s' : State K V n}

/-- `Rc::new` gives the insertion a node nobody else can reach. -/
theorem Inv.exec_alloc (hs : Inv s L) {k : K} {v : V} (h : s.exec t (.alloc k v) = some s') :
    Stepped s L s' L t := by
  cases h
  have hh := hs.heap
  have hne : ∀ {a}, a < s.size → a ≠ s.size := fun ha => ne_of_lt ha
  have hm : ∀ {a}, s.Marked a → (s.alloc ⟨k, v, .null⟩).Marked a := fun {a} ha => by
    rwa [State.marked_alloc, if_neg (hne (hh.marked_lt a ha).2)]
  have hg : Grows s L (s.alloc ⟨k, v, .null⟩) L (some s.size) :=
    { size_le := Nat.le_succ _
      key := fun a ha => by simp [State.alloc_nodes, hne ha]
      value := fun a ha => by simp [State.alloc_nodes, hne ha]
      marked := fun a ha => by simp [State.alloc_nodes, hne (hh.marked_lt a ha).2]
      pub := fun a ha => ha.imp_right hm
      priv := fun m _ hlt hL _ _ => ⟨by simp [State.alloc_nodes, hne hlt], hL⟩ }
  have hh' : (s.alloc ⟨k, v, .null⟩).Heap L :=
    { size_pos := Nat.succ_pos _
      list := by
        rw [State.alloc_nodes, if_neg (hne hh.size_pos)]
        exact hh.list.frame fun a ha => by simp [State.alloc_nodes, hne (hh.list_lt a ha).2]
      sorted := hh.sorted.imp_of_mem fun {a b} ha hb h => by
        simpa [State.alloc_nodes, hne (hh.list_lt a ha).2, hne (hh.list_lt b hb).2] using h
      list_lt := fun c hc => ⟨(hh.list_lt c hc).1, Nat.lt_succ_of_lt (hh.list_lt c hc).2⟩
      marked_lt := fun a ha => by
        rw [State.marked_alloc] at ha
        split_ifs at ha
        · exact absurd rfl ha
        · exact ⟨(hh.marked_lt a ha).1, Nat.lt_succ_of_lt (hh.marked_lt a ha).2⟩
      marked_next := fun a ha => by
        rw [State.marked_alloc] at ha
        split_ifs at ha with has
        · exact absurd rfl ha
        · rw [State.alloc_nodes, if_neg has]
          exact (hh.marked_next a ha).grow hg }
  have hlt : ∀ u m, (s.threads u).owned = some m → m < s.size := fun u m hm => by
    obtain ⟨_, _, h⟩ := (hs.thread_ok u).owns hm
    exact h.2.1
  refine ⟨hs.next (hh'.setThread _ _) (hg.setThread _ _) rfl
    ((show (s.alloc ⟨k, v, .null⟩).ThreadOk L (.start (.insert k v s.size)) from
      ⟨Nat.pos_iff_ne_zero.1 hh.size_pos,
        Nat.lt_succ_self _, fun h => lt_irrefl _ (hh.list_lt _ h).2,
        by simp [State.marked_alloc, Link.null], by simp [State.alloc_nodes],
        by simp [State.alloc_nodes]⟩).grow hh' (Grows.self _ _) fun _ _ => nofun)
    (fun u _ m hm heq => lt_irrefl m (by simpa [← Option.some.inj heq] using hlt u m hm))
    fun m hm u _ hu => lt_irrefl m (by simpa [← Option.some.inj hm] using hlt u m hu),
    ⟨_, hg.setThread _ _⟩, .inl fun c => ?_⟩
  rw [State.live_setThread]
  exact and_congr_right fun hc => not_congr (by
    rw [State.marked_alloc, if_neg (hne (hh.list_lt c hc).2)])

theorem Inv.exec_start (hs : Inv s L) {task : Task K V} (ht : s.threads t = .start task)
    (h : s.exec t (.start task) = some s') : Stepped s L s' L t := by
  cases h
  have hpc := hs.thread_ok t
  rw [ht] at hpc
  have h0 : (s.nodes 0).next.tag = 0 := by simpa [State.Marked] using hs.heap.not_marked_head
  exact hs.setThread ⟨hpc, ⟨rfl, 0, rfl, .inl rfl⟩, h0, h0, hs.heap.head_ok, .refl _⟩
    fun m hm => by rw [ht]; simpa using hm

/-- A pass of the loop of `find_harris`: skip a marked node, step past a
smaller key, or stop. -/
theorem Inv.exec_find (hs : Inv s L) {task : Task K V} {prev pn curr : Link}
    (ht : s.threads t = .find task prev pn curr) (h : s.exec t (.find task prev pn curr) = some s') :
    Stepped s L s' L t := by
  have hpc := hs.thread_ok t
  rw [ht] at hpc
  have ⟨htask, hcur⟩ := hpc
  have ⟨hprev, hpn, hc, hcl, hpath⟩ := hcur
  have hfresh : ∀ pc : Pc K V, (∀ m, pc.owned = some m → (Pc.start task).owned = some m) →
      ∀ m, pc.owned = some m → (s.threads t).owned = some m := fun pc h m hm => by
    rw [ht, Pc.owned_find]
    exact h m hm
  rcases hcp : curr.ptr with _ | c
  · simp only [State.exec, hcp] at h
    cases h
    exact hs.setThread (s.finish_ok htask hcur fun c' hc' => by simp [hcp] at hc')
      (hfresh _ fun _ => Task.owned_finish)
  · simp only [State.exec, hcp] at h
    have hpubc := hcl c hcp
    split_ifs at h with htag
    · cases h
      exact hs.setThread ⟨htask, hprev, hpn, rfl, fun b hb => hs.heap.next_ok hpubc b (by simpa using hb),
        hpath.snoc hcp htag⟩ (hfresh _ fun m hm => by simpa using hm)
    · have htag0 : (s.nodes c).next.tag = 0 := not_not.1 htag
      rcases hcmp : compare (s.nodes c).key task.key with _ | _ | _ <;>
        simp only [hcmp] at h <;> cases h
      · exact hs.setThread ⟨htask, ⟨hc, c, hcp, .inr ⟨hpubc, compare_lt_iff_lt.1 hcmp⟩⟩, htag0,
          htag0, hs.heap.next_ok hpubc, .refl _⟩ (hfresh _ fun m hm => by simpa using hm)
      · exact hs.setThread (s.finish_ok htask hcur ⟨c, hcp, compare_eq_iff_eq.1 hcmp, rfl⟩)
          (hfresh _ fun _ => Task.owned_finish)
      · exact hs.setThread (s.finish_ok htask hcur fun c' hc' => by
            obtain rfl : c = c' := Option.some.inj (hcp.symm.trans hc')
            exact compare_gt_iff_gt.1 hcmp)
          (hfresh _ fun _ => Task.owned_finish)

/-- The clean-up `compare_exchange` of `find_harris`. -/
theorem Inv.exec_cleanup (hs : Inv s L) {task : Task K V} {prev pn curr : Link}
    {found : Option V} (ht : s.threads t = .cleanup task prev pn curr found)
    (h : s.exec t (.cleanup task prev pn curr found) = some s') : ∃ L', Stepped s L s' L' t := by
  have hpc := hs.thread_ok t
  rw [ht] at hpc
  have ⟨htask, hcur, hf⟩ := hpc
  have ⟨hprev, hpn, hc, hcl, hpath⟩ := hcur
  have hfresh : ∀ m, (Pc.start task).owned = some m → (s.threads t).owned = some m :=
    fun m hm => by rw [ht, Pc.owned_cleanup]; exact hm
  obtain ⟨p, hpp, -⟩ := hprev.2
  simp only [State.exec, hpp] at h
  split_ifs at h with hnext
  · cases h
    obtain ⟨L', hh, hg, hlive⟩ := hs.heap.snip (hprev.mem hpp hnext hpn) hnext hpn hpath hc
    exact ⟨L', hs.write hh hg rfl (fun _ _ _ _ => nofun)
      ((s.resume_ok htask hprev hc hcl hf).grow hs.heap hg fun _ _ => nofun)
      (fun m hm => hfresh m (Task.owned_resume hm)) (.inl hlive)⟩
  · cases h
    exact ⟨L, hs.setThread htask hfresh⟩

/-- `node.next.swap(self.curr.counted())` of `Cursor::insert`. -/
theorem Inv.exec_swapNext (hs : Inv s L) {k : K} {v : V} {m : Nat} {prev curr : Link}
    (ht : s.threads t = .swapNext k v m prev curr)
    (h : s.exec t (.swapNext k v m prev curr) = some s') : Stepped s L s' L t := by
  have hpc := hs.thread_ok t
  rw [ht] at hpc
  obtain ⟨⟨hm0, hmlt, hmL, hmk, hk, hv⟩, hprev, hc, hcl, hf⟩ := hpc
  cases h
  have hg : Grows s L (s.setNext m curr) L (some m) :=
    .setNext hmk (fun c hc => .inl hc) fun m' _ hL _ hown => ⟨fun h => hown (by rw [h]), hL⟩
  have hlist : (s.setNext m curr).ListFrom ⟨some 0, 0⟩ (0 :: L) := ⟨rfl, by
    rw [State.setNext_next, if_neg hm0.symm]
    exact hs.heap.list.frame fun a ha => by
      have : a ≠ m := fun h => hmL (h ▸ ha)
      simp [State.setNext_next, this]⟩
  exact hs.write (hs.heap.setNext hg hc hlist hs.heap.sorted hs.heap.list_lt) hg rfl
    (hs.own_ne (by rw [ht]; rfl))
    ⟨⟨hm0, hmlt, hmL, by simp [State.marked_setNext, hc], by simp [hk], by simp [hv]⟩,
      hprev.grow hs.heap hg, hc, hcl.grow hg, hf.grow hs.heap hg hcl, by simp [State.setNext_next]⟩
    (fun m' hm' => by rw [ht]; exact hm')
    (.inl fun c => and_congr_right fun hc' => not_congr (State.marked_setNext_clean hmk hc))

/-- The `compare_exchange` of `Cursor::insert`. -/
theorem Inv.exec_publish (hs : Inv s L) {k : K} {v : V} {m : Nat} {prev curr : Link}
    (ht : s.threads t = .publish k v m prev curr)
    (h : s.exec t (.publish k v m prev curr) = some s') : ∃ L', Stepped s L s' L' t := by
  have hpc := hs.thread_ok t
  rw [ht] at hpc
  obtain ⟨⟨hm0, hmlt, hmL, hmk, hk, hv⟩, hprev, hc, hcl, hf, hmn⟩ := hpc
  obtain ⟨p, hpp, -⟩ := hprev.2
  simp only [State.exec, hpp] at h
  split_ifs at h with hnext
  · cases h
    have hp : p = 0 ∨ p ∈ L ∧ (s.nodes p).key < (s.nodes m).key :=
      (hprev.mem hpp hnext hc).imp_right fun h =>
        ⟨h, hk ▸ hprev.key_lt hpp (hs.heap.list_lt p h).1⟩
    obtain ⟨L', hh, hg, hlive, hkeys⟩ :=
      hs.heap.insert hp hnext hc hm0 hmlt hmL hmk hmn fun c hcc => hk ▸ hf c hcc
    exact ⟨L', hs.write hh hg rfl (hs.own_ne (by rw [ht]; rfl)) trivial
      (fun _ h => by simp [Pc.owned] at h)
      (.inr (.inl ⟨k, v, m, prev, curr, ht, by simp, hlive, fun c hc => hk ▸ hkeys c hc⟩))⟩
  · cases h
    exact ⟨L, hs.setThread ⟨hm0, hmlt, hmL, hmk, hk, hv⟩ fun m' hm' => by rw [ht]; exact hm'⟩

/-- `curr_node.next.load` of `Cursor::remove`. -/
theorem Inv.exec_loadNext (hs : Inv s L) {k : K} {prev curr : Link} {w : V}
    (ht : s.threads t = .loadNext k prev curr w)
    (h : s.exec t (.loadNext k prev curr w) = some s') : Stepped s L s' L t := by
  have hpc := hs.thread_ok t
  rw [ht] at hpc
  obtain ⟨hprev, hc, hcl, c, hcp, hk, hv⟩ := hpc
  simp only [State.exec, hcp] at h
  cases h
  exact hs.setThread ⟨hprev, hc, hcl, ⟨c, hcp, hk, hv⟩, hs.heap.next_ok (hcl c hcp),
    fun htag c' hc' => by
      obtain rfl : c = c' := Option.some.inj (hcp.symm.trans hc')
      exact htag⟩ fun _ h => by simp [Pc.owned] at h

/-- The `compare_exchange_tag` of `Cursor::remove`. -/
theorem Inv.exec_mark (hs : Inv s L) {k : K} {prev curr next : Link} {w : V}
    (ht : s.threads t = .mark k prev curr next w)
    (h : s.exec t (.mark k prev curr next w) = some s') : Stepped s L s' L t := by
  have hpc := hs.thread_ok t
  rw [ht] at hpc
  obtain ⟨hprev, hc, hcl, ⟨c, hcp, -, -⟩, hnl, hmk⟩ := hpc
  simp only [State.exec, hcp] at h
  split_ifs at h with hnext
  · cases h
    have hclean : ¬ s.Marked c := by simp [State.Marked, hnext]
    have hcL := (hcl c hcp).resolve_right hclean
    obtain ⟨hh, hg, hlive⟩ :=
      hs.heap.mark (l := next.withTag 1) hcL hclean (by simp [hnext]) (by simp)
    have hnt : next.tag = 0 := by
      by_contra h0
      exact hclean (hmk h0 c hcp)
    exact hs.write hh hg rfl (fun _ _ _ _ => nofun)
      ⟨hprev.grow hs.heap hg, hc, ⟨c, hcp, by simp [State.marked_setNext],
        by simp [State.setNext_next]⟩, hnt, hnl.grow hg⟩ (fun _ h => by simp [Pc.owned] at h)
      (.inr (.inr ⟨k, prev, curr, next, w, c, ht, by simp, hcp, ⟨hcL, hclean⟩, hlive⟩))
  · cases h
    exact hs.setThread trivial fun _ h => by simp [Pc.owned] at h

/-- The unlinking `compare_exchange` of `Cursor::remove`. -/
theorem Inv.exec_unlink (hs : Inv s L) {k : K} {prev curr next : Link} {w : V}
    (ht : s.threads t = .unlink k prev curr next w)
    (h : s.exec t (.unlink k prev curr next w) = some s') : ∃ L', Stepped s L s' L' t := by
  have hpc := hs.thread_ok t
  rw [ht] at hpc
  obtain ⟨hprev, hc, ⟨c, hcp, hmk, hptr⟩, hnt, -⟩ := hpc
  obtain ⟨p, hpp, -⟩ := hprev.2
  simp only [State.exec, hpp] at h
  split_ifs at h with hnext
  · cases h
    have hskip : (s.nodes c).next.withTag 0 = next := by
      cases next
      simp_all [Link.withTag]
    obtain ⟨L', hh, hg, hlive⟩ := hs.heap.snip (hprev.mem hpp hnext hc) hnext hc
      (.skip hcp hmk (hskip ▸ .refl _)) hnt
    exact ⟨L', hs.write hh hg rfl (fun _ _ _ _ => nofun) trivial (fun _ h => by simp [Pc.owned] at h)
      (.inl hlive)⟩
  · cases h
    exact ⟨L, hs.setThread trivial fun _ h => by simp [Pc.owned] at h⟩

/-- **Every atomic action of a thread keeps the invariant.** -/
theorem Inv.exec (hs : Inv s L) (h : s.exec t (s.threads t) = some s') :
    ∃ L', Stepped s L s' L' t := by
  cases ht : s.threads t with
  | idle => simp [ht, State.exec] at h
  | done => simp [ht, State.exec] at h
  | alloc k v => rw [ht] at h; exact ⟨L, hs.exec_alloc h⟩
  | start task => rw [ht] at h; exact ⟨L, hs.exec_start ht h⟩
  | find task prev pn curr => rw [ht] at h; exact ⟨L, hs.exec_find ht h⟩
  | cleanup task prev pn curr found => rw [ht] at h; exact hs.exec_cleanup ht h
  | swapNext k v m prev curr => rw [ht] at h; exact ⟨L, hs.exec_swapNext ht h⟩
  | publish k v m prev curr => rw [ht] at h; exact hs.exec_publish ht h
  | loadNext k prev curr w => rw [ht] at h; exact ⟨L, hs.exec_loadNext ht h⟩
  | mark k prev curr next w => rw [ht] at h; exact ⟨L, hs.exec_mark ht h⟩
  | unlink k prev curr next w => rw [ht] at h; exact hs.exec_unlink ht h

theorem Inv.step (hs : Inv s L) {a : Action K V n} (h : step s a = some s') :
    ∃ t L', Stepped s L s' L' t := by
  cases a with
  | invoke t req =>
    simp only [Circ.Harris.step] at h
    split at h
    · cases h
      exact ⟨t, L, hs.setThread (by cases req <;> trivial)
        fun _ h => by cases req <;> simp [Request.start, Pc.owned] at h⟩
    · cases h
  | exec t => exact ⟨t, hs.exec h⟩
  | reset t =>
    simp only [Circ.Harris.step] at h
    split at h
    · cases h
      exact ⟨t, L, hs.setThread trivial fun _ h => by simp [Pc.owned] at h⟩
    · cases h

theorem Inv.init : Inv (State.init : State K V n) [] where
  heap := ⟨Nat.one_pos, rfl, .nil, by simp, fun _ h => absurd rfl h, fun _ h => absurd rfl h⟩
  thread_ok _ := trivial
  owner_unique _ _ _ h := by simp [State.init, Pc.owned] at h

/-- **The invariant holds in every reachable state.** -/
theorem Reachable.inv {s : State K V n} (h : Reachable s) : ∃ L, Inv s L := by
  induction h with
  | init => exact ⟨[], Inv.init⟩
  | step _ hstep ih =>
    obtain ⟨L, hs⟩ := ih
    obtain ⟨_, L', h⟩ := hs.step hstep
    exact ⟨L', h.inv⟩

/-- **The list is a sorted list.**  In every reachable state the nodes linked
from the head end in null, are allocated nodes other than the head, and have
strictly increasing keys: no key is in the list twice. -/
theorem Reachable.list_sorted {s : State K V n} (h : Reachable s) :
    ∃ L, s.ListFrom (s.nodes 0).next L ∧
      L.Pairwise (fun a b => (s.nodes a).key < (s.nodes b).key) ∧ ∀ c ∈ L, c ≠ 0 ∧ c < s.size :=
  let ⟨L, hs⟩ := h.inv
  ⟨L, hs.heap.list, hs.heap.sorted, hs.heap.list_lt⟩

theorem sorted_after_two_inserts :
    ∃ s : State Nat Nat 1, Reachable s ∧ ∃ L, s.ListFrom (s.nodes 0).next L ∧
      L.Pairwise (fun a b => (s.nodes a).key < (s.nodes b).key) ∧ ∀ c ∈ L, c ≠ 0 ∧ c < s.size := by
  have hr : Reachable (K := Nat) (V := Nat) (n := 1) _ :=
    .runs (l := [.invoke 0 (.insert 2 20), .exec 0, .exec 0, .exec 0, .exec 0, .exec 0, .reset 0,
      .invoke 0 (.insert 1 10), .exec 0, .exec 0, .exec 0, .exec 0, .exec 0]) .init rfl
  exact ⟨_, hr, Reachable.list_sorted hr⟩

/-- **No `unwrap` of the list fails.**  In every reachable state every thread is
idle, holds its result, or can take its next atomic action: the `prev` and
`curr` that `find_harris`, `Cursor::insert` and `Cursor::remove` unwrap are
never null. -/
theorem Reachable.exec_enabled {s : State K V n} (h : Reachable s) (t : Fin n) :
    s.threads t = .idle ∨ (∃ r, s.threads t = .done r) ∨ ∃ s', s.exec t (s.threads t) = some s' := by
  obtain ⟨L, hs⟩ := h.inv
  have hpc := hs.thread_ok t
  generalize s.threads t = pc at hpc ⊢
  have hprev : ∀ {k : K} {prev : Link}, s.PrevOk L k prev → ∃ p, prev.ptr = some p :=
    fun h => let ⟨p, hp, _⟩ := h.2; ⟨p, hp⟩
  cases pc with
  | idle => exact .inl rfl
  | done r => exact .inr (.inl ⟨r, rfl⟩)
  | alloc | start | swapNext => exact .inr (.inr ⟨_, rfl⟩)
  | find task prev pn curr =>
    refine .inr (.inr ?_)
    cases hc : curr.ptr with
    | none => simp only [State.exec, hc]; exact ⟨_, rfl⟩
    | some c =>
      simp only [State.exec, hc]
      split_ifs
      · exact ⟨_, rfl⟩
      · split <;> exact ⟨_, rfl⟩
  -- the unwraps of `prev`
  | cleanup task prev pn curr found | publish k v m prev curr | unlink k prev curr next w =>
    obtain ⟨p, hp⟩ := hprev (by first | exact hpc.2.1.1 | exact hpc.2.1 | exact hpc.1)
    simp only [State.exec, hp]
    exact .inr (.inr (by split_ifs <;> exact ⟨_, rfl⟩))
  -- the unwraps of `curr`
  | loadNext k prev curr w | mark k prev curr next w =>
    obtain ⟨c, hc, -⟩ : ∃ c, curr.ptr = some c ∧ _ := by first | exact hpc.2.2.2 | exact hpc.2.2.2.1
    simp only [State.exec, hc]
    exact .inr (.inr (by (try split_ifs) <;> exact ⟨_, rfl⟩))

theorem exec_enabled_publish :
    ∃ s : State Nat Nat 1, Reachable s ∧ s.threads 0 = .publish 1 10 1 ⟨some 0, 0⟩ .null ∧
      (s.threads 0 = .idle ∨ (∃ r, s.threads 0 = .done r) ∨ ∃ s', s.exec 0 (s.threads 0) = some s') := by
  have hr : Reachable (K := Nat) (V := Nat) (n := 1) _ :=
    .runs (l := [.invoke 0 (.insert 1 10), .exec 0, .exec 0, .exec 0, .exec 0]) .init rfl
  exact ⟨_, hr, rfl, Reachable.exec_enabled hr 0⟩

/-- **A marked node stays marked, and its `next` never changes.**  Over any run
from a reachable state, once the `compare_exchange_tag` of `Cursor::remove` has
tagged a node's `next`, every later `compare_exchange` on that field fails: the
node stays logically deleted, and keeps the successor that lets `find_harris`
walk through it.  This is under sequentially consistent atomics and until the
node is reclaimed: the model frees no node, and `pop_edges` takes a node's
`next` only when it reclaims the node. -/
theorem Reachable.marked_frozen {s s' : State K V n} {l : List (Action K V n)} (hr : Reachable s)
    (h : s.runs l = some s') {a : Nat} (ha : s.Marked a) : (s'.nodes a).next = (s.nodes a).next := by
  induction l generalizing s with
  | nil => cases h; rfl
  | cons act l ih =>
    obtain ⟨s1, h1, h2⟩ := Option.bind_eq_some.1 h
    obtain ⟨L, hs⟩ := hr.inv
    obtain ⟨_, _, hst⟩ := hs.step h1
    obtain ⟨_, hg⟩ := hst.grows
    rw [ih (hr.step h1) h2 (hg.marked' ha), hg.marked a ha]

theorem marked_frozen_unlink :
    ∃ s s' : State Nat Nat 1, Reachable s ∧ s.runs [.exec 0] = some s' ∧ s.Marked 1 ∧
      s'.threads 0 = .done (some 10) ∧ (s'.nodes 1).next = (s.nodes 1).next := by
  have hr : Reachable (K := Nat) (V := Nat) (n := 1) _ :=
    .runs (l := [.invoke 0 (.insert 1 10), .exec 0, .exec 0, .exec 0, .exec 0, .exec 0, .reset 0,
      .invoke 0 (.remove 1), .exec 0, .exec 0, .exec 0, .exec 0]) .init rfl
  refine ⟨_, _, hr, rfl, by unfold State.Marked; decide, rfl, ?_⟩
  refine Reachable.marked_frozen hr (l := [.exec 0]) ?_ (by unfold State.Marked; decide)
  rfl

end Steps

end Circ.Harris
