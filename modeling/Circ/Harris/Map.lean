import Circ.Harris.Preservation
import Mathlib.Data.List.Perm.Subperm

/-!
# Harris's list is an atomic map

`ListMap` is a concurrent map: `harris_get`, `harris_insert` and
`harris_remove` should behave as if each took effect at one instant.  The map
the list stands for is `State.view`: at each key, the value of the unmarked node
of that key linked from the head.  It is computed by walking the list, as the
code does.

Every step of every interleaving either leaves that map alone, or is the
instant an insertion or a removal takes effect on it, as on an atomic map, with
the result the call returns (`list_refines_atomicMap`).  A successful
`compare_exchange` of `Cursor::insert` is the instant of `harris_insert`; the
`compare_exchange_tag` of `Cursor::remove` is the instant of `harris_remove`;
the clean-up `compare_exchange`s change the nodes but not the map.  A value
that `find_harris` finds is in the map at the instant it reads it
(`view_of_find`).
-/

namespace Circ.Harris

variable {K V : Type} {n : Nat}

/-! ### The atomic map -/

namespace AtomicMap

variable [DecidableEq K]

/-- Insert `v` at `k` unless `k` has a value, which is returned. -/
def insert (m : K → Option V) (k : K) (v : V) : Option V × (K → Option V) :=
  match m k with
  | some w => (some w, m)
  | none => (none, Function.update m k (some v))

/-- Remove the value at `k` and return it. -/
def remove (m : K → Option V) (k : K) : Option V × (K → Option V) :=
  match m k with
  | some w => (some w, Function.update m k none)
  | none => (none, m)

end AtomicMap

/-! ### What the list stands for -/

/-- The nodes linked from `l`, at most `fuel` of them. -/
def State.walk (s : State K V n) : Nat → Link → List Nat
  | 0, _ => []
  | fuel + 1, l =>
    match l.ptr with
    | none => []
    | some a => a :: s.walk fuel (s.nodes a).next

/-- The map the list stands for: at `k`, the value of the unmarked node of key
`k` linked from the head.  The list never holds more than `size` nodes. -/
def State.view [DecidableEq K] (s : State K V n) (k : K) : Option V :=
  ((s.walk s.size (s.nodes 0).next).find? fun c =>
    decide ((s.nodes c).key = k ∧ (s.nodes c).next.tag = 0)).map fun c => (s.nodes c).value

theorem State.init_view [DecidableEq K] [Inhabited K] [Inhabited V] :
    (State.init : State K V n).view = fun _ => none := rfl

section View

variable {s s' : State K V n} {L L' : List Nat}

theorem State.ListFrom.walk_eq {l : Link} (h : s.ListFrom l L) {fuel : Nat}
    (hlen : L.length ≤ fuel) : s.walk fuel l = L := by
  induction L generalizing l fuel with
  | nil => cases fuel <;> simp [State.walk, show l.ptr = none from h]
  | cons a L ih =>
    obtain ⟨fuel, rfl⟩ : ∃ f, fuel = f + 1 := ⟨fuel - 1, by simp at hlen; omega⟩
    simp [State.walk, h.1, ih h.2 (by simpa using hlen)]

variable [LinearOrder K]

/-- The list and the head are distinct allocated nodes. -/
theorem State.Heap.length_lt (hh : s.Heap L) : L.length < s.size := by
  have hsub : 0 :: L ⊆ List.range s.size := fun c hc => List.mem_range.2 <| by
    rcases List.mem_cons.1 hc with rfl | hc
    · exact hh.size_pos
    · exact (hh.list_lt c hc).2
  have := (hh.nodup.subperm hsub).length_le
  simp only [List.length_cons, List.length_range] at this
  omega

theorem State.Heap.view_eq_some (hh : s.Heap L) {k : K} {v : V} :
    s.view k = some v ↔ ∃ c, s.Live L c ∧ (s.nodes c).key = k ∧ (s.nodes c).value = v := by
  simp only [State.view, hh.list.walk_eq hh.length_lt.le, Option.map_eq_some']
  constructor
  · rintro ⟨c, hc, rfl⟩
    have hp := List.find?_some hc
    simp only [decide_eq_true_eq] at hp
    exact ⟨c, ⟨List.mem_of_find?_eq_some hc, not_not.2 hp.2⟩, hp.1, rfl⟩
  · rintro ⟨c, ⟨hcL, hcm⟩, rfl, rfl⟩
    cases hf : L.find? fun c' =>
        decide ((s.nodes c').key = (s.nodes c).key ∧ (s.nodes c').next.tag = 0) with
    | none => exact absurd (List.find?_eq_none.1 hf c hcL) (by simpa [State.Marked] using hcm)
    | some c' =>
      have hp := List.find?_some hf
      simp only [decide_eq_true_eq] at hp
      exact ⟨c', rfl, by rw [s.eq_of_key_eq hh.sorted (List.mem_of_find?_eq_some hf) hcL hp.1]⟩

theorem State.Heap.view_eq_none (hh : s.Heap L) {k : K} :
    s.view k = none ↔ ∀ c, s.Live L c → (s.nodes c).key ≠ k := by
  simp only [Option.eq_none_iff_forall_not_mem, Option.mem_def, hh.view_eq_some]
  exact ⟨fun h c hc hk => h _ ⟨c, hc, hk, rfl⟩, fun h _ ⟨c, hc, hk, _⟩ => h c hc hk⟩

/-- A step that keeps the keys and values of the old nodes, makes no new node
live, and changes the liveness of no node of key `k`, keeps the map at `k`. -/
theorem State.Heap.view_congr {own : Option Nat} (hh : s.Heap L) (hh' : s'.Heap L')
    (hg : Grows s L s' L' own) (hlt : ∀ c, s'.Live L' c → c < s.size) {k : K}
    (hlive : ∀ c, (s.nodes c).key = k → (s'.Live L' c ↔ s.Live L c)) : s'.view k = s.view k := by
  refine Option.ext fun v => ?_
  simp only [Option.mem_def, hh'.view_eq_some, hh.view_eq_some]
  constructor
  · rintro ⟨c, hc, hk, hv⟩
    have hcs := hlt c hc
    rw [hg.key c hcs] at hk
    rw [hg.value c hcs] at hv
    exact ⟨c, (hlive c hk).1 hc, hk, hv⟩
  · rintro ⟨c, hc, hk, hv⟩
    have hcs := (hh.list_lt c hc.1).2
    exact ⟨c, (hlive c hk).2 hc, (hg.key c hcs).trans hk, (hg.value c hcs).trans hv⟩

end View

/-! ### Every step is a step of the atomic map -/

/-- A step of the list seen through `State.view`: the map does not change; or
thread `t` inserts `v` at the absent key `k`, as `AtomicMap.insert` does, and its
`harris_insert` returns `None`; or thread `t` removes the value `w` at `k`, as
`AtomicMap.remove` does, and its `harris_remove` goes on to its last
`compare_exchange`, after which it returns `Some(w)`. -/
def MapStep [LinearOrder K] (s s' : State K V n) : Prop :=
  s'.view = s.view ∨
  (∃ t k v m prev curr, s.threads t = .publish k v m prev curr ∧ s'.threads t = .done none ∧
    AtomicMap.insert s.view k v = (none, s'.view)) ∨
  (∃ t k prev curr next w, s.threads t = .mark k prev curr next w ∧
    s'.threads t = .unlink k prev curr next w ∧ AtomicMap.remove s.view k = (some w, s'.view))

section Refinement

variable [LinearOrder K] {s s' : State K V n} {L L' : List Nat} {t : Fin n}

theorem Stepped.mapStep (hs : Inv s L) (hst : Stepped s L s' L' t) : MapStep s s' := by
  obtain ⟨own, hg⟩ := hst.grows
  have hh := hs.heap
  have hh' := hst.inv.heap
  rcases hst.live with hlive | ⟨k, v, m, prev, curr, ht, ht', hlive, hkeys⟩ |
      ⟨k, prev, curr, next, w, c, ht, ht', hcp, hc, hlive⟩
  · -- no node changes liveness
    exact .inl (funext fun k => hh.view_congr hh' hg
      (fun c h => (hh.list_lt c ((hlive c).1 h).1).2) fun c _ => hlive c)
  · -- the `compare_exchange` of `Cursor::insert` links the new node `m`
    have hpc := hs.thread_ok t
    rw [ht] at hpc
    obtain ⟨⟨-, hmlt, -, -, hk, hv⟩, -⟩ := hpc
    have hlt : ∀ c, s'.Live L' c → c < s.size := fun c h =>
      ((hlive c).1 h).elim (fun h => (hh.list_lt c h.1).2) fun h => h ▸ hmlt
    have hnone : s.view k = none := hh.view_eq_none.2 fun c hc => hkeys c hc.1
    have hnew : s'.view k = some v := hh'.view_eq_some.2
      ⟨m, (hlive m).2 (.inr rfl), (hg.key m hmlt).trans hk, (hg.value m hmlt).trans hv⟩
    refine .inr (.inl ⟨t, k, v, m, prev, curr, ht, ht', ?_⟩)
    simp only [AtomicMap.insert, hnone, Prod.mk.injEq, true_and]
    funext k'
    by_cases hk' : k' = k
    · subst hk'
      rw [Function.update_same, hnew]
    · rw [Function.update_noteq hk']
      exact (hh.view_congr hh' hg hlt fun c hck =>
        (hlive c).trans (or_iff_left fun hcm => hk' (by rw [← hck, hcm, hk]))).symm
  · -- the `compare_exchange_tag` of `Cursor::remove` marks the node `c`
    have hpc := hs.thread_ok t
    rw [ht] at hpc
    obtain ⟨-, -, -, ⟨c', hcp', hk, hv⟩, -⟩ := hpc
    obtain rfl : c = c' := Option.some.inj (hcp.symm.trans hcp')
    have hlt : ∀ c', s'.Live L' c' → c' < s.size := fun c' h =>
      (hh.list_lt c' ((hlive c').1 h).1.1).2
    have hsome : s.view k = some w := hh.view_eq_some.2 ⟨c, hc, hk, hv⟩
    refine .inr (.inr ⟨t, k, prev, curr, next, w, ht, ht', ?_⟩)
    simp only [AtomicMap.remove, hsome, Prod.mk.injEq, true_and]
    funext k'
    by_cases hk' : k' = k
    · subst hk'
      rw [Function.update_same]
      refine (hh'.view_eq_none.2 fun c' hc' hk' => ?_).symm
      have hc'L := (hlive c').1 hc'
      exact hc'L.2 (s.eq_of_key_eq hh.sorted hc'L.1.1 hc.1
        (((hg.key c' (hlt c' hc')).symm.trans hk').trans hk.symm))
    · rw [Function.update_noteq hk']
      exact (hh.view_congr hh' hg hlt fun c' hck =>
        (hlive c').trans (and_iff_left fun hcc => hk' (by rw [← hck, hcc, hk]))).symm

/-- **Harris's list refines an atomic map.**  From every reachable state, every
step of every thread leaves the map the list stands for unchanged, or is a
successful `Cursor::insert` of a key the map lacks, which adds it as
`AtomicMap.insert` would and returns `None`, or the marking of a node by
`Cursor::remove`, which takes the key out of the map as `AtomicMap.remove`
would, with the value the call returns. -/
theorem list_refines_atomicMap [Inhabited K] [Inhabited V] {a : Action K V n} (hr : Reachable s)
    (h : step s a = some s') : MapStep s s' := by
  obtain ⟨L, hs⟩ := hr.inv
  obtain ⟨t, L', hst⟩ := hs.step h
  exact hst.mapStep hs

theorem list_refines_atomicMap_insert :
    ∃ s s' : State Nat Nat 1, Reachable s ∧ step s (.exec 0) = some s' ∧ MapStep s s' ∧
      s.view 1 = none ∧ s'.view 1 = some 10 := by
  have hr : Reachable (K := Nat) (V := Nat) (n := 1) _ :=
    .runs (l := [.invoke 0 (.insert 1 10), .exec 0, .exec 0, .exec 0, .exec 0]) .init rfl
  exact ⟨_, _, hr, rfl, list_refines_atomicMap hr (a := .exec 0) rfl, rfl, rfl⟩

/-- **What `find_harris` finds is in the map.**  When the cursor of a thread's
`find_harris` stands on a node with an untagged `next` and the search key, the
loop breaks with `Some(&curr_node.value)`; at that instant the map holds that
value at that key. -/
theorem view_of_find [Inhabited K] [Inhabited V] (hr : Reachable s) {task : Task K V}
    {prev pn curr : Link} {c : Nat} (ht : s.threads t = .find task prev pn curr)
    (hc : curr.ptr = some c) (hnext : (s.nodes c).next.tag = 0)
    (hkey : (s.nodes c).key = task.key) : s.view task.key = some (s.nodes c).value := by
  obtain ⟨L, hs⟩ := hr.inv
  have hpc := hs.thread_ok t
  rw [ht] at hpc
  have hclean : ¬ s.Marked c := fun h => h hnext
  exact hs.heap.view_eq_some.2
    ⟨c, ⟨(hpc.2.2.2.2.1 c hc).resolve_right hclean, hclean⟩, hkey, rfl⟩

theorem view_of_find_get :
    ∃ s : State Nat Nat 1, Reachable s ∧
      s.threads 0 = .find (.get 1) ⟨some 0, 0⟩ ⟨some 1, 0⟩ ⟨some 1, 0⟩ ∧ s.view 1 = some 10 := by
  have hr : Reachable (K := Nat) (V := Nat) (n := 1) _ :=
    .runs (l := [.invoke 0 (.insert 1 10), .exec 0, .exec 0, .exec 0, .exec 0, .exec 0, .reset 0,
      .invoke 0 (.get 1), .exec 0]) .init rfl
  exact ⟨_, hr, rfl, view_of_find hr (t := 0) rfl rfl rfl rfl⟩

end Refinement

end Circ.Harris
