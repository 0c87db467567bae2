import Circ.Api.Effect

/-!
# Owners and counts

Every operation of `strong.rs` acts on at most one block's count, by one of
the effects of `Circ.Api.Effect`, and leaves the views of all other blocks as
they were (`step_changes`).  Hence the count invariant holds of every block in
every state reached while fewer than `2 ^ 32 - 1` owners remain
(`Reach.inv`): the strong count of a block is the number of its owners, plus
one while a pending `try_zero` holds the permission a resurrection gave it.
-/

namespace Circ.Api

open State

variable {s s' : State} {c : Nat} {e : Effect}

/-- `s'` is `s` after effect `e` on block `c`, every other block as it was. -/
structure Changes (s s' : State) (c : Nat) (e : Effect) : Prop where
  allowed : e.Allowed (s.view c)
  self : s'.view c = e.apply (s.view c)
  others : ∀ b, b ≠ c → s'.view b = s.view b
  next : s'.next = if e.isAlloc then s.next + 1 else s.next
  alloc_next : e.isAlloc → c = s.next

theorem Changes.skip (hv : ∀ b, s'.view b = s.view b) (hn : s'.next = s.next) :
    Changes s s' 0 .skip :=
  ⟨trivial, hv 0, fun b _ => hv b, hn, nofun⟩

theorem Changes.single (ha : e.Allowed (s.view c))
    (hv : ∀ b, s'.view b = if b = c then e.apply (s.view b) else s.view b)
    (hn : s'.next = s.next) (he : e.isAlloc = false) : Changes s s' c e :=
  ⟨ha, by simpa using hv c, fun b hb => by simpa [hb] using hv b, by simp [hn, he],
    fun h => absurd h (by simp [he])⟩

/-! ### The shapes of an operation -/

/-- Handles move and snapshots may be taken; no count changes. -/
theorem changes_skip (hb : ∀ b, (s'.blocks b).strong = (s.blocks b).strong ∧
      (s'.blocks b).disposed = (s.blocks b).disposed)
    (hc : s'.closures = s.closures) (hn : s'.next = s.next) (ho : ∀ b, s'.owners b = s.owners b)
    (hsn : ∀ b, some b ∈ s'.snapshots ↔ some b ∈ s.snapshots) : Changes s s' 0 .skip :=
  .skip (fun b => by simp [view, hb, hc, ho, hsn]) hn

/-- As `changes_skip`, and a snapshot of block `c` is taken from one of its owners. -/
theorem changes_snap (hb : ∀ b, (s'.blocks b).strong = (s.blocks b).strong ∧
      (s'.blocks b).disposed = (s.blocks b).disposed)
    (hc : s'.closures = s.closures) (hn : s'.next = s.next) (ho : ∀ b, s'.owners b = s.owners b)
    (hsn : ∀ b, some b ∈ s'.snapshots ↔ some b ∈ s.snapshots ∨ b = c)
    (hown : 0 < s.owners c) :
    Changes s s' c .snap :=
  .single (by simpa [view] using hown) (fun b => by
    by_cases hbc : b = c
    · subst hbc
      simp [view, Effect.apply, hb, hc, ho, hsn]
    · simp [view, hb, hc, ho, hsn, hbc]) hn rfl

/-- `increment_strong` on block `c` for a new handle to it. -/
theorem changes_inc (hb : ∀ b, s'.blocks b = (s.incrementStrong c).blocks b)
    (hc : s'.closures = s.closures) (hn : s'.next = s.next)
    (ho : ∀ b, s'.owners b = s.owners b + if b = c then 1 else 0)
    (hsn : s'.snapshots = s.snapshots) (ha : Effect.inc.Allowed (s.view c)) :
    Changes s s' c .inc :=
  .single ha (fun b => by
    by_cases hbc : b = c
    · subst hbc
      simp [view, Effect.apply, hb, hc, ho, hsn]
    · simp [view, hb, hc, ho, hsn, hbc, Function.update_noteq hbc]) hn rfl

/-- Handles to block `c` are given up, `k` of them, and `decrement_strong(n)`
runs on it. -/
theorem changes_dec {X : State} {k n : Nat} (hb : ∀ b, X.blocks b = s.blocks b)
    (hc : X.closures = s.closures)
    (hn : X.next = s.next) (hsn : X.snapshots = s.snapshots)
    (ho : ∀ b, X.owners b = s.owners b - if b = c then k else 0)
    (ha : (Effect.dec k n).Allowed (s.view c)) : Changes s (X.decrementStrong c n) c (.dec k n) :=
  .single ha (fun b => by
    by_cases hbc : b = c
    · subst hbc
      simp [view, Effect.apply, hb, hc, ho, hsn]
    · simp [view, hb, hc, ho, hsn, hbc, Ne.symm hbc, Function.update_noteq hbc]) (by simp [hn]) rfl

/-- Block `next` is allocated with `n` handles to it. -/
theorem changes_alloc {n : Nat} (hb : ∀ b, s'.blocks b = (s.alloc n).blocks b)
    (hc : s'.closures = s.closures) (hn : s'.next = s.next + 1)
    (ho : ∀ b, s'.owners b = s.owners b + if b = s.next then n else 0)
    (hsn : s'.snapshots = s.snapshots) : Changes s s' s.next (.alloc n) := by
  refine ⟨trivial, ?_, fun b hbc => ?_, by simp [hn, Effect.isAlloc], fun _ => rfl⟩
  · simp [view, Effect.apply, hb, hc, ho, hsn, Block.alloc]
  · simp [view, hb, hc, ho, hsn, hbc, Function.update_noteq hbc]

/-- A deferred `try_zero` of block `c` runs. -/
theorem changes_tryZero (h : c ∈ s.closures) : Changes s (s.tryZero c) c .tryZero := by
  refine .single (by simpa [view, Effect.Allowed, List.count_pos_iff] using h) (fun b => ?_)
    (by unfold State.tryZero; split_ifs <;> rfl) rfl
  by_cases hbc : b = c
  · subst hbc
    rw [if_pos rfl]
    unfold State.tryZero
    split_ifs with h0 <;> simp [view, Effect.apply, h0, List.count_erase]
  · rw [if_neg hbc]
    unfold State.tryZero
    split_ifs <;>
      simp [view, hbc, Ne.symm hbc, Function.update_noteq hbc, List.count_erase]

/-- A snapshot of `p` is taken from a handle holding it. -/
theorem changes_snapshot {p : Ptr} (hb : ∀ b, s'.blocks b = s.blocks b)
    (hc : s'.closures = s.closures)
    (hn : s'.next = s.next) (ho : ∀ b, s'.owners b = s.owners b)
    (hsn : ∀ b, some b ∈ s'.snapshots ↔ some b ∈ s.snapshots ∨ p = some b)
    (hown : ∀ c, p = some c → 0 < s.owners c) : ∃ c e, Changes s s' c e := by
  cases p with
  | none => exact ⟨_, _, changes_skip (by simp [hb]) hc hn ho (by simpa using hsn)⟩
  | some c =>
    exact ⟨_, _, changes_snap (by simp [hb]) hc hn ho (fun b => by simpa [eq_comm] using hsn b)
      (hown c rfl)⟩

/-- `increment_strong` for a new handle holding `p`, if it is not null. -/
theorem changes_acquire {p : Ptr} (hb : ∀ b, s'.blocks b = (s.acquire p).blocks b)
    (hc : s'.closures = s.closures) (hn : s'.next = s.next)
    (ho : ∀ b, s'.owners b = s.owners b + p.owns b) (hsn : s'.snapshots = s.snapshots)
    (ha : ∀ c, p = some c → Effect.inc.Allowed (s.view c)) : ∃ c e, Changes s s' c e := by
  cases p with
  | none => exact ⟨_, _, changes_skip (by simp [hb, acquire]) hc hn (by simpa [Ptr.owns] using ho)
      (by simp [hsn])⟩
  | some c =>
    exact ⟨_, _, changes_inc (by simpa [acquire] using hb) hc hn
      (fun b => by simpa [Ptr.owns, eq_comm] using ho b) hsn (ha c rfl)⟩

/-- A handle holding `p` is given up by `decrement_strong(1)`, if it is not null. -/
theorem changes_release {X : State} {p : Ptr} (hb : ∀ b, X.blocks b = s.blocks b)
    (hc : X.closures = s.closures) (hn : X.next = s.next) (hsn : X.snapshots = s.snapshots)
    (ho : ∀ b, X.owners b = s.owners b - p.owns b) (hle : ∀ b, p.owns b ≤ s.owners b) :
    ∃ c e, Changes s (X.release p 1) c e := by
  cases p with
  | none => exact ⟨_, _, changes_skip (by simp [hb, release]) (by simp [hc, release])
      (by simp [hn, release]) (by simpa [release, Ptr.owns] using ho) (by simp [hsn, release])⟩
  | some c =>
    have := hle c
    exact ⟨_, _, changes_dec (k := 1) hb hc hn hsn
      (fun b => by simpa [Ptr.owns, eq_comm] using ho b)
      ⟨Nat.one_pos, by simpa [view, Ptr.owns] using this, rfl⟩⟩

/-- **What one operation does.**  Every operation acts on at most one block,
by one effect, and leaves every other block as it was. -/
theorem step_changes {op : Op} (h : step s op = some s') : ∃ c e, Changes s s' c e := by
  cases op with
  | rcNull | atomicNull =>
    obtain rfl := Option.some.inj h
    exact ⟨_, _, changes_skip (by simp) rfl rfl (by simp [Ptr.owns]) (by simp)⟩
  | rcNew | atomicNew =>
    obtain rfl := Option.some.inj h
    exact ⟨_, _, changes_alloc (n := 1) (by simp) rfl rfl (by simp [Ptr.owns, eq_comm]) rfl⟩
  | newMany n =>
    obtain rfl := Option.some.inj h
    exact ⟨_, _, changes_alloc (n := n) (by simp) rfl rfl (by simp [Ptr.owns, eq_comm]) rfl⟩
  | newManyIter count =>
    obtain rfl := Option.some.inj h
    exact ⟨_, _,
      changes_alloc (n := count) (by simp) rfl rfl (by simp [Iter.held, eq_comm]) rfl⟩
  | iterNext i =>
    simp only [step, Option.map_eq_some'] at h
    obtain ⟨it, hit, rfl⟩ := h
    split_ifs with h0
    · exact ⟨_, _, .skip (fun _ => rfl) rfl⟩
    · refine ⟨_, _, changes_skip (by simp) rfl rfl (fun b => ?_) (by simp)⟩
      have := held_le_of_iter (b := b) hit
      simp only [owners_pushRc, owners_setIter hit, Iter.held, Ptr.owns, Option.some.injEq]
        at this ⊢
      split_ifs at this ⊢ <;> omega
  | iterDrop i =>
    simp only [step, Option.map_eq_some'] at h
    obtain ⟨it, hit, rfl⟩ := h
    split_ifs with h0
    · have := held_le_of_iter (b := it.ptr) hit
      exact ⟨_, _, changes_dec (by simp) rfl rfl rfl
        (fun b => by simp only [owners_setIter hit, Iter.held]; split_ifs <;> omega)
        ⟨h0, by simpa [view, Iter.held] using this, rfl⟩⟩
    · exact ⟨_, _, .skip (fun _ => rfl) rfl⟩
  | rcClone i | atomicFromRcRef i =>
    simp only [step, Option.map_eq_some'] at h
    obtain ⟨p, hp, rfl⟩ := h
    exact changes_acquire (p := p) (by simp) (by simp) (by simp) (by simp) (by simp)
      (fun c hc => .inl (by subst hc; simpa [view, Ptr.owns] using owns_le_of_rc (b := c) hp))
  | rcDrop i =>
    simp only [step, Option.map_eq_some'] at h
    obtain ⟨p, hp, rfl⟩ := h
    exact changes_release (by simp) (by simp) (by simp) (by simp) (fun b => by simp [hp])
      (fun b => owns_le_of_rc hp)
  | take o | edgeTake o =>
    simp only [step, Option.map_eq_some'] at h
    obtain ⟨p, hp, rfl⟩ := h
    cases o with
    | rc i =>
      have hp : s.rcs[i]? = some p := hp
      exact ⟨_, _, changes_skip (by simp [clear]) (by simp [clear]) (by simp [clear])
        (fun b => by have := owns_le_of_rc (b := b) hp; simp [clear, hp]; omega)
        (by simp [clear])⟩
    | atomic j =>
      have hp : s.slots[j]? = some p := hp
      exact ⟨_, _, changes_skip (by simp [clear]) (by simp [clear]) (by simp [clear])
        (fun b => by have := owns_le_of_slot (b := b) hp; simp [clear, hp]; omega)
        (by simp [clear])⟩
  | rcSnapshot i =>
    simp only [step, Option.map_eq_some'] at h
    obtain ⟨p, hp, rfl⟩ := h
    exact changes_snapshot (p := p) (by simp) (by simp) (by simp) (by simp) (by simp [eq_comm])
      (fun c hc => by subst hc; simpa [Ptr.owns] using owns_le_of_rc (b := c) hp)
  | counted k =>
    simp only [step, Option.bind_eq_some] at h
    obtain ⟨p, hp, h⟩ := h
    split_ifs at h with hl
    obtain rfl := Option.some.inj h
    refine changes_acquire (p := p) (by simp) (by simp) (by simp) (by simp) (by simp)
      (fun c hc => .inr ⟨?_, ?_⟩)
    · simpa [view, hc] using List.getElem?_mem hp
    · subst hc
      simpa [view, live] using hl
  | atomicFromRc i =>
    simp only [step, Option.map_eq_some'] at h
    obtain ⟨p, hp, rfl⟩ := h
    exact ⟨_, _, changes_skip (by simp) rfl rfl
      (fun b => by have := owns_le_of_rc (b := b) hp; simp [hp]; omega) (by simp)⟩
  | load j =>
    simp only [step, Option.map_eq_some'] at h
    obtain ⟨p, hp, rfl⟩ := h
    exact changes_snapshot (p := p) (by simp) (by simp) (by simp) (by simp) (by simp [eq_comm])
      (fun c hc => by subst hc; simpa [Ptr.owns] using owns_le_of_slot (b := c) hp)
  | store j i =>
    simp only [step, Option.bind_eq_some, Option.map_eq_some'] at h
    obtain ⟨q, hq, p, hp, rfl⟩ := h
    exact changes_release (by simp) (by simp) (by simp) (by simp)
      (fun b => by have := owns_le_of_slot (b := b) hq; simp [hq, hp])
      (fun b => owns_le_of_slot hq)
  | swap j i =>
    simp only [step, Option.bind_eq_some, Option.map_eq_some'] at h
    obtain ⟨q, hq, p, hp, rfl⟩ := h
    exact ⟨_, _, changes_skip (by simp) rfl rfl
      (fun b => by have := owns_le_of_slot (b := b) hq; simp [hq, hp]; omega) (by simp)⟩
  | compareExchange j k i success =>
    simp only [step, Option.bind_eq_some] at h
    obtain ⟨q, hq, e, he, p, hp, h⟩ := h
    cases success with
    | false =>
      obtain rfl := Option.some.inj h
      exact changes_snapshot (p := q) (by simp) (by simp) (by simp) (by simp) (by simp [eq_comm])
        (fun c hc => by subst hc; simpa [Ptr.owns] using owns_le_of_slot (b := c) hq)
    | true =>
      rw [if_pos rfl] at h
      split_ifs at h
      obtain rfl := Option.some.inj h
      exact ⟨_, _, changes_skip (by simp) rfl rfl
        (fun b => by have := owns_le_of_slot (b := b) hq; simp [hq, hp]; omega) (by simp)⟩
  | compareExchangeTag j k success =>
    simp only [step, Option.bind_eq_some] at h
    obtain ⟨q, hq, e, he, h⟩ := h
    have hown : ∀ c, q = some c → 0 < s.owners c := fun c hc => by
      subst hc; simpa [Ptr.owns] using owns_le_of_slot (b := c) hq
    cases success with
    | false =>
      obtain rfl := Option.some.inj h
      have := List.getElem?_mem he
      exact changes_snapshot (p := q) (by simp) (by simp) (by simp) (by simp)
        (fun b => by simp only [pushSnapshot_snapshots, List.mem_append, List.mem_singleton]; aesop)
        hown
    | true =>
      rw [if_pos rfl] at h
      split_ifs at h
      obtain rfl := Option.some.inj h
      exact changes_snapshot (p := q) (by simp) (by simp) (by simp) (by simp) (by simp [eq_comm])
        hown
  | atomicDrop j =>
    simp only [step, Option.map_eq_some'] at h
    obtain ⟨q, hq, rfl⟩ := h
    exact changes_release (by simp) (by simp) (by simp) (by simp) (fun b => by simp [hq])
      (fun b => owns_le_of_slot hq)
  | downgrade i | weakMany i _ | weakDrop i =>
    simp only [step, Option.map_eq_some'] at h
    obtain ⟨p, -, rfl⟩ := h
    exact ⟨_, _, changes_skip (by simp) (by simp) (by simp) (by simp) (by simp)⟩
  | tryZero b =>
    simp only [step] at h
    split_ifs at h with hb
    obtain rfl := Option.some.inj h
    exact ⟨_, _, changes_tryZero hb⟩

/-! ### The invariant over runs -/

/-- The invariant: every block keeps its count invariant, and nothing points
at a block that has not been allocated. -/
structure Inv (s : State) : Prop where
  ok : ∀ b, (s.view b).Ok
  fresh : ∀ b, s.next ≤ b → s.view b = View.zero

theorem Inv.empty : Inv State.empty :=
  ⟨fun _ => ⟨by simp [view, State.empty, Block.unused], .inl (by simp [view, State.empty,
    Block.unused, owners]), by simp [view, State.empty, Block.unused],
    by simp [view, State.empty]⟩,
   fun _ _ => by simp [view, View.zero, State.empty, Block.unused, owners]⟩

/-- **One step.**  An operation keeps the invariant while fewer than
`2 ^ 32 - 1` owners of any block are left before and after it. -/
theorem Inv.changes (hs : Inv s) (hc : Changes s s' c e) (hpre : ∀ b, s.owners b < 2 ^ 32 - 1)
    (hpost : ∀ b, s'.owners b < 2 ^ 32 - 1) : Inv s' := by
  have hz : e.isAlloc → s.view c = View.zero := fun ha => hs.fresh c (hc.alloc_next ha).ge
  refine ⟨fun b => ?_, fun b hb => ?_⟩
  · by_cases hbc : b = c
    · subst hbc
      have hown : (e.apply (s.view b)).owners < 2 ^ 32 - 1 := by
        rw [← hc.self]
        exact hpost b
      exact hc.self ▸ (hs.ok b).apply hc.allowed hz (hpre b) hown
    · exact hc.others b hbc ▸ hs.ok b
  · by_cases hbc : b = c
    · subst hbc
      cases ha : e.isAlloc
      · have hnext : s'.next = s.next := by simpa [ha] using hc.next
        have h0 := hs.fresh b (hnext ▸ hb)
        rw [hc.self, h0]
        exact Effect.apply_zero (h0 ▸ hc.allowed) ha
      · have := hc.alloc_next ha
        have := hc.next
        simp only [ha, if_true] at this
        omega
    · rw [hc.others b hbc]
      exact hs.fresh b (by have := hc.next; split_ifs at this <;> omega)

/-- **Every run.**  The invariant holds all along a run from a state that has
it, while every block has fewer than `2 ^ 32 - 1` owners. -/
theorem Reach.inv {s0 : State} (h0 : Inv s0) (hb0 : ∀ b, s0.owners b < 2 ^ 32 - 1)
    (h : Reach (2 ^ 32 - 1) s0 s) : Inv s ∧ ∀ b, s.owners b < 2 ^ 32 - 1 := by
  induction h with
  | refl => exact ⟨h0, hb0⟩
  | step _ hstep hbound ih =>
    obtain ⟨c, e, hc⟩ := step_changes hstep
    exact ⟨ih.1.changes hc ih.2 hbound, hbound⟩

/-! ### A resurrection -/

/-- `AtomicRc::new`, a `load` of a snapshot, the drop of the slot, whose
`try_zero` waits behind the snapshot's guard, `counted` on the snapshot, which
resurrects the block, and `m` clones of the resurrected `Rc`. -/
def resurrected (m : Nat) : State :=
  { State.empty with
    blocks := fun b => if b = 0 then ⟨(m + 2) % 2 ^ 32, 1, 0⟩ else Block.unused
    next := 1, closures := [0], rcs := List.replicate (m + 1) (some 0), slots := [none],
    snapshots := [some 0] }

theorem owners_resurrected (m b : Nat) :
    (resurrected m).owners b = if b = 0 then m + 1 else 0 := by
  by_cases hb : b = 0
  · subst hb
    simp [resurrected, owners, State.empty, Ptr.owns]
  · simp [resurrected, owners, State.empty, Ptr.owns, hb, Ne.symm hb]

/-- Each clone adds one owner and one unit of count. -/
theorem step_resurrected_clone {m : Nat} (h : m + 2 < 2 ^ 32) :
    step (resurrected m) (.rcClone 0) = some (resurrected (m + 1)) := by
  have hv : (m + 2) % 2 ^ 32 = m + 2 := Nat.mod_eq_of_lt h
  simp only [step, resurrected, List.getElem?_replicate, Nat.zero_lt_succ, if_true,
    Option.map_some', Option.some.injEq]
  ext b
  · by_cases hb : b = 0
    · subst hb
      simp only [acquire, ifSome_some, pushRc_blocks, incrementStrong_blocks, Function.update_same,
        if_true, hv, Circ.incrementStrong, wrapAdd]
      simp
    · simp [hb, acquire, Function.update_apply]
  all_goals simp [acquire, List.replicate_succ']

/-- The resurrection reached from nothing, every step with few owners. -/
theorem reach_resurrected {B m : Nat} (h : m + 2 ≤ B) (hB : B ≤ 2 ^ 32) :
    Reach B State.empty (resurrected m) := by
  induction m with
  | zero =>
    refine .step (.step (.step (.step .refl (rfl : step _ .atomicNew = _) ?_)
      (rfl : step _ (.load 0) = _) ?_) (rfl : step _ (.atomicDrop 0) = _) ?_)
      (?_ : step _ (.counted 0) = _) ?_
    · intro b
      by_cases hb : b = 0 <;> simp [owners, State.empty, Ptr.owns, hb, eq_comm] <;> omega
    · intro b
      by_cases hb : b = 0 <;> simp [owners, State.empty, Ptr.owns, hb, eq_comm] <;> omega
    · intro b
      by_cases hb : b = 0 <;> simp [owners, State.empty, Ptr.owns, hb, release] <;> omega
    · simp [step, live, release, State.empty, Block.alloc, Block.unused, acquire, resurrected]
      ext b
      · by_cases hb : b = 0 <;>
          simp [hb, Function.update_apply, decrementStrong, wrapSub, Circ.incrementStrong, wrapAdd,
            Block.alloc]
      all_goals simp [decrementStrong, wrapSub, Block.alloc]
    · intro b
      rw [owners_resurrected]
      split_ifs <;> omega
  | succ m ih =>
    exact .step (ih (by omega)) (step_resurrected_clone (by omega))
      (fun b => by rw [owners_resurrected]; split_ifs <;> omega)

/-! ### Owners and counts -/

/-- The count invariant of a block read as an equation: the owners are the
count, less the permission a pending `try_zero` holds when the count is
positive. -/
theorem View.Ok.owners_eq {v : View} (h : v.Ok) :
    v.owners = v.strong - if 0 < v.pending ∧ 0 < v.strong then 1 else 0 := by
  rcases h.count with h | h <;> split_ifs <;> omega

/-- **Owners and counts.**  Take every sequence of public operations of
`strong.rs`, with deferred `try_zero` closures run at any later point.  As
long as no block has `2 ^ 32 - 1` or more owners, every block `b` has as many
owners (`Rc` values, `AtomicRc` slots and `EdgeTaker` entries holding it, and
what `NewRcIter`s over it have still to hand out) as its strong count says,
less one while a `try_zero` for it is pending and the count is positive. -/
theorem owners_eq_strong_sub_pending (h : Reachable (2 ^ 32 - 1) s) (b : Nat) :
    s.owners b = (s.blocks b).strong - if b ∈ s.closures ∧ 0 < (s.blocks b).strong then 1 else 0 := by
  have := ((Reach.inv Inv.empty (fun _ => by simp [State.empty, owners]) h).1.ok b).owners_eq
  simpa [view, List.count_pos_iff] using this

/-- The equation after a resurrection and one clone: two owners, a count of
three, one of it the pending closure's permission. -/
theorem owners_eq_strong_sub_pending_resurrected :
    Reachable (2 ^ 32 - 1) (resurrected 1) ∧
    (resurrected 1).owners 0 = ((resurrected 1).blocks 0).strong -
      if 0 ∈ (resurrected 1).closures ∧ 0 < ((resurrected 1).blocks 0).strong then 1 else 0 :=
  ⟨reach_resurrected (by decide) (by decide),
   owners_eq_strong_sub_pending (reach_resurrected (by decide) (by decide)) 0⟩

/-- At `2 ^ 32 - 1` owners the equation fails: after the resurrection,
`2 ^ 32 - 2` clones leave the block with `2 ^ 32 - 1` owners and its `try_zero`
pending, while the count, which also holds the closure's permission, has
wrapped to zero. -/
theorem owners_eq_strong_fails_at_wrap :
    ¬ ∀ s, Reachable (2 ^ 32) s → ∀ b,
      s.owners b = (s.blocks b).strong - if b ∈ s.closures ∧ 0 < (s.blocks b).strong then 1 else 0 := by
  intro h
  have := h _ (reach_resurrected (m := 2 ^ 32 - 2) (by decide) le_rfl) 0
  have hs : ((resurrected (2 ^ 32 - 2)).blocks 0).strong = (2 ^ 32 - 2 + 2) % 2 ^ 32 := rfl
  rw [owners_resurrected, hs] at this
  simp at this

/-- **No block is disposed twice, nor while it is owned.**  In every state
reached while fewer than `2 ^ 32 - 1` owners of any block remain, every block
has been disposed at most once, and a disposed block has no owner and no
pending `try_zero`. -/
theorem disposed_once_unowned (h : Reachable (2 ^ 32 - 1) s) (b : Nat) :
    (s.blocks b).disposed ≤ 1 ∧
      (0 < (s.blocks b).disposed → s.owners b = 0 ∧ b ∉ s.closures) := by
  have hok := (Reach.inv Inv.empty (fun _ => by simp [State.empty, owners]) h).1.ok b
  have hc := hok.count
  have hd := hok.disposed
  simp only [view, ← List.count_pos_iff] at hc hd ⊢
  omega

/-- The law after the resurrection, where the block is not disposed, and
after `AtomicRc::new`, the drop of the slot and its `try_zero`, where the block
is disposed with no owner left and no `try_zero` pending. -/
theorem disposed_once_unowned_resurrected :
    (((resurrected 1).blocks 0).disposed ≤ 1 ∧ (0 < ((resurrected 1).blocks 0).disposed →
      (resurrected 1).owners 0 = 0 ∧ 0 ∉ (resurrected 1).closures)) ∧
    ∃ s, Reachable (2 ^ 32 - 1) s ∧ (s.blocks 0).disposed = 1 ∧
      ((s.blocks 0).disposed ≤ 1 ∧ (0 < (s.blocks 0).disposed → s.owners 0 = 0 ∧ 0 ∉ s.closures)) := by
  have h : Reach (2 ^ 32 - 1) State.empty _ :=
    (((Reach.refl : Reach (2 ^ 32 - 1) State.empty State.empty).step_small
      (rfl : step _ .atomicNew = _) (by decide)).step_small
      (rfl : step _ (.atomicDrop 0) = _) (by decide)).step_small (rfl : step _ (.tryZero 0) = _)
      (by decide)
  exact ⟨disposed_once_unowned (reach_resurrected (by decide) (by decide)) 0, _, h, rfl,
    disposed_once_unowned h 0⟩

end Circ.Api
