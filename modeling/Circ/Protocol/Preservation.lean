import Circ.Protocol.Invariant

/-!
# Every action keeps the invariant

One lemma per action: the step is inverted once, and the fields of `Inv`
that the action touches are re-established.  Actions on guards and snapshots
change one thread record (`Inv.setThread`); adding or removing a handle moves
the count and the handles together (`Inv.addHandle`, `Inv.removeHandle`); the
remaining lemmas follow one `try_zero` from the `fetch_sub` that made it to its
`delete_object`.
-/

namespace Circ.Protocol

open State

variable {n : Nat} {s s' : State n}

/-! ### Guards and snapshots -/

/-- Advancing the clock keeps the invariant. -/
theorem Inv.tick (hs : Inv s) : Inv { s with clock := s.clock + 1 } :=
  { hs with
    stamp_lt := fun d hd => Nat.lt_succ_of_lt (hs.stamp_lt d hd)
    thread_ok := fun t =>
      { hs.thread_ok t with
        guard_lt := fun g hg => Nat.lt_succ_of_lt ((hs.thread_ok t).guard_lt g hg) } }

theorem Inv.pin (hs : Inv s) {t : Fin n} (h : step s (.pin t) = some s') : Inv s' := by
  simp only [step] at h
  split_ifs at h with hc
  cases h
  obtain ⟨hidle, hnone⟩ := hc
  have hsnap : (s.threads t).snapshot = false := by
    by_contra hne
    simpa [hnone] using (hs.thread_ok t).snapshot_guard (by simpa using hne)
  exact hs.tick.setThread (by simp [hidle])
    ⟨by simp, by simp, by simp [hsnap, hidle], by simp [hidle], by simp [hsnap],
      by simp [hidle]⟩

theorem Inv.unpin (hs : Inv s) {t : Fin n} (h : step s (.unpin t) = some s') : Inv s' := by
  simp only [step] at h
  split_ifs at h with hc
  cases h
  exact hs.setThread (by simp)
    ⟨by simp, by simp, by simp [hc.1], by simp [hc.1], by simp, by simp [hc.1]⟩

theorem Inv.load (hs : Inv s) {t : Fin n} (h : step s (.load t) = some s') : Inv s' := by
  simp only [step] at h
  split_ifs at h with hc
  cases h
  obtain ⟨hidle, hguard, hpos⟩ := hc
  have hok := hs.thread_ok t
  have halive : ¬ s.Dying := fun hd => by
    have := hs.dying_zero hd
    rcases hs.count with h | h <;> omega
  refine hs.setThread (by simp) ⟨hok.guard_lt, fun _ => hguard, fun _ => halive,
    by simp [hidle], fun _ heq d hd => ?_, by simp [hidle]⟩
  have := hs.pending_empty (.inr ⟨_, hd, trivial⟩) heq
  omega

/-! ### Increments -/

/-- A new handle with its unit of count keeps the invariant while the count
is positive and stays below `2 ^ 32`. -/
theorem Inv.addHandle (hs : Inv s) (hpos : 0 < s.strong) (hb : s.strong + 1 < 2 ^ 32) :
    Inv { s with strong := s.strong + 1, handles := s.handles + 1 } := by
  have halive : ¬ s.Dying := fun hd => by have := hs.dying_zero hd; omega
  refine { hs with
    count := by rcases hs.count with h | h <;> simp [h]
    strong_lt := hb
    extra_pending := fun h => hs.extra_pending (by simp at h; omega)
    pending_empty := fun hp h => by
      have := hs.pending_empty hp (by simp at h; omega)
      simp at h; omega
    redecrement_extra := fun h => by simp [hs.redecrement_extra h]
    dying_zero := fun h => absurd h halive
    dead := fun _ h => by simp at h
    thread_ok := fun t => ?_ }
  have hok := hs.thread_ok t
  exact ⟨hok.guard_lt, hok.snapshot_guard, hok.busy_alive, hok.deferring_alone,
    fun hsn h => hok.snapshot_blocks hsn (by simp at h; omega),
    fun hi => by
      obtain ⟨h1, h2, h3⟩ := hok.incrementing hi
      exact ⟨by simp [h1], h2, h3⟩⟩

/-- The first `fetch_add` of `counted` on a zero count: the thread hands the
permission to the `try_zero` under way and owes its second `fetch_add`. -/
theorem Inv.resurrect (hs : Inv s) {t : Fin n} (h0 : s.strong = 0)
    (hidle : (s.threads t).pc = .idle) (hsnap : (s.threads t).snapshot = true) :
    Inv { s.setThread t { s.threads t with pc := .incrementing } with strong := 1 } := by
  have hok := hs.thread_ok t
  have hh : s.handles = 0 := by rcases hs.count with h | h <;> omega
  have halive : ¬ s.Dying := hok.busy_alive (.inl hsnap)
  have hpend : s.Pending := by_contra fun hp => halive (hs.dead hp hh)
  have hnored : .redecrement ∉ s.closures := fun h => by
    have := hs.redecrement_extra h
    omega
  have hdef : (s.setThread t { s.threads t with pc := .incrementing }).Deferring ↔
      s.Deferring := deferring_setThread (by simp [hidle])
  have hpend' : (s.setThread t { s.threads t with pc := .incrementing }).Pending := by
    rcases hpend with hd | hc
    · exact .inl (hdef.2 hd)
    · exact .inr hc
  have hblock : s.Deferring ∨ .redeferring ∈ s.closures ∨
      ∃ d, .deferred d ∈ s.closures ∧ (s.threads t).pinnedBefore d = true := by
    rcases hpend with hd | ⟨c, hc, hl⟩
    · exact .inl hd
    · cases c with
      | deferred d => exact .inr (.inr ⟨d, hc, hok.snapshot_blocks hsnap (by omega) d hc⟩)
      | redecrement => exact absurd hc hnored
      | redeferring => exact .inr (.inl hc)
      | disposing | deleting => exact hl.elim
  refine { hs with
    count := .inr (by simp [hh])
    strong_lt := by simp
    extra_pending := fun _ => hpend'
    pending_empty := fun _ h => absurd h (by simp [hh])
    redecrement_extra := fun h => absurd h hnored
    dying_zero := fun h => absurd h halive
    dead := fun hp => absurd hpend' hp
    deferring_unique := fun u v hu hv => hs.deferring_unique u v ?_ ?_
    thread_ok := fun u => ?_ }
  · by_cases h : u = t <;> simp_all [setThread_threads]
  · by_cases h : v = t <;> simp_all [setThread_threads]
  · by_cases h : u = t
    · subst h
      refine ⟨by simpa using hok.guard_lt, by simpa using hok.snapshot_guard, fun _ => halive,
        by simp, fun _ h => absurd h (by simp [hh]), fun _ => ⟨by simp [hh], ?_, ?_⟩⟩
      · simpa using hok.snapshot_guard hsnap
      · rcases hblock with hd | hr | ⟨d, hd, hp⟩
        · exact .inl (hdef.2 hd)
        · exact .inr (.inl hr)
        · exact .inr (.inr ⟨d, hd, by simpa [Thread.pinnedBefore] using hp⟩)
    · have hu := hs.thread_ok u
      simp only [setThread_threads_ne _ _ h]
      exact ⟨hu.guard_lt, hu.snapshot_guard, hu.busy_alive, hu.deferring_alone,
        fun _ h => absurd h (by simp [hh]),
        fun hi => by have := (hu.incrementing hi).1; omega⟩

/-- The first `fetch_add` of `increment_strong`, by `Rc::clone` (a handle
exists) or by `Snapshot::counted` (the thread holds a snapshot). -/
theorem Inv.incrementFirst (hs : Inv s) {t : Fin n} (hidle : (s.threads t).pc = .idle)
    (hcan : 0 < s.handles ∨ (s.threads t).snapshot = true) (hb : s.strong + 1 < 2 ^ 32) :
    Inv (s.incrementFirst t) := by
  unfold State.incrementFirst
  split_ifs with h0
  · rw [h0] at hb ⊢
    refine hs.resurrect h0 hidle (hcan.resolve_left fun hpos => ?_)
    rcases hs.count with h | h <;> omega
  · rw [wrapAdd_of_lt hb]
    exact hs.addHandle (Nat.pos_of_ne_zero h0) hb

theorem Inv.clone (hs : Inv s) {t : Fin n} (h : step s (.clone t) = some s')
    (hb : s.strong + 1 < 2 ^ 32) : Inv s' := by
  simp only [step] at h
  split_ifs at h with hc
  cases h
  exact hs.incrementFirst hc.1 (.inl hc.2) hb

theorem Inv.counted (hs : Inv s) {t : Fin n} (h : step s (.counted t) = some s')
    (hb : s.strong + 1 < 2 ^ 32) : Inv s' := by
  simp only [step] at h
  split_ifs at h with hc
  cases h
  exact hs.incrementFirst hc.1 (.inr hc.2) hb

/-- The second `fetch_add` of a resurrecting `increment_strong` makes the
handle. -/
theorem Inv.incrementAgain (hs : Inv s) {t : Fin n}
    (h : step s (.incrementAgain t) = some s') (hb : s.strong + 1 < 2 ^ 32) : Inv s' := by
  simp only [step] at h
  split_ifs at h with hc
  cases h
  have hok := hs.thread_ok t
  have hextra := (hok.incrementing hc).1
  have hs₁ : Inv (s.setThread t { s.threads t with pc := .idle }) := hs.setThread (by simp [hc])
    ⟨hok.guard_lt, hok.snapshot_guard, fun _ => hok.busy_alive (.inr (by simp [hc])),
      by simp, hok.snapshot_blocks, by simp⟩
  rw [wrapAdd_of_lt hb]
  exact hs₁.addHandle (by simp; omega) hb

/-! ### Decrements -/

/-- Dropping a handle that is not the last unit of count keeps the invariant. -/
theorem Inv.removeHandle (hs : Inv s) (hpos : 0 < s.handles) (hne : s.strong ≠ 1) :
    Inv { s with strong := s.strong - 1, handles := s.handles - 1 } := by
  have hge : s.handles ≤ s.strong := by rcases hs.count with h | h <;> omega
  have halive : ¬ s.Dying := fun hd => by have := hs.dying_zero hd; omega
  refine { hs with
    count := by have := hs.count; dsimp only; omega
    strong_lt := by have := hs.strong_lt; dsimp only; omega
    extra_pending := fun h => hs.extra_pending (by simp at h; omega)
    pending_empty := fun hp h => by
      have := hs.pending_empty hp (by simp at h; omega)
      omega
    redecrement_extra := fun h => by have := hs.redecrement_extra h; simp; omega
    dying_zero := fun h => absurd h halive
    dead := fun hp h => by
      have hne' : s.strong ≠ s.handles + 1 := fun h' => hp (hs.extra_pending h')
      simp at h; rcases hs.count with h' | h' <;> omega
    thread_ok := fun t => ?_ }
  have hok := hs.thread_ok t
  exact ⟨hok.guard_lt, hok.snapshot_guard, hok.busy_alive, hok.deferring_alone,
    fun hsn h => hok.snapshot_blocks hsn (by simp at h; omega),
    fun hi => by
      obtain ⟨h1, h2, h3⟩ := hok.incrementing hi
      exact ⟨by simp; omega, h2, h3⟩⟩

/-- The `fetch_sub` that takes the count from one to zero: the dropping thread
now owes the `defer` of `try_zero`. -/
theorem Inv.lastDrop (hs : Inv s) {t : Fin n} (hidle : (s.threads t).pc = .idle)
    (h1 : s.strong = 1) (hh : s.handles = 1) :
    Inv { s.setThread t { s.threads t with pc := .deferring } with strong := 0, handles := 0 } := by
  have hnp : ¬ s.Pending := fun hp => by have := hs.pending_empty hp (by omega); omega
  have halive : ¬ s.Dying := fun hd => by have := hs.dying_zero hd; omega
  have hnil : s.closures = [] := by
    match hc : s.closures with
    | [] => rfl
    | c :: _ =>
      have hmem : c ∈ s.closures := by simp [hc]
      cases c with
      | disposing => exact absurd (.inl hmem) halive
      | deleting => exact absurd (.inr (.inl hmem)) halive
      | _ => exact absurd (.inr ⟨_, hmem, trivial⟩) hnp
  have hnd : ∀ u, (s.threads u).pc ≠ .deferring := fun u hu => hnp (.inl ⟨u, hu⟩)
  refine { hs with
    count := .inl rfl
    strong_lt := by simp
    extra_pending := fun h => by simp at h
    pending_empty := fun _ _ => rfl
    redecrement_extra := fun h => by simp [hnil] at h
    dying_zero := fun _ => rfl
    dead := fun hp => absurd (.inl ⟨t, by simp⟩) hp
    disposing_first := fun h => by simp [hnil] at h
    deleting_once := fun h => by simp [hnil] at h
    stamp_lt := fun d h => by simp [hnil] at h
    deferring_unique := fun u v hu hv => ?_
    thread_ok := fun u => ?_ }
  · have key : ∀ w, ((s.setThread t { s.threads t with pc := .deferring }).threads w).pc =
        .deferring → w = t := fun w hw => by
      by_contra hwt
      exact hnd w (by simpa [setThread_threads_ne _ _ hwt] using hw)
    rw [key u hu, key v hv]
  · have hok := hs.thread_ok u
    by_cases hut : u = t
    · subst hut
      exact ⟨by simpa using hok.guard_lt, by simpa using hok.snapshot_guard,
        fun _ => halive, fun _ => hnil, fun _ _ d h => by simp [hnil] at h, by simp⟩
    · simp only [setThread_threads_ne _ _ hut]
      exact ⟨hok.guard_lt, hok.snapshot_guard, hok.busy_alive, fun _ => hnil,
        fun _ _ d h => by simp [hnil] at h,
        fun hi => by have := (hok.incrementing hi).1; omega⟩

/-- A handle is dropped: `decrement_strong`'s `fetch_sub`. -/
theorem Inv.drop (hs : Inv s) {t : Fin n} (h : step s (.drop t) = some s') : Inv s' := by
  simp only [step] at h
  split at h
  case isFalse => cases h
  rename_i hc
  obtain rfl := Option.some.inj h
  obtain ⟨hidle, hpos⟩ := hc
  have hge : s.handles ≤ s.strong := by rcases hs.count with h | h <;> omega
  rw [decrementStrong_of_le hs.strong_lt (by omega)]
  by_cases h1 : s.strong = 1
  · have hh : s.handles = 1 := by omega
    have hlast := hs.lastDrop hidle h1 hh
    simp only [h1, hh, beq_self_eq_true, if_true, Nat.sub_self]
    exact hlast
  · have hsame : { s.threads t with pc := .idle } = s.threads t := by
      cases hth : s.threads t; simp_all
    have hrem := hs.removeHandle hpos h1
    simp only [h1, beq_iff_eq, if_false, hsame]
    simpa [State.setThread] using hrem

/-- The pin stamp of a guard held by an acceptable record is older than the
clock. -/
theorem State.ThreadOk.pinnedBefore_clock {th : Thread} (h : ThreadOk s th)
    (hg : th.guard.isSome = true) : th.pinnedBefore s.clock = true := by
  obtain ⟨g, hg'⟩ := Option.isSome_iff_exists.mp hg
  simpa [Thread.pinnedBefore, hg'] using h.guard_lt g hg'

/-- The dropping thread defers `try_zero` on a guard: the closure enters a bag
with the current stamp. -/
theorem Inv.defer (hs : Inv s) {t : Fin n} (h : step s (.defer t) = some s') : Inv s' := by
  simp only [step] at h
  split_ifs at h with hc
  cases h
  have hok := hs.thread_ok t
  have hnil := hok.deferring_alone hc
  have halive : ¬ s.Dying := hok.busy_alive (.inr (by simp [hc]))
  have hd0 : s.disposed = 0 := by_contra fun h => halive (.inr (.inr h))
  have hpend : s.Pending := .inl ⟨t, hc⟩
  have hother : ∀ u, u ≠ t → (s.threads u).pc ≠ .deferring := fun u hu hd =>
    hu (hs.deferring_unique u t hd hc)
  have hpc : ∀ u, ((s.setThread t { s.threads t with pc := .idle }).threads u).pc ≠
      .deferring := fun u => by
    by_cases hut : u = t
    · simp [hut]
    · simpa [setThread_threads_ne _ _ hut] using hother u hut
  refine { hs with
    closures_le := by simp [hnil]
    extra_pending := fun _ => .inr ⟨.deferred s.clock, by simp, trivial⟩
    pending_empty := fun _ h => hs.pending_empty hpend h
    redecrement_extra := fun h => by simp [hnil] at h
    dying_zero := fun h => by simp [Dying, hnil, hd0] at h
    dead := fun hp => absurd (.inr ⟨.deferred s.clock, by simp, trivial⟩) hp
    disposing_first := fun h => by simp [hnil] at h
    deleting_once := fun h => by simp [hnil] at h
    disposed_deleting := fun h => absurd hd0 h
    deleted_done := fun h => absurd hd0 h
    stamp_lt := fun d h => by
      simp [hnil] at h
      subst h
      exact Nat.lt_succ_self _
    deferring_unique := fun u _ hu => absurd hu (hpc u)
    thread_ok := fun u => ?_ }
  have hu : ThreadOk s ((s.setThread t { s.threads t with pc := .idle }).threads u) := by
    by_cases hut : u = t
    · subst hut
      simpa using (⟨hok.guard_lt, hok.snapshot_guard, fun _ => halive, by simp,
        hok.snapshot_blocks, by simp⟩ : ThreadOk s { s.threads u with pc := .idle })
    · simpa [setThread_threads_ne _ _ hut] using hs.thread_ok u
  refine ⟨fun g hg => Nat.lt_succ_of_lt (hu.guard_lt g hg), hu.snapshot_guard,
    fun _ => by simpa [Dying, hnil] using hd0, fun h => absurd h (hpc u),
    fun hsn _ d hd => ?_, fun hi => ?_⟩
  · simp [hnil] at hd
    subst hd
    exact hu.pinnedBefore_clock (hu.snapshot_guard hsn)
  · obtain ⟨h1, h2, -⟩ := hu.incrementing hi
    exact ⟨h1, h2, .inr (.inr ⟨s.clock, by simp [hnil], hu.pinnedBefore_clock h2⟩)⟩

/-! ### The life of a `try_zero` -/

/-- With a closure in flight no thread owes a `defer`. -/
theorem Inv.not_deferring (hs : Inv s) {c : Closure} (hc : c ∈ s.closures) (u : Fin n) :
    (s.threads u).pc ≠ .deferring := fun h => by
  simp [(hs.thread_ok u).deferring_alone h] at hc

/-- Until `dispose` runs, only a `deleting` closure is ruled out. -/
theorem Inv.disposed_eq_zero (hs : Inv s) {c : Closure} (hc : c ∈ s.closures)
    (hne : c ≠ .deleting) : s.disposed = 0 :=
  by_contra fun h => hne (hs.disposed_deleting h c hc)

/-- While the block dies no thread holds a snapshot or is inside an operation. -/
theorem Inv.quiet_of_dying (hs : Inv s) (hd : s.Dying) (u : Fin n) :
    (s.threads u).snapshot = false ∧ (s.threads u).pc = .idle := by
  simpa [not_or] using mt (hs.thread_ok u).busy_alive (not_not_intro hd)

/-- An idle record without a snapshot is acceptable when its guard is older
than the clock. -/
theorem State.ThreadOk.of_idle {th : Thread} (hg : ∀ g, th.guard = some g → g < s.clock)
    (hsn : th.snapshot = false) (hpc : th.pc = .idle) : ThreadOk s th :=
  ⟨hg, by simp [hsn], by simp [hsn, hpc], by simp [hpc], by simp [hsn], by simp [hpc]⟩

/-- A thread between its two `fetch_add`s is waiting on the closure it
resurrected, so none exists once that closure has read the count. -/
theorem Inv.not_incrementing (hs : Inv s) {c : Closure} (hcl : s.closures = [c])
    (hc : ∀ d, c = .deferred d → s.Released d) (hr : c ≠ .redeferring) (u : Fin n) :
    (s.threads u).pc ≠ .incrementing := fun hu => by
  obtain ⟨-, -, hb⟩ := (hs.thread_ok u).incrementing hu
  rcases hb with ⟨v, hv⟩ | hred | ⟨d, hd, hp⟩
  · exact hs.not_deferring (c := c) (by simp [hcl]) v hv
  · simp [hcl] at hred
    exact hr hred.symm
  · simp [hcl] at hd
    simp [hc d hd.symm u] at hp

/-- A deferred `try_zero` whose guards are all gone reads the count with
`fetch_add(0)`. -/
theorem Inv.tryZero (hs : Inv s) {i : Nat} (h : step s (.tryZero i) = some s') : Inv s' := by
  simp only [step] at h
  split at h
  case h_2 => cases h
  rename_i d hd
  split at h
  case isFalse => cases h
  rename_i hrel
  obtain rfl := Option.some.inj h
  obtain ⟨rfl, hcl⟩ := closures_eq_singleton hs.closures_le hd
  have hmem : Closure.deferred d ∈ s.closures := by simp [hcl]
  have hd0 := hs.disposed_eq_zero hmem (by simp)
  have hnd := hs.not_deferring hmem
  have hni := hs.not_incrementing hcl (by rintro d' ⟨⟩; exact hrel) (by simp)
  by_cases h0 : s.strong = 0
  · have hh : s.handles = 0 := by rcases hs.count with h | h <;> omega
    have hsn : ∀ u, (s.threads u).snapshot = false := fun u => by
      by_contra hsn
      have := (hs.thread_ok u).snapshot_blocks (by simpa using hsn) (by omega) d hmem
      simp [hrel u] at this
    have hidle : ∀ u, (s.threads u).pc = .idle := fun u => by
      cases hpc : (s.threads u).pc
      · rfl
      · exact absurd hpc (hni u)
      · exact absurd hpc (hnd u)
    rw [if_pos h0, hcl, List.set_cons_zero]
    exact { hs with
      closures_le := by simp
      extra_pending := fun h => by simp at h; omega
      pending_empty := fun _ _ => hh
      redecrement_extra := fun h => by simp at h
      dying_zero := fun _ => h0
      dead := fun _ _ => .inl (by simp)
      disposing_first := fun _ => hd0
      deleting_once := fun h => by simp at h
      disposed_deleting := fun h => absurd hd0 h
      deleted_done := fun h => absurd hd0 h
      stamp_lt := fun _ h => by simp at h
      deferring_unique := fun u _ hu => absurd hu (hnd u)
      thread_ok := fun u => .of_idle (hs.thread_ok u).guard_lt (hsn u) (hidle u) }
  · have hx : s.strong = s.handles + 1 := by
      rcases hs.count with h | h
      · have := hs.pending_empty (.inr ⟨_, hmem, trivial⟩) h
        omega
      · exact h
    rw [if_neg h0, hcl, List.set_cons_zero]
    refine { hs with
      closures_le := by simp
      extra_pending := fun _ => .inr ⟨.redecrement, by simp, trivial⟩
      pending_empty := fun _ h => by simp at h; omega
      redecrement_extra := fun _ => hx
      dying_zero := fun h => by simp [Dying, hd0] at h
      dead := fun hp => absurd (.inr ⟨.redecrement, by simp, trivial⟩) hp
      disposing_first := fun h => by simp at h
      deleting_once := fun h => by simp at h
      disposed_deleting := fun h => absurd hd0 h
      deleted_done := fun h => absurd hd0 h
      stamp_lt := fun _ h => by simp at h
      deferring_unique := fun u _ hu => absurd hu (hnd u)
      thread_ok := fun u => ?_ }
    have hu := hs.thread_ok u
    exact ⟨hu.guard_lt, hu.snapshot_guard, fun _ h => by simp [Dying, hd0] at h,
      fun h => absurd h (hnd u), fun _ _ _ h => by simp at h, fun h => absurd h (hni u)⟩

/-- A `try_zero` that read a positive count gives back the permission it was
handed: a fresh `decrement_strong`, which owes another `try_zero` when no
handle is left. -/
theorem Inv.redecrement (hs : Inv s) {i : Nat} (h : step s (.redecrement i) = some s') :
    Inv s' := by
  simp only [step] at h
  split at h
  case isFalse => cases h
  rename_i hc
  obtain rfl := Option.some.inj h
  obtain ⟨rfl, hcl⟩ := closures_eq_singleton hs.closures_le hc
  have hmem : Closure.redecrement ∈ s.closures := by simp [hcl]
  have hx := hs.redecrement_extra hmem
  have hd0 := hs.disposed_eq_zero hmem (by simp)
  have hnd := hs.not_deferring hmem
  have hni := hs.not_incrementing hcl (by simp) (by simp)
  have hthread : ∀ u, ThreadOk ⟨s.handles, s.handles, s.threads, [], s.clock, s.disposed,
      s.deleted⟩ (s.threads u) ∧ ThreadOk ⟨0, s.handles, s.threads, [.redeferring], s.clock,
      s.disposed, s.deleted⟩ (s.threads u) := fun u =>
    have hu := hs.thread_ok u
    ⟨⟨hu.guard_lt, hu.snapshot_guard, fun _ h => by simp [Dying, hd0] at h,
      fun h => absurd h (hnd u), fun _ _ _ h => by simp at h, fun h => absurd h (hni u)⟩,
     ⟨hu.guard_lt, hu.snapshot_guard, fun _ h => by simp [Dying, hd0] at h,
      fun h => absurd h (hnd u), fun _ _ _ h => by simp at h, fun h => absurd h (hni u)⟩⟩
  rw [decrementStrong_of_le hs.strong_lt (by omega), hcl]
  by_cases hh : s.handles = 0
  · have e : (s.strong - 1, s.strong == 1) = (0, true) := by simp [hx, hh]
    rw [e]
    simp only [↓reduceIte, List.set_cons_zero]
    exact { hs with
      closures_le := by simp
      count := .inl hh.symm
      strong_lt := by simp
      extra_pending := fun h => by simp at h
      pending_empty := fun _ _ => hh
      redecrement_extra := fun h => by simp at h
      dying_zero := fun _ => rfl
      dead := fun hp => absurd (.inr ⟨.redeferring, by simp, trivial⟩) hp
      disposing_first := fun h => by simp at h
      deleting_once := fun h => by simp at h
      disposed_deleting := fun h => absurd hd0 h
      deleted_done := fun h => absurd hd0 h
      stamp_lt := fun _ h => by simp at h
      deferring_unique := fun u _ hu => absurd hu (hnd u)
      thread_ok := fun u => (hthread u).2 }
  · have e : (s.strong - 1, s.strong == 1) = (s.handles, false) := by
      simp only [hx, Nat.add_sub_cancel, Prod.mk.injEq, true_and]
      simpa using hh
    rw [e]
    simp only [Bool.false_eq_true, ↓reduceIte, List.eraseIdx_cons_zero]
    exact { hs with
      closures_le := by simp
      count := .inl rfl
      strong_lt := by show s.handles < 2 ^ 32; have := hs.strong_lt; omega
      extra_pending := fun h => by simp at h
      pending_empty := fun hp _ => by
        rcases hp with ⟨u, hu⟩ | ⟨c, hc, -⟩
        · exact absurd hu (hnd u)
        · simp at hc
      redecrement_extra := fun h => by simp at h
      dying_zero := fun h => by simp [Dying, hd0] at h
      dead := fun _ h => absurd h hh
      disposing_first := fun h => by simp at h
      deleting_once := fun h => by simp at h
      disposed_deleting := fun h => absurd hd0 h
      deleted_done := fun h => absurd hd0 h
      stamp_lt := fun _ h => by simp at h
      deferring_unique := fun u _ hu => absurd hu (hnd u)
      thread_ok := fun u => (hthread u).1 }

/-- The fresh `try_zero` of a re-decrement is deferred with the current
stamp. -/
theorem Inv.redefer (hs : Inv s) {i : Nat} (h : step s (.redefer i) = some s') : Inv s' := by
  simp only [step] at h
  split at h
  case isFalse => cases h
  rename_i hc
  obtain rfl := Option.some.inj h
  obtain ⟨rfl, hcl⟩ := closures_eq_singleton hs.closures_le hc
  have hmem : Closure.redeferring ∈ s.closures := by simp [hcl]
  have hd0 := hs.disposed_eq_zero hmem (by simp)
  have hnd := hs.not_deferring hmem
  have hpend : s.Pending := .inr ⟨_, hmem, trivial⟩
  rw [hcl, List.set_cons_zero]
  refine { hs with
    closures_le := by simp
    extra_pending := fun _ => .inr ⟨.deferred s.clock, by simp, trivial⟩
    pending_empty := fun _ h => hs.pending_empty hpend h
    redecrement_extra := fun h => by simp at h
    dying_zero := fun h => by simp [Dying, hd0] at h
    dead := fun hp => absurd (.inr ⟨.deferred s.clock, by simp, trivial⟩) hp
    disposing_first := fun h => by simp at h
    deleting_once := fun h => by simp at h
    disposed_deleting := fun h => absurd hd0 h
    deleted_done := fun h => absurd hd0 h
    stamp_lt := fun d h => by
      simp at h
      subst h
      exact Nat.lt_succ_self _
    deferring_unique := fun u _ hu => absurd hu (hnd u)
    thread_ok := fun u => ?_ }
  have hu := hs.thread_ok u
  refine ⟨fun g hg => Nat.lt_succ_of_lt (hu.guard_lt g hg), hu.snapshot_guard,
    fun _ h => by simp [Dying, hd0] at h, fun h => absurd h (hnd u), fun hsn _ d hd => ?_,
    fun hi => ?_⟩
  · simp at hd
    subst hd
    exact hu.pinnedBefore_clock (hu.snapshot_guard hsn)
  · obtain ⟨h1, h2, -⟩ := hu.incrementing hi
    exact ⟨h1, h2, .inr (.inr ⟨s.clock, by simp, hu.pinnedBefore_clock h2⟩)⟩

/-- `dispose` runs once, on a block nobody can reach. -/
theorem Inv.dispose (hs : Inv s) {i : Nat} (h : step s (.dispose i) = some s') : Inv s' := by
  simp only [step] at h
  split at h
  case isFalse => cases h
  rename_i hc
  obtain rfl := Option.some.inj h
  obtain ⟨rfl, hcl⟩ := closures_eq_singleton hs.closures_le hc
  have hmem : Closure.disposing ∈ s.closures := by simp [hcl]
  have h0 := hs.dying_zero (.inl hmem)
  have hh : s.handles = 0 := by rcases hs.count with h | h <;> omega
  have hd0 := hs.disposing_first hmem
  have hq := hs.quiet_of_dying (.inl hmem)
  have hdel : s.deleted = 0 := by have := hs.deleted_le; omega
  rw [hcl, List.set_cons_zero]
  exact { hs with
    closures_le := by simp
    extra_pending := fun h => by simp at h; omega
    pending_empty := fun _ _ => hh
    redecrement_extra := fun h => by simp at h
    dying_zero := fun _ => h0
    dead := fun _ _ => .inr (.inl (by simp))
    disposed_le := by simp [hd0]
    deleted_le := by simp [hdel]
    disposing_first := fun h => by simp at h
    deleting_once := fun _ => ⟨by simp [hd0], hdel⟩
    disposed_deleting := fun _ c h => by simpa using h
    deleted_done := fun _ h => by simp at h
    stamp_lt := fun _ h => by simp at h
    deferring_unique := fun u _ hu => by simp [(hq u).2] at hu
    thread_ok := fun u => .of_idle (hs.thread_ok u).guard_lt (hq u).1 (hq u).2 }

/-- `delete_object` runs once, after `dispose`. -/
theorem Inv.deleteObject (hs : Inv s) {i : Nat} (h : step s (.deleteObject i) = some s') :
    Inv s' := by
  simp only [step] at h
  split at h
  case isFalse => cases h
  rename_i hc
  obtain rfl := Option.some.inj h
  obtain ⟨rfl, hcl⟩ := closures_eq_singleton hs.closures_le hc
  have hmem : Closure.deleting ∈ s.closures := by simp [hcl]
  have h0 := hs.dying_zero (.inr (.inl hmem))
  have hh : s.handles = 0 := by rcases hs.count with h | h <;> omega
  obtain ⟨hd1, hdel⟩ := hs.deleting_once hmem
  have hq := hs.quiet_of_dying (.inr (.inl hmem))
  rw [hcl, List.eraseIdx_cons_zero]
  exact { hs with
    closures_le := by simp
    extra_pending := fun h => by simp at h; omega
    pending_empty := fun _ _ => hh
    redecrement_extra := fun h => by simp at h
    dying_zero := fun _ => h0
    dead := fun _ _ => .inr (.inr (by simp [hd1]))
    deleted_le := by simp [hdel, hd1]
    disposing_first := fun h => by simp at h
    deleting_once := fun h => by simp at h
    disposed_deleting := fun _ c h => by simp at h
    deleted_done := fun _ _ => by simp [hdel]
    stamp_lt := fun _ h => by simp at h
    deferring_unique := fun u _ hu => by simp [(hq u).2] at hu
    thread_ok := fun u => .of_idle (hs.thread_ok u).guard_lt (hq u).1 (hq u).2 }

/-! ### Runs -/

/-- **One step.**  Every action keeps the invariant, as long as an increment
does not carry the count to `2 ^ 32`. -/
theorem Inv.next (hs : Inv s) {a : Action n} (h : step s a = some s')
    (hb : a.increments → s.strong + 1 < 2 ^ 32) : Inv s' := by
  cases a with
  | pin _ => exact hs.pin h
  | unpin _ => exact hs.unpin h
  | load _ => exact hs.load h
  | clone _ => exact hs.clone h (hb rfl)
  | counted _ => exact hs.counted h (hb rfl)
  | incrementAgain _ => exact hs.incrementAgain h (hb rfl)
  | drop _ => exact hs.drop h
  | defer _ => exact hs.defer h
  | tryZero _ => exact hs.tryZero h
  | redecrement _ => exact hs.redecrement h
  | redefer _ => exact hs.redefer h
  | dispose _ => exact hs.dispose h
  | deleteObject _ => exact hs.deleteObject h

/-- **Every run.**  The invariant holds in every reachable state. -/
theorem Reachable.inv (h : Reachable s) : Inv s := by
  induction h with
  | init => exact Inv.init
  | step _ hstep hb ih => exact ih.next hstep hb

end Circ.Protocol
