import Circ.Api.Count

/-!
# What one operation does to a weak count

The weak count of a block holds one unit for each `Weak` holding it and one
for all its strong handles together, which `try_zero` gives back after
`dispose`; the block's memory is freed when the count reaches zero.  Seen from
one block, every operation of `strong.rs` leaves that count alone, allocates
the block, adds a `Weak` with its unit (`Rc::downgrade`), drops a `Weak` with
its unit, disposes the block and gives back the strong handles' unit, or, for
`Rc::weak_many::<N>`, adds `N` units with no `Weak` to give them back
(`step_weakChanges`).  `WeakView.Ok.apply` shows that each of these keeps the
balance of the count against the units handed out, raised by the units
`weak_many` adds.

`Weak`, its drop and `increment_weak` are in modules the source does not
contain; they follow the spec (§3, §4.2, §4.6).
-/

namespace Circ.Api

open State

variable {s s' : State} {b c : Nat}

/-- The `Weak` handles holding block `b`. -/
def State.weakOwners (s : State) (b : Nat) : Nat := (s.weaks.map (Ptr.owns b)).sum

/-- `Rc::weak_many`, the one operation that adds to a weak count with no
`Weak` to give it back. -/
def Op.isWeakMany : Op → Bool
  | .weakMany _ _ => true
  | _ => false

/-! ### Frame lemmas -/

namespace State

variable {p : Ptr} {n : Nat}

/-! The `@[simps]` lemmas of `State` read a block; these read the whole table,
as it stands under a later update. -/

@[simp] theorem blocks_setIter (i : Nat) (it : Iter) : (s.setIter i it).blocks = s.blocks := rfl
@[simp] theorem blocks_dequeue : (s.dequeue c).blocks = s.blocks := rfl

@[simp] theorem weak_acquire : ((s.acquire p).blocks b).weak = (s.blocks b).weak := by
  cases p <;> simp [acquire]
@[simp] theorem disposed_acquire : ((s.acquire p).blocks b).disposed = (s.blocks b).disposed := by
  cases p <;> simp [acquire]
@[simp] theorem weaks_acquire : (s.acquire p).weaks = s.weaks := by cases p <;> rfl
@[simp] theorem weak_release : ((s.release p n).blocks b).weak = (s.blocks b).weak := by
  cases p <;> simp [release]
@[simp] theorem disposed_release : ((s.release p n).blocks b).disposed = (s.blocks b).disposed := by
  cases p <;> simp [release]
@[simp] theorem weaks_release : (s.release p n).weaks = s.weaks := by cases p <;> rfl
@[simp] theorem next_release : (s.release p n).next = s.next := by cases p <;> rfl

@[simp] theorem blocks_clear (o : Owner) : (s.clear o).blocks = s.blocks := by cases o <;> rfl
@[simp] theorem weaks_clear (o : Owner) : (s.clear o).weaks = s.weaks := by cases o <;> rfl
@[simp] theorem next_clear (o : Owner) : (s.clear o).next = s.next := by cases o <;> rfl

@[simp] theorem weakOwners_pushWeaks (ps : List Ptr) :
    (s.pushWeaks ps).weakOwners b = s.weakOwners b + (ps.map (Ptr.owns b)).sum := by
  simp [weakOwners]

@[simp] theorem weakOwners_incrementWeak : (s.incrementWeak c n).weakOwners = s.weakOwners := rfl
@[simp] theorem weakOwners_decrementWeak : (s.decrementWeak c).weakOwners = s.weakOwners := rfl
@[simp] theorem weakOwners_dispose : (s.dispose c).weakOwners = s.weakOwners := rfl
@[simp] theorem weakOwners_dequeue : (s.dequeue c).weakOwners = s.weakOwners := rfl

theorem weakOwners_setWeak {w : Nat} {q : Ptr} (h : s.weaks[w]? = some q) (p : Ptr) :
    (s.setWeak w p).weakOwners b = s.weakOwners b - q.owns b + p.owns b := by
  have := sum_map_set_add (f := Ptr.owns b) h p
  have := le_sum_map (f := Ptr.owns b) h
  simp only [weakOwners, setWeak_weaks] at *
  omega

end State

/-- A block with an owner or a pending `try_zero` has been allocated. -/
theorem Inv.lt_next (hs : Inv s) (h : 0 < s.owners c ∨ c ∈ s.closures) : c < s.next := by
  by_contra hc
  have := hs.fresh c (by omega)
  simp only [view, View.zero, View.mk.injEq] at this
  rcases h with h | h
  · omega
  · exact absurd this.2.1 (by simpa [List.count_eq_zero] using h)

/-! ### What one operation does to a weak count -/

/-- What the weak count of one block is about. -/
structure WeakView where
  weak : Nat
  disposed : Nat
  /-- The `Weak` handles holding the block. -/
  owners : Nat
  allocated : Bool

def State.weakView (s : State) (b : Nat) : WeakView :=
  ⟨(s.blocks b).weak, (s.blocks b).disposed, s.weakOwners b, decide (b < s.next)⟩

/-- The weak balance of a block with surplus `σ`: its weak count, with the
unit `dispose` gave back, is as a `u32` one per `Weak`, one for the strong
handles of an allocated block, and `σ`.  An unallocated block has nothing. -/
structure WeakView.Ok (σ : Nat) (v : WeakView) : Prop where
  weak_lt : v.weak < 2 ^ 32
  balance : (v.weak + v.disposed) % 2 ^ 32 =
    (v.owners + (if v.allocated then 1 else 0) + σ) % 2 ^ 32
  fresh : v.allocated = false → v.weak = 0 ∧ v.disposed = 0 ∧ v.owners = 0

/-- What an operation does to the weak count of one block. -/
inductive WeakEffect
  | skip
  /-- The block is allocated with a weak count of one. -/
  | alloc
  /-- `Rc::downgrade`: `increment_weak(1)` and a new `Weak`. -/
  | downgrade
  /-- A `Weak` is dropped: `decrement_weak(1)`. -/
  | drop
  /-- `try_zero` disposes the block, then gives back the strong handles' unit. -/
  | dispose
  /-- `Rc::weak_many::<N>`: `increment_weak(N as u32)`, and no `Weak`. -/
  | weakMany (n : Nat)

namespace WeakEffect

def apply : WeakEffect → WeakView → WeakView
  | .skip, v => v
  | .alloc, v => { v with weak := 1, disposed := 0, allocated := true }
  | .downgrade, v => { v with weak := wrapAdd v.weak 1, owners := v.owners + 1 }
  | .drop, v => { v with weak := wrapSub v.weak 1, owners := v.owners - 1 }
  | .dispose, v => { v with weak := wrapSub v.weak 1, disposed := v.disposed + 1 }
  | .weakMany n, v => { v with weak := wrapAdd v.weak (n % 2 ^ 32) }

/-- What the operation knows of the block when it acts: a block is allocated
once, and a `Weak` is dropped only while it holds the block. -/
def Allowed : WeakEffect → WeakView → Prop
  | .skip, _ => True
  | .alloc, v => v.allocated = false
  | .drop, v => 0 < v.owners
  | .downgrade, v | .dispose, v | .weakMany _, v => v.allocated = true

/-- The units an effect adds with no handle to give them back. -/
def surplus : WeakEffect → Nat
  | .weakMany n => n % 2 ^ 32
  | _ => 0

end WeakEffect

/-- **Every weak effect keeps the balance**, raised by the units it adds with
no handle to give them back. -/
theorem WeakView.Ok.apply {σ : Nat} {v : WeakView} {e : WeakEffect} (h : v.Ok σ)
    (ha : e.Allowed v) : (e.apply v).Ok (σ + e.surplus) := by
  have hb := h.balance
  have hw := h.weak_lt
  cases e with
  | skip => exact h
  | alloc =>
    obtain ⟨hw0, hd0, ho0⟩ := h.fresh ha
    simp only [WeakEffect.Allowed] at ha
    simp only [hw0, hd0, ho0, ha, Bool.false_eq_true, if_false] at hb
    exact ⟨by simp [WeakEffect.apply], by simp [WeakEffect.apply, ho0, WeakEffect.surplus]; omega,
      nofun⟩
  | downgrade =>
    simp only [WeakEffect.Allowed] at ha
    refine ⟨Nat.mod_lt _ (by decide), ?_,
      fun h' => absurd ha (by simpa [WeakEffect.apply] using h')⟩
    simp only [WeakEffect.apply, wrapAdd, WeakEffect.surplus, ha] at hb ⊢
    omega
  | drop =>
    have ho : 0 < v.owners := ha
    have hal : v.allocated = true := by
      by_contra hal
      exact absurd (h.fresh (by simpa using hal)).2.2 (by omega)
    refine ⟨Nat.mod_lt _ (by decide), ?_,
      fun h' => absurd hal (by simpa [WeakEffect.apply] using h')⟩
    simp only [WeakEffect.apply, wrapSub, WeakEffect.surplus, hal] at hb ⊢
    omega
  | dispose =>
    simp only [WeakEffect.Allowed] at ha
    refine ⟨Nat.mod_lt _ (by decide), ?_,
      fun h' => absurd ha (by simpa [WeakEffect.apply] using h')⟩
    simp only [WeakEffect.apply, wrapSub, WeakEffect.surplus, ha] at hb ⊢
    omega
  | weakMany n =>
    simp only [WeakEffect.Allowed] at ha
    refine ⟨Nat.mod_lt _ (by decide), ?_,
      fun h' => absurd ha (by simpa [WeakEffect.apply] using h')⟩
    simp only [WeakEffect.apply, wrapAdd, WeakEffect.surplus, ha] at hb ⊢
    omega

/-- `s'` is `s` after weak effect `e` on block `c`, every other block's weak
count as it was. -/
structure WeakChanges (s s' : State) (c : Nat) (e : WeakEffect) : Prop where
  allowed : e.Allowed (s.weakView c)
  self : s'.weakView c = e.apply (s.weakView c)
  others : ∀ b, b ≠ c → s'.weakView b = s.weakView b

/-- The weak balance of every block, block `b` with surplus `σ b`. -/
def WeakBalanced (σ : Nat → Nat) (s : State) : Prop := ∀ b, (s.weakView b).Ok (σ b)

theorem WeakChanges.balanced {σ : Nat → Nat} {e : WeakEffect} (hc : WeakChanges s s' c e)
    (h : WeakBalanced σ s) : WeakBalanced (Function.update σ c (σ c + e.surplus)) s' := by
  intro b
  by_cases hb : b = c
  · subst hb
    rw [hc.self, Function.update_same]
    exact (h b).apply hc.allowed
  · rw [hc.others b hb, Function.update_noteq hb]
    exact h b

/-! ### The shapes of an operation -/

/-- No weak count, `dispose` count, `Weak` or allocation changes. -/
theorem weakChanges_skip (hb : ∀ b, (s'.blocks b).weak = (s.blocks b).weak ∧
      (s'.blocks b).disposed = (s.blocks b).disposed)
    (ho : ∀ b, s'.weakOwners b = s.weakOwners b) (hn : s'.next = s.next) :
    WeakChanges s s' 0 .skip :=
  ⟨trivial, by simp [weakView, hb, ho, hn, WeakEffect.apply],
    fun b _ => by simp [weakView, hb, ho, hn]⟩

/-- Block `next` is allocated. -/
theorem weakChanges_alloc {n : Nat} (hb : ∀ b, s'.blocks b = (s.alloc n).blocks b)
    (ho : ∀ b, s'.weakOwners b = s.weakOwners b) (hn : s'.next = s.next + 1) :
    WeakChanges s s' s.next .alloc := by
  refine ⟨by simp [weakView, WeakEffect.Allowed], ?_, fun b hbc => ?_⟩
  · simp [weakView, WeakEffect.apply, hb, ho, hn, Block.alloc]
  · simp only [weakView, hb, ho, hn, alloc_blocks, Function.update_noteq hbc, WeakView.mk.injEq,
      true_and, decide_eq_decide]
    omega

/-- `Rc::downgrade` of an `Rc` holding block `c`. -/
theorem weakChanges_downgrade (hc : c < s.next) :
    WeakChanges s ((s.incrementWeak c 1).pushWeaks [some c]) c .downgrade := by
  refine ⟨by simpa [weakView, WeakEffect.Allowed] using hc, ?_, fun b hbc => ?_⟩
  · simp [weakView, WeakEffect.apply, Ptr.owns]
  · simp [weakView, hbc, Function.update_noteq hbc, Ptr.owns, Ne.symm hbc]

/-- `Rc::weak_many::<N>` on an `Rc` holding block `c`: its `N` handles are null. -/
theorem weakChanges_weakMany (hc : c < s.next) (n : Nat) :
    WeakChanges s ((s.incrementWeak c (n % 2 ^ 32)).pushWeaks (List.replicate n none)) c
      (.weakMany n) := by
  refine ⟨by simpa [weakView, WeakEffect.Allowed] using hc, ?_, fun b hbc => ?_⟩
  · simp [weakView, WeakEffect.apply, List.map_replicate]
  · simp [weakView, Function.update_noteq hbc, List.map_replicate]

/-- The drop of the `Weak` in variable `w`, holding block `c`. -/
theorem weakChanges_drop {w : Nat} (hw : s.weaks[w]? = some (some c)) :
    WeakChanges s ((s.setWeak w none).decrementWeak c) c .drop := by
  have hle := le_sum_map (f := Ptr.owns c) hw
  refine ⟨by simpa [weakView, WeakEffect.Allowed, weakOwners, Ptr.owns] using hle, ?_,
    fun b hbc => ?_⟩
  · simp [weakView, WeakEffect.apply, weakOwners_setWeak hw, Ptr.owns]
  · simp [weakView, Function.update_noteq hbc, weakOwners_setWeak hw, Ptr.owns, Ne.symm hbc]

/-- The `try_zero` of block `c` reads zero: `dispose`, then `decrement_weak(1)`. -/
theorem weakChanges_dispose (hc : c < s.next) :
    WeakChanges s (((s.dequeue c).dispose c).decrementWeak c) c .dispose := by
  refine ⟨by simpa [weakView, WeakEffect.Allowed] using hc, ?_, fun b hbc => ?_⟩
  · simp [weakView, WeakEffect.apply, weakOwners]
  · simp [weakView, Function.update_noteq hbc, weakOwners]

/-- **What one operation does to weak counts.**  Every operation acts on at
most one block's weak count, by one weak effect; only `weak_many` adds units
with no handle to give them back. -/
theorem step_weakChanges {op : Op} (hs : Inv s) (h : step s op = some s') :
    ∃ c e, WeakChanges s s' c e ∧ (op.isWeakMany = false → e.surplus = 0) ∧
      (e = .downgrade → 0 < s.owners c) := by
  have skip := fun {X : State} (hb : ∀ b, (X.blocks b).weak = (s.blocks b).weak ∧
      (X.blocks b).disposed = (s.blocks b).disposed) (ho : ∀ b, X.weakOwners b = s.weakOwners b)
      (hn : X.next = s.next) =>
    (⟨0, .skip, weakChanges_skip hb ho hn, fun _ => rfl, nofun⟩ :
      ∃ c e, WeakChanges s X c e ∧ (op.isWeakMany = false → e.surplus = 0) ∧
        (e = .downgrade → 0 < s.owners c))
  cases op with
  | rcNull | atomicNull =>
    obtain rfl := Option.some.inj h
    exact skip (by simp) (by simp [weakOwners]) rfl
  | rcNew | atomicNew =>
    obtain rfl := Option.some.inj h
    exact ⟨_, _, weakChanges_alloc (n := 1) (by simp) (by simp [weakOwners]) rfl, fun _ => rfl,
      nofun⟩
  | newMany n | newManyIter n =>
    obtain rfl := Option.some.inj h
    exact ⟨_, _, weakChanges_alloc (n := n) (by simp) (by simp [weakOwners]) rfl, fun _ => rfl,
      nofun⟩
  | iterNext i | iterDrop i =>
    simp only [step, Option.map_eq_some'] at h
    obtain ⟨it, -, rfl⟩ := h
    split_ifs <;> exact skip (by simp) (by simp [weakOwners]) rfl
  | rcClone i | rcDrop i | take i | rcSnapshot i | atomicFromRc i | atomicFromRcRef i | load i
    | atomicDrop i | edgeTake i =>
    simp only [step, Option.map_eq_some'] at h
    obtain ⟨p, -, rfl⟩ := h
    exact skip (by simp) (by simp [weakOwners]) (by simp)
  | counted k =>
    simp only [step, Option.bind_eq_some] at h
    obtain ⟨p, -, h⟩ := h
    split_ifs at h
    obtain rfl := Option.some.inj h
    exact skip (by simp) (by simp [weakOwners]) (by simp)
  | store j i | swap j i =>
    simp only [step, Option.bind_eq_some, Option.map_eq_some'] at h
    obtain ⟨q, -, p, -, rfl⟩ := h
    exact skip (by simp) (by simp [weakOwners]) (by simp)
  | compareExchange j k i success =>
    simp only [step, Option.bind_eq_some] at h
    obtain ⟨q, -, e, -, p, -, h⟩ := h
    split_ifs at h <;> obtain rfl := Option.some.inj h <;>
      exact skip (by simp) (by simp [weakOwners]) rfl
  | compareExchangeTag j k success =>
    simp only [step, Option.bind_eq_some] at h
    obtain ⟨q, -, e, -, h⟩ := h
    split_ifs at h <;> obtain rfl := Option.some.inj h <;>
      exact skip (by simp) (by simp [weakOwners]) rfl
  | downgrade i =>
    simp only [step, Option.map_eq_some'] at h
    obtain ⟨p, hp, rfl⟩ := h
    cases p with
    | none => exact skip (by simp [acquireWeak]) (by simp [acquireWeak, Ptr.owns]) rfl
    | some c =>
      have hown : 0 < s.owners c := by simpa [Ptr.owns] using owns_le_of_rc (b := c) hp
      exact ⟨_, _, weakChanges_downgrade (hs.lt_next (.inl hown)), fun _ => rfl, fun _ => hown⟩
  | weakMany i n =>
    simp only [step, Option.map_eq_some'] at h
    obtain ⟨p, hp, rfl⟩ := h
    cases p with
    | none => exact skip (by simp [acquireWeak]) (by simp [acquireWeak, List.map_replicate]) rfl
    | some c =>
      have hc := hs.lt_next (.inl (by simpa [Ptr.owns] using owns_le_of_rc (b := c) hp))
      exact ⟨_, _, weakChanges_weakMany hc n, nofun, nofun⟩
  | weakDrop w =>
    simp only [step, Option.map_eq_some'] at h
    obtain ⟨p, hp, rfl⟩ := h
    cases p with
    | none => exact skip (by simp [releaseWeak]) (by simp [releaseWeak, weakOwners_setWeak hp]) rfl
    | some c => exact ⟨_, _, weakChanges_drop hp, fun _ => rfl, nofun⟩
  | tryZero c =>
    simp only [step] at h
    split_ifs at h with hc
    obtain rfl := Option.some.inj h
    unfold State.tryZero
    split_ifs
    · exact ⟨_, _, weakChanges_dispose (hs.lt_next (.inr hc)), fun _ => rfl, nofun⟩
    · exact skip (by simp) (by simp [weakOwners]) rfl

end Circ.Api
