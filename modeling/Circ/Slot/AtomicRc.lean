import Circ.Tagged

/-!
# The pointer word of an `AtomicRc`

An `AtomicRc<T>` of `strong.rs` is one atomic word, `link`.  Its methods are
modelled at the level of that word, one atomic action of the hardware per
step, for any number of threads: `load`, `store`, `swap`, `take`, and the
retry loops of `compare_exchange`, `compare_exchange_weak` and
`compare_exchange_tag`.  Each thread keeps the local variables of its loop
(`expected_raw`, `desired_raw`) between steps, and the other threads, or a
change of the global epoch, may act between any two of them.

Reference counts play no part here; `store` decrements the count of the word it
replaced, which the strong-count models account for.

A loop retries when the word it read differs from `expected_raw` in the epoch
tag alone, and then carries on with the word it read; so its next attempt
succeeds unless another thread has changed the word in the meantime
(`compareExchange_retry_succeeds`).
-/

namespace Circ.Slot

variable {k : Nat}

/-- `Tagged::with_timestamp` of `strong.rs`: a non-null pointer gets the
current epoch as its high tag. -/
def withTimestamp (p : Raw k) (epoch : Nat) : Raw k :=
  if p.isNull then p else p.withHighTag epoch

/-- Stamping never changes the address or the user tag. -/
@[simp] theorem low_withTimestamp (p : Raw k) (epoch : Nat) :
    (withTimestamp p epoch).low = p.low := by
  unfold withTimestamp
  split_ifs <;> simp

/-- A method call on an `AtomicRc`, as a client issues it. -/
inductive Request (k : Nat)
  | load
  | store (ptr : Raw k)
  | swap (new : Raw k)
  | take
  | compareExchange (weak : Bool) (expected desired : Raw k)
  | compareExchangeTag (expected : Raw k) (desiredTag : Word)
  deriving DecidableEq, Repr

/-- A method between its invocation and its last atomic action, with the
values it has computed. -/
inductive Call (k : Nat)
  /-- `link.load`. -/
  | load
  /-- `link.swap(new_ptr.with_timestamp())` of `store`. -/
  | store (newRaw : Raw k)
  /-- `link.swap(new_ptr.with_timestamp())` of `swap`. -/
  | swap (newRaw : Raw k)
  /-- `take(self.link.get_mut())` under exclusive access. -/
  | take
  /-- The loop of `compare_exchange` (or `_weak`) with its `expected_raw`. -/
  | compareExchange (weak : Bool) (expected desired expectedRaw desiredRaw : Raw k)
  /-- The loop of `compare_exchange_tag` with its `expected_raw`. -/
  | compareExchangeTag (expected : Raw k) (desiredTag : Word) (expectedRaw desiredRaw : Raw k)
  deriving DecidableEq, Repr

/-- What a method returns. -/
inductive Ret (k : Nat)
  /-- The `Snapshot` returned by `load`. -/
  | snapshot (p : Raw k)
  /-- `store` returns nothing. -/
  | unit
  /-- The previous `Rc` returned by `swap` and `take`. -/
  | rc (p : Raw k)
  /-- `Ok(rc)` of `compare_exchange`. -/
  | ok (p : Raw k)
  /-- `Err(CompareExchangeError { desired, current })`. -/
  | err (desired current : Raw k)
  /-- `Ok(snapshot)` of `compare_exchange_tag`. -/
  | tagOk (p : Raw k)
  /-- `Err(CompareExchangeError { desired, current })` of `compare_exchange_tag`. -/
  | tagErr (desired current : Raw k)
  deriving DecidableEq, Repr

/-- A thread, as far as the slot is concerned. -/
inductive Thread (k : Nat)
  | idle
  | busy (c : Call k)
  | done (r : Ret k)
  deriving DecidableEq, Repr

/-- The local work a method does before its first atomic action on `link`:
the stamped words are computed with the epoch read at that moment. -/
def Request.start (epoch : Nat) : Request k → Call k
  | .load => .load
  | .store ptr => .store (withTimestamp ptr epoch)
  | .swap new => .swap (withTimestamp new epoch)
  | .take => .take
  | .compareExchange weak expected desired =>
    .compareExchange weak expected desired expected (withTimestamp desired epoch)
  | .compareExchangeTag expected desiredTag =>
    .compareExchangeTag expected desiredTag expected
      (withTimestamp (expected.withTag desiredTag) epoch)

/-- One atomic action of a method on a slot holding `link`: the new value of
`link` and the thread's next state.  A weak `compare_exchange` may fail even
on equal words when `spurious` is set. -/
def Call.exec (link : Raw k) (spurious : Bool) : Call k → Raw k × Thread k
  | .load => (link, .done (.snapshot link))
  | .store newRaw => (newRaw, .done .unit)
  | .swap newRaw => (newRaw, .done (.rc link))
  | .take => (Raw.null, .done (.rc link))
  | .compareExchange weak expected desired expectedRaw desiredRaw =>
    if link = expectedRaw ∧ ¬ (weak ∧ spurious) then (desiredRaw, .done (.ok expectedRaw))
    else if link.ptrEq expectedRaw then
      (link, .busy (.compareExchange weak expected desired link desiredRaw))
    else (link, .done (.err desired link))
  | .compareExchangeTag expected desiredTag expectedRaw desiredRaw =>
    if link = expectedRaw then (desiredRaw, .done (.tagOk link))
    else if link.ptrEq expectedRaw then
      (link, .busy (.compareExchangeTag expected desiredTag link desiredRaw))
    else (link, .done (.tagErr desiredRaw link))

/-- One slot, the global epoch and `n` threads. -/
structure State (k n : Nat) where
  link : Raw k
  epoch : Nat
  threads : Fin n → Thread k

/-- A step of the system. -/
inductive Action (k n : Nat)
  /-- Thread `t` calls a method. -/
  | invoke (t : Fin n) (req : Request k)
  /-- Thread `t` performs the next atomic action of its method. -/
  | exec (t : Fin n) (spurious : Bool)
  /-- Thread `t` takes the result of its finished method. -/
  | reset (t : Fin n)
  /-- The global epoch takes any value. -/
  | advance (e : Nat)

/-- One step; `none` when the action is not enabled. -/
def step {n : Nat} (s : State k n) : Action k n → Option (State k n)
  | .invoke t req =>
    match s.threads t with
    | .idle => some { s with threads := Function.update s.threads t (.busy (req.start s.epoch)) }
    | _ => none
  | .exec t spurious =>
    match s.threads t with
    | .busy c =>
      let r := c.exec s.link spurious
      some { s with link := r.1, threads := Function.update s.threads t r.2 }
    | _ => none
  | .reset t =>
    match s.threads t with
    | .done _ => some { s with threads := Function.update s.threads t .idle }
    | _ => none
  | .advance e => some { s with epoch := e }

/-- States reached from a slot holding `link0` with every thread idle. -/
inductive Reachable {n : Nat} (link0 : Raw k) (epoch0 : Nat) : State k n → Prop
  | init : Reachable link0 epoch0 ⟨link0, epoch0, fun _ => .idle⟩
  | step {s s' : State k n} {a : Action k n} :
      Reachable link0 epoch0 s → step s a = some s' → Reachable link0 epoch0 s'

/-! ### Progress of the retry loops -/

/-- A retry rereads the word: the loop goes on with the word it read as its
`expected_raw`, so its next attempt on that word, when not spurious, succeeds. -/
theorem Call.exec_after_retry {c c' : Call k} {link link' : Raw k} {spurious : Bool}
    (h : c.exec link spurious = (link', .busy c')) :
    link' = link ∧ ∃ w r, c'.exec link false = (w, .done r) ∧
      ((∃ p, r = .ok p) ∨ ∃ p, r = .tagOk p) := by
  cases c with
  | compareExchange weak expected desired expectedRaw desiredRaw =>
    simp only [exec] at h
    split_ifs at h
    · simp at h
    · simp only [Prod.mk.injEq, Thread.busy.injEq] at h
      obtain ⟨rfl, rfl⟩ := h
      exact ⟨rfl, desiredRaw, .ok link, by simp [exec], .inl ⟨_, rfl⟩⟩
    · simp at h
  | compareExchangeTag expected desiredTag expectedRaw desiredRaw =>
    simp only [exec] at h
    split_ifs at h
    · simp at h
    · simp only [Prod.mk.injEq, Thread.busy.injEq] at h
      obtain ⟨rfl, rfl⟩ := h
      exact ⟨rfl, desiredRaw, .tagOk link, by simp [exec], .inr ⟨_, rfl⟩⟩
    · simp at h
  | _ => simp [exec] at h

/-- **The compare-and-exchange loops are obstruction-free.**  Once a
`compare_exchange`, `compare_exchange_weak` or `compare_exchange_tag` has
retried, its next attempt succeeds if the word is the one it read, whatever
the other threads did in between: only a change of the word by another
thread, or a spurious failure, makes it retry again. -/
theorem compareExchange_retry_succeeds {n : Nat} {s s1 s2 : State k n} {t : Fin n}
    {spurious : Bool} {c : Call k} (h1 : step s (.exec t spurious) = some s1)
    (hc : s1.threads t = .busy c) (h2 : s2.threads t = .busy c) (hl : s2.link = s1.link) :
    ∃ s3 r, step s2 (.exec t false) = some s3 ∧ s3.threads t = .done r ∧
      ((∃ p, r = .ok p) ∨ ∃ p, r = .tagOk p) := by
  simp only [step] at h1
  split at h1
  case h_2 => cases h1
  rename_i c0 _
  obtain rfl := Option.some.inj h1
  have hexec : c0.exec s.link spurious = ((c0.exec s.link spurious).1, .busy c) :=
    Prod.ext rfl (by simpa using hc)
  obtain ⟨hlink, w, r, hr, hok⟩ := Call.exec_after_retry hexec
  have hl' : s2.link = s.link := hl.trans hlink
  exact ⟨{ s2 with link := w, threads := Function.update s2.threads t (.done r) }, r,
    by simp [step, h2, hl', hr], by simp, hok⟩

/-- An 8-byte aligned word with epoch tag one, and a `compare_exchange` that
expects it with epoch tag zero: the first attempt retries, the second
succeeds. -/
theorem compareExchange_retry_succeeds_epoch :
    ∃ s1 c, step (⟨⟨BitVec.ofNat 64 (2 ^ 48 + 8)⟩, 1,
        fun _ => .busy (.compareExchange false ⟨8#64⟩ ⟨16#64⟩ ⟨8#64⟩ ⟨16#64⟩)⟩ :
          State 3 1) (.exec 0 false) = some s1 ∧ s1.threads 0 = .busy c ∧
      ∃ s3 r, step s1 (.exec 0 false) = some s3 ∧ s3.threads 0 = .done r ∧
        ((∃ p, r = .ok p) ∨ ∃ p, r = .tagOk p) := by
  have h1 : step (⟨⟨BitVec.ofNat 64 (2 ^ 48 + 8)⟩, 1,
      fun _ => .busy (.compareExchange false ⟨8#64⟩ ⟨16#64⟩ ⟨8#64⟩ ⟨16#64⟩)⟩ :
        State 3 1) (.exec 0 false) = some _ := rfl
  exact ⟨_, _, h1, rfl, compareExchange_retry_succeeds h1 rfl rfl rfl⟩

end Circ.Slot
