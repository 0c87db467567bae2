import Circ.Slot.AtomicRc
import Circ.Slot.Cell

/-!
# An `AtomicRc` slot refines an atomic cell

The abstraction forgets the epoch tag of every word (`Raw.low`), keeps the
arguments of a method in progress and drops the loop variables.  Under it,
every atomic action of a thread is either the linearization step of the
cell operation that thread is running or changes nothing visible: a retry of a
compare-and-exchange loop writes nothing, and only replaces `expected_raw` by a
word equal to it up to the epoch tag.  The loop variables are kept in line with
the arguments by `State.WellFormed`.
-/

namespace Circ.Slot

variable {k n : Nat}

/-- A result with its words seen up to the epoch tag; the handle handed back
by a failed `compare_exchange` is kept as it is. -/
def Ret.abs : Ret k → Cell.Ret k
  | .snapshot p => .snapshot p.low
  | .unit => .unit
  | .rc p => .rc p.low
  | .ok p => .ok p.low
  | .err desired current => .err desired current.low
  | .tagOk p => .tagOk p.low
  | .tagErr desired current => .tagErr desired.low current.low

/-- The cell operation a method call performs. -/
def Call.abs : Call k → Cell.Op k
  | .load => .load
  | .store newRaw => .store newRaw.low
  | .swap newRaw => .swap newRaw.low
  | .take => .swap (Raw.null : Raw k).low
  | .compareExchange _ expected desired _ _ => .compareExchange expected.low desired.low desired
  | .compareExchangeTag expected desiredTag _ _ =>
    .compareExchangeTag expected.low (withTag k expected.low desiredTag)

/-- The cell operation a client asks for. -/
def Request.abs : Request k → Cell.Op k
  | .load => .load
  | .store ptr => .store ptr.low
  | .swap new => .swap new.low
  | .take => .swap (Raw.null : Raw k).low
  | .compareExchange _ expected desired => .compareExchange expected.low desired.low desired
  | .compareExchangeTag expected desiredTag =>
    .compareExchangeTag expected.low (withTag k expected.low desiredTag)

/-- Stamping the new words with the epoch changes nothing the cell sees. -/
@[simp] theorem Request.abs_start (req : Request k) (epoch : Nat) :
    (req.start epoch).abs = req.abs := by
  cases req <;> simp [Request.start, Call.abs, Request.abs]

def Thread.abs : Thread k → Cell.Thread k
  | .idle => .idle
  | .busy c => .pending c.abs
  | .done r => .done r.abs

/-- The cell a slot stands for. -/
def State.abs (s : State k n) : Cell.State k n := ⟨s.link.low, Thread.abs ∘ s.threads⟩

/-- The loop variables of a compare-and-exchange agree with its arguments up to
the epoch tag. -/
def Call.WellFormed : Call k → Prop
  | .compareExchange _ expected desired expectedRaw desiredRaw =>
    expectedRaw.low = expected.low ∧ desiredRaw.low = desired.low
  | .compareExchangeTag expected desiredTag expectedRaw desiredRaw =>
    expectedRaw.low = expected.low ∧ desiredRaw.low = withTag k expected.low desiredTag
  | _ => True

def State.WellFormed (s : State k n) : Prop := ∀ t c, s.threads t = .busy c → c.WellFormed

/-- A method starts with its loop variables in line, when the user tag lies
below the epoch tag. -/
theorem start_wellFormed (hk : k ≤ highTagShift) (req : Request k) (epoch : Nat) :
    (req.start epoch).WellFormed := by
  cases req <;> simp [Request.start, Call.WellFormed, Raw.low_withTag hk]

/-- A compare-and-exchange attempt that the cell does not see: the word read
equals `expected_raw` up to the epoch tag, and differs from it in the epoch
tag, or a weak attempt failed spuriously on it.  Only these loops retry;
`load`, `store`, `swap` and `take` finish in their one atomic action. -/
def Call.Retry (link : Raw k) (spurious : Bool) : Call k → Prop
  | .compareExchange weak _ _ expectedRaw _ =>
    link.low = expectedRaw.low ∧ (link ≠ expectedRaw ∨ weak ∧ spurious)
  | .compareExchangeTag _ _ expectedRaw _ => link.low = expectedRaw.low ∧ link ≠ expectedRaw
  | _ => False

/-- **One atomic action of a method.**  It is a retry of a compare-and-exchange
loop, which writes nothing and keeps the method and its abstraction, or it is
the method's linearization: the slot, seen up to the epoch tag, and the result
are those of the atomic cell operation. -/
theorem Call.exec_refines {c : Call k} (hw : c.WellFormed) (link : Raw k) (spurious : Bool) :
    (∃ c', c.exec link spurious = (link, .busy c') ∧ c'.abs = c.abs ∧ c'.WellFormed ∧
      c.Retry link spurious) ∨
    ∃ r, (c.exec link spurious).2 = .done r ∧
      (c.exec link spurious).1.low = (c.abs.apply link.low).1 ∧
      r.abs = (c.abs.apply link.low).2 := by
  cases c with
  | compareExchange weak expected desired expectedRaw desiredRaw =>
    obtain ⟨he, hd⟩ := hw
    simp only [exec, abs, Cell.Op.apply]
    by_cases h₁ : link = expectedRaw ∧ ¬ (weak = true ∧ spurious = true)
    · rw [if_pos h₁]
      obtain ⟨rfl, -⟩ := h₁
      simp [he, hd, Ret.abs]
    · rw [if_neg h₁]
      by_cases h₂ : link.ptrEq expectedRaw = true
      · rw [if_pos h₂]
        exact .inl ⟨_, rfl, rfl, ⟨by simpa [he] using h₂, hd⟩,
          (Raw.ptrEq_iff _ _).1 h₂, (not_and_or.1 h₁).imp_right not_not.1⟩
      · have hne : link.low ≠ expected.low := by simpa [he] using h₂
        rw [if_neg h₂]
        simp [hne, Ret.abs]
  | compareExchangeTag expected desiredTag expectedRaw desiredRaw =>
    obtain ⟨he, hd⟩ := hw
    simp only [exec, abs, Cell.Op.apply]
    by_cases h₁ : link = expectedRaw
    · subst h₁
      simp [he, hd, Ret.abs]
    · rw [if_neg h₁]
      by_cases h₂ : link.ptrEq expectedRaw = true
      · rw [if_pos h₂]
        exact .inl ⟨_, rfl, rfl, ⟨by simpa [he] using h₂, hd⟩, (Raw.ptrEq_iff _ _).1 h₂, h₁⟩
      · have hne : link.low ≠ expected.low := by simpa [he] using h₂
        rw [if_neg h₂]
        simp [hne, hd, Ret.abs]
  | _ => simp [exec, abs, Cell.Op.apply, Ret.abs]

theorem State.WellFormed.init (link0 : Raw k) (epoch0 : Nat) :
    (⟨link0, epoch0, fun _ => .idle⟩ : State k n).WellFormed := fun _ _ h => by cases h

/-- Replacing one thread by a well-formed one keeps the loop variables in line. -/
theorem State.WellFormed.update {s : State k n} (hw : s.WellFormed) {t : Fin n} {th : Thread k}
    (hth : ∀ c, th = .busy c → c.WellFormed) (link : Raw k) (epoch : Nat) :
    (⟨link, epoch, Function.update s.threads t th⟩ : State k n).WellFormed := fun u c hu => by
  by_cases hut : u = t
  · subst hut
    exact hth c (by simpa using hu)
  · exact hw u c (by simpa [Function.update_noteq hut] using hu)

/-- The abstraction commutes with replacing one thread. -/
theorem State.abs_update (s : State k n) (link : Raw k) (epoch : Nat) (t : Fin n) (th : Thread k) :
    (⟨link, epoch, Function.update s.threads t th⟩ : State k n).abs =
      ⟨link.low, Function.update (Thread.abs ∘ s.threads) t th.abs⟩ := by
  simp [State.abs, Function.comp_update]

/-- A call is the cell's invocation of the operation asked for. -/
theorem invoke_refines {s s' : State k n} {t : Fin n} {req : Request k} (hk : k ≤ highTagShift)
    (hw : s.WellFormed) (h : step s (.invoke t req) = some s') :
    Cell.step s.abs (.invoke t req.abs) = some s'.abs ∧ s'.WellFormed := by
  simp only [step] at h
  split at h
  case h_2 => cases h
  rename_i hidle
  obtain rfl := Option.some.inj h
  refine ⟨?_, hw.update (fun c h => ?_) _ _⟩
  · simp [Cell.step, State.abs, hidle, Thread.abs, Function.comp_update]
  · cases h
    exact start_wellFormed hk req s.epoch

/-- An atomic action of thread `t` is the linearization of its method, or a
retry of a compare-and-exchange loop that writes nothing and that the cell does
not see, `t` still running its method. -/
theorem exec_linearizes {s s' : State k n} {t : Fin n} {spurious : Bool} (hw : s.WellFormed)
    (h : step s (.exec t spurious) = some s') :
    (s'.abs = s.abs ∧ s'.WellFormed ∧ s'.link = s.link ∧
      ∃ c c', s.threads t = .busy c ∧ s'.threads t = .busy c' ∧ c.Retry s.link spurious) ∨
    (Cell.step s.abs (.linearize t) = some s'.abs ∧ s'.WellFormed) := by
  simp only [step] at h
  split at h
  case h_2 => cases h
  rename_i c hc
  obtain rfl := Option.some.inj h
  rcases Call.exec_refines (hw t c hc) s.link spurious with
    ⟨c', he, hca, hcw, hretry⟩ | ⟨r, hr, hl, hra⟩
  · refine .inl ⟨?_, by simpa [he] using hw.update (fun _ h => by cases h; exact hcw) _ _,
      by simp [he], c, c', hc, by simp [he], hretry⟩
    simp only [he, State.abs_update]
    simp [State.abs, Thread.abs, hca, hc]
  · refine .inr ⟨?_, by simpa [hr] using hw.update (fun _ h => by cases h) _ _⟩
    simp only [Cell.step, State.abs, Function.comp_apply, hc, Thread.abs, hr]
    simp [← hl, hra, Function.comp_update, Thread.abs]

/-- Taking a result is the cell's return. -/
theorem reset_refines {s s' : State k n} {t : Fin n} (hw : s.WellFormed)
    (h : step s (.reset t) = some s') :
    Cell.step s.abs (.reset t) = some s'.abs ∧ s'.WellFormed := by
  simp only [step] at h
  split at h
  case h_2 => cases h
  rename_i r hdone
  obtain rfl := Option.some.inj h
  exact ⟨by simp [Cell.step, State.abs, hdone, Thread.abs, Function.comp_update],
    hw.update (fun _ h => by cases h) _ _⟩

/-- **One step.**  Every step keeps the loop variables in line and is either
invisible to the cell or one step of the cell. -/
theorem step_refines {s s' : State k n} {a : Action k n} (hk : k ≤ highTagShift)
    (hw : s.WellFormed) (h : step s a = some s') :
    s'.WellFormed ∧ (s'.abs = s.abs ∨ ∃ b, Cell.step s.abs b = some s'.abs) := by
  cases a with
  | invoke t req =>
    obtain ⟨hs, hw'⟩ := invoke_refines hk hw h
    exact ⟨hw', .inr ⟨_, hs⟩⟩
  | exec t spurious =>
    rcases exec_linearizes hw h with ⟨hs, hw', -⟩ | ⟨hs, hw'⟩
    · exact ⟨hw', .inl hs⟩
    · exact ⟨hw', .inr ⟨_, hs⟩⟩
  | reset t =>
    obtain ⟨hs, hw'⟩ := reset_refines hw h
    exact ⟨hw', .inr ⟨_, hs⟩⟩
  | advance e =>
    obtain rfl := Option.some.inj h
    exact ⟨hw, .inl rfl⟩

/-- Every reachable state of the slot stands for a reachable state of the cell. -/
theorem Reachable.abs {link0 : Raw k} {epoch0 : Nat} {s : State k n} (hk : k ≤ highTagShift)
    (h : Reachable link0 epoch0 s) : s.WellFormed ∧ Cell.Reachable link0.low s.abs := by
  induction h with
  | init => exact ⟨State.WellFormed.init _ _, .init⟩
  | step _ hstep ih =>
    obtain ⟨hw', hs | ⟨b, hb⟩⟩ := step_refines hk ih.1 hstep
    · exact ⟨hw', hs ▸ ih.2⟩
    · exact ⟨hw', .step ih.2 hb⟩

/-- **An `AtomicRc` slot refines an atomic cell.**  Take any interleaving of the
slot's methods by any number of threads, under any global epochs, and a user
tag that lies below the epoch tag.  Every reachable state, seen up to epoch
tags, is a state of the atomic cell, with the arguments and results of every
method.  A call is the cell's invocation of the operation asked for.  Each
atomic action of a method is the cell operation itself: `load` reads the cell,
`store`, `swap` and `take` replace it, and a compare-and-exchange replaces the
expected value by the new one when the cell holds it and otherwise fails,
changing nothing and handing back the desired handle unchanged.  The one
exception is a retry of a compare-and-exchange loop (`Call.Retry`: the word
differs from `expected_raw` in the epoch tag alone, or a weak attempt failed
spuriously), which writes nothing, changes nothing the cell shows and leaves
the method running; `load`, `store`, `swap` and `take` never retry, so each
takes effect in its one atomic action. -/
theorem atomicRc_refines_cell (hk : k ≤ highTagShift) {link0 : Raw k} {epoch0 : Nat}
    {s : State k n} (h : Reachable link0 epoch0 s) :
    Cell.Reachable link0.low s.abs ∧
    (∀ t req s', step s (.invoke t req) = some s' →
      Cell.step s.abs (.invoke t req.abs) = some s'.abs) ∧
    ∀ t spurious s', step s (.exec t spurious) = some s' →
      Cell.step s.abs (.linearize t) = some s'.abs ∨
      (s'.abs = s.abs ∧ s'.link = s.link ∧
        ∃ c c', s.threads t = .busy c ∧ s'.threads t = .busy c' ∧ c.Retry s.link spurious) := by
  obtain ⟨hw, hr⟩ := h.abs hk
  refine ⟨hr, fun t req s' hs => (invoke_refines hk hw hs).1, fun t spurious s' hs => ?_⟩
  rcases exec_linearizes hw hs with ⟨h1, -, h2, h3⟩ | ⟨h1, -⟩
  · exact .inr ⟨h1, h2, h3⟩
  · exact .inl h1

/-- A `compare_exchange` on an 8-byte aligned pointee, by one thread, on a slot
whose word carries epoch tag one while the expected word carries none: the
first attempt is a retry the cell does not see, the second the linearization,
which succeeds. -/
theorem atomicRc_refines_cell_retry :
    ∃ s s1 s2 : State 3 1, Reachable ⟨BitVec.ofNat 64 (2 ^ 48 + 8)⟩ 1 s ∧
      step s (.exec 0 false) = some s1 ∧ step s1 (.exec 0 false) = some s2 ∧
      (∃ c, s.threads 0 = .busy c) ∧ (∃ c, s1.threads 0 = .busy c) ∧
      (∃ p, s2.threads 0 = .done (.ok p)) ∧
      (Cell.step s.abs (.linearize 0) = some s1.abs ∨
        (s1.abs = s.abs ∧ s1.link = s.link ∧
          ∃ c c', s.threads 0 = .busy c ∧ s1.threads 0 = .busy c' ∧ c.Retry s.link false)) ∧
      (Cell.step s1.abs (.linearize 0) = some s2.abs ∨
        (s2.abs = s1.abs ∧ s2.link = s1.link ∧
          ∃ c c', s1.threads 0 = .busy c ∧ s2.threads 0 = .busy c' ∧ c.Retry s1.link false)) := by
  have h : Reachable (k := 3) (n := 1) ⟨BitVec.ofNat 64 (2 ^ 48 + 8)⟩ 1 _ :=
    Reachable.init.step (a := .invoke 0 (.compareExchange false ⟨8#64⟩ ⟨16#64⟩)) rfl
  exact ⟨_, _, _, h, rfl, rfl, ⟨_, rfl⟩, ⟨_, rfl⟩, ⟨_, rfl⟩,
    (atomicRc_refines_cell (by decide) h).2.2 0 false _ rfl,
    (atomicRc_refines_cell (by decide) (h.step (a := .exec 0 false) rfl)).2.2 0 false _ rfl⟩

end Circ.Slot
