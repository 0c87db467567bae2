import Circ.Slot.Refinement

/-!
# Racing tag compare-and-exchanges

`n` threads race on one `AtomicRc` that holds `p`: each calls
`compare_exchange_tag(p, tag)` once, with a tag of its own that differs from
the tag of `p`.  At most one of them succeeds, and as soon as one attempt has
returned, one has succeeded and the slot holds the address of `p` with the
winner's tag (`compareExchangeTag_race`).

The argument is made on the atomic cell, where each attempt takes effect at a
single step (`RaceReachable.tagRace`), and carried to the slot through the
refinement of `Circ.Slot.Refinement`: a run of the race on the slot is a run
of the race on the cell (`RaceReachable.abs`).
-/

namespace Circ.Cell

variable {k n : Nat}

/-- Runs in which thread `t` performs the operation `ops t` once: no thread
takes its result to call again. -/
inductive RaceReachable (ops : Fin n → Op k) (cell0 : Word) : State k n → Prop
  | init : RaceReachable ops cell0 ⟨cell0, fun _ => .idle⟩
  | invoke {s s' : State k n} (t : Fin n) :
      RaceReachable ops cell0 s → step s (.invoke t (ops t)) = some s' →
        RaceReachable ops cell0 s'
  | linearize {s s' : State k n} (t : Fin n) :
      RaceReachable ops cell0 s → step s (.linearize t) = some s' →
        RaceReachable ops cell0 s'

/-- A thread whose attempt `op` has not taken effect: it has not called yet,
or its call is pending. -/
def Waiting (op : Op k) (th : Thread k) : Prop := th = .idle ∨ th = .pending op

/-- The race of tag compare-and-exchanges from `e`, thread `t` installing
`new t`: the cell holds `e` while no attempt has taken effect; after the
first, by thread `w`, it holds `new w`, and every later attempt fails on it. -/
def TagRace (e : Word) (new : Fin n → Word) (s : State k n) : Prop :=
  (s.cell = e ∧ ∀ t, Waiting (.compareExchangeTag e (new t)) (s.threads t)) ∨
  ∃ w, s.cell = new w ∧ s.threads w = .done (.tagOk e) ∧ ∀ t, t ≠ w →
    Waiting (.compareExchangeTag e (new t)) (s.threads t) ∨
      s.threads t = .done (.tagErr (new t) (new w))

variable {e : Word} {new : Fin n → Word} {s s' : State k n} {t u : Fin n}

/-- A call changes nothing in the race. -/
theorem TagRace.invoke (hs : TagRace e new s)
    (h : step s (.invoke t (.compareExchangeTag e (new t))) = some s') : TagRace e new s' := by
  simp only [step] at h
  split at h
  case h_2 => cases h
  rename_i hidle
  obtain rfl := Option.some.inj h
  have hwait : Waiting (k := k) (.compareExchangeTag e (new t))
      (.pending (.compareExchangeTag e (new t))) := .inr rfl
  rcases hs with ⟨hc, hw⟩ | ⟨w, hc, hw, hl⟩
  · exact .inl ⟨hc, (Function.forall_update_iff _ fun u th => Waiting _ th).2
      ⟨hwait, fun u _ => hw u⟩⟩
  · have htw : t ≠ w := by
      rintro rfl
      simp [hw] at hidle
    exact .inr ⟨w, hc, by simp [Function.update_noteq htw.symm, hw],
      (Function.forall_update_iff _ fun u th => u ≠ w → Waiting _ th ∨ th = _).2
        ⟨fun _ => .inl hwait, fun u _ => hl u⟩⟩

/-- An attempt that takes effect wins while the cell holds `e`, and fails on
the winner's word afterwards. -/
theorem TagRace.linearize (hnew : ∀ t, new t ≠ e) (hs : TagRace e new s)
    (h : step s (.linearize t) = some s') : TagRace e new s' := by
  simp only [step] at h
  split at h
  case h_2 => cases h
  rename_i op hop
  obtain rfl := Option.some.inj h
  rcases hs with ⟨hc, hw⟩ | ⟨w, hc, hw, hl⟩
  · obtain rfl : op = .compareExchangeTag e (new t) := by simpa [Waiting, hop] using hw t
    refine .inr ⟨t, by simp [Op.apply, hc], by simp [Op.apply, hc], fun u hu => .inl ?_⟩
    simpa [Function.update_noteq hu] using hw u
  · have htw : t ≠ w := by
      rintro rfl
      simp [hw] at hop
    obtain rfl : op = .compareExchangeTag e (new t) := by
      simpa [Waiting, hop] using hl t htw
    refine .inr ⟨w, by simp [Op.apply, hc, hnew w], by simp [Function.update_noteq htw.symm, hw],
      fun u hu => ?_⟩
    by_cases hut : u = t
    · subst hut
      simp [Op.apply, hc, hnew w]
    · simpa [Function.update_noteq hut] using hl u hu

/-- **One attempt wins the race on the cell.**  In every run in which each
thread makes its tag compare-and-exchange from `e` once, and no thread
installs `e` itself, the cell holds `e` until the first attempt takes effect,
and from then on the word that attempt installed. -/
theorem RaceReachable.tagRace (hnew : ∀ t, new t ≠ e)
    (h : RaceReachable (fun t => .compareExchangeTag e (new t)) e s) : TagRace e new s := by
  induction h with
  | init => exact .inl ⟨rfl, fun _ => .inl rfl⟩
  | invoke t _ hstep ih => exact ih.invoke hstep
  | linearize t _ hstep ih => exact ih.linearize hnew hstep

/-- A thread that has succeeded is the winner. -/
theorem TagRace.eq_of_tagOk {w : Fin n} (hl : ∀ t, t ≠ w →
    Waiting (.compareExchangeTag e (new t)) (s.threads t) ∨
      s.threads t = .done (.tagErr (new t) (new w))) {v : Word}
    (ht : s.threads t = .done (.tagOk v)) : t = w := by
  by_contra htw
  rcases hl t htw with (h | h) | h <;> simp [ht] at h

/-- At most one thread succeeds. -/
theorem TagRace.unique (hs : TagRace e new s) {a b : Word} (ht : s.threads t = .done (.tagOk a))
    (hu : s.threads u = .done (.tagOk b)) : t = u := by
  rcases hs with ⟨-, hw⟩ | ⟨w, -, -, hl⟩
  · rcases hw t with h | h <;> simp [ht] at h
  · rw [eq_of_tagOk hl ht, eq_of_tagOk hl hu]

/-- Once some attempt has returned, one has succeeded, and the cell holds the
word it installed. -/
theorem TagRace.won (hs : TagRace e new s) {r : Ret k} (ht : s.threads t = .done r) :
    ∃ w, s.cell = new w ∧ s.threads w = .done (.tagOk e) := by
  rcases hs with ⟨-, hw⟩ | ⟨w, hc, hw, -⟩
  · rcases hw t with h | h <;> simp [ht] at h
  · exact ⟨w, hc, hw⟩

end Circ.Cell

namespace Circ.Slot

variable {k n : Nat}

/-- Runs of the slot in which thread `t` calls `reqs t` once, under any global
epochs. -/
inductive RaceReachable (reqs : Fin n → Request k) (link0 : Raw k) (epoch0 : Nat) :
    State k n → Prop
  | init : RaceReachable reqs link0 epoch0 ⟨link0, epoch0, fun _ => .idle⟩
  | invoke {s s' : State k n} (t : Fin n) :
      RaceReachable reqs link0 epoch0 s → step s (.invoke t (reqs t)) = some s' →
        RaceReachable reqs link0 epoch0 s'
  | exec {s s' : State k n} (t : Fin n) (spurious : Bool) :
      RaceReachable reqs link0 epoch0 s → step s (.exec t spurious) = some s' →
        RaceReachable reqs link0 epoch0 s'
  | advance {s s' : State k n} (e : Nat) :
      RaceReachable reqs link0 epoch0 s → step s (.advance e) = some s' →
        RaceReachable reqs link0 epoch0 s'

/-- A race on the slot is a race on the cell it stands for. -/
theorem RaceReachable.abs {reqs : Fin n → Request k} {link0 : Raw k} {epoch0 : Nat}
    {s : State k n} (hk : k ≤ highTagShift) (h : RaceReachable reqs link0 epoch0 s) :
    s.WellFormed ∧ Cell.RaceReachable (fun t => (reqs t).abs) link0.low s.abs := by
  induction h with
  | init => exact ⟨State.WellFormed.init _ _, .init⟩
  | invoke t _ hstep ih =>
    obtain ⟨hs, hw⟩ := invoke_refines hk ih.1 hstep
    exact ⟨hw, .invoke t ih.2 hs⟩
  | exec t _ _ hstep ih =>
    rcases exec_linearizes ih.1 hstep with ⟨hs, hw, -⟩ | ⟨hs, hw⟩
    · exact ⟨hw, hs ▸ ih.2⟩
    · exact ⟨hw, .linearize t ih.2 hs⟩
  | advance e _ hstep ih =>
    obtain rfl := Option.some.inj hstep
    exact ih

/-- The cell sees a successful tag compare-and-exchange exactly when the slot
has one. -/
theorem Thread.abs_eq_done_tagOk {th : Thread k} {v : Word} :
    th.abs = .done (.tagOk v) ↔ ∃ r, th = .done (.tagOk r) ∧ r.low = v := by
  cases th with
  | done r => cases r <;> simp [Thread.abs, Ret.abs]
  | _ => simp [Thread.abs]

/-- **Exactly one tag compare-and-exchange wins.**  Let any number of threads
each call `compare_exchange_tag` once on a slot holding `p`, every thread
with a tag that differs from the tag of `p`, under any interleaving and any
global epochs, with a user tag below the epoch tag.  At most one thread
succeeds; and as soon as any thread has its result, one thread has
succeeded and the slot holds the address of `p` with the winner's tag. -/
theorem compareExchangeTag_race (hk : k ≤ highTagShift) {p link0 : Raw k} {tags : Fin n → Word}
    (htag : ∀ t, tags t &&& lowBits k ≠ p.low &&& lowBits k) (h0 : link0.low = p.low)
    {epoch0 : Nat} {s : State k n}
    (h : RaceReachable (fun t => .compareExchangeTag p (tags t)) link0 epoch0 s) :
    (∀ t u r r', s.threads t = .done (.tagOk r) → s.threads u = .done (.tagOk r') → t = u) ∧
    ∀ t r, s.threads t = .done r →
      ∃ w r', s.threads w = .done (.tagOk r') ∧ s.link.low = withTag k p.low (tags w) := by
  have hnew : ∀ t, withTag k p.low (tags t) ≠ p.low := fun t he =>
    htag t (by simpa using congrArg (· &&& lowBits k) he)
  have hr : Cell.RaceReachable (fun t => .compareExchangeTag p.low (withTag k p.low (tags t)))
      p.low s.abs := by
    have := (h.abs hk).2
    rw [h0] at this
    exact this
  have hs := hr.tagRace hnew
  refine ⟨fun t u r r' ht hu => hs.unique (a := r.low) (b := r'.low)
    (by simp [State.abs, ht, Thread.abs, Ret.abs]) (by simp [State.abs, hu, Thread.abs, Ret.abs]),
    fun t r ht => ?_⟩
  obtain ⟨w, hc, hw⟩ := hs.won (t := t) (r := r.abs) (by simp [State.abs, ht, Thread.abs])
  obtain ⟨r', hr', -⟩ := Thread.abs_eq_done_tagOk.1 hw
  exact ⟨w, r', hr', hc⟩

/-- Two threads race from an 8-byte aligned pointer with tag zero to tags one
and two; once both attempts have returned, one has succeeded. -/
theorem compareExchangeTag_race_two :
    ∃ s : State 3 2,
      RaceReachable (fun t => .compareExchangeTag ⟨8#64⟩ (BitVec.ofNat 64 (t.val + 1))) ⟨8#64⟩ 0 s ∧
      (∀ t, ∃ r, s.threads t = .done r) ∧
      (∀ t : Fin 2, BitVec.ofNat 64 (t.val + 1) &&& lowBits 3 ≠ (⟨8#64⟩ : Raw 3).low &&& lowBits 3) ∧
      (∀ t u r r', s.threads t = .done (.tagOk r) → s.threads u = .done (.tagOk r') → t = u) ∧
      ∀ t r, s.threads t = .done r → ∃ w r', s.threads w = .done (.tagOk r') ∧
        s.link.low = withTag 3 (⟨8#64⟩ : Raw 3).low (BitVec.ofNat 64 (w.val + 1)) := by
  have hr : RaceReachable (k := 3) (n := 2)
      (fun t => .compareExchangeTag ⟨8#64⟩ (BitVec.ofNat 64 (t.val + 1))) ⟨8#64⟩ 0 _ :=
    .exec 1 false (.exec 0 false (.invoke 1 (.invoke 0 .init rfl) rfl) rfl) rfl
  have htag : ∀ t : Fin 2,
      BitVec.ofNat 64 (t.val + 1) &&& lowBits 3 ≠ (⟨8#64⟩ : Raw 3).low &&& lowBits 3 := by decide
  exact ⟨_, hr, Fin.forall_fin_two.2 ⟨⟨_, rfl⟩, ⟨_, rfl⟩⟩, htag,
    compareExchangeTag_race (by decide) htag rfl hr⟩

end Circ.Slot
