import Mathlib.Data.BitVec

/-!
# Tagged pointer words

`Tagged<T>` of `internal/utils.rs` packs a user tag into the low bits of a
pointer to `T` that its alignment leaves unused.  A pointer is a 64-bit word
(`usize`), and `T` enters only through its alignment `2 ^ k`, whose mask is
`low_bits::<T>()`.

The pointers that `strong.rs` stores in an `AtomicRc` carry a second tag in
their top 16 bits, the epoch at which they were installed.  The type that
holds them, `crate::ebr_impl::Tagged`, is not part of the source at hand; its
operations are modelled from the data model of the specification (§3, §4.1).

The main result is `tagged_tag_encoding`: `with_tag` and the pair
(`as_raw`, `tag`) are inverse encodings of a word, for every alignment.
-/

namespace Circ

/-- A machine word, `usize`. -/
abbrev Word := BitVec 64

/-- `low_bits::<T>()` for a type aligned to `2 ^ k`:
`(1 << align_of::<T>().trailing_zeros()) - 1`. -/
def lowBits (k : Nat) : Word := (1#64 <<< k) - 1

/-- The free function `with_tag`: keep the address bits of `ptr` and put the
masked `tag` in the low bits. -/
def withTag (k : Nat) (ptr tag : Word) : Word :=
  (ptr &&& ~~~lowBits k) ||| (tag &&& lowBits k)

/-- The mask is `2 ^ k - 1` for every alignment a `usize` can express. -/
theorem lowBits_toNat {k : Nat} (hk : k < 64) : (lowBits k).toNat = 2 ^ k - 1 := by
  have hlt : 2 ^ k < 2 ^ 64 := Nat.pow_lt_pow_right (by omega) hk
  have hpos : 1 ≤ 2 ^ k := Nat.one_le_two_pow
  simp [lowBits, BitVec.toNat_shiftLeft, Nat.shiftLeft_eq, Nat.mod_eq_of_lt hlt]
  omega

/-- Bit `i` of the mask is set exactly below the alignment. -/
theorem getLsbD_lowBits {k i : Nat} (hk : k < 64) :
    (lowBits k).getLsbD i = (decide (i < 64) && decide (i < k)) := by
  have hlt : 2 ^ k - 1 < 2 ^ 64 :=
    lt_of_le_of_lt (Nat.sub_le _ _) (Nat.pow_lt_pow_right (by omega) hk)
  rw [show lowBits k = BitVec.ofNat 64 (2 ^ k - 1) from
      BitVec.eq_of_toNat_eq (by rw [lowBits_toNat hk, BitVec.toNat_ofNat, Nat.mod_eq_of_lt hlt]),
    BitVec.getLsbD_ofNat, Nat.testBit_two_pow_sub_one]

/-- The tag bits of a retagged word are the masked new tag. -/
@[simp] theorem withTag_and_lowBits (k : Nat) (p t : Word) :
    withTag k p t &&& lowBits k = t &&& lowBits k := by
  ext i
  simp only [withTag, BitVec.getLsbD_and, BitVec.getLsbD_or, BitVec.getLsbD_not]
  cases (lowBits k).getLsbD i <;> simp

/-- The address bits of a retagged word are those of the original word. -/
@[simp] theorem withTag_and_not_lowBits (k : Nat) (p t : Word) :
    withTag k p t &&& ~~~lowBits k = p &&& ~~~lowBits k := by
  ext i
  simp only [withTag, BitVec.getLsbD_and, BitVec.getLsbD_or, BitVec.getLsbD_not]
  cases (lowBits k).getLsbD i <;> simp

/-- Retagging a word with its own tag gives the word back. -/
@[simp] theorem withTag_self (k : Nat) (p : Word) : withTag k p (p &&& lowBits k) = p := by
  ext i
  simp only [withTag, BitVec.getLsbD_and, BitVec.getLsbD_or, BitVec.getLsbD_not, i.isLt,
    decide_True]
  cases (lowBits k).getLsbD i <;> simp

/-- Only the last of two retaggings is visible. -/
@[simp] theorem withTag_withTag (k : Nat) (p t₁ t₂ : Word) :
    withTag k (withTag k p t₁) t₂ = withTag k p t₂ := by
  rw [withTag, withTag_and_not_lowBits, withTag]

/-- `Tagged<T>` for a pointee aligned to `2 ^ k`. -/
structure Tagged (k : Nat) where
  ptr : Word
  deriving DecidableEq, Repr

namespace Tagged

variable {k : Nat}

/-- `Tagged::null`. -/
def null : Tagged k := ⟨0⟩

/-- `Tagged::tag`: the low bits of the word. -/
def tag (p : Tagged k) : Word := p.ptr &&& lowBits k

/-- `Tagged::as_raw`: the pointer without its tag. -/
def asRaw (p : Tagged k) : Word := p.ptr &&& ~~~lowBits k

/-- `Tagged::is_null`: the untagged pointer is null. -/
def isNull (p : Tagged k) : Bool := p.asRaw == 0

/-- `Tagged::with_tag`. -/
def withTag (p : Tagged k) (t : Word) : Tagged k := ⟨Circ.withTag k p.ptr t⟩

@[simp] theorem tag_withTag (p : Tagged k) (t : Word) :
    (p.withTag t).tag = t &&& lowBits k :=
  withTag_and_lowBits k p.ptr t

@[simp] theorem asRaw_withTag (p : Tagged k) (t : Word) : (p.withTag t).asRaw = p.asRaw :=
  withTag_and_not_lowBits k p.ptr t

/-- **Tag encoding.**  For every alignment `2 ^ k` with `k < 64`, the mask
`low_bits` is `2 ^ k - 1`, and `with_tag` and the pair (`as_raw`, `tag`) are
inverse encodings: the tag read back is the masked tag written, retagging
leaves the untagged pointer and its nullness alone, retagging with the own tag
is the identity and a second retagging overrides the first. -/
theorem tagged_tag_encoding (hk : k < 64) (w : Tagged k) (t t₁ t₂ : Word) :
    (lowBits k).toNat = 2 ^ k - 1 ∧
    (w.withTag t).tag = t &&& lowBits k ∧
    (w.withTag t).asRaw = w.asRaw ∧
    (w.withTag t).isNull = w.isNull ∧
    w.withTag w.tag = w ∧
    (w.withTag t₁).withTag t₂ = w.withTag t₂ :=
  ⟨lowBits_toNat hk, tag_withTag w t, asRaw_withTag w t,
    by simp [isNull], by simp [withTag, tag], by simp [withTag]⟩

/-- The encoding at an 8-byte alignment, on the word `0x1000` and the tags
`5`, `1` and `2`. -/
theorem tagged_tag_encoding_align8 :
    3 < 64 ∧ ((lowBits 3).toNat = 2 ^ 3 - 1 ∧
    ((⟨0x1000#64⟩ : Tagged 3).withTag 5#64).tag = 5#64 &&& lowBits 3 ∧
    ((⟨0x1000#64⟩ : Tagged 3).withTag 5#64).asRaw = (⟨0x1000#64⟩ : Tagged 3).asRaw ∧
    ((⟨0x1000#64⟩ : Tagged 3).withTag 5#64).isNull = (⟨0x1000#64⟩ : Tagged 3).isNull ∧
    (⟨0x1000#64⟩ : Tagged 3).withTag (⟨0x1000#64⟩ : Tagged 3).tag = ⟨0x1000#64⟩ ∧
    ((⟨0x1000#64⟩ : Tagged 3).withTag 1#64).withTag 2#64 =
      (⟨0x1000#64⟩ : Tagged 3).withTag 2#64) :=
  ⟨by decide, tagged_tag_encoding (by decide) _ _ _ _⟩

end Tagged

/-! ### Epoch tags

What follows is modelled from the spec: `crate::ebr_impl::Tagged`, which
`strong.rs` uses as `Raw<T>`, is absent from the source.  Its low tag is the
one above; its high tag occupies the top 16 bits of the word (§4.1), `ptr_eq`
compares the address and the low tag only, and `as_raw` clears both tags. -/

/-- Modelled from the spec: the width of the epoch tag (§4.1, §9). -/
def highTagWidth : Nat := 16

/-- The position of the lowest epoch-tag bit. -/
def highTagShift : Nat := 64 - highTagWidth

/-- The bits below the epoch tag: the address and the user tag. -/
def lowMask : Word := lowBits highTagShift

/-- Modelled from the spec: `crate::ebr_impl::Tagged<RcInner<T>>`, the word
stored in an `AtomicRc` and held by `Rc` and `Snapshot`. -/
structure Raw (k : Nat) where
  ptr : Word
  deriving DecidableEq, Repr

namespace Raw

variable {k : Nat}

/-- `Tagged::null`. -/
def null : Raw k := ⟨0⟩

/-- The word with its epoch bits cleared: what `ptr_eq` compares. -/
def low (p : Raw k) : Word := p.ptr &&& lowMask

/-- `Tagged::as_raw`: the address, without either tag. -/
def asRaw (p : Raw k) : Word := p.ptr &&& ~~~lowBits k &&& lowMask

/-- `Tagged::is_null`. -/
def isNull (p : Raw k) : Bool := p.asRaw == 0

/-- `Tagged::with_tag`: the low tag is replaced, the epoch tag kept. -/
def withTag (p : Raw k) (t : Word) : Raw k := ⟨Circ.withTag k p.ptr t⟩

/-- Modelled from the spec: `Tagged::with_high_tag`, the epoch tag replaced by
`e` modulo `2 ^ 16`. -/
def withHighTag (p : Raw k) (e : Nat) : Raw k :=
  ⟨p.low ||| (BitVec.ofNat 64 e <<< highTagShift)⟩

/-- Modelled from the spec: `Tagged::ptr_eq`, equality up to the epoch tag, as
the comment in `strong.rs` describes it. -/
def ptrEq (p q : Raw k) : Bool := p.low == q.low

@[simp] theorem ptrEq_iff (p q : Raw k) : p.ptrEq q = true ↔ p.low = q.low := by
  simp [ptrEq]

/-- Restamping the epoch leaves the address and the user tag alone. -/
@[simp] theorem low_withHighTag (p : Raw k) (e : Nat) : (p.withHighTag e).low = p.low := by
  ext i
  simp only [low, withHighTag, lowMask, highTagShift, highTagWidth, BitVec.getLsbD_and,
    BitVec.getLsbD_or, getLsbD_lowBits (show 64 - 16 < 64 by omega), BitVec.getLsbD_shiftLeft]
  by_cases h : i.val < 48 <;> simp [h]

/-- The low tag lies below the epoch tag when the alignment is at most
`2 ^ 48`; then retagging commutes with clearing the epoch. -/
theorem low_withTag (hk : k ≤ highTagShift) (p : Raw k) (t : Word) :
    (p.withTag t).low = Circ.withTag k p.low t := by
  have hk' : k < 64 := by simp [highTagShift, highTagWidth] at hk; omega
  ext i
  simp only [low, withTag, Circ.withTag, lowMask, highTagShift, highTagWidth,
    BitVec.getLsbD_and, BitVec.getLsbD_or, BitVec.getLsbD_not,
    getLsbD_lowBits (show 64 - 16 < 64 by omega), getLsbD_lowBits hk', i.isLt, decide_True,
    Bool.true_and]
  simp only [highTagShift, highTagWidth] at hk
  by_cases h : i.val < 48
  · by_cases h' : i.val < k <;> simp [h, h']
  · simp [h, show ¬ i.val < k by omega]

end Raw

end Circ
