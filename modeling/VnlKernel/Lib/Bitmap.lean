import Mathlib.Data.Finset.Card
import Mathlib.Data.Finset.Filter
import Mathlib.Order.Interval.Finset.Nat

/-!
# Sets of numbers, one bit each

A bitmap keeps one bit per number, eight to a byte. The C idioms for setting,
clearing and testing a bit act on whole bytes; here is what they do to the set of
numbers whose bit is clear, and what scanning for the first such number finds.
-/

namespace Bitmap

/-- `1u << i`, as a byte. -/
def bit (i : Nat) : UInt8 := 1 <<< UInt8.ofNat i

def set (m : Nat → UInt8) (f : Nat) : Nat → UInt8 :=
  fun k => if k = f / 8 then m k ||| bit (f % 8) else m k

def clear (m : Nat → UInt8) (f : Nat) : Nat → UInt8 :=
  fun k => if k = f / 8 then m k &&& ~~~ bit (f % 8) else m k

def test (m : Nat → UInt8) (f : Nat) : Bool := m (f / 8) &&& bit (f % 8) ≠ 0

/-! ## One byte -/

theorem bit_toBitVec {i : Nat} (hi : i < 8) : (bit i).toBitVec = BitVec.twoPow 8 i := by
  have h : ∀ j : Fin 8, (bit j).toBitVec = BitVec.twoPow 8 j := by decide
  exact h ⟨i, hi⟩

/-- Masking with one bit is reading it. -/
theorem and_bit_ne_zero {x : UInt8} {i : Nat} (hi : i < 8) :
    (x &&& bit i ≠ 0) ↔ x.toBitVec.getLsbD i = true := by
  have hz : x &&& bit i = 0 ↔ (x &&& bit i).toBitVec = 0 :=
    ⟨fun h => by rw [h]; rfl, fun h => UInt8.eq_of_toBitVec_eq h⟩
  rw [ne_eq, hz, UInt8.toBitVec_and, bit_toBitVec hi, BitVec.and_twoPow]
  cases x.toBitVec.getLsbD i with
  | false => simp
  | true =>
      have h : ∀ j : Fin 8, BitVec.twoPow 8 j ≠ 0 := by decide
      simpa using h ⟨i, hi⟩

theorem getLsbD_or_bit {x : UInt8} {i j : Nat} (hi : i < 8) :
    (x ||| bit i).toBitVec.getLsbD j = (x.toBitVec.getLsbD j || decide (i = j)) := by
  rw [UInt8.toBitVec_or, bit_toBitVec hi, BitVec.getLsbD_or, BitVec.getLsbD_twoPow]
  simp [hi]

theorem getLsbD_andNot_bit {x : UInt8} {i j : Nat} (hi : i < 8) (hj : j < 8) :
    (x &&& ~~~ bit i).toBitVec.getLsbD j = (x.toBitVec.getLsbD j && !decide (i = j)) := by
  rw [UInt8.toBitVec_and, UInt8.toBitVec_not, bit_toBitVec hi, BitVec.getLsbD_and,
    BitVec.getLsbD_not, BitVec.getLsbD_twoPow]
  simp [hi, hj]

/-! ## The whole map -/

variable {m : Nat → UInt8} {f g : Nat}

theorem test_eq (m : Nat → UInt8) (f : Nat) :
    test m f = (m (f / 8)).toBitVec.getLsbD (f % 8) := by
  have hf : f % 8 < 8 := Nat.mod_lt _ (by decide)
  rw [Bool.eq_iff_iff, ← and_bit_ne_zero hf]
  simp [test]

theorem test_set : test (set m f) g = (test m g || decide (f = g)) := by
  have hf : f % 8 < 8 := Nat.mod_lt _ (by decide)
  rw [test_eq, test_eq, set]
  split
  · next h =>
    rw [getLsbD_or_bit hf]
    congr 1
    exact decide_eq_decide.mpr (by omega)
  · next h =>
    have : f ≠ g := fun e => h (by rw [e])
    simp [this]

theorem test_clear : test (clear m f) g = (test m g && !decide (f = g)) := by
  have hf : f % 8 < 8 := Nat.mod_lt _ (by decide)
  have hg : g % 8 < 8 := Nat.mod_lt _ (by decide)
  rw [test_eq, test_eq, clear]
  split
  · next h =>
    rw [getLsbD_andNot_bit hf hg]
    congr 2
    exact decide_eq_decide.mpr (by omega)
  · next h =>
    have : f ≠ g := fun e => h (by rw [e])
    simp [this]

/-- A full byte has no clear bit. -/
theorem test_of_full (h : m (f / 8) = 0xFF) : test m f = true := by
  have hb : ∀ j : Fin 8, (0xFF : UInt8).toBitVec.getLsbD j = true := by decide
  rw [test_eq, h]
  exact hb ⟨f % 8, Nat.mod_lt _ (by decide)⟩

/-- Maps with the same bits are the same. -/
theorem eq_of_test {m' : Nat → UInt8} (h : ∀ f, test m f = test m' f) : m = m' := by
  funext k
  refine UInt8.eq_of_toBitVec_eq (BitVec.eq_of_getLsbD_eq fun i hi => ?_)
  have hbit := h (8 * k + i)
  rw [test_eq, test_eq, show (8 * k + i) / 8 = k by omega, show (8 * k + i) % 8 = i by omega]
    at hbit
  exact hbit

/-! ## Counting -/

/-- How many of the first `n` numbers have a clear bit. -/
def clearCount (m : Nat → UInt8) (n : Nat) : Nat :=
  ((Finset.range n).filter fun f => test m f = false).card

theorem clearCount_set {n : Nat} (hf : f < n) (h : test m f = false) :
    clearCount (set m f) n + 1 = clearCount m n := by
  have hmem : f ∈ (Finset.range n).filter fun g => test m g = false := by simp [hf, h]
  have he : ((Finset.range n).filter fun g => test (set m f) g = false)
      = ((Finset.range n).filter fun g => test m g = false).erase f := by
    ext g
    simp only [Finset.mem_filter, Finset.mem_erase, Finset.mem_range, test_set,
      Bool.or_eq_false_iff,
      decide_eq_false_iff_not]
    constructor
    · rintro ⟨h1, h2, h3⟩; exact ⟨fun e => h3 e.symm, h1, h2⟩
    · rintro ⟨h1, h2, h3⟩; exact ⟨h2, h3, fun e => h1 e.symm⟩
  unfold clearCount
  rw [he]
  exact Finset.card_erase_add_one hmem

theorem clearCount_clear {n : Nat} (hf : f < n) (h : test m f = true) :
    clearCount (clear m f) n = clearCount m n + 1 := by
  have hmem : f ∉ (Finset.range n).filter fun g => test m g = false := by simp [h]
  have he : ((Finset.range n).filter fun g => test (clear m f) g = false)
      = insert f ((Finset.range n).filter fun g => test m g = false) := by
    ext g
    simp only [Finset.mem_filter, Finset.mem_insert, Finset.mem_range, test_clear,
      Bool.and_eq_false_iff, Bool.not_eq_false', decide_eq_true_eq]
    constructor
    · rintro ⟨h1, h2 | h2⟩
      · exact Or.inr ⟨h1, h2⟩
      · exact Or.inl h2.symm
    · rintro (h1 | ⟨h1, h2⟩)
      · exact ⟨h1 ▸ hf, Or.inr h1.symm⟩
      · exact ⟨h1, Or.inl h2⟩
  unfold clearCount
  rw [he]
  exact Finset.card_insert_of_notMem hmem

theorem clearCount_le (m : Nat → UInt8) (n : Nat) : clearCount m n ≤ n :=
  (Finset.card_filter_le _ _).trans (Finset.card_range n).le

theorem clearCount_pos {n : Nat} : 0 < clearCount m n ↔ ∃ f, f < n ∧ test m f = false := by
  unfold clearCount
  rw [Finset.card_pos]
  constructor
  · rintro ⟨f, hf⟩
    simp only [Finset.mem_filter, Finset.mem_range] at hf
    exact ⟨f, hf⟩
  · rintro ⟨f, hf⟩
    exact ⟨f, by simpa using hf⟩

theorem clearCount_eq_zero {n : Nat} (h : ∀ f, f < n → test m f = true) : clearCount m n = 0 := by
  by_contra hne
  obtain ⟨f, hf, ht⟩ := clearCount_pos.mp (Nat.pos_of_ne_zero hne)
  rw [h f hf] at ht
  exact Bool.noConfusion ht

/-! ## Scanning -/

/-- The first clear bit of a byte, from `i` on. -/
def scanBits (b : UInt8) : Nat → Nat → Option Nat
  | 0, _ => none
  | n + 1, i => if b &&& bit i = 0 then some i else scanBits b n (i + 1)

/-- The first number with a clear bit in the `n` bytes from byte `i` on; full bytes are skipped. -/
def scanBytes (m : Nat → UInt8) : Nat → Nat → Option Nat
  | 0, _ => none
  | n + 1, i =>
      if m i = 0xFF then scanBytes m n (i + 1)
      else
        match scanBits (m i) 8 0 with
        | some b => some (i * 8 + b)
        | none => scanBytes m n (i + 1)

theorem scanBits_some {b : UInt8} {j : Nat} : ∀ {n i : Nat}, i + n ≤ 8 → scanBits b n i = some j →
    j < 8 ∧ b.toBitVec.getLsbD j = false
  | n + 1, i, hi, h => by
      rw [scanBits] at h
      split at h
      · next hz =>
        cases h
        refine ⟨by omega, ?_⟩
        rw [← Bool.not_eq_true, ← and_bit_ne_zero (by omega)]
        simpa using hz
      · exact scanBits_some (by omega) h

theorem scanBits_none {b : UInt8} : ∀ {n i : Nat}, i + n ≤ 8 → scanBits b n i = none →
    ∀ j, i ≤ j → j < i + n → b.toBitVec.getLsbD j = true
  | 0, i, _, _, j, h1, h2 => absurd h2 (by omega)
  | n + 1, i, hi, h, j, h1, h2 => by
      rw [scanBits] at h
      split at h
      · exact absurd h (by simp)
      · next hz =>
        by_cases hj : j = i
        · subst hj
          exact (and_bit_ne_zero (by omega)).mp hz
        · exact scanBits_none (by omega) h j (by omega) (by omega)

/-- What the scan finds is clear. -/
theorem scanBytes_some : ∀ {n i : Nat}, scanBytes m n i = some f →
    f < 8 * (i + n) ∧ test m f = false
  | 0, i, h => absurd h (by simp [scanBytes])
  | n + 1, i, h => by
      rw [scanBytes] at h
      split at h
      · have := scanBytes_some h
        exact ⟨by omega, this.2⟩
      · split at h
        · next b hb =>
          cases h
          obtain ⟨h8, hclr⟩ := scanBits_some (by omega) hb
          refine ⟨by omega, ?_⟩
          rw [test_eq, show (i * 8 + b) / 8 = i by omega, show (i * 8 + b) % 8 = b by omega]
          exact hclr
        · have := scanBytes_some h
          exact ⟨by omega, this.2⟩

/-- The scan gives up only when every bit is set. -/
theorem scanBytes_none : ∀ {n i : Nat}, scanBytes m n i = none →
    ∀ g, 8 * i ≤ g → g < 8 * (i + n) → test m g = true
  | 0, i, _, g, h1, h2 => absurd h2 (by omega)
  | n + 1, i, h, g, h1, h2 => by
      rw [scanBytes] at h
      by_cases hg : g / 8 = i
      · split at h
        · next hfull => exact test_of_full (by rw [hg]; exact hfull)
        · split at h
          · exact absurd h (by simp)
          · next hb =>
            rw [test_eq, hg]
            exact scanBits_none (by omega) hb _ (by omega) (by omega)
      · split at h
        · exact scanBytes_none h g (by omega) (by omega)
        · split at h
          · exact absurd h (by simp)
          · exact scanBytes_none h g (by omega) (by omega)

end Bitmap
