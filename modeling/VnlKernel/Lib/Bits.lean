import Mathlib.Data.Nat.Bitwise
import Mathlib.Data.Nat.Size
import Mathlib.Tactic.Ring

/-!
# Masks are arithmetic

C code rounds and packs words with `&`, `|` and `~`. Proofs about sizes and
addresses want division and remainder. These lemmas cross from one to the other,
for 64-bit words held as natural numbers: clearing the low `k` bits is
subtracting the remainder modulo `2 ^ k`, and an `|` of parts that share no bit
is a sum.
-/

namespace Bits

/-- Wrap to 64 bits. -/
def u64 (n : Nat) : Nat := n % 2 ^ 64

/-- Wrap to 32 bits. -/
def u32 (n : Nat) : Nat := n % 2 ^ 32

/-- 64-bit subtraction. -/
def sub64 (a b : Nat) : Nat := u64 (a + (2 ^ 64 - b))

theorem u64_lt (n : Nat) : u64 n < 2 ^ 64 := Nat.mod_lt _ (by decide)

theorem u64_of_lt {n : Nat} (h : n < 2 ^ 64) : u64 n = n := Nat.mod_eq_of_lt h

theorem sub64_of_le {a b : Nat} (h : b ≤ a) (ha : a < 2 ^ 64) : sub64 a b = a - b := by
  unfold sub64 u64
  rw [show a + (2 ^ 64 - b) = (a - b) + 2 ^ 64 by omega, Nat.add_mod_right]
  exact Nat.mod_eq_of_lt (by omega)

/-- The mask `~(2 ^ k - 1)` of a word of `w` bits, bit by bit. -/
theorem testBit_mask {k w : Nat} (hk : k ≤ w) (i : Nat) :
    (2 ^ w - 2 ^ k).testBit i = (decide (i < w) && !decide (i < k)) := by
  have hle : 2 ^ k ≤ 2 ^ w := Nat.pow_le_pow_right (by decide) hk
  have hpos : 0 < 2 ^ k := Nat.two_pow_pos k
  rw [show 2 ^ w - 2 ^ k = 2 ^ w - ((2 ^ k - 1) + 1) by omega,
    Nat.testBit_two_pow_sub_succ (by omega), Nat.testBit_two_pow_sub_one]

/-- **Clearing the low `k` bits** of a word of `w`. -/
theorem and_mask_width {v k w : Nat} (hv : v < 2 ^ w) (hk : k ≤ w) :
    v &&& (2 ^ w - 2 ^ k) = v / 2 ^ k * 2 ^ k := by
  apply Nat.eq_of_testBit_eq
  intro i
  rw [Nat.testBit_and, testBit_mask hk, Nat.testBit_mul_two_pow, Nat.testBit_div_two_pow]
  by_cases hi : i < k
  · simp [hi, Nat.not_le.mpr hi]
  · have hle : k ≤ i := Nat.not_lt.mp hi
    by_cases hw : i < w
    · simp [hi, hle, hw, Nat.sub_add_cancel hle]
    · have hz : v.testBit i = false :=
        Nat.testBit_lt_two_pow (Nat.lt_of_lt_of_le hv (Nat.pow_le_pow_right (by decide) (by omega)))
      simp [hz, hle, Nat.sub_add_cancel hle]

theorem and_mask {v k : Nat} (hv : v < 2 ^ 64) (hk : k ≤ 64) :
    v &&& (2 ^ 64 - 2 ^ k) = v / 2 ^ k * 2 ^ k := and_mask_width hv hk

/-- **Keeping the low `k` bits.** -/
theorem and_low (v k : Nat) : v &&& (2 ^ k - 1) = v % 2 ^ k := Nat.and_two_pow_sub_one_eq_mod v k

/-- An `|` of a multiple of `2 ^ k` and something smaller is their sum. -/
theorem or_low {a b k : Nat} (hb : b < 2 ^ k) : a * 2 ^ k ||| b = a * 2 ^ k + b := by
  rw [Nat.mul_comm]
  exact (Nat.two_pow_add_eq_or_of_lt hb a).symm

/-! ## Rounding to a power of two -/

/-- `v & ~(a - 1)`. -/
def alignDown (v a : Nat) : Nat := v &&& (2 ^ 64 - a)

/-- `(v + (a - 1)) & ~(a - 1)`. -/
def alignUp (v a : Nat) : Nat := u64 (v + (a - 1)) &&& (2 ^ 64 - a)

theorem alignDown_pow {v k : Nat} (hv : v < 2 ^ 64) (hk : k ≤ 64) :
    alignDown v (2 ^ k) = v / 2 ^ k * 2 ^ k := and_mask hv hk

theorem alignUp_pow {v k : Nat} (hv : v + (2 ^ k - 1) < 2 ^ 64) (hk : k ≤ 64) :
    alignUp v (2 ^ k) = (v + (2 ^ k - 1)) / 2 ^ k * 2 ^ k := by
  unfold alignUp
  rw [u64_of_lt hv, and_mask hv hk]

/-- Rounding up by less than one unit, when nothing wraps. -/
theorem alignUp_spec {v k : Nat} (hv : v + (2 ^ k - 1) < 2 ^ 64) (hk : k ≤ 64) :
    v ≤ alignUp v (2 ^ k) ∧ alignUp v (2 ^ k) < v + 2 ^ k ∧ 2 ^ k ∣ alignUp v (2 ^ k) := by
  have hpos : 0 < 2 ^ k := Nat.two_pow_pos k
  rw [alignUp_pow hv hk]
  have h1 := Nat.div_add_mod (v + (2 ^ k - 1)) (2 ^ k)
  have h2 := Nat.mod_lt (v + (2 ^ k - 1)) hpos
  rw [Nat.mul_comm] at h1
  exact ⟨by omega, by omega, Nat.dvd_mul_left _ _⟩

end Bits
