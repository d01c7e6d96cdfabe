import Mathlib.Data.Nat.Digits.Lemmas

/-!
# Numerals

A number is written by dividing it by the base until nothing is left, which gives the
last digit first, and zero by a digit of its own. It is read from the left, multiplying
what was read so far by the base.
-/

namespace Numeral

/-- The digits that dividing gives, in at most `fuel` turns. -/
def divide (b : Nat) : Nat → Nat → List Nat
  | 0, _ => []
  | fuel + 1, v => if v = 0 then [] else v % b :: divide b fuel (v / b)

/-- The digits of a number, the first one first. -/
def ofNat (b v : Nat) : List Nat := if v = 0 then [0] else (Nat.digits b v).reverse

/-- What a row of digits stands for. -/
def value (b : Nat) (ds : List Nat) : Nat := ds.foldl (fun n d => n * b + d) 0

variable {b v : Nat}

theorem divide_eq_digits (hb : 2 ≤ b) : ∀ {fuel v : Nat}, v < b ^ fuel
    → divide b fuel v = Nat.digits b v
  | 0, v, h => by
      have hv : v = 0 := by simpa using h
      rw [hv, divide, Nat.digits_zero]
  | fuel + 1, v, h => by
      rw [divide]
      by_cases hv : v = 0
      · rw [if_pos hv, hv, Nat.digits_zero]
      · have hdiv : v / b < b ^ fuel := by
          rw [Nat.div_lt_iff_lt_mul (by omega), ← Nat.pow_succ]
          exact h
        rw [if_neg hv, divide_eq_digits hb hdiv, ← Nat.digits_def' hb (Nat.pos_of_ne_zero hv)]

theorem value_append_one (ds : List Nat) (d : Nat) : value b (ds ++ [d]) = value b ds * b + d := by
  rw [value, List.foldl_append, ← value]
  rfl

theorem value_reverse : ∀ (ds : List Nat), value b ds.reverse = Nat.ofDigits b ds
  | [] => rfl
  | d :: ds => by
      rw [List.reverse_cons, value_append_one, value_reverse ds, Nat.ofDigits_cons]
      ring

/-- **A number is what its digits stand for.** -/
theorem value_ofNat (b v : Nat) : value b (ofNat b v) = v := by
  rw [ofNat]
  by_cases hv : v = 0
  · rw [if_pos hv, hv]
    simp [value]
  · rw [if_neg hv, value_reverse, Nat.ofDigits_digits]

theorem lt_of_mem_ofNat (hb : 2 ≤ b) {d : Nat} (h : d ∈ ofNat b v) : d < b := by
  rw [ofNat] at h
  split at h
  · rw [List.mem_singleton] at h
    omega
  · exact Nat.digits_lt_base hb (List.mem_reverse.mp h)

theorem length_ofNat_pos (b v : Nat) : 0 < (ofNat b v).length := by
  rw [ofNat]
  split
  · exact Nat.one_pos
  · next hv =>
    rw [List.length_reverse]
    exact List.length_pos_iff.mpr (Nat.digits_ne_nil_iff_ne_zero.mpr hv)

/-- Numbers with the same digits are the same. -/
theorem ofNat_inj {w : Nat} (h : ofNat b v = ofNat b w) : v = w := by
  rw [← value_ofNat b v, h, value_ofNat]

end Numeral
