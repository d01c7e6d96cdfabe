import VnlKernel.Lib.ByteMem

/-!
# Strings in buffers

A C string is the bytes of a buffer up to the first zero. A buffer of fixed size holds
one if a zero stands somewhere in it.
-/

namespace CString

open ByteMem

/-- The string that begins at `k`, read from at most `n` bytes. -/
def strOf (m : Mem) : Nat → Nat → List UInt8
  | _, 0 => []
  | k, n + 1 => if m k = 0 then [] else m k :: strOf m (k + 1) n

/-- `strcmp(m + k, s) == 0`, as the loop goes. -/
def strcmpZero (m : Mem) : Nat → List UInt8 → Bool
  | k, [] => m k = 0
  | k, c :: s => if m k ≠ 0 ∧ m k = c then strcmpZero m (k + 1) s else m k = c

/-- Somewhere among the `n` bytes from `k` on is a zero. -/
def Terminated (m : Mem) (k n : Nat) : Prop := ∃ j, k ≤ j ∧ j < k + n ∧ m j = 0

/-- The bytes from `p` on are `s`, none of them zero, and a zero. -/
def StrAt (m : Mem) : Nat → List UInt8 → Prop
  | p, [] => m p = 0
  | p, c :: s => m p = c ∧ c ≠ 0 ∧ StrAt m (p + 1) s

variable {m m' : Mem} {k n : Nat} {s : List UInt8}

theorem strOf_length : ∀ (k n : Nat), (strOf m k n).length ≤ n
  | _, 0 => Nat.le_refl _
  | k, n + 1 => by
      rw [strOf]
      split
      · exact Nat.zero_le _
      · rw [List.length_cons]
        exact Nat.succ_le_succ (strOf_length (k + 1) n)

theorem strOf_noZero : ∀ (k n : Nat), (0 : UInt8) ∉ strOf m k n
  | _, 0 => by simp [strOf]
  | k, n + 1 => by
      rw [strOf]
      split
      · simp
      · next h =>
        rw [List.mem_cons, not_or]
        exact ⟨Ne.symm h, strOf_noZero (k + 1) n⟩

/-- **Comparing with a string is reading and comparing.** -/
theorem strcmpZero_iff : ∀ {s : List UInt8} {k n : Nat}, Terminated m k n → (0 : UInt8) ∉ s →
    (strcmpZero m k s = true ↔ strOf m k n = s)
  | _, k, 0, ⟨j, h1, h2, _⟩, _ => absurd h2 (by omega)
  | [], k, n + 1, _, _ => by
      rw [strcmpZero, strOf]
      by_cases h : m k = 0
      · simp [h]
      · simp [h]
  | c :: s, k, n + 1, ⟨j, h1, h2, h3⟩, hs => by
      rw [List.mem_cons, not_or] at hs
      rw [strcmpZero, strOf]
      by_cases h : m k = 0
      · rw [if_neg (by simp [h]), if_pos h, h]
        simp [hs.1]
      · have hj : j ≠ k := by
          rintro rfl
          exact h h3
        by_cases hc : m k = c
        · have ih := strcmpZero_iff (s := s) (k := k + 1) (n := n) ⟨j, by omega, by omega, h3⟩ hs.2
          rw [if_pos ⟨h, hc⟩, if_neg h, ih, hc, List.cons_inj_right]
        · rw [if_neg (by simp [hc]), if_neg h]
          simp [hc]

/-- A string and a zero behind it, in a buffer. -/
theorem strOf_eq : ∀ {s : List UInt8} {k n : Nat}, (∀ j, (h : j < s.length) → m (k + j) = s[j]) →
    (0 : UInt8) ∉ s → s.length < n → m (k + s.length) = 0 → strOf m k n = s
  | _, _, 0, _, _, hn, _ => absurd hn (by omega)
  | [], k, n + 1, _, _, _, hz => by
      rw [strOf, if_pos (by simpa using hz)]
  | c :: s, k, n + 1, hb, hs, hn, hz => by
      rw [List.mem_cons, not_or] at hs
      rw [List.length_cons] at hn hz
      have hc : m k = c := hb 0 (by simp)
      have hrest : ∀ j, (h : j < s.length) → m (k + 1 + j) = s[j] := fun j hj => by
        have := hb (j + 1) (by rw [List.length_cons]; omega)
        rw [show k + 1 + j = k + (j + 1) by omega, this]
        rfl
      rw [strOf, hc, if_neg (Ne.symm hs.1),
        strOf_eq hrest hs.2 (by omega) (by rw [← hz]; congr 1; omega)]

/-! ## Strings at addresses -/

/-- What stands there is read to its end. -/
theorem StrAt.strOf_eq : ∀ {s : List UInt8} {p n : Nat}, StrAt m p s → s.length < n
    → strOf m p n = s
  | _, _, 0, _, hn => absurd hn (by omega)
  | [], p, n + 1, h, _ => by
      have h0 : m p = 0 := h
      rw [strOf, if_pos h0]
  | c :: s, p, n + 1, ⟨hc, h0, h⟩, hn => by
      rw [List.length_cons] at hn
      rw [strOf, hc, if_neg h0, StrAt.strOf_eq h (by omega)]

theorem StrAt.congr : ∀ {s : List UInt8} {p : Nat}, StrAt m p s
    → (∀ x, p ≤ x → x ≤ p + s.length → m' x = m x) →
    StrAt m' p s
  | [], p, h, hm => (hm p (Nat.le_refl _) (Nat.le_refl _)).trans h
  | c :: s, p, ⟨hc, h0, h⟩, hm => by
      rw [List.length_cons] at hm
      exact ⟨(hm p (Nat.le_refl _) (by omega)).trans hc, h0,
        StrAt.congr h fun x h1 h2 => hm x (by omega) (by omega)⟩

/-- The front of a string, once a zero stands behind it. -/
theorem StrAt.cut : ∀ {l r : List UInt8} {p : Nat}, StrAt m p (l ++ r)
    → (∀ x, p ≤ x → x < p + l.length → m' x = m x) →
    m' (p + l.length) = 0 → StrAt m' p l
  | [], _, _, _, _, hz => hz
  | c :: l, r, p, ⟨hc, h0, h⟩, hm, hz => by
      rw [List.length_cons] at hm hz
      rw [show p + (l.length + 1) = p + 1 + l.length by omega] at hz
      exact ⟨(hm p (Nat.le_refl _) (by omega)).trans hc, h0,
        StrAt.cut h (fun x h1 h2 => hm x (by omega) (by omega)) hz⟩

/-- A memory that begins with a string. -/
def ofStr (s : List UInt8) : Mem := fun a => s.getD a 0

theorem strAt_ofStr {s : List UInt8} (h : (0 : UInt8) ∉ s) : StrAt (ofStr s) 0 s := by
  have hrest : ∀ (r t : List UInt8), (0 : UInt8) ∉ r → StrAt (ofStr (t ++ r)) t.length r := by
    intro r
    induction r with
    | nil =>
        intro t _
        rw [StrAt, ofStr, List.append_nil, List.getD_eq_default _ _ (Nat.le_refl _)]
    | cons c r ih =>
        intro t h
        rw [List.mem_cons, not_or] at h
        have hrec := ih (t ++ [c]) h.2
        rw [List.append_assoc, List.singleton_append, List.length_append,
          List.length_singleton] at hrec
        refine ⟨?_, Ne.symm h.1, hrec⟩
        rw [ofStr, List.getD_append_right _ _ _ _ (Nat.le_refl _), Nat.sub_self]
        rfl
  exact hrest s [] h

end CString
