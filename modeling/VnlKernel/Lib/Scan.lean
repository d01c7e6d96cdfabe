/-!
# Linear scans

The loop that walks a table and stops at the first entry that will do.
-/

namespace Scan

/-- The first index that satisfies `p`, among the `n` from `i` on. -/
def first (p : Nat → Bool) : Nat → Nat → Option Nat
  | 0, _ => none
  | n + 1, i => if p i then some i else first p n (i + 1)

variable {p q : Nat → Bool}

/-- What the scan finds satisfies `p`, and nothing before it does. -/
theorem first_some : ∀ {n i k : Nat}, first p n i = some k →
    p k = true ∧ i ≤ k ∧ k < i + n ∧ ∀ j, i ≤ j → j < k → p j = false
  | 0, _, _, h => absurd h (by simp [first])
  | n + 1, i, k, h => by
      rw [first] at h
      split at h
      · next hp =>
        cases h
        exact ⟨hp, Nat.le_refl _, by omega, fun j h1 h2 => absurd h2 (by omega)⟩
      · next hp =>
        obtain ⟨h1, h2, h3, h4⟩ := first_some h
        refine ⟨h1, by omega, by omega, fun j hj1 hj2 => ?_⟩
        by_cases hj : j = i
        · rw [hj]; simpa using hp
        · exact h4 j (by omega) hj2

/-- The scan comes up empty only when nothing satisfies `p`. -/
theorem first_none : ∀ {n i : Nat}, first p n i = none → ∀ j, i ≤ j → j < i + n → p j = false
  | 0, _, _, j, h1, h2 => absurd h2 (by omega)
  | n + 1, i, h, j, h1, h2 => by
      rw [first] at h
      split at h
      · exact absurd h (by simp)
      · next hp =>
        by_cases hj : j = i
        · rw [hj]; simpa using hp
        · exact first_none h j (by omega) (by omega)

section UpToFirst

variable {P A C : Nat → Prop} {n i : Nat}

/-- What is asked of every index up to the first in `P`, when that is the next one. -/
theorem upToFirst_here (h : P i) :
    (∀ j, i ≤ j → j < i + (n + 1) → (∀ k, i ≤ k → k < j → ¬ P k) → A j ∧ (P j → C j)) ↔ A i
      ∧ C i := by
  constructor
  · intro hall
    obtain ⟨ha, hc⟩ := hall i (Nat.le_refl i) (by omega) fun k h1 h2 => absurd h2 (by omega)
    exact ⟨ha, hc h⟩
  · intro hac j h1 h2 hno
    by_cases hj : j = i
    · exact hj ▸ ⟨hac.1, fun _ => hac.2⟩
    · exact absurd h (hno i (Nat.le_refl i) (by omega))

/-- What is asked of every index up to the first in `P`, when that comes later. -/
theorem upToFirst_later (h : ¬ P i) :
    (∀ j, i ≤ j → j < i + (n + 1) → (∀ k, i ≤ k → k < j → ¬ P k) → A j ∧ (P j → C j))
      ↔ A i ∧ ∀ j, i + 1 ≤ j → j < i + 1 + n → (∀ k, i + 1 ≤ k → k < j → ¬ P k) → A j
        ∧ (P j → C j) := by
  constructor
  · intro hall
    refine ⟨(hall i (Nat.le_refl i) (by omega) fun k h1 h2 => absurd h2 (by omega)).1,
      fun j h1 h2 hno => ?_⟩
    refine hall j (by omega) (by omega) fun k hk1 hk2 => ?_
    by_cases hk : k = i
    · exact hk ▸ h
    · exact hno k (by omega) hk2
  · intro hrest j h1 h2 hno
    by_cases hj : j = i
    · exact hj ▸ ⟨hrest.1, fun hp => absurd hp h⟩
    · exact hrest.2 j (by omega) (by omega) fun k hk1 hk2 => hno k (by omega) hk2

end UpToFirst

/-- A scan finds the one index that satisfies `p`. -/
theorem first_unique {n k : Nat} (hk : k < n) (hp : p k = true)
    (hu : ∀ j, j < n → p j = true → j = k) : first p n 0 = some k := by
  cases hf : first p n 0 with
  | none => rw [first_none hf k (Nat.zero_le _) (by omega)] at hp; exact absurd hp (by simp)
  | some j =>
      obtain ⟨h1, _, h3, _⟩ := first_some hf
      rw [hu j (by omega) h1]

theorem first_congr : ∀ {n i : Nat}, (∀ j, i ≤ j → j < i + n → p j = q j) →
    first p n i = first q n i
  | 0, _, _ => rfl
  | n + 1, i, h => by
      rw [first, first, h i (Nat.le_refl _) (by omega),
        first_congr fun j h1 h2 => h j (by omega) (by omega)]

/-- A scan is a search in the list of the indices. -/
theorem first_eq_find? : ∀ (n i : Nat), first p n i = (List.range' i n).find? p
  | 0, _ => rfl
  | n + 1, i => by
      rw [first, List.range'_succ, List.find?_cons]
      cases hp : p i with
      | true => rfl
      | false => exact first_eq_find? n (i + 1)

end Scan
