import VnlKernel.Lib.ByteMem
import Mathlib.Tactic.Ring

/-!
# Rasters

A picture in memory: rows of pixels that are `size` bytes each, with a new row every `pitch`
bytes. A row may be followed by bytes that belong to no pixel, but the pixels of a row never
reach into the next one. So two pixels share no byte, and areas can be painted one after the
other.
-/

open ByteMem

/-- Where the pixels are. -/
structure Raster where
  base : Nat
  pitch : Nat
  width : Nat
  size : Nat
  /-- A row is long enough for its pixels. -/
  wide : size * width ≤ pitch

namespace Raster

variable {r : Raster} {i j i' j' c : Nat} {m m' m'' : Mem} {A B : Nat → Nat → Prop}

/-- The address of pixel `i` of row `j`. -/
def pixel (r : Raster) (i j : Nat) : Nat := r.base + j * r.pitch + r.size * i

/-- A row ends before the next one begins. -/
theorem pixel_end_le (hi : i < r.width) : r.size * i + r.size ≤ r.pitch := by
  have h := Nat.mul_le_mul_left r.size (Nat.succ_le_of_lt hi)
  rw [Nat.mul_succ] at h
  exact Nat.le_trans h r.wide

/-- Pixels of an earlier row come first. -/
theorem pixel_of_row_lt (hi : i < r.width) (hj : j < j') :
    r.pixel i j + r.size ≤ r.base + j' * r.pitch := by
  have hrow := pixel_end_le hi
  have hle := Nat.mul_le_mul_right r.pitch (Nat.succ_le_of_lt hj)
  rw [Nat.succ_mul] at hle
  unfold pixel
  omega

theorem row_le_pixel (r : Raster) (i j : Nat) : r.base + j * r.pitch ≤ r.pixel i j :=
  Nat.le_add_right _ _

theorem pixel_of_col_lt (j : Nat) (hi : i < i') : r.pixel i j + r.size ≤ r.pixel i' j := by
  have hle := Nat.mul_le_mul_left r.size (Nat.succ_le_of_lt hi)
  rw [Nat.mul_succ] at hle
  unfold pixel
  omega

/-- **Two pixels share no byte.** -/
theorem pixel_apart (hi : i < r.width) (hi' : i' < r.width) (hne : ¬ (i = i' ∧ j = j')) :
    r.pixel i j + r.size ≤ r.pixel i' j' ∨ r.pixel i' j' + r.size ≤ r.pixel i j := by
  rcases Nat.lt_trichotomy j j' with hj | hj | hj
  · exact .inl (Nat.le_trans (pixel_of_row_lt hi hj) (row_le_pixel r i' j'))
  · subst hj
    rcases Nat.lt_trichotomy i i' with h | h | h
    · exact .inl (pixel_of_col_lt j h)
    · exact absurd ⟨h, rfl⟩ hne
    · exact .inr (pixel_of_col_lt j h)
  · exact .inr (Nat.le_trans (pixel_of_row_lt hi' hj) (row_le_pixel r i j))

/-! ## Painting -/

/-- A byte of no pixel of `A`. -/
def Off (r : Raster) (A : Nat → Nat → Prop) (a : Nat) : Prop :=
  ∀ i j, A i j → a < r.pixel i j ∨ r.pixel i j + r.size ≤ a

/-- The pixels of `A` are `c`, and every byte of none of them is as it was. -/
structure Paints (r : Raster) (A : Nat → Nat → Prop) (c : Nat) (m m' : Mem) : Prop where
  on : ∀ i j, A i j → readLE m' (r.pixel i j) r.size = c
  off : ∀ a, r.Off A a → m' a = m a

theorem Paints.none (m : Mem) : r.Paints (fun _ _ => False) c m m :=
  ⟨fun _ _ h => h.elim, fun _ _ => rfl⟩

theorem Paints.congr (h : r.Paints A c m m') (he : ∀ i j, A i j ↔ B i j) : r.Paints B c m m' where
  on := fun i j hb => h.on i j ((he i j).mpr hb)
  off := fun a ha => h.off a fun i j hA => ha i j ((he i j).mp hA)

/-- One pixel. -/
theorem Paints.one (m : Mem) (i j : Nat) (hc : c < 256 ^ r.size) :
    r.Paints (fun i' j' => i' = i ∧ j' = j) c m (writeLE m (r.pixel i j) r.size c) where
  on := by
    intro i' j' h
    rw [h.1, h.2, readLE_writeLE_same]
    exact Nat.mod_eq_of_lt hc
  off := fun a ha => writeLE_out (ha i j ⟨rfl, rfl⟩)

/-- **One area after the other.** -/
theorem Paints.union (hA : ∀ i j, A i j → i < r.width) (hB : ∀ i j, B i j → i < r.width)
    (h : r.Paints A c m m') (h' : r.Paints B c m' m'') :
    r.Paints (fun i j => A i j ∨ B i j) c m m'' where
  on := by
    intro i j hij
    by_cases hb : B i j
    · exact h'.on i j hb
    · have ha : A i j := hij.resolve_right hb
      rw [← h.on i j ha]
      -- none of its bytes belongs to a pixel of the second area
      refine readLE_congr _ _ fun a h1 h2 => h'.off a fun i' j' hb' => ?_
      have hne : ¬ (i = i' ∧ j = j') := by
        intro he
        rw [he.1, he.2] at hb
        exact hb hb'
      rcases pixel_apart (hA i j ha) (hB i' j' hb') hne with hap | hap
      · exact .inl (Nat.lt_of_lt_of_le h2 hap)
      · exact .inr (Nat.le_trans hap h1)
  off := fun a ha => (h'.off a fun i j hb => ha i j (.inr hb)).trans
    (h.off a fun i j hA => ha i j (.inl hA))

end Raster
