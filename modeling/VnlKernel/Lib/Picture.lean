import VnlKernel.Lib.Raster

/-!
# Pictures

What is seen of a raster is a value for each pixel. Drawing sets the pixels of an area to those of
a picture and no byte of any other pixel, so several turns that draw parts of one picture draw all
of their parts, in whatever order, and however often they draw a pixel.
-/

open ByteMem

namespace Raster

variable {r : Raster} {i j x y n h : Nat} {m m' m'' : Mem} {A B : Nat → Nat → Prop}
  {pic : Nat → Nat → Nat}

/-- What is seen at pixel `i` of row `j`. -/
def seen (r : Raster) (m : Mem) (i j : Nat) : Nat := readLE m (r.pixel i j) r.size

/-- The pixels of `A` are those of `pic`, and every byte of none of them is as it was. -/
structure Draws (r : Raster) (A : Nat → Nat → Prop) (pic : Nat → Nat → Nat) (m m' : Mem) : Prop where
  on : ∀ i j, A i j → r.seen m' i j = pic i j
  off : ∀ a, r.Off A a → m' a = m a

theorem Paints.draws {c : Nat} (hp : r.Paints A c m m') : r.Draws A (fun _ _ => c) m m' :=
  ⟨hp.on, hp.off⟩

theorem Draws.none (m : Mem) : r.Draws (fun _ _ => False) pic m m :=
  ⟨fun _ _ h => h.elim, fun _ _ => rfl⟩

theorem Draws.congr {pic' : Nat → Nat → Nat} (hd : r.Draws A pic m m') (he : ∀ i j, A i j ↔ B i j)
    (hpic : ∀ i j, A i j → pic i j = pic' i j) : r.Draws B pic' m m' where
  on := by
    intro i j hb
    have ha := (he i j).mpr hb
    rw [hd.on i j ha, hpic i j ha]
  off := fun a ha => hd.off a fun i j hA => ha i j ((he i j).mp hA)

/-- One pixel. -/
theorem Draws.one {c : Nat} (m : Mem) (x y : Nat) (hc : c < 256 ^ r.size) (hpic : pic x y = c) :
    r.Draws (fun i j => i = x ∧ j = y) pic m (writeLE m (r.pixel x y) r.size c) := by
  refine (Paints.one m x y hc).draws.congr (fun _ _ => Iff.rfl) ?_
  intro i j hij
  rw [hij.1, hij.2, hpic]

/-- **A pixel that is not drawn is seen as before.** -/
theorem Draws.keeps (hd : r.Draws A pic m m') (hA : ∀ i j, A i j → i < r.width) (hi : i < r.width)
    (hn : ¬ A i j) : r.seen m' i j = r.seen m i j := by
  refine readLE_congr _ _ fun a h1 h2 => hd.off a fun i' j' ha => ?_
  have hne : ¬ (i = i' ∧ j = j') := by
    intro he
    rw [he.1, he.2] at hn
    exact hn ha
  rcases pixel_apart hi (hA i' j' ha) hne with hap | hap
  · exact .inl (Nat.lt_of_lt_of_le h2 hap)
  · exact .inr (Nat.le_trans hap h1)

/-- **One part of a picture after the other.** -/
theorem Draws.union (hA : ∀ i j, A i j → i < r.width) (hB : ∀ i j, B i j → i < r.width)
    (hd : r.Draws A pic m m') (hd' : r.Draws B pic m' m'') :
    r.Draws (fun i j => A i j ∨ B i j) pic m m'' where
  on := by
    intro i j hij
    by_cases hb : B i j
    · exact hd'.on i j hb
    · have ha : A i j := hij.resolve_right hb
      rw [hd'.keeps hB (hA i j ha) hb, hd.on i j ha]
  off := fun a ha => (hd'.off a fun i j hb => ha i j (.inr hb)).trans
    (hd.off a fun i j hA => ha i j (.inl hA))

/-- **A loop each of whose turns draws a part.** -/
theorem Draws.loop {turn : Mem → Nat → Mem} {P : Nat → Nat → Nat → Prop} (m : Mem)
    (hpart : ∀ k i j, P k i j → i < r.width)
    (hturn : ∀ m k, k < n → r.Draws (P k) pic m (turn m k)) :
    r.Draws (fun i j => ∃ k, k < n ∧ P k i j) pic m ((List.range n).foldl turn m) := by
  induction n with
  | zero =>
      have hnone : r.Draws (fun _ _ => False) pic m m := Draws.none m
      refine hnone.congr (fun i j => ?_) fun _ _ h => h.elim
      constructor
      · exact False.elim
      · rintro ⟨k, hk, _⟩
        exact absurd hk (Nat.not_lt_zero k)
  | succ n ih =>
      rw [List.range_succ, List.foldl_append, List.foldl_cons, List.foldl_nil]
      have hfirst := ih fun m k hk => hturn m k (Nat.lt_succ_of_lt hk)
      have hlast := hturn ((List.range n).foldl turn m) n (Nat.lt_succ_self n)
      refine (hfirst.union ?_ (hpart n) hlast).congr (fun i j => ?_) fun _ _ _ => rfl
      · rintro i j ⟨k, _, hk⟩
        exact hpart k i j hk
      · constructor
        · rintro (⟨k, hk, hp⟩ | hp)
          · exact ⟨k, Nat.lt_succ_of_lt hk, hp⟩
          · exact ⟨n, Nat.lt_succ_self n, hp⟩
        · rintro ⟨k, hk, hp⟩
          rcases Nat.lt_succ_iff_lt_or_eq.mp hk with hlt | rfl
          · exact .inl ⟨k, hlt, hp⟩
          · exact .inr hp

/-! ## What no drawing touches -/

/-- The bytes that belong to no pixel of the first `h` rows are as they were. -/
def Within (r : Raster) (h : Nat) (m m' : Mem) : Prop :=
  ∀ a, r.Off (fun i j => i < r.width ∧ j < h) a → m' a = m a

theorem Within.refl (m : Mem) : r.Within h m m := fun _ _ => rfl

theorem Within.trans (hw : r.Within h m m') (hw' : r.Within h m' m'') : r.Within h m m'' :=
  fun a ha => (hw' a ha).trans (hw a ha)

theorem Draws.within (hd : r.Draws A pic m m') (hA : ∀ i j, A i j → i < r.width ∧ j < h) :
    r.Within h m m' :=
  fun a ha => hd.off a fun i j hij => ha i j (hA i j hij)

theorem Within.loop {turn : Mem → Nat → Mem} (m : Mem)
    (hturn : ∀ m k, k < n → r.Within h m (turn m k)) :
    r.Within h m ((List.range n).foldl turn m) := by
  induction n with
  | zero => exact Within.refl m
  | succ n ih =>
      rw [List.range_succ, List.foldl_append]
      exact (ih fun m k hk => hturn m k (Nat.lt_succ_of_lt hk)).trans
        (hturn _ n (Nat.lt_succ_self n))

/-! ## Rows that are moved -/

/-- The same bytes elsewhere. -/
theorem readLE_moved : ∀ (n a b : Nat), (∀ k, k < n → m' (a + k) = m (b + k)) →
    readLE m' a n = readLE m b n
  | 0, _, _, _ => rfl
  | n + 1, a, b, hk => by
      have hrest := readLE_moved n (a + 1) (b + 1) fun k hlt => by
        have := hk (k + 1) (Nat.succ_lt_succ hlt)
        rwa [← Nat.add_assoc, ← Nat.add_assoc, Nat.add_right_comm a, Nat.add_right_comm b] at this
      have hfirst : m' a = m b := hk 0 (Nat.succ_pos n)
      rw [readLE, readLE, hrest, hfirst]

theorem pixel_add (x y n : Nat) : r.pixel x y + r.size * n = r.pixel (x + n) y := by
  unfold pixel
  rw [Nat.mul_add, Nat.add_assoc]

/-- Where the last pixel of a row ends, no later row has begun. -/
theorem pixel_le_row (hi : i ≤ r.width) (hj : j < y) : r.pixel i j ≤ r.base + y * r.pitch := by
  have hcol := Nat.le_trans (Nat.mul_le_mul_left r.size hi) r.wide
  have hrow := Nat.mul_le_mul_right r.pitch (Nat.succ_le_of_lt hj)
  rw [Nat.succ_mul] at hrow
  unfold pixel
  omega

/-- **`n` pixels of a row go to another row.** -/
theorem seen_memmove {y' : Nat} (hn : x + n ≤ r.width) (hi : i < r.width) :
    r.seen (memmove m (r.pixel x y) (r.pixel x y') (r.size * n)) i j
      = if j = y ∧ x ≤ i ∧ i < x + n then r.seen m i y' else r.seen m i j := by
  unfold seen
  by_cases hin : j = y ∧ x ≤ i ∧ i < x + n
  · obtain ⟨rfl, hlo, hhi⟩ := hin
    rw [if_pos ⟨rfl, hlo, hhi⟩]
    obtain ⟨k, rfl⟩ := Nat.exists_eq_add_of_le hlo
    have hlast : r.size * k + r.size ≤ r.size * n := by
      rw [← Nat.mul_succ]
      exact Nat.mul_le_mul_left _ (by omega)
    rw [← pixel_add, ← pixel_add]
    refine readLE_moved _ _ _ fun b hb => ?_
    rw [Nat.add_assoc, Nat.add_assoc]
    exact memmove_in (by omega)
  · rw [if_neg hin]
    refine readLE_congr _ _ fun a h1 h2 => memmove_out ?_
    rw [pixel_add]
    rcases Nat.lt_trichotomy j y with hj | hj | hj
    · exact .inl (Nat.lt_of_lt_of_le h2 (Nat.le_trans (pixel_of_row_lt hi hj) (row_le_pixel r x y)))
    · subst hj
      rcases Nat.lt_or_ge i x with hx | hx
      · exact .inl (Nat.lt_of_lt_of_le h2 (pixel_of_col_lt j hx))
      · have hle : r.pixel (x + n) j ≤ r.pixel i j :=
          Nat.add_le_add_left (Nat.mul_le_mul_left _ (by omega)) _
        exact .inr (Nat.le_trans hle h1)
    · exact .inr (Nat.le_trans (Nat.le_trans (pixel_le_row hn hj) (row_le_pixel r i j)) h1)

theorem within_memmove {y' : Nat} (hn : x + n ≤ r.width) (hy : y < h) :
    r.Within h m (memmove m (r.pixel x y) (r.pixel x y') (r.size * n)) := by
  intro a ha
  refine memmove_out ?_
  by_cases hlt : a < r.pixel x y
  · exact .inl hlt
  · -- not in the first pixel, so behind it, and so on up to the last one
    have hall : ∀ k, k ≤ n → r.pixel x y + r.size * k ≤ a := by
      intro k
      induction k with
      | zero => intro _; omega
      | succ k ih =>
          intro hk
          have hle := ih (by omega)
          rw [pixel_add] at hle
          rcases ha (x + k) y ⟨by omega, hy⟩ with hb | hb
          · omega
          · rw [Nat.mul_succ, ← Nat.add_assoc, pixel_add]
            exact hb
    exact .inr (hall n (Nat.le_refl n))

/-- Each of the first `k` rows becomes the row `d` below it. -/
theorem seen_rows_up {d k : Nat} (hn : x + n ≤ r.width) (hi : i < r.width) :
    r.seen ((List.range k).foldl (fun m row =>
        memmove m (r.pixel x row) (r.pixel x (row + d)) (r.size * n)) m) i j
      = if j < k ∧ x ≤ i ∧ i < x + n then r.seen m i (j + d) else r.seen m i j := by
  induction k generalizing j with
  | zero => rw [if_neg (by omega)]; rfl
  | succ k ih =>
      rw [List.range_succ, List.foldl_append, List.foldl_cons, List.foldl_nil, seen_memmove hn hi,
        ih, ih]
      by_cases hj : j = k
      · subst hj
        -- the row that is copied has not been copied to
        rw [if_neg (show ¬ (j + d < j ∧ x ≤ i ∧ i < x + n) by omega)]
        by_cases hin : x ≤ i ∧ i < x + n
        · rw [if_pos ⟨rfl, hin⟩, if_pos ⟨by omega, hin⟩]
        · rw [if_neg (fun hc => hin hc.2), if_neg (fun hc => hin hc.2), if_neg (fun hc => hin hc.2)]
      · rw [if_neg (fun hc => hj hc.1)]
        by_cases hin : j < k ∧ x ≤ i ∧ i < x + n
        · rw [if_pos hin, if_pos ⟨by omega, hin.2⟩]
        · rw [if_neg hin, if_neg (fun hc => hin ⟨by omega, hc.2⟩)]

end Raster
