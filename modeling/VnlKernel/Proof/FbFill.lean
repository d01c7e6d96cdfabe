import VnlKernel.Lib.Raster
import VnlKernel.Drivers.Fb

/-!
# What `fb_fill_rect` paints

The rectangle is cut to the screen by comparing `x + w` with the width. As numbers of 32 bits
the two may add up to less than either, and then nothing is cut: the row goes on behind its
last pixel, or the rows behind the last one. So a rectangle is painted exactly if neither sum
wraps, or if there is nothing to paint.
-/

namespace VnlKernel

open ByteMem Bits

namespace Fb

variable {fb : Fb} {m m' : Mem} {a x y w h c : Nat}

/-! ## Each loop paints -/

/-- There is a picture, its size fits in 32 bits, and it ends where the addresses end or before. -/
structure Fits (fb : Fb) : Prop where
  ok : fb.ok = true
  wide : 4 * fb.info.width ≤ fb.info.pitch
  short : fb.info.pitch * fb.info.height < 2 ^ 32
  virt : fb.virt < 2 ^ 64
  room : fb.virt + fb.info.pitch * fb.info.height ≤ 2 ^ 64

/-- The picture in memory. -/
def Fits.raster (hfb : fb.Fits) : Raster := ⟨fb.virt, fb.info.pitch, fb.info.width, 4, hfb.wide⟩

/-- `fb_multiboot_init` takes no picture above 4 GiB. -/
theorem fbMultibootInit_fits {info : FBInfo} (hok : (fbMultibootInit info).ok)
    (hwide : 4 * info.width ≤ info.pitch)
    (hshort : info.pitch * info.height < 2 ^ 32) :
    (fbMultibootInit info).Fits ∧ (fbMultibootInit info).info = info := by
  unfold fbMultibootInit at hok ⊢
  split at hok
  · cases hok
  · next h1 =>
      split at hok
      · cases hok
      · next h2 =>
          dsimp only at hok ⊢
          rw [if_neg h1, if_neg h2]
          split at hok
          · cases hok
          · next h3 =>
              rw [if_neg h3]
              exact ⟨⟨rfl, hwide, hshort, by dsimp only; omega, by dsimp only; omega⟩, rfl⟩

/-- The picture keeps its place in a page. -/
theorem kernelMainMap_virt {v : FbVars} (hv : v.physFramebufferAddr < 2 ^ 64) (fb : Fb) :
    (fb.kernelMainMap v).virt = fb.virt
      ∨ virtStart ≤ (fb.kernelMainMap v).virt ∧ (fb.kernelMainMap v).virt < virtStart + 4096 := by
  unfold kernelMainMap
  split
  · refine .inr ?_
    have hdown : alignDown v.physFramebufferAddr 4096 = v.physFramebufferAddr / 4096 * 4096 :=
      alignDown_pow (k := 12) hv (by decide)
    have hstart : virtStart = 0xFFFFFFFFD0000000 := rfl
    dsimp only
    rw [hdown, u64_of_lt (by omega)]
    omega
  · exact .inl rfl

/-- `kernel_main` moves every picture that fits in the 768 MiB from `virt_start` on, less a page. -/
theorem Fits.kernelMainMap {v : FbVars} (hfb : fb.Fits) (hv : v.physFramebufferAddr < 2 ^ 64)
    (hsmall : fb.info.pitch * fb.info.height + 4096 ≤ 0x30000000) : (fb.kernelMainMap v).Fits := by
  have hsame : (fb.kernelMainMap v).ok = fb.ok ∧ (fb.kernelMainMap v).info = fb.info := by
    unfold Fb.kernelMainMap
    split <;> exact ⟨rfl, rfl⟩
  have hstart : virtStart = 0xFFFFFFFFD0000000 := rfl
  have hroom := hfb.room
  have hvirt := hfb.virt
  have hplace := kernelMainMap_virt hv fb
  obtain ⟨hok, hinfo⟩ := hsame
  refine ⟨hok.trans hfb.ok, ?_, ?_, by omega, ?_⟩
  · rw [hinfo]
    exact hfb.wide
  · rw [hinfo]
    exact hfb.short
  · rw [hinfo]
    omega

/-- Up to the row behind the last, no product wraps. -/
theorem Fits.offsets (hfb : fb.Fits) (hh : 0 < fb.info.height) (hx : x < fb.info.width)
    (hy : y ≤ fb.info.height) :
    y * fb.info.pitch < 2 ^ 32 ∧ x * 4 < 2 ^ 32 := by
  have hrow : y * fb.info.pitch ≤ fb.info.pitch * fb.info.height := by
    rw [Nat.mul_comm fb.info.pitch]
    exact Nat.mul_le_mul_right _ hy
  have hpitch : fb.info.pitch ≤ fb.info.pitch * fb.info.height := Nat.le_mul_of_pos_right _ hh
  have hshort := hfb.short
  have hwide := hfb.wide
  exact ⟨by omega, by omega⟩

/-- The rest of a row is in the picture. -/
theorem Fits.row_end (hfb : fb.Fits) (hx : x ≤ fb.info.width) (hy : y < fb.info.height) :
    hfb.raster.pixel x y + 4 * (fb.info.width - x) ≤ fb.virt + fb.info.pitch * fb.info.height := by
  have hrow : (y + 1) * fb.info.pitch ≤ fb.info.pitch * fb.info.height := by
    rw [Nat.mul_comm fb.info.pitch]
    exact Nat.mul_le_mul_right _ hy
  rw [Nat.succ_mul] at hrow
  have hwide := hfb.wide
  change fb.virt + y * fb.info.pitch + 4 * x + 4 * (fb.info.width - x) ≤ _
  omega

/-- Only the last sum can wrap, and only behind the picture. -/
theorem Fits.pixelPtr_u64 (hfb : fb.Fits) (hh : 0 < fb.info.height) (hx : x < fb.info.width)
    (hy : y ≤ fb.info.height) : fb.pixelPtr x y = u64 (hfb.raster.pixel x y) := by
  obtain ⟨h1, h2⟩ := hfb.offsets hh hx hy
  have heq : fb.virt + y * fb.info.pitch + x * 4 = hfb.raster.pixel x y := by
    rw [Nat.mul_comm x 4]
    rfl
  rw [pixelPtr, u32, u32, Nat.mod_eq_of_lt h1, Nat.mod_eq_of_lt h2, heq]

theorem Fits.pixelPtr_eq (hfb : fb.Fits) (hx : x < fb.info.width) (hy : y < fb.info.height) :
    fb.pixelPtr x y = hfb.raster.pixel x y := by
  have hend := hfb.row_end (Nat.le_of_lt hx) hy
  have hroom := hfb.room
  rw [hfb.pixelPtr_u64 (by omega) hx (Nat.le_of_lt hy), u64_of_lt (by omega)]

/-- The first `n` pixels from `x` on. -/
theorem fillCols_paints (hfb : fb.Fits) (m : Mem) (hc : c < 2 ^ 32)
    (hy : y < fb.info.height) :
    ∀ {n : Nat}, x + n ≤ fb.info.width →
    hfb.raster.Paints (fun i j => x ≤ i ∧ i < x + n ∧ j = y) c m
      (fillCols m (hfb.raster.pixel x y) c n)
  | 0, _ => (Raster.Paints.none m).congr fun i j => ⟨fun h => h.elim, fun h => by omega⟩
  | n + 1, hn => by
      have ih := fillCols_paints hfb m hc hy (n := n) (by omega)
      have hend := hfb.row_end (x := x) (by omega) hy
      have hroom := hfb.room
      have hptr : u64 (hfb.raster.pixel x y + 4 * n) = hfb.raster.pixel (x + n) y := by
        rw [u64_of_lt (by omega)]
        change fb.virt + y * fb.info.pitch + 4 * x + 4 * n
          = fb.virt + y * fb.info.pitch + 4 * (x + n)
        ring
      rw [fillCols, hptr]
      refine (ih.union ?_ ?_ (Raster.Paints.one _ (x + n) y (by exact hc))).congr ?_
      · intro i j hij
        exact Nat.lt_of_lt_of_le hij.2.1 (by change x + n ≤ fb.info.width; omega)
      · intro i j hij
        rw [hij.1]
        exact hn
      · intro i j
        omega

/-- The first `n` rows from `y` on. -/
theorem fillRows_paints (hfb : fb.Fits) (m : Mem) (hc : c < 2 ^ 32) (hx : x < fb.info.width)
    (hw : x + w ≤ fb.info.width) (hh : fb.info.height < 2 ^ 32) :
    ∀ {n : Nat}, y + n ≤ fb.info.height →
    hfb.raster.Paints (fun i j => x ≤ i ∧ i < x + w ∧ y ≤ j ∧ j < y + n) c m
      (fb.fillRows m x y w c n)
  | 0, _ => (Raster.Paints.none m).congr fun i j => ⟨fun h => h.elim, fun h => by omega⟩
  | n + 1, hn => by
      have ih := fillRows_paints hfb m hc hx hw hh (n := n) (by omega)
      have hrow : u32 (y + n) = y + n := Nat.mod_eq_of_lt (by omega)
      have hptr := hfb.pixelPtr_eq hx (show y + n < fb.info.height by omega)
      rw [fillRows, hrow, hptr]
      refine (ih.union ?_ ?_ (fillCols_paints hfb _ hc (by omega) hw)).congr ?_
      · intro i j hij
        exact Nat.lt_of_lt_of_le hij.2.1 hw
      · intro i j hij
        exact Nat.lt_of_lt_of_le hij.2.1 hw
      · intro i j
        omega

/-! ## What a rectangle should be -/

/-- The pixel is in the rectangle, and on the screen. -/
structure InRect (fb : Fb) (x y w h i j : Nat) : Prop where
  left : x ≤ i
  right : i < x + w
  top : y ≤ j
  bottom : j < y + h
  inWidth : i < fb.info.width
  inHeight : j < fb.info.height

/-- The pixels of the rectangle are `c`, and every byte of none of them is as it was. -/
structure FillsExactly (fb : Fb) (m m' : Mem) (x y w h c : Nat) : Prop where
  pixels : ∀ i j, fb.InRect x y w h i j → fb.getPixel m' i j = c
  others : ∀ a, (∀ i j, fb.InRect x y w h i j →
    a < fb.virt + j * fb.info.pitch + 4 * i ∨ fb.virt + j * fb.info.pitch + 4 * i + 4 ≤ a) → m' a = m a

theorem Fits.getPixel_eq (hfb : fb.Fits) (m : Mem) {i j : Nat} (hi : i < fb.info.width)
    (hj : j < fb.info.height) :
    fb.getPixel m i j = readLE m (hfb.raster.pixel i j) 4 := by
  have hgood : ¬ (!fb.ok ∨ i ≥ fb.info.width ∨ j ≥ fb.info.height) := by
    rw [hfb.ok]
    simp only [Bool.not_true, Bool.false_eq_true, false_or, not_or]
    omega
  rw [getPixel, if_neg hgood, hfb.pixelPtr_eq hi hj]

theorem fillsExactly_iff (hfb : fb.Fits) :
    fb.FillsExactly m m' x y w h c ↔ hfb.raster.Paints (fb.InRect x y w h) c m m' := by
  constructor
  · intro hf
    refine ⟨fun i j hij => ?_, hf.others⟩
    rw [← hf.pixels i j hij, hfb.getPixel_eq m' hij.inWidth hij.inHeight]
    rfl
  · intro hp
    refine ⟨fun i j hij => ?_, hp.off⟩
    rw [hfb.getPixel_eq m' hij.inWidth hij.inHeight]
    exact hp.on i j hij

/-- `w` and `h` after the comparisons. -/
def clip (x w width : Nat) : Nat := if u32 (x + w) > width then width - x else w

theorem fillRect_none (h0 : w = 0 ∨ h = 0 ∨ fb.info.width ≤ x ∨ fb.info.height ≤ y) :
    fb.fillRect m x y w h c = m := by
  unfold fillRect
  split
  · rfl
  · next hn =>
      rw [if_pos]
      simp only [not_or] at hn
      omega

theorem fillRect_some (hfb : fb.Fits) (hw : w ≠ 0) (hh : h ≠ 0) (hx : x < fb.info.width)
    (hy : y < fb.info.height) :
    fb.fillRect m x y w h c = fb.fillRows m x y (clip x w fb.info.width) c
      (clip y h fb.info.height) := by
  have h1 : ¬ (!fb.ok ∨ w = 0 ∨ h = 0) := by
    rw [hfb.ok]
    simp [hw, hh]
  rw [fillRect, if_neg h1, if_neg (by omega)]
  rfl

/-- No sum wraps: the rectangle is cut to what is on the screen. -/
theorem clip_of_lt {width : Nat} (hx : x < width) (hlt : x + w < 2 ^ 32) :
    x + clip x w width ≤ width ∧ ∀ i, (x ≤ i ∧ i < x + clip x w width ↔ x ≤ i ∧ i < x + w
      ∧ i < width) := by
  have hsum : u32 (x + w) = x + w := Nat.mod_eq_of_lt hlt
  unfold clip
  rw [hsum]
  split
  · exact ⟨by omega, fun i => by omega⟩
  · exact ⟨by omega, fun i => by omega⟩

/-- The sum wraps: nothing is cut, although `w` goes beyond the last pixel. -/
theorem clip_of_wraps {width : Nat} (hx : x < width) (hw : w < 2 ^ 32) (hwrap : 2 ^ 32 ≤ x + w)
    (hwidth : width < 2 ^ 32) : clip x w width = w ∧ width - x < w := by
  have hsum : u32 (x + w) = x + w - 2 ^ 32 := by
    rw [u32, Nat.mod_eq_sub_mod hwrap, Nat.mod_eq_of_lt (by omega)]
  unfold clip
  rw [hsum, if_neg (by omega)]
  exact ⟨rfl, by omega⟩

/-! ## What is painted whatever is not cut -/

theorem fillCols_at {p : Nat} (ha : m a = m' a) : ∀ n, fillCols m p c n a = fillCols m' p c n a
  | 0 => ha
  | n + 1 => by
      rw [fillCols, fillCols, writeLE, writeLE, fillCols_at ha n]

/-- A byte that a turn writes does not depend on what was there before. -/
theorem fillCols_set {p col : Nat} (ha : a = u64 (p + 4 * col)) :
    ∀ {n : Nat}, col < n → fillCols m p c n a = fillCols m' p c n a
  | 0, hn => absurd hn (Nat.not_lt_zero _)
  | n + 1, hn => by
      rw [fillCols, fillCols, writeLE, writeLE]
      by_cases he : col = n
      · subst he
        rw [if_pos (by omega), if_pos (by omega)]
      · rw [fillCols_set ha (show col < n by omega)]

theorem fillRows_set (row col : Nat) (ha : a = u64 (fb.pixelPtr x (u32 (y + row)) + 4 * col))
    (hcol : col < w) : ∀ {n : Nat}, row < n → fb.fillRows m x y w c n a = fb.fillRows m' x y w c n a
  | 0, hn => absurd hn (Nat.not_lt_zero _)
  | n + 1, hn => by
      rw [fillRows, fillRows]
      by_cases he : row = n
      · subst he
        exact fillCols_set ha hcol
      · exact fillCols_at (fillRows_set row col ha hcol (show row < n by omega)) w

/-- A byte off the rectangle keeps what it holds, so it cannot be one that is written. -/
theorem not_exact_of_set {f : Mem → Mem} {A : Nat → Nat → Prop} {r : Raster}
    (hset : ∀ m m', f m a = f m' a)
    (hoff : r.Off A a) : ¬ ∀ m, r.Paints A c m (f m) := by
  intro h
  have h0 := (h fun _ => 0).off a hoff
  have h1 := (h fun _ => 1).off a hoff
  rw [hset (fun _ => 0) (fun _ => 1), h1] at h0
  exact absurd h0 (by decide)

/-- Neither sum wraps, or there is nothing to paint. -/
def NoWrap (info : FBInfo) (x y w h : Nat) : Prop :=
  w = 0 ∨ h = 0 ∨ info.width ≤ x ∨ info.height ≤ y ∨ (x + w < 2 ^ 32 ∧ y + h < 2 ^ 32)

/-- The sizes fit in 32 bits, as soon as there is a pixel. -/
theorem Fits.sizes (hfb : fb.Fits) (hx : x < fb.info.width) (hy : y < fb.info.height) :
    fb.info.width < 2 ^ 32 ∧ fb.info.height < 2 ^ 32 := by
  have h1 : fb.info.pitch ≤ fb.info.pitch * fb.info.height := Nat.le_mul_of_pos_right _ (by omega)
  have hwide := hfb.wide
  have h2 : fb.info.height ≤ fb.info.pitch * fb.info.height := Nat.le_mul_of_pos_left _ (by omega)
  have hshort := hfb.short
  exact ⟨by omega, by omega⟩

theorem fillRect_paints (hfb : fb.Fits) (m : Mem) (hc : c < 2 ^ 32) (hno : NoWrap fb.info x y w h) :
    hfb.raster.Paints (fb.InRect x y w h) c m (fb.fillRect m x y w h c) := by
  by_cases hnone : w = 0 ∨ h = 0 ∨ fb.info.width ≤ x ∨ fb.info.height ≤ y
  · rw [fillRect_none hnone]
    refine (Raster.Paints.none m).congr fun i j => ⟨fun hf => hf.elim, fun hij => ?_⟩
    have h1 := hij.left
    have h2 := hij.right
    have h3 := hij.top
    have h4 := hij.bottom
    have h5 := hij.inWidth
    have h6 := hij.inHeight
    omega
  · unfold NoWrap at hno
    simp only [not_or, Nat.not_le] at hnone
    obtain ⟨hw0, hh0, hx, hy⟩ := hnone
    obtain ⟨hwlt, hhlt⟩ : x + w < 2 ^ 32 ∧ y + h < 2 ^ 32 := by omega
    obtain ⟨hwidth, hheight⟩ := hfb.sizes hx hy
    obtain ⟨hcw, hiw⟩ := clip_of_lt hx hwlt
    obtain ⟨hch, hih⟩ := clip_of_lt hy hhlt
    rw [fillRect_some hfb hw0 hh0 hx hy]
    refine (fillRows_paints hfb m hc hx hcw hheight hch).congr fun i j => ?_
    constructor
    · intro ⟨h1, h2, h3, h4⟩
      obtain ⟨_, h5, h6⟩ := (hiw i).mp ⟨h1, h2⟩
      obtain ⟨_, h7, h8⟩ := (hih j).mp ⟨h3, h4⟩
      exact ⟨h1, h5, h3, h7, h6, h8⟩
    · intro hij
      obtain ⟨h1, h2⟩ := (hiw i).mpr ⟨hij.left, hij.right, hij.inWidth⟩
      obtain ⟨h3, h4⟩ := (hih j).mpr ⟨hij.top, hij.bottom, hij.inHeight⟩
      exact ⟨h1, h2, h3, h4⟩

theorem clip_pos {width : Nat} (hx : x < width) (hw : w ≠ 0) : 0 < clip x w width := by
  unfold clip
  split
  · omega
  · omega

/-- The byte behind the last pixel of a row. If it belongs to the next row, then to a pixel left of
the rectangle. -/
theorem off_of_row (hfb : fb.Fits) (hx0 : 0 < x) :
    hfb.raster.Off (fb.InRect x y w h) (hfb.raster.pixel fb.info.width y) := by
  intro i j hij
  rcases Nat.lt_trichotomy j y with hj | hj | hj
  · have hend := Raster.pixel_of_row_lt (r := hfb.raster) hij.inWidth hj
    exact .inr (Nat.le_trans hend (Raster.row_le_pixel hfb.raster fb.info.width y))
  · rw [hj]
    exact .inr (Raster.pixel_of_col_lt y hij.inWidth)
  · have hnext : (y + 1) * fb.info.pitch ≤ j * fb.info.pitch := Nat.mul_le_mul_right _ hj
    rw [Nat.succ_mul] at hnext
    have hleft := hij.left
    have hwide := hfb.wide
    refine .inl ?_
    change fb.virt + y * fb.info.pitch + 4 * fb.info.width < fb.virt + j * fb.info.pitch + 4 * i
    omega

/-- The row behind the last has no pixel. -/
theorem off_of_rows (hfb : fb.Fits) :
    hfb.raster.Off (fb.InRect x y w h) (hfb.raster.pixel x fb.info.height) := by
  intro i j hij
  have hend := Raster.pixel_of_row_lt (r := hfb.raster) hij.inWidth hij.inHeight
  have hle := Raster.row_le_pixel hfb.raster x fb.info.height
  exact .inr (Nat.le_trans hend hle)

/-- Behind the last address comes the first one, and the picture is behind that. -/
theorem off_u64 (hfb : fb.Fits) (hlt : a < fb.virt + 2 ^ 64)
    (hoff : hfb.raster.Off (fb.InRect x y w h) a) : hfb.raster.Off (fb.InRect x y w h) (u64 a) := by
  by_cases hin : a < 2 ^ 64
  · rw [u64_of_lt hin]
    exact hoff
  · intro i j hij
    have hvirt := hfb.virt
    have hwraps : u64 a = a - 2 ^ 64 := by
      rw [u64, Nat.mod_eq_sub_mod (by omega), Nat.mod_eq_of_lt (by omega)]
    refine .inl ?_
    change u64 a < fb.virt + j * fb.info.pitch + 4 * i
    omega

theorem fillRect_not_paints (hfb : fb.Fits) (hw : w < 2 ^ 32) (hh : h < 2 ^ 32)
    (hno : ¬ NoWrap fb.info x y w h) :
    ¬ ∀ m, hfb.raster.Paints (fb.InRect x y w h) c m (fb.fillRect m x y w h c) := by
  unfold NoWrap at hno
  simp only [not_or, Nat.not_le] at hno
  obtain ⟨hw0, hh0, hx, hy, hwrap⟩ := hno
  obtain ⟨hwidth, hheight⟩ := hfb.sizes hx hy
  have hshort := hfb.short
  by_cases hxw : 2 ^ 32 ≤ x + w
  · obtain ⟨hclip, hbeyond⟩ := clip_of_wraps hx hw hxw hwidth
    -- the first row goes on behind its last pixel
    have hrow : u32 (y + 0) = y := Nat.mod_eq_of_lt (by omega)
    have hptr := hfb.pixelPtr_eq hx hy
    have hend := hfb.row_end (Nat.le_refl _) hy
    have haddr : hfb.raster.pixel fb.info.width y
        = hfb.raster.pixel x y + 4 * (fb.info.width - x) := by
      change fb.virt + y * fb.info.pitch + 4 * fb.info.width
        = fb.virt + y * fb.info.pitch + 4 * x + 4 * (fb.info.width - x)
      omega
    refine not_exact_of_set (a := u64 (hfb.raster.pixel fb.info.width y)) (fun m m' => ?_)
      (off_u64 hfb (by omega) (off_of_row hfb (by omega)))
    rw [fillRect_some hfb hw0 hh0 hx hy, fillRect_some hfb hw0 hh0 hx hy, hclip, haddr]
    refine fillRows_set 0 (fb.info.width - x) ?_ hbeyond (clip_pos hy hh0)
    rw [hrow, hptr]
  · obtain ⟨hclip, hbeyond⟩ := clip_of_wraps hy hh (by omega) hheight
    -- the rows go on behind the last one
    have hrow : u32 (y + (fb.info.height - y)) = fb.info.height := by
      rw [show y + (fb.info.height - y) = fb.info.height by omega]
      exact Nat.mod_eq_of_lt hheight
    have hptr := hfb.pixelPtr_u64 (by omega) hx (Nat.le_refl fb.info.height)
    have hlt : hfb.raster.pixel x fb.info.height < fb.virt + 2 ^ 64 := by
      obtain ⟨hrows, hcols⟩ := hfb.offsets (by omega) hx (Nat.le_refl _)
      change fb.virt + fb.info.height * fb.info.pitch + 4 * x < fb.virt + 2 ^ 64
      omega
    refine not_exact_of_set (a := u64 (hfb.raster.pixel x fb.info.height)) (fun m m' => ?_)
      (off_u64 hfb hlt (off_of_rows hfb))
    rw [fillRect_some hfb hw0 hh0 hx hy, fillRect_some hfb hw0 hh0 hx hy, hclip]
    refine fillRows_set (fb.info.height - y) 0 ?_ (clip_pos hx hw0) hbeyond
    rw [hrow, hptr]
    exact (Nat.mod_mod _ _).symm

theorem fillsExactly_iff_noWrap (hfb : fb.Fits) (hw : w < 2 ^ 32) (hh : h < 2 ^ 32)
    (hc : c < 2 ^ 32) :
    (∀ m, fb.FillsExactly m (fb.fillRect m x y w h c) x y w h c) ↔ NoWrap fb.info x y w h := by
  constructor
  · intro hall
    by_contra hno
    exact fillRect_not_paints hfb hw hh hno fun m => (fillsExactly_iff hfb).mp (hall m)
  · intro hno m
    exact (fillsExactly_iff hfb).mpr (fillRect_paints hfb m hc hno)

/-- **A rectangle is painted, and nothing else, exactly when no sum wraps**, wherever the picture is
mapped. -/
theorem fillRect_exact_iff {fb : Fb} (hok : fb.ok = true) (hwide : 4 * fb.info.width ≤ fb.info.pitch)
    (hshort : fb.info.pitch * fb.info.height < 2 ^ 32) (hvirt : fb.virt < 2 ^ 64)
    (hroom : fb.virt + fb.info.pitch * fb.info.height ≤ 2 ^ 64) {x y w h c : Nat} (hw : w < 2 ^ 32)
    (hh : h < 2 ^ 32) (hc : c < 2 ^ 32) :
    (∀ m, fb.FillsExactly m (fb.fillRect m x y w h c) x y w h c) ↔ NoWrap fb.info x y w h :=
  fillsExactly_iff_noWrap ⟨hok, hwide, hshort, hvirt, hroom⟩ hw hh hc

/-- A picture of four pixels by four, at the place that `kernel_main` moves it to. -/
def smallFb : Fb :=
  (fbMultibootInit ⟨0xE0000000, 16, 4, 4, 32, 1⟩).kernelMainMap ⟨0xE0000000, 4, 4, 16, 32⟩

/-- Two rows that stick out below. -/
theorem fillRect_exact_cut : smallFb.FillsExactly (fun _ => 0)
    (smallFb.fillRect (fun _ => 0) 1 3 2 2 0xFF2D2D3D) 1 3 2 2 0xFF2D2D3D :=
  (fillRect_exact_iff (by decide) (by decide) (by decide) (by decide) (by decide) (by decide)
    (by decide) (by decide)).mpr (.inr (.inr (.inr (.inr (by decide))))) _

/-- **All of a row but its first pixel, and a width that wraps**: the row is not cut. -/
theorem fillRect_runs_on : ¬ ∀ m, smallFb.FillsExactly m
    (smallFb.fillRect m 1 0 0xFFFFFFFF 1 0xFF2D2D3D) 1 0 0xFFFFFFFF 1 0xFF2D2D3D := by
  rw [fillsExactly_iff_noWrap ⟨by decide, by decide, by decide, by decide, by decide⟩ (by decide)
    (by decide) (by decide)]
  unfold NoWrap
  decide

end Fb

end VnlKernel
