import VnlKernel.Lib.Picture
import VnlKernel.Drivers.Fonts
import VnlKernel.Proof.FbFill

/-!
# What is seen on the framebuffer

Each function of `fb.c` that draws makes a picture of the picture before. A coordinate is a number
of 32 bits, and what is not on the screen is not drawn.
-/

namespace VnlKernel

open ByteMem Bits

namespace Fb

variable {fb : Fb} {fonts : Fonts} {m m' : Mem} {i j x y w h c : Nat} {pic : Nat → Nat → Nat}
  {A : Nat → Nat → Prop}

/-- A pixel of the screen. -/
def On (fb : Fb) (i j : Nat) : Prop := i < fb.info.width ∧ j < fb.info.height

instance : Decidable (fb.On i j) := inferInstanceAs (Decidable (_ ∧ _))

instance : Decidable (fb.InRect x y w h i j) :=
  decidable_of_iff (x ≤ i ∧ i < x + w ∧ y ≤ j ∧ j < y + h ∧ i < fb.info.width ∧ j < fb.info.height)
    ⟨fun ⟨h1, h2, h3, h4, h5, h6⟩ => ⟨h1, h2, h3, h4, h5, h6⟩,
      fun h => ⟨h.left, h.right, h.top, h.bottom, h.inWidth, h.inHeight⟩⟩

theorem InRect.on (hij : fb.InRect x y w h i j) : fb.On i j := ⟨hij.inWidth, hij.inHeight⟩

/-- What `fb_get_pixel` returns is what is seen. -/
theorem Fits.getPixel_seen (hfb : fb.Fits) (m : Mem) (hon : fb.On i j) :
    fb.getPixel m i j = hfb.raster.seen m i j :=
  hfb.getPixel_eq m hon.1 hon.2

/-- What was drawn is what `fb_get_pixel` returns. -/
theorem Fits.getPixel_draws (hfb : fb.Fits) [∀ i j, Decidable (A i j)]
    (hd : hfb.raster.Draws A pic m m') (hA : ∀ i j, A i j → fb.On i j) (hon : fb.On i j) :
    fb.getPixel m' i j = if A i j then pic i j else fb.getPixel m i j := by
  rw [hfb.getPixel_seen m' hon, hfb.getPixel_seen m hon]
  split
  · next ha => exact hd.on i j ha
  · next hn => exact hd.keeps (fun i j ha => (hA i j ha).1) hon.1 hn

/-- The bytes that belong to no pixel of the screen are the same. -/
def SameOff (fb : Fb) (m m' : Mem) : Prop :=
  ∀ a, (∀ i j, fb.On i j → a < fb.virt + j * fb.info.pitch + 4 * i
    ∨ fb.virt + j * fb.info.pitch + 4 * i + 4 ≤ a) → m' a = m a

theorem SameOff.trans {m'' : Mem} (h : fb.SameOff m m') (h' : fb.SameOff m' m'') :
    fb.SameOff m m'' :=
  fun a ha => (h' a ha).trans (h a ha)

/-! ## A pixel -/

theorem plot_off (hoff : ¬ fb.On x y) : fb.plot m x y c = m := by
  unfold On at hoff
  refine if_pos ?_
  omega

theorem Fits.plot_on (hfb : fb.Fits) (hon : fb.On x y) :
    fb.plot m x y c = writeLE m (hfb.raster.pixel x y) 4 c := by
  obtain ⟨hx, hy⟩ := hon
  have hgood : ¬ (!fb.ok ∨ x ≥ fb.info.width ∨ y ≥ fb.info.height) := by
    rw [hfb.ok]
    simp only [Bool.not_true, Bool.false_eq_true, false_or, not_or]
    omega
  rw [plot, if_neg hgood, hfb.pixelPtr_eq hx hy]

/-- **`fb_plot` draws the pixel if it is on the screen.** -/
theorem Fits.plot_draws (hfb : fb.Fits) (m : Mem) (hc : c < 2 ^ 32) (hpic : pic x y = c) :
    hfb.raster.Draws (fun i j => i = x ∧ j = y ∧ fb.On x y) pic m (fb.plot m x y c) := by
  by_cases hon : fb.On x y
  · rw [hfb.plot_on hon]
    refine (Raster.Draws.one m x y (by exact hc) hpic).congr (fun i j => ?_) fun _ _ _ => rfl
    exact ⟨fun h => ⟨h.1, h.2, hon⟩, fun h => ⟨h.1, h.2.1⟩⟩
  · rw [plot_off hon]
    have hnone : hfb.raster.Draws (fun _ _ => False) pic m m := Raster.Draws.none m
    exact hnone.congr (fun i j => ⟨False.elim, fun h => hon h.2.2⟩) fun _ _ h => h.elim

/-! ## A glyph -/

/-- The colour of a bit of a glyph. -/
def glyphColor (fonts : Fonts) (idx fg bg xx yy : Nat) : Nat :=
  if (fonts idx yy).toNat.testBit (7 - xx) then fg else bg

theorem glyphColor_lt {fg bg : Nat} (idx xx yy : Nat) (hfg : fg < 2 ^ 32) (hbg : bg < 2 ^ 32) :
    glyphColor fonts idx fg bg xx yy < 2 ^ 32 := by
  unfold glyphColor
  split
  · exact hfg
  · exact hbg

theorem glyphIndex_lt (ch : UInt8) : glyphIndex ch < glyphNum := by
  unfold glyphIndex glyphNum
  split
  · omega
  · split
    · next h => have := UInt8.le_iff_toNat_le.mp h.2; simp only [UInt8.reduceToNat] at this; omega
    · split
      · next h => have := UInt8.le_iff_toNat_le.mp h.2; simp only [UInt8.reduceToNat] at this; omega
      · split
        · next h => have := UInt8.le_iff_toNat_le.mp h.2; simp only [UInt8.reduceToNat] at this; omega
        · split <;> omega

/-- **`glyph_blit` draws a square of eight pixels by eight**, as far as it is on the screen. -/
theorem Fits.glyphBlit_draws (hfb : fb.Fits) (fonts : Fonts) (m : Mem) {idx fg bg : Nat}
    (hidx : idx < glyphNum)
    (hx : x + 8 ≤ 2 ^ 32) (hy : y + 8 ≤ 2 ^ 32) (hfg : fg < 2 ^ 32) (hbg : bg < 2 ^ 32) :
    hfb.raster.Draws (fb.InRect x y 8 8) (fun i j => glyphColor fonts idx fg bg (i - x) (j - y)) m
      (glyphBlit fonts fb m x y idx fg bg) := by
  rw [glyphBlit, if_neg (by omega)]
  have hinner : ∀ m yy, yy < 8 → hfb.raster.Draws (fun i j => j = y + yy ∧ fb.InRect x y 8 8 i j)
      (fun i j => glyphColor fonts idx fg bg (i - x) (j - y)) m
      ((List.range 8).foldl (fun m xx => fb.plot m (u32 (x + xx)) (u32 (y + yy))
        (if (fonts idx yy).toNat.testBit (7 - xx) then fg else bg)) m) := by
    intro m yy hyy
    refine (Raster.Draws.loop m (P := fun xx i j => i = x + xx ∧ j = y + yy ∧ fb.On (x + xx)
      (y + yy)) ?_ fun m xx hxx => ?_).congr (fun i j => ?_) fun _ _ _ => rfl
    · rintro xx i j ⟨rfl, _, hon⟩
      exact hon.1
    · rw [u32, u32, Nat.mod_eq_of_lt (by omega), Nat.mod_eq_of_lt (by omega)]
      refine hfb.plot_draws m (glyphColor_lt idx xx yy hfg hbg) ?_
      rw [Nat.add_sub_cancel_left, Nat.add_sub_cancel_left]
      rfl
    · constructor
      · rintro ⟨xx, hxx, rfl, rfl, hon⟩
        exact ⟨rfl, by omega, by omega, by omega, by omega, hon.1, hon.2⟩
      · rintro ⟨rfl, hin⟩
        have h1 := hin.left
        have h2 := hin.right
        refine ⟨i - x, by omega, by omega, rfl, ?_⟩
        rw [Nat.add_sub_cancel' h1]
        exact hin.on
  refine (Raster.Draws.loop m (P := fun yy i j => j = y + yy ∧ fb.InRect x y 8 8 i j) ?_
    hinner).congr (fun i j => ?_) fun _ _ _ => rfl
  · intro yy i j hij
    exact hij.2.inWidth
  · constructor
    · rintro ⟨yy, _, _, hin⟩
      exact hin
    · intro hin
      have h1 := hin.top
      have h2 := hin.bottom
      exact ⟨j - y, by omega, by omega, hin⟩

/-! ## A line of text moves up -/

/-- The screen is as high as the console's text. -/
def Tall (fb : Fb) : Prop := fbMirrorRows * 8 ≤ fb.info.height

theorem Fits.row_ptr (hfb : fb.Fits) (hj : j < fb.info.height) :
    u64 (fb.virt + j * fb.info.pitch) = hfb.raster.pixel 0 j := by
  have hrow : (j + 1) * fb.info.pitch ≤ fb.info.pitch * fb.info.height := by
    rw [Nat.mul_comm fb.info.pitch]
    exact Nat.mul_le_mul_right _ hj
  rw [Nat.succ_mul] at hrow
  have hvirt := hfb.virt
  have hroom := hfb.room
  by_cases hpitch : fb.info.pitch = 0
  · rw [hpitch, Nat.mul_zero, u64_of_lt (by omega)]
    change fb.virt + 0 = fb.virt + j * fb.info.pitch + 4 * 0
    rw [hpitch, Nat.mul_zero]
  · rw [u64_of_lt (by omega)]
    rfl

theorem vga16_lt (idx : Nat) : (vga16 idx).1 < 256 ∧ (vga16 idx).2.1 < 256
    ∧ (vga16 idx).2.2 < 256 := by
  unfold vga16
  split <;> decide

theorem fbVga16Rgb_lt (idx : Nat) : fbVga16Rgb idx < 2 ^ 32 := by
  obtain ⟨hr, hg, hb⟩ := vga16_lt (idx &&& 15)
  change 0xFF000000 ||| ((vga16 (idx &&& 15)).1 <<< 16) ||| ((vga16 (idx &&& 15)).2.1 <<< 8)
    ||| (vga16 (idx &&& 15)).2.2 < 2 ^ 32
  refine Nat.or_lt_two_pow (Nat.or_lt_two_pow (Nat.or_lt_two_pow (by decide) ?_) ?_) ?_
  · rw [Nat.shiftLeft_eq]
    exact Nat.mul_lt_mul_of_pos_right hr (by decide : 0 < 2 ^ 16) |>.trans (by decide)
  · rw [Nat.shiftLeft_eq]
    exact Nat.mul_lt_mul_of_pos_right hg (by decide : 0 < 2 ^ 8) |>.trans (by decide)
  · exact hb.trans (by decide)

/-- The width of the text that is on the screen. -/
def textWidth (fb : Fb) : Nat := min (fbMirrorCols * 8) fb.info.width

/-- The rows of pixels that are moved up. -/
def scrolledRows : Nat := (fbMirrorRows - 1) * 8

/-- `fb_console_scroll_gfx_one_line`, on a screen that is high enough. -/
theorem Fits.scroll_eq (hfb : fb.Fits) (htall : fb.Tall) (m : Mem) (attr : UInt8) :
    fbConsoleScrollGfxOneLine fb m attr =
      fb.fillRect ((List.range scrolledRows).foldl (fun m row => memmove m (hfb.raster.pixel 0 row)
        (hfb.raster.pixel 0 (row + 8)) (hfb.raster.size * fb.textWidth)) m) 0 scrolledRows
          fb.textWidth 8
        (fbAttrToColors attr).2 := by
  have hh : 200 ≤ fb.info.height := htall
  have hw : (if u32 (fbConPad + fbMirrorCols * 8) > fb.info.width then fb.info.width - fbConPad
      else fbMirrorCols * 8) = fb.textWidth := by
    have hsum : u32 (fbConPad + fbMirrorCols * 8) = 640 := rfl
    have hcols : fbMirrorCols * 8 = 640 := rfl
    have hpad : fbConPad = 0 := rfl
    rw [hsum, hcols, hpad, textWidth, hcols]
    split <;> omega
  have hbot : (if fbMirrorRows * 8 > fb.info.height then fb.info.height else fbMirrorRows * 8)
      = 200 := by
    have hrows : fbMirrorRows * 8 = 200 := rfl
    rw [hrows]
    exact if_neg (by omega)
  have hbase : u64 (fb.virt + u32 (fbConTop * fb.info.pitch) + fbConPad * 4) = fb.virt := by
    have htop : fbConTop * fb.info.pitch = 0 := Nat.zero_mul _
    rw [htop]
    exact u64_of_lt hfb.virt
  have hok : ¬ (!fb.ok) = true := by rw [hfb.ok]; decide
  unfold fbConsoleScrollGfxOneLine
  rw [if_neg hok]
  have htext : (if 200 > fbConTop then 200 - fbConTop else 0) = 200 := rfl
  have hcount : 200 - 8 = scrolledRows := rfl
  have hpad : fbConPad = 0 := rfl
  simp only [hw, hbot, hbase, htext]
  rw [if_neg (show ¬ 200 ≤ 8 by decide), hcount, hpad]
  refine congrArg (fun m => fb.fillRect m 0 scrolledRows fb.textWidth 8 (fbAttrToColors attr).2) ?_
  refine List.foldl_ext _ _ m fun m r hr => ?_
  have hr' : r < 192 := List.mem_range.mp hr
  rw [hfb.row_ptr (by omega), hfb.row_ptr (by omega), Nat.mul_comm fb.textWidth]
  rfl

theorem textWidth_le (fb : Fb) : fb.textWidth ≤ 640 := Nat.min_le_left _ _

/-- The row that is filled is on the screen. -/
theorem noWrap_lastRow (fb : Fb) : NoWrap fb.info 0 scrolledRows fb.textWidth 8 := by
  have hcols := fb.textWidth_le
  exact .inr (.inr (.inr (.inr ⟨by omega, by decide⟩)))

/-- No byte is changed but those of pixels. -/
theorem Fits.scroll_within (hfb : fb.Fits) (htall : fb.Tall) (m : Mem) (attr : UInt8) :
    hfb.raster.Within fb.info.height m (fbConsoleScrollGfxOneLine fb m attr) := by
  have hh : 200 ≤ fb.info.height := htall
  have hrows : scrolledRows = 192 := rfl
  rw [hfb.scroll_eq htall]
  refine (Raster.Within.loop m fun m row hrow => ?_).trans
    ((fillRect_paints hfb _ (fbVga16Rgb_lt _) fb.noWrap_lastRow).draws.within fun i j h => h.on)
  refine Raster.within_memmove ?_ (by omega)
  rw [Nat.zero_add]
  exact Nat.min_le_right _ _

/-- **Each row of text shows the next one, and the last is blank.** -/
theorem Fits.getPixel_scroll (hfb : fb.Fits) (htall : fb.Tall) {attr : UInt8} (hon : fb.On i j) :
    fb.getPixel (fbConsoleScrollGfxOneLine fb m attr) i j =
      if i < fbMirrorCols * 8 ∧ j < scrolledRows then fb.getPixel m i (j + 8)
      else if i < fbMirrorCols * 8 ∧ j < fbMirrorRows * 8 then (fbAttrToColors attr).2
      else fb.getPixel m i j := by
  have hh : 200 ≤ fb.info.height := htall
  obtain ⟨hi, hj⟩ := hon
  have hin : i < fb.textWidth ↔ i < fbMirrorCols * 8 := by
    unfold textWidth
    omega
  have hfit : 0 + fb.textWidth ≤ hfb.raster.width := by
    rw [Nat.zero_add]
    exact Nat.min_le_right _ _
  have hrows : scrolledRows = 192 := rfl
  have hlast : fbMirrorRows * 8 = 200 := rfl
  have hfill := (fillRect_paints hfb ((List.range scrolledRows).foldl (fun m row =>
    memmove m (hfb.raster.pixel 0 row) (hfb.raster.pixel 0 (row + 8))
      (hfb.raster.size * fb.textWidth))
    m) (fbVga16Rgb_lt ((attr.toNat >>> 4) &&& 0x0F)) fb.noWrap_lastRow).draws
  have hrect : fb.InRect 0 scrolledRows fb.textWidth 8 i j
      ↔ i < fbMirrorCols * 8 ∧ scrolledRows ≤ j ∧ j < fbMirrorRows * 8 := by
    rw [← hin]
    constructor
    · intro h
      have h1 := h.right
      have h2 := h.top
      have h3 := h.bottom
      exact ⟨by omega, h2, by omega⟩
    · rintro ⟨h1, h2, h3⟩
      exact ⟨Nat.zero_le i, by omega, h2, by omega, hi, hj⟩
  rw [hfb.scroll_eq htall]
  change fb.getPixel (fb.fillRect _ 0 scrolledRows fb.textWidth 8
    (fbVga16Rgb ((attr.toNat >>> 4) &&& 0x0F))) i j = _
  rw [hfb.getPixel_draws hfill (fun _ _ h => h.on) ⟨hi, hj⟩, hfb.getPixel_seen _ ⟨hi, hj⟩,
    Raster.seen_rows_up hfit hi, hfb.getPixel_seen _ ⟨hi, hj⟩]
  by_cases hup : i < fbMirrorCols * 8 ∧ j < scrolledRows
  · rw [if_neg (fun h => absurd (hrect.mp h).2.1 (by omega)),
      if_pos ⟨hup.2, Nat.zero_le i, by omega⟩, if_pos hup, hfb.getPixel_seen _ ⟨hi, by omega⟩]
  · rw [if_neg hup, if_neg (show ¬ (j < scrolledRows ∧ 0 ≤ i ∧ i < 0 + fb.textWidth) from
      fun h => hup ⟨hin.mp (by omega), h.1⟩)]
    by_cases hlow : i < fbMirrorCols * 8 ∧ j < fbMirrorRows * 8
    · rw [if_pos hlow, if_pos (hrect.mpr ⟨hlow.1, by omega, hlow.2⟩)]
      rfl
    · rw [if_neg hlow, if_neg (fun h => hlow ⟨(hrect.mp h).1, (hrect.mp h).2.2⟩)]

end Fb

end VnlKernel
