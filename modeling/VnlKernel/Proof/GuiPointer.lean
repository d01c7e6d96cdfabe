import VnlKernel.Kernel.Gui
import VnlKernel.Proof.FbPicture
import VnlKernel.Proof.FormatText

/-!
# The pointer leaves no trace

The scene is what the session would draw if it had no pointer. While the loop waits, the picture on
the framebuffer is the scene with the pointer's shape over it, wherever the mouse went and whatever
was drawn in between: what is kept aside when the pointer is shown is always the scene's.
-/

namespace VnlKernel

open ByteMem Bits

/-! ## What draws -/

namespace Fb

variable {fb : Fb} {fonts : Fonts} {m m' m'' : Mem} {i j x y w h c : Nat}

/-- The same is seen. -/
def SamePicture (fb : Fb) (m m' : Mem) : Prop := ∀ i j, fb.On i j → fb.getPixel m i j = fb.getPixel m' i j

theorem SamePicture.refl (m : Mem) : fb.SamePicture m m := fun _ _ _ => rfl

theorem SameOff.refl (m : Mem) : fb.SameOff m m := fun _ _ => rfl

/-- `f` changes nothing but pixels, and makes the same picture of the same picture. -/
structure IsDrawing (fb : Fb) (f : Mem → Mem) : Prop where
  off : ∀ m, fb.SameOff m (f m)
  same : ∀ m m', fb.SamePicture m m' → fb.SamePicture (f m) (f m')

theorem IsDrawing.id : fb.IsDrawing fun m => m := ⟨SameOff.refl, fun _ _ h => h⟩

theorem IsDrawing.comp {f g : Mem → Mem} (hg : fb.IsDrawing g) (hf : fb.IsDrawing f) :
    fb.IsDrawing fun m => g (f m) :=
  ⟨fun m => (hf.off m).trans (hg.off (f m)), fun m m' h => hg.same _ _ (hf.same m m' h)⟩

theorem IsDrawing.foldl {β : Type} {turn : Mem → β → Mem} (hturn : ∀ k, fb.IsDrawing (turn · k)) :
    ∀ l : List β, fb.IsDrawing fun m => l.foldl turn m
  | [] => .id
  | k :: l => (IsDrawing.foldl hturn l).comp (hturn k)

/-- What draws one picture, whatever was seen before. -/
theorem Fits.isDrawing (hfb : fb.Fits) {f : Mem → Mem} {A : Nat → Nat → Prop}
    {pic : Nat → Nat → Nat}
    (hA : ∀ i j, A i j → fb.On i j) (hf : ∀ m, hfb.raster.Draws A pic m (f m)) :
    fb.IsDrawing f where
  off := fun m => (hf m).within hA
  same := by
    classical
    intro m m' h i j hon
    rw [hfb.getPixel_draws (hf m) hA hon, hfb.getPixel_draws (hf m') hA hon, h i j hon]

theorem Fits.plot_drawing (hfb : fb.Fits) (x y : Nat) (hc : c < 2 ^ 32) :
    fb.IsDrawing fun m => fb.plot m x y c := by
  have hdraws : ∀ m, hfb.raster.Draws (fun i j => i = x ∧ j = y ∧ fb.On x y) (fun _ _ => c) m
      (fb.plot m x y c) := fun m => hfb.plot_draws m hc rfl
  refine hfb.isDrawing ?_ hdraws
  rintro i j ⟨rfl, rfl, hon⟩
  exact hon

theorem Fits.fillRect_drawing (hfb : fb.Fits) (hc : c < 2 ^ 32) (hno : NoWrap fb.info x y w h) :
    fb.IsDrawing fun m => fb.fillRect m x y w h c :=
  hfb.isDrawing (fun _ _ h => h.on) fun m => (fillRect_paints hfb m hc hno).draws

/-- Wherever a glyph is put. -/
theorem Fits.glyphBlit_drawing (hfb : fb.Fits) (fonts : Fonts) (x y idx : Nat) {fg bg : Nat}
    (hfg : fg < 2 ^ 32) (hbg : bg < 2 ^ 32) :
    fb.IsDrawing fun m => glyphBlit fonts fb m x y idx fg bg := by
  unfold glyphBlit
  split
  · exact .id
  · refine .foldl (fun yy => .foldl (fun xx => ?_) _) _
    exact hfb.plot_drawing _ _ (glyphColor_lt idx xx yy hfg hbg)

theorem Fits.drawString_drawing (hfb : fb.Fits) (fonts : Fonts) (x y : Nat) (s : CStr) {fg bg : Nat}
    (hfg : fg < 2 ^ 32) (hbg : bg < 2 ^ 32) :
    fb.IsDrawing fun m => fb.drawString fonts m x y s fg bg := by
  have hchars : ∀ (s : CStr) (x : Nat), fb.IsDrawing fun m => drawChars fonts fb m x y fg bg s := by
    intro s
    induction s with
    | nil => exact fun _ => .id
    | cons c s ih => exact fun x => (ih _).comp (hfb.glyphBlit_drawing fonts x y _ hfg hbg)
  unfold drawString
  split
  · exact .id
  · exact hchars s x

/-! ## The window -/

/-- There is a pixel on the screen, and the sizes fit in an `int`. -/
structure Screened (fb : Fb) : Prop where
  fits : fb.Fits
  wide : 0 < fb.info.width
  high : 0 < fb.info.height

theorem Screened.sizes (h : fb.Screened) : fb.info.width < 2 ^ 30 ∧ fb.info.height < 2 ^ 30 := by
  have hwide := h.wide
  have hhigh := h.high
  have hrow := h.fits.wide
  have hshort := h.fits.short
  have h1 : fb.info.pitch ≤ fb.info.pitch * fb.info.height := Nat.le_mul_of_pos_right _ hhigh
  have h2 : 4 * fb.info.height ≤ fb.info.pitch * fb.info.height := Nat.mul_le_mul_right _ (by omega)
  exact ⟨by omega, by omega⟩

theorem Screened.ints (h : fb.Screened) : fb.intWidth = fb.info.width
    ∧ fb.intHeight = fb.info.height := by
  obtain ⟨hw, hh⟩ := h.sizes
  exact ⟨toInt32_of_lt (by omega), toInt32_of_lt (by omega)⟩

theorem Screened.corner (h : fb.Screened) : fb.winX < 2 ^ 30 ∧ fb.winY < 2 ^ 30 := by
  obtain ⟨hw, hh⟩ := h.sizes
  unfold winX winY
  constructor
  · split <;> omega
  · split <;> omega

theorem noWrap_of_lt {info : FBInfo} (hx : x + w < 2 ^ 32) (hy : y + h < 2 ^ 32) :
    NoWrap info x y w h :=
  .inr (.inr (.inr (.inr ⟨hx, hy⟩)))

end Fb

/-- The button's frame and its inside fit in 32 bits. -/
structure GuiButton.Small (b : GuiButton) : Prop where
  wide : b.x + b.w < 2 ^ 32
  high : b.y + b.h < 2 ^ 32
  w : 2 ≤ b.w
  h : 2 ≤ b.h

namespace Fb

variable {fb : Fb} {fonts : Fonts} {look : ButtonLook}

theorem sub32_of_le {a b : Nat} (hb : b ≤ a) (ha : a < 2 ^ 32) : sub32 a b = a - b := by
  unfold sub32 u32
  omega

theorem Screened.button_drawing (hs : fb.Screened) (fonts : Fonts) {b : GuiButton} (hb : b.Small)
    (look : ButtonLook) : fb.IsDrawing (b.draw fonts fb look) := by
  have hwide := hb.wide
  have hhigh := hb.high
  have hw := hb.w
  have hh := hb.h
  have hinner : NoWrap fb.info (u32 (b.x + 1)) (u32 (b.y + 1)) (sub32 b.w 2) (sub32 b.h 2) := by
    rw [sub32_of_le hw (by omega), sub32_of_le hh (by omega), u32, u32]
    exact noWrap_of_lt (by omega) (by omega)
  have hite : ∀ {c d : Nat} {p : Prop} [Decidable p], c < 2 ^ 32 → d < 2 ^ 32 →
      (if p then c else d) < 2 ^ 32 := by
    intro c d p _ hc hd
    split
    · exact hc
    · exact hd
  have hbg : (if look.press then 0xFF353550 else if look.hover then 0xFF65658C else 0xFF505075)
      < 2 ^ 32 :=
    hite (by decide) (hite (by decide) (by decide))
  exact (hs.fits.drawString_drawing fonts _ _ b.label (hite (by decide) (by decide)) hbg).comp
    ((hs.fits.fillRect_drawing hbg hinner).comp
      (hs.fits.fillRect_drawing (hite (by decide) (by decide)) (noWrap_of_lt hwide hhigh)))

theorem Screened.btn1_small (hs : fb.Screened) : fb.btn1.Small := by
  obtain ⟨hx, hy⟩ := hs.corner
  unfold btn1 winH
  exact ⟨by dsimp only [u32]; omega, by dsimp only [u32]; omega,
    (by decide : 2 ≤ 140), (by decide : 2 ≤ 32)⟩

theorem Screened.btn2_small (hs : fb.Screened) : fb.btn2.Small := by
  obtain ⟨hx, hy⟩ := hs.corner
  unfold btn2 winH winW
  exact ⟨by dsimp only [u32]; omega, by dsimp only [u32]; omega,
    (by decide : 2 ≤ 140), (by decide : 2 ≤ 32)⟩

theorem Screened.clicks_drawing (hs : fb.Screened) (fonts : Fonts) (clickBuf : CStr) :
    fb.IsDrawing (fb.drawClicks fonts clickBuf) :=
  hs.fits.drawString_drawing fonts _ _ clickBuf (by decide) (by decide)

/-- What is drawn if `redraw_ui`. -/
theorem Screened.ui_drawing (hs : fb.Screened) (fonts : Fonts) (ui : GuiUi) (clickBuf : CStr) :
    fb.IsDrawing (ui.drawUi fonts fb clickBuf) :=
  (hs.button_drawing fonts hs.btn2_small ui.btn2).comp
    ((hs.button_drawing fonts hs.btn1_small ui.btn1).comp (hs.clicks_drawing fonts clickBuf))

/-- What is drawn before the loop. -/
theorem Screened.gui_drawing (hs : fb.Screened) (fonts : Fonts) (clickBuf : CStr) :
    fb.IsDrawing (fb.drawGui fonts clickBuf) := by
  obtain ⟨hw, hh⟩ := hs.sizes
  obtain ⟨hx, hy⟩ := hs.corner
  have hbar : fb.barH < 2 ^ 30 := by
    unfold barH
    dsimp only
    split <;> split <;> omega
  have htext := fun (x y : Nat) (s : CStr) (fg bg : Nat) (hfg : fg < 2 ^ 32) (hbg : bg < 2 ^ 32) =>
    hs.fits.drawString_drawing fonts x y s hfg hbg
  have hrect := fun (x y w h c : Nat) (hc : c < 2 ^ 32) (hx : x + w < 2 ^ 32)
      (hy : y + h < 2 ^ 32) =>
    hs.fits.fillRect_drawing (x := x) (y := y) (w := w) (h := h) hc (noWrap_of_lt hx hy)
  refine (hs.button_drawing fonts hs.btn2_small _).comp ?_
  refine (hs.button_drawing fonts hs.btn1_small _).comp ?_
  refine (hs.clicks_drawing fonts clickBuf).comp ?_
  refine (htext _ _ _ _ _ (by decide) (by decide)).comp ?_
  refine (htext _ _ _ _ _ (by decide) (by decide)).comp ?_
  refine (hrect _ _ _ _ _ (by decide) (by unfold u32 winW; omega) (by unfold u32; omega)).comp ?_
  refine (hrect _ _ _ _ _ (by decide) (by unfold u32 winW; omega)
    (by unfold u32 winH; omega)).comp ?_
  refine (hrect _ _ _ _ _ (by decide) (by unfold winW; omega) (by unfold winH; omega)).comp ?_
  refine (hrect _ _ _ _ _ (by decide) (by unfold u32 winW; omega)
    (by unfold u32 winH; omega)).comp ?_
  refine (htext _ _ _ _ _ (by decide) (by decide)).comp ?_
  refine (htext _ _ _ _ _ (by decide) (by decide)).comp ?_
  refine (htext _ _ _ _ _ (by decide) (by decide)).comp ?_
  refine (htext _ _ _ _ _ (by decide) (by decide)).comp ?_
  refine (hrect _ _ _ _ _ (by decide) (by omega) (by omega)).comp ?_
  exact hrect _ _ _ _ _ (by decide) (by omega) (by omega)

end Fb

/-! ## The pointer's shape -/

/-- The colour of the shape, `r` rows below its tip and `c` columns to the right. -/
def shapeColor (r c : Nat) : Option Nat :=
  let row := cursorShape.getD r []
  if c < min row.length cursorW then
    if row.getD c 0 = ascii ' ' then none
    else some (if row.getD c 0 = ascii 'W' then 0xFFFFFFFF else 0xFF000000)
  else none

/-- The colour of the shape at a pixel, with its tip at `x` and `y`. -/
def pointerAt (x y : Int) (i j : Nat) : Option Nat :=
  if x ≤ i ∧ y ≤ j then shapeColor ((j : Int) - y).toNat ((i : Int) - x).toNat else none

/-- A picture with the shape over it. -/
def withPointer (x y : Int) (pic : Nat → Nat → Nat) (i j : Nat) : Nat :=
  (pointerAt x y i j).getD (pic i j)

theorem shapeColor_range {r c : Nat} (h : (shapeColor r c).isSome) : r < cursorH ∧ c < cursorW := by
  unfold shapeColor at h
  dsimp only at h
  split at h
  · next hc =>
      refine ⟨?_, by omega⟩
      by_contra hr
      rw [List.getD_eq_default _ _ (show cursorShape.length ≤ r from Nat.le_of_not_lt hr)] at hc
      exact absurd hc (by rw [List.length_nil, Nat.zero_min]; exact Nat.not_lt_zero c)
  · cases h

theorem shapeColor_lt {r c color : Nat} (h : shapeColor r c = some color) : color < 2 ^ 32 := by
  unfold shapeColor at h
  dsimp only at h
  split at h
  · split at h
    · cases h
    · cases h
      split <;> decide
  · cases h

theorem pointerAt_eq {x y : Int} {i j r c : Nat} (hi : (i : Int) = x + c) (hj : (j : Int) = y + r) :
    pointerAt x y i j = shapeColor r c := by
  have hr : ((j : Int) - y).toNat = r := by omega
  have hc : ((i : Int) - x).toNat = c := by omega
  rw [pointerAt, if_pos ⟨by omega, by omega⟩, hr, hc]

/-- A pixel of the shape is in the box that is kept aside. -/
theorem pointerAt_some {x y : Int} {i j : Nat} (h : (pointerAt x y i j).isSome) :
    ∃ r c, r < cursorH ∧ c < cursorW ∧ (i : Int) = x + c ∧ (j : Int) = y + r := by
  unfold pointerAt at h
  split at h
  · next hle =>
      obtain ⟨hr, hc⟩ := shapeColor_range h
      exact ⟨_, _, hr, hc, by omega, by omega⟩
  · cases h

namespace Fb

variable {fb : Fb} {m : Mem} {pic : Nat → Nat → Nat} {x y : Int} {c : Nat}

theorem Screened.inside_iff (hs : fb.Screened) : fb.inside x y ↔ ∃ i j :
    Nat, x = i ∧ y = j ∧ fb.On i j := by
  obtain ⟨hw, hh⟩ := hs.ints
  unfold inside
  rw [hw, hh]
  constructor
  · rintro ⟨h1, h2, h3, h4⟩
    exact ⟨x.toNat, y.toNat, by omega, by omega, by omega, by omega⟩
  · rintro ⟨i, j, rfl, rfl, hi, hj⟩
    exact ⟨by omega, by omega, by omega, by omega⟩

/-- A pixel at two `int`s, if it is on the screen. -/
theorem Screened.plotInside_draws (hs : fb.Screened) (m : Mem) (hc : c < 2 ^ 32)
    (hpic : ∀ i j : Nat, (i : Int) = x → (j : Int) = y → pic i j = c) :
    hs.fits.raster.Draws (fun i j => (i : Int) = x ∧ (j : Int) = y ∧ fb.On i j) pic m
      (if fb.inside x y then fb.plot m (toU32 x) (toU32 y) c else m) := by
  obtain ⟨hw, hh⟩ := hs.sizes
  by_cases hin : fb.inside x y
  · rw [if_pos hin]
    obtain ⟨i, j, rfl, rfl, hon⟩ := hs.inside_iff.mp hin
    obtain ⟨hi, hj⟩ := hon
    rw [toU32_natCast (by omega), toU32_natCast (by omega)]
    refine (hs.fits.plot_draws m hc (hpic i j rfl rfl)).congr (fun i' j' => ?_) fun _ _ _ => rfl
    constructor
    · rintro ⟨rfl, rfl, hon⟩
      exact ⟨rfl, rfl, hon⟩
    · rintro ⟨hi', hj', hon⟩
      exact ⟨by omega, by omega, ⟨hi, hj⟩⟩
  · rw [if_neg hin]
    have hnone : hs.fits.raster.Draws (fun _ _ => False) pic m m := Raster.Draws.none m
    refine hnone.congr (fun i j => ⟨False.elim, ?_⟩) fun _ _ h => h.elim
    rintro ⟨rfl, rfl, hon⟩
    exact hin (hs.inside_iff.mpr ⟨i, j, rfl, rfl, hon⟩)

end Fb

namespace GuiCursor

variable {fb : Fb} {cur : GuiCursor} {m m' scene : Mem} {i j : Nat}

/-- A pixel of the box that is kept aside. -/
def InBox (fb : Fb) (cur : GuiCursor) (i j : Nat) : Prop :=
  ∃ r c, r < cursorH ∧ c < cursorW ∧ (i : Int) = cur.curX + c ∧ (j : Int) = cur.curY + r ∧ fb.On i j

/-- What is kept aside for a pixel of the box. -/
def savedPic (cur : GuiCursor) (i j : Nat) : Nat :=
  cur.savedBg ((j : Int) - cur.curY).toNat ((i : Int) - cur.curX).toNat

theorem savedPic_eq {r c : Nat} (hi : (i : Int) = cur.curX + c) (hj : (j : Int) = cur.curY + r) :
    cur.savedPic i j = cur.savedBg r c := by
  have hr : ((j : Int) - cur.curY).toNat = r := by omega
  have hc : ((i : Int) - cur.curX).toNat = c := by omega
  rw [savedPic, hr, hc]

/-- **`hide_cursor` draws what was kept aside.** -/
theorem hide_draws (hs : fb.Screened) (hvis : cur.visible = true)
    (hsaved : ∀ r c, cur.savedBg r c < 2 ^ 32) (m : Mem) :
    hs.fits.raster.Draws (cur.InBox fb) cur.savedPic m (cur.hide fb m).1 := by
  have hturn : ∀ (r : Nat) (m : Mem) (c : Nat), c < cursorW
    → hs.fits.raster.Draws (fun i j => (i : Int) = cur.curX + c
      ∧ (j : Int) = cur.curY + r ∧ fb.On i j) cur.savedPic m
          (cur.restore fb r m c) := fun r m c _ =>
    hs.plotInside_draws m (hsaved r c) fun i j hi hj => savedPic_eq hi hj
  have hrow : ∀ (m : Mem) (r : Nat), r < cursorH → hs.fits.raster.Draws (fun i j => ∃ c, c < cursorW
      ∧ (i : Int) = cur.curX + c ∧ (j : Int) = cur.curY + r ∧ fb.On i j) cur.savedPic m
      ((List.range cursorW).foldl (cur.restore fb r) m) := fun m r _ =>
    Raster.Draws.loop m (fun c i j hij => hij.2.2.1) (hturn r)
  rw [hide, if_neg (by rw [hvis]; decide)]
  refine (Raster.Draws.loop m ?_ hrow).congr (fun i j => ?_) fun _ _ _ => rfl
  · rintro r i j ⟨c, _, _, _, hon⟩
    exact hon.1
  · constructor
    · rintro ⟨r, hr, c, hc, hi, hj, hon⟩
      exact ⟨r, c, hr, hc, hi, hj, hon⟩
    · rintro ⟨r, c, hr, hc, hi, hj, hon⟩
      exact ⟨r, hr, c, hc, hi, hj, hon⟩

/-- **The shape is drawn.** -/
theorem draw_draws (hs : fb.Screened) (cur : GuiCursor) (m : Mem) :
    hs.fits.raster.Draws (fun i j => (pointerAt cur.curX cur.curY i j).isSome ∧ fb.On i j)
      (fun i j => (pointerAt cur.curX cur.curY i j).getD 0) m (cur.draw fb m) := by
  have hturn : ∀ (r : Nat) (m : Mem) (c : Nat), c < min (cursorShape.getD r []).length cursorW →
      hs.fits.raster.Draws (fun i j => (i : Int) = cur.curX + c ∧ (j : Int) = cur.curY + r
        ∧ (shapeColor r c).isSome ∧ fb.On i j)
        (fun i j => (pointerAt cur.curX cur.curY i j).getD 0) m
        (cur.drawPixel fb (cursorShape.getD r []) r m c) := by
    intro r m c hc
    have hcolor : shapeColor r c = if (cursorShape.getD r []).getD c 0 = ascii ' ' then none
        else some (if (cursorShape.getD r []).getD c 0 = ascii 'W' then 0xFFFFFFFF
            else 0xFF000000) :=
      if_pos hc
    unfold drawPixel
    by_cases hblank : (cursorShape.getD r []).getD c 0 = ascii ' '
    · rw [if_pos hblank] at hcolor ⊢
      have hnone : hs.fits.raster.Draws (fun _ _ => False)
        (fun i j => (pointerAt cur.curX cur.curY i j).getD 0) m m := Raster.Draws.none m
      refine hnone.congr (fun i j => ⟨False.elim, ?_⟩) fun _ _ h => h.elim
      rintro ⟨_, _, hsome, _⟩
      rw [hcolor] at hsome
      cases hsome
    · rw [if_neg hblank] at hcolor ⊢
      refine (hs.plotInside_draws m (shapeColor_lt hcolor) fun i j hi hj => ?_).congr
        (fun i j => ?_) fun _ _ _ => rfl
      · rw [pointerAt_eq hi hj, hcolor]
        rfl
      · rw [hcolor]
        exact ⟨fun ⟨hi, hj, hon⟩ => ⟨hi, hj, rfl, hon⟩, fun ⟨hi, hj, _, hon⟩ => ⟨hi, hj, hon⟩⟩
  have hrow : ∀ (m : Mem) (r : Nat), r < cursorH → hs.fits.raster.Draws (fun i j => ∃ c,
      c < min (cursorShape.getD r []).length cursorW ∧ (i : Int) = cur.curX + c
        ∧ (j : Int) = cur.curY + r ∧ (shapeColor r c).isSome ∧ fb.On i j)
      (fun i j => (pointerAt cur.curX cur.curY i j).getD 0) m
      ((List.range (min (cursorShape.getD r []).length cursorW)).foldl
        (cur.drawPixel fb (cursorShape.getD r []) r) m) := fun m r _ =>
    Raster.Draws.loop m (fun c i j hij => hij.2.2.2.1) (hturn r)
  refine (Raster.Draws.loop m ?_ hrow).congr (fun i j => ?_) fun _ _ _ => rfl
  · rintro r i j ⟨c, _, _, _, _, hon⟩
    exact hon.1
  · constructor
    · rintro ⟨r, _, c, _, hi, hj, hsome, hon⟩
      rw [pointerAt_eq hi hj]
      exact ⟨hsome, hon⟩
    · rintro ⟨hsome, hon⟩
      obtain ⟨r, c, hr, _, hi, hj⟩ := pointerAt_some hsome
      rw [pointerAt_eq hi hj] at hsome
      refine ⟨r, hr, c, ?_, hi, hj, hsome, hon⟩
      by_contra hc
      have hnone : shapeColor r c = none := if_neg hc
      rw [hnone] at hsome
      cases hsome

/-- The shape is over the scene, and the scene's pixels are kept aside. -/
structure Covers (fb : Fb) (cur : GuiCursor) (m scene : Mem) : Prop where
  visible : cur.visible = true
  bits : ∀ r c, cur.savedBg r c < 2 ^ 32
  saved : ∀ i j, cur.InBox fb i j → cur.savedPic i j = fb.getPixel scene i j
  picture : ∀ i j, fb.On i j →
    fb.getPixel m i j = withPointer cur.curX cur.curY (fb.getPixel scene) i j

/-- **Without the pointer the scene is seen.** -/
theorem Covers.hide (hs : fb.Screened) (h : cur.Covers fb m scene) :
    fb.SamePicture (cur.hide fb m).1 scene ∧ fb.SameOff m (cur.hide fb m).1 := by
  classical
  have hdraws := hide_draws hs h.visible h.bits m
  have hon : ∀ i j, cur.InBox fb i j → fb.On i j := fun i j ⟨_, _, _, _, _, _, hon⟩ => hon
  refine ⟨fun i j hij => ?_, hdraws.within hon⟩
  rw [hs.fits.getPixel_draws hdraws hon hij]
  by_cases hbox : cur.InBox fb i j
  · rw [if_pos hbox, h.saved i j hbox]
  · rw [if_neg hbox, h.picture i j hij, withPointer]
    cases hp : pointerAt cur.curX cur.curY i j with
    | none => rfl
    | some color =>
        obtain ⟨r, c, hr, hc, hi, hj⟩ :=
          pointerAt_some (hp ▸ rfl : (pointerAt cur.curX cur.curY i j).isSome)
        exact absurd ⟨r, c, hr, hc, hi, hj, hij⟩ hbox

theorem getPixel_lt (fb : Fb) (m : Mem) (i j : Nat) : fb.getPixel m i j < 2 ^ 32 := by
  unfold Fb.getPixel
  split
  · decide
  · exact readLE_lt m 4 _

/-- **The pointer is shown over what is seen.** -/
theorem showAt_covers (hs : fb.Screened) (hvis : cur.visible = false) (x y : Int)
    (hsame : fb.SamePicture m scene) :
    (cur.showAt fb x y m).2.Covers fb (cur.showAt fb x y m).1 scene
      ∧ fb.SameOff m (cur.showAt fb x y m).1 := by
  classical
  have hhide : cur.hide fb m = (m, cur) := if_pos (by rw [hvis]; rfl)
  have hdraws := draw_draws hs ({ cur with curX := x, curY := y }.save fb m) m
  unfold showAt
  rw [hhide]
  refine ⟨⟨rfl, fun r c => ?_, fun i j hbox => ?_, fun i j hon => ?_⟩,
    hdraws.within fun _ _ h => h.2⟩
  · change (if fb.inside (x + c) (y + r) then fb.getPixel m (toU32 (x + c)) (toU32 (y + r)) else 0)
      < 2 ^ 32
    split
    · exact getPixel_lt fb m _ _
    · decide
  · obtain ⟨r, c, _, _, hi, hj, hon⟩ := hbox
    obtain ⟨hw, hh⟩ := hs.sizes
    obtain ⟨hi', hj'⟩ := hon
    rw [savedPic_eq hi hj]
    change (if fb.inside (x + c) (y + r) then fb.getPixel m (toU32 (x + c)) (toU32 (y + r)) else 0)
      = _
    change (i : Int) = x + c at hi
    change (j : Int) = y + r at hj
    rw [if_pos (hs.inside_iff.mpr ⟨i, j, hi.symm, hj.symm, hi', hj'⟩), ← hi, ← hj,
      toU32_natCast (by omega), toU32_natCast (by omega)]
    exact hsame i j ⟨hi', hj'⟩
  · change fb.getPixel (draw fb _ m) i j = withPointer x y (fb.getPixel scene) i j
    rw [hs.fits.getPixel_draws hdraws (fun _ _ h => h.2) hon, withPointer]
    change (if (pointerAt x y i j).isSome ∧ fb.On i j then (pointerAt x y i j).getD 0
      else fb.getPixel m i j) = _
    cases pointerAt x y i j with
    | none => rw [if_neg (fun h => by cases h.1), hsame i j hon]; rfl
    | some color => rw [if_pos ⟨rfl, hon⟩]; rfl

end GuiCursor

/-! ## The session -/

/-- The label is always written. -/
theorem clickText_done (clickCount : Int) : ∃ text, clickText clickCount = .done text := by
  have hdone := kvsnprintf_done (some 64)
    (CString.strAt_ofStr (s := cstr "Total Clicks Registered: %d") (by decide)) (by decide)
    (ending_noString ⟨fun _ => BitVec.ofInt 64 clickCount, fun _ => []⟩ (by decide))
    (Nat.lt_succ_self _)
  unfold clickText
  dsimp only
  rw [hdone]
  exact ⟨_, rfl⟩

/-- A session without a pointer. -/
structure BareSession where
  ui : GuiUi
  mem : Mem
  left : Bool

/-- What `gui_session_run` does, but for the pointer. -/
def BareSession.frame (fonts : Fonts) (fb : Fb) (b : BareSession) (i : GuiInput) : Outcome BareSession := do
  if GuiUi.quits i.key then return { b with left := true }
  else
    let ui := b.ui.poll fb i.moves
    let b := { b with ui := ui, left := ui.exitSession }
    if ui.redrawUi then
      let clickBuf ← clickText ui.clickCount
      return { b with mem := ui.drawUi fonts fb clickBuf b.mem }
    else return b

def BareSession.run (fonts : Fonts) (fb : Fb) : BareSession → List GuiInput → Outcome BareSession
  | b, [] => return b
  | b, i :: is => if b.left then return b else do
      let b ← b.frame fonts fb i
      b.run fonts fb is

def Fb.bareStart (fonts : Fonts) (fb : Fb) (m : Mem) : Outcome BareSession := do
  let clickBuf ← clickText 0
  return ⟨fb.guiUi, fb.drawGui fonts clickBuf m, false⟩

section Session

variable {fb : Fb} {fonts : Fonts} {m₀ : Mem} {s : GuiSession} {b : BareSession}

/-- The session is the one without a pointer, and the pointer where the mouse is. -/
structure GuiSession.Over (fb : Fb) (m₀ : Mem) (s : GuiSession) (b : BareSession) : Prop where
  ui : s.ui = b.ui
  left : s.left = b.left
  covers : s.cursor.Covers fb s.mem b.mem
  atX : s.cursor.curX = s.ui.mx
  atY : s.cursor.curY = s.ui.my
  on : fb.inside s.ui.mx s.ui.my
  off : fb.SameOff m₀ s.mem

theorem GuiUi.clamp_range {x width : Int} (hw : 0 < width) :
    0 ≤ clamp x width ∧ clamp x width < width := by
  unfold clamp
  dsimp only
  split <;> split <;> omega

theorem GuiUi.clamp_eq {x width : Int} (h : 0 ≤ x) (h' : x < width) : clamp x width = x := by
  unfold clamp
  dsimp only
  rw [if_neg (by omega), if_neg (by omega)]

/-- **What the moves of a turn do to the place of the mouse**: it stays on the screen, and where
nothing is said to have moved it is where it was. -/
theorem GuiUi.poll_place (hs : fb.Screened) {ui : GuiUi} (hon : fb.inside ui.mx ui.my)
    (moves : List MouseMove) :
    fb.inside (ui.poll fb moves).mx (ui.poll fb moves).my
      ∧ ((ui.poll fb moves).mouseMoved = false →
        (ui.poll fb moves).mx = ui.mx ∧ (ui.poll fb moves).my = ui.my) := by
  have hwide : 0 < fb.intWidth := by
    have := hs.wide
    rw [hs.ints.1]
    omega
  have hhigh : 0 < fb.intHeight := by
    have := hs.high
    rw [hs.ints.2]
    omega
  have hloop : ∀ (moves : List MouseMove) (u : GuiUi), fb.inside u.mx u.my →
      (u.mouseMoved = false → u.mx = ui.mx ∧ u.my = ui.my) →
      fb.inside (moves.foldl (move fb) u).mx (moves.foldl (move fb) u).my
        ∧ ((moves.foldl (move fb) u).mouseMoved = false →
          (moves.foldl (move fb) u).mx = ui.mx ∧ (moves.foldl (move fb) u).my = ui.my) := by
    intro moves
    induction moves with
    | nil => exact fun u hu hstay => ⟨hu, hstay⟩
    | cons p moves ih =>
        intro u hu hstay
        obtain ⟨h1, h2⟩ := clamp_range (x := u.mx + p.dx) hwide
        obtain ⟨h3, h4⟩ := clamp_range (x := u.my - p.dy) hhigh
        refine ih (u.move fb p) ⟨h1, h2, h3, h4⟩ fun hmoved => ?_
        have hstill : ((u.mouseMoved || decide (p.dx ≠ 0)) || decide (p.dy ≠ 0)) = false := hmoved
        simp only [Bool.or_eq_false_iff, decide_eq_false_iff_not, Decidable.not_not] at hstill
        obtain ⟨⟨hm, hdx⟩, hdy⟩ := hstill
        obtain ⟨hx, hy⟩ := hstay hm
        have hmx : (u.move fb p).mx = u.mx := by
          change clamp (u.mx + p.dx) _ = _
          rw [hdx, Int.add_zero, clamp_eq hu.1 hu.2.1]
        have hmy : (u.move fb p).my = u.my := by
          change clamp (u.my - p.dy) _ = _
          rw [hdy, Int.sub_zero, clamp_eq hu.2.2.1 hu.2.2.2]
        rw [hmx, hmy]
        exact ⟨hx, hy⟩
  exact hloop moves _ hon fun _ => ⟨rfl, rfl⟩

/-- The pointer is taken away, the window is drawn if it has to be, and the pointer is shown again.
-/
theorem GuiSession.Over.redraw (hs : fb.Screened) (fonts : Fonts)
    (h : s.cursor.Covers fb s.mem b.mem)
    (hon : fb.inside s.ui.mx s.ui.my) (hoff : fb.SameOff m₀ s.mem) (hui : s.ui = b.ui)
    (hleft : s.left = b.left) (clickBuf : CStr) :
    (s.redraw fonts fb clickBuf).Over fb m₀ { b with
      mem := if b.ui.redrawUi then b.ui.drawUi fonts fb clickBuf b.mem else b.mem } := by
  obtain ⟨hsame, hframe⟩ := h.hide hs
  have hvis : (s.cursor.hide fb s.mem).2.visible = false := by
    rw [GuiCursor.hide, if_neg (by rw [h.visible]; decide)]
  have hdraw : fb.IsDrawing fun m => if s.ui.redrawUi then s.ui.drawUi fonts fb clickBuf m else
      m := by
    split
    · exact hs.ui_drawing fonts s.ui clickBuf
    · exact .id
  obtain ⟨hcovers, hframe'⟩ := GuiCursor.showAt_covers hs hvis s.ui.mx s.ui.my
    (hdraw.same _ _ hsame)
  refine ⟨hui, hleft, ?_, rfl, rfl, hon, (hoff.trans hframe).trans ((hdraw.off _).trans hframe')⟩
  rw [hui] at hcovers
  unfold GuiSession.redraw
  rw [hui]
  exact hcovers

/-- **A turn of the loop.** -/
theorem GuiSession.Over.frame (hs : fb.Screened) (h : s.Over fb m₀ b) (i : GuiInput) :
    ∃ s' b', s.frame fonts fb i = .done s' ∧ b.frame fonts fb i = .done b' ∧ s'.Over fb m₀ b' := by
  unfold GuiSession.frame BareSession.frame
  by_cases hquit : GuiUi.quits i.key = true
  · rw [if_pos hquit, if_pos hquit]
    exact ⟨_, _, rfl, rfl, h.ui, rfl, h.covers, h.atX, h.atY, h.on, h.off⟩
  · rw [if_neg hquit, if_neg hquit]
    obtain ⟨hon, hstay⟩ := GuiUi.poll_place hs h.on i.moves
    have hui := h.ui
    obtain ⟨text, htext⟩ := clickText_done (s.ui.poll fb i.moves).clickCount
    dsimp only
    rw [← hui]
    by_cases hdraw : (s.ui.poll fb i.moves).redrawUi = true
    · rw [if_pos (by rw [hdraw, Bool.or_true]), if_pos hdraw, htext]
      have hover := GuiSession.Over.redraw hs fonts
        (s := { s with ui := s.ui.poll fb i.moves, left := (s.ui.poll fb i.moves).exitSession })
        (b := { b with ui := s.ui.poll fb i.moves, left := (s.ui.poll fb i.moves).exitSession })
        h.covers hon h.off rfl rfl text
      rw [if_pos hdraw] at hover
      exact ⟨_, _, rfl, rfl, hover⟩
    · rw [if_neg hdraw]
      by_cases hmoved : (s.ui.poll fb i.moves).mouseMoved = true
      · rw [if_pos (by rw [hmoved, Bool.true_or]), htext]
        have hover := GuiSession.Over.redraw hs fonts
          (s := { s with ui := s.ui.poll fb i.moves, left := (s.ui.poll fb i.moves).exitSession })
          (b := { b with ui := s.ui.poll fb i.moves, left := (s.ui.poll fb i.moves).exitSession })
          h.covers hon h.off rfl rfl text
        rw [if_neg hdraw] at hover
        exact ⟨_, _, rfl, rfl, hover⟩
      · rw [if_neg (by rw [Bool.or_eq_true, not_or]; exact ⟨hmoved, hdraw⟩)]
        obtain ⟨hx, hy⟩ := hstay (by rwa [Bool.not_eq_true] at hmoved)
        exact ⟨_, _, rfl, rfl, rfl, rfl, h.covers, h.atX.trans hx.symm, h.atY.trans hy.symm, hon,
          h.off⟩

/-- **All turns.** -/
theorem GuiSession.Over.run (hs : fb.Screened) (fonts : Fonts) : ∀ (is : List GuiInput)
    {s : GuiSession} {b : BareSession}, s.Over fb m₀ b →
      ∃ s' b', s.run fonts fb is = .done s' ∧ b.run fonts fb is = .done b' ∧ s'.Over fb m₀ b'
  | [], s, b, h => ⟨s, b, rfl, rfl, h⟩
  | i :: is, s, b, h => by
      unfold GuiSession.run BareSession.run
      by_cases hleft : s.left = true
      · rw [if_pos hleft, if_pos (h.left ▸ hleft)]
        exact ⟨s, b, rfl, rfl, h⟩
      · rw [if_neg hleft, if_neg (h.left ▸ hleft)]
        obtain ⟨s₁, b₁, hs₁, hb₁, h₁⟩ := h.frame hs i
        obtain ⟨s', b', hs', hb', h'⟩ := GuiSession.Over.run hs fonts is h₁
        rw [hs₁, hb₁]
        exact ⟨s', b', hs', hb', h'⟩

/-- When the loop begins. -/
theorem Fb.guiStart_over (hs : fb.Screened) (fonts : Fonts) (m : Mem) (cursor : GuiCursor) :
    ∃ s b, fb.guiStart fonts m cursor = .done s ∧ fb.bareStart fonts m = .done b
      ∧ s.Over fb m b := by
  obtain ⟨text, htext⟩ := clickText_done 0
  obtain ⟨hw, hh⟩ := hs.ints
  have hwide := hs.wide
  have hhigh := hs.high
  unfold Fb.guiStart Fb.bareStart
  rw [htext]
  obtain ⟨hcovers, hoff⟩ := GuiCursor.showAt_covers hs
    (show ({ cursor with visible := false } : GuiCursor).visible = false from rfl)
    fb.guiUi.mx fb.guiUi.my (Fb.SamePicture.refl (fb.drawGui fonts text m))
  refine ⟨_, _, rfl, rfl, rfl, rfl, hcovers, rfl, rfl, ?_,
    ((hs.gui_drawing fonts text).off m).trans hoff⟩
  change fb.inside ((fb.info.width / 2 : Nat) : Int) ((fb.info.height / 2 : Nat) : Int)
  unfold Fb.inside
  rw [hw, hh]
  omega

end Session

/-- The mouse is on the screen, and what is seen is the scene with the pointer's shape there; when
the pointer is taken away, it is the scene. No byte that belongs to no pixel is changed. -/
structure GuiSession.NoTrace (fb : Fb) (m : Mem) (s : GuiSession) (b : BareSession) : Prop where
  mouseX : 0 ≤ s.ui.mx ∧ s.ui.mx < fb.info.width
  mouseY : 0 ≤ s.ui.my ∧ s.ui.my < fb.info.height
  pointed : ∀ i j, i < fb.info.width → j < fb.info.height →
    fb.getPixel s.mem i j = withPointer s.ui.mx s.ui.my (fb.getPixel b.mem) i j
  hidden : ∀ i j, i < fb.info.width → j < fb.info.height →
    fb.getPixel (s.cursor.hide fb s.mem).1 i j = fb.getPixel b.mem i j
  off : fb.SameOff m s.mem

/-- **The pointer leaves no trace.** Whatever is in memory when `gui_session_run` is called,
whatever keys and moves come in and whatever of the window is drawn again, every time the loop has
gone round the picture is the one that the session would have drawn without a pointer, with the
pointer's shape over it where the mouse is. -/
theorem gui_pointer_no_trace (fonts : Fonts) {fb : Fb} (hok : fb.ok = true)
    (hwide : 4 * fb.info.width ≤ fb.info.pitch) (hshort : fb.info.pitch * fb.info.height < 2 ^ 32)
    (hvirt : fb.virt < 2 ^ 64) (hroom : fb.virt + fb.info.pitch * fb.info.height ≤ 2 ^ 64)
    (hwidth : 0 < fb.info.width) (hheight : 0 < fb.info.height) (m : Mem) (cursor : GuiCursor)
    (is : List GuiInput) :
    ∃ s₀ b₀ s b, fb.guiStart fonts m cursor = .done s₀
      ∧ fb.bareStart fonts m = .done b₀
      ∧ s₀.run fonts fb is = .done s
      ∧ b₀.run fonts fb is = .done b
      ∧ s.NoTrace fb m b := by
  have hs : fb.Screened := ⟨⟨hok, hwide, hshort, hvirt, hroom⟩, hwidth, hheight⟩
  obtain ⟨hw, hh⟩ := hs.ints
  obtain ⟨s₀, b₀, hs₀, hb₀, h₀⟩ := Fb.guiStart_over hs fonts m cursor
  obtain ⟨s, b, hrun, hbare, h⟩ := h₀.run hs fonts is
  obtain ⟨hx, hx', hy, hy'⟩ := h.on
  rw [hw] at hx'
  rw [hh] at hy'
  refine ⟨s₀, b₀, s, b, hs₀, hb₀, hrun, hbare, ⟨hx, hx'⟩, ⟨hy, hy'⟩, fun i j hi hj => ?_,
    fun i j hi hj => (h.covers.hide hs).1 i j ⟨hi, hj⟩, h.off⟩
  rw [h.covers.picture i j ⟨hi, hj⟩, h.atX, h.atY]

/-- A screen of 640 pixels by 480, and a mouse that goes off to the left with its button down. -/
theorem gui_pointer_no_trace_left :
    let fb := (fbMultibootInit ⟨0xE0000000, 2560, 640, 480, 32, 1⟩).kernelMainMap
      ⟨0xE0000000, 640, 480, 2560, 32⟩
    ∃ s₀ b₀ s b, fb.guiStart gVnlFonts (fun _ => 0) ⟨fun _ _ => 0, false, 0, 0⟩ = .done s₀
      ∧ fb.bareStart gVnlFonts (fun _ => 0) = .done b₀
      ∧ s₀.run gVnlFonts fb [⟨-1, [⟨-128, 0, 1⟩, ⟨-128, 0, 1⟩, ⟨-128, 0, 1⟩]⟩] = .done s
      ∧ b₀.run gVnlFonts fb [⟨-1, [⟨-128, 0, 1⟩, ⟨-128, 0, 1⟩, ⟨-128, 0, 1⟩]⟩] = .done b
      ∧ s.NoTrace fb (fun _ => 0) b :=
  gui_pointer_no_trace gVnlFonts (by decide) (by decide) (by decide) (by decide) (by decide)
    (by decide) (by decide) _ _ _

end VnlKernel
