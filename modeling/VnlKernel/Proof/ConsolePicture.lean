import VnlKernel.Proof.FbPicture
import VnlKernel.Proof.ConsoleRun

/-!
# The picture of the console

`fb_console_putchar` never looks at `VGA_MEM`. It draws each character where its own cursor is, and
where the rows move up it moves the pixels. Still the picture is at all times the one that a
terminal has whose cells are drawn one by one: its characters are those of the terminal that the
text screen shows, and its colours too, as long as the characters are ASCII.
-/

namespace VnlKernel

open Terminal ByteMem

variable {fonts : Fonts} {attr : UInt8}

/-- The colour of a pixel of a cell, which has a character and an attribute. -/
def cellPixel (fonts : Fonts) (cell : UInt8 × UInt8) (xx yy : Nat) : Nat :=
  Fb.glyphColor fonts (glyphIndex cell.1) (fbAttrToColors cell.2).1 (fbAttrToColors cell.2).2 xx yy

/-- A blank is drawn in the background's colour. -/
theorem cellPixel_blank (hspace : ∀ yy, fonts 0 yy = 0) (attr : UInt8) (xx yy : Nat) :
    cellPixel fonts (0x20, attr) xx yy = (fbAttrToColors attr).2 := by
  have hidx : glyphIndex 0x20 = 0 := rfl
  rw [cellPixel, Fb.glyphColor, hidx, hspace yy]
  exact if_neg (by simp)

/-- Each pixel of the text is the one of its cell, as far as it is on the screen. -/
def Pictured (fonts : Fonts) (fb : Fb) (m : Mem) (cells : Fin vgaHeight → Fin vgaWidth → UInt8 × UInt8) :
    Prop :=
  ∀ (r : Fin vgaHeight) (c : Fin vgaWidth) (xx yy : Nat), xx < 8 → yy < 8 →
    c.val * 8 + xx < fb.info.width →
    fb.getPixel m (c.val * 8 + xx) (r.val * 8 + yy) = cellPixel fonts (cells r c) xx yy

namespace FbConsole

/-- The mirror's cursor is the terminal's, and its picture is that of the terminal's cells. What
belongs to no pixel is as it was in `m₀`. -/
structure Displays (fonts : Fonts) (m₀ : Mem) (f : FbConsole)
    (s : Screen vgaHeight vgaWidth (UInt8 × UInt8)) : Prop where
  moves : f.Mirrors s
  fits : f.fb.Fits
  tall : f.fb.Tall
  picture : Pictured fonts f.fb f.mem s.cells
  frame : f.fb.SameOff m₀ f.mem

variable {m₀ : Mem} {f : FbConsole} {s s' : Screen vgaHeight vgaWidth (UInt8 × UInt8)}

/-- A pixel of the text is on the screen if its column is. -/
theorem Displays.on (h : f.Displays fonts m₀ s) (r : Fin vgaHeight) {i yy : Nat} (hyy : yy < 8)
    (hi : i < f.fb.info.width) : f.fb.On i (r.val * 8 + yy) := by
  have hr := r.isLt
  have htall : 200 ≤ f.fb.info.height := h.tall
  unfold vgaHeight at hr
  exact ⟨hi, by omega⟩

/-- The cursor goes elsewhere. -/
theorem Displays.move {f' : FbConsole} (h : f.Displays fonts m₀ s) (hm : f'.Mirrors s')
    (hfb : f'.fb = f.fb)
    (hmem : f'.mem = f.mem) (hcells : s'.cells = s.cells) : f'.Displays fonts m₀ s' where
  moves := hm
  fits := by rw [hfb]; exact h.fits
  tall := by rw [hfb]; exact h.tall
  picture := by rw [hfb, hmem, hcells]; exact h.picture
  frame := by rw [hfb, hmem]; exact h.frame

/-- **A character is drawn in its cell**, and nowhere else. -/
theorem Displays.draw (h : f.Displays fonts m₀ s) (c attr : UInt8) :
    (f.draw fonts c attr).Displays fonts m₀ (s.set (c, attr)) := by
  have hrow := s.row.isLt
  have hcol := s.col.isLt
  unfold vgaHeight at hrow
  unfold vgaWidth at hcol
  have hpx : Bits.u32 (fbConPad + u32OfInt f.mCol * 8) = s.col.val * 8 := by
    rw [h.moves.col, u32OfInt, Bits.u32, fbConPad]
    omega
  have hpy : Bits.u32 (fbConTop + u32OfInt f.mRow * 8) = s.row.val * 8 := by
    rw [h.moves.row, u32OfInt, Bits.u32, fbConTop]
    omega
  have hdraws := h.fits.glyphBlit_draws fonts f.mem (Fb.glyphIndex_lt c)
    (show s.col.val * 8 + 8 ≤ 2 ^ 32 by omega) (show s.row.val * 8 + 8 ≤ 2 ^ 32 by omega)
    (Fb.fbVga16Rgb_lt (attr.toNat &&& 0x0F)) (Fb.fbVga16Rgb_lt ((attr.toNat >>> 4) &&& 0x0F))
  refine ⟨⟨h.moves.ok, h.moves.row, h.moves.col⟩, h.fits, h.tall, fun r k xx yy hxx hyy hi => ?_,
    ?_⟩
  case refine_2 =>
    change f.fb.SameOff m₀ (glyphBlit fonts f.fb f.mem (Bits.u32 (fbConPad + u32OfInt f.mCol * 8))
      (Bits.u32 (fbConTop + u32OfInt f.mRow * 8)) (glyphIndex c) _ _)
    rw [hpx, hpy]
    exact h.frame.trans (hdraws.within fun _ _ hin => hin.on)
  have hon := h.on r hyy hi
  change f.fb.getPixel (glyphBlit fonts f.fb f.mem (Bits.u32 (fbConPad + u32OfInt f.mCol * 8))
    (Bits.u32 (fbConTop + u32OfInt f.mRow * 8)) (glyphIndex c) _ _) _ _
      = cellPixel fonts (if r = s.row ∧ k = s.col then (c, attr) else s.cells r k) xx yy
  rw [hpx, hpy, h.fits.getPixel_draws hdraws (fun _ _ hin => hin.on) hon]
  by_cases hcell : r = s.row ∧ k = s.col
  · obtain ⟨rfl, rfl⟩ := hcell
    rw [if_pos ⟨by omega, by omega, by omega, by omega, hon.1, hon.2⟩, if_pos ⟨rfl, rfl⟩,
      Nat.add_sub_cancel_left, Nat.add_sub_cancel_left]
    rfl
  · rw [if_neg hcell, if_neg]
    · exact h.picture r k xx yy hxx hyy hi
    · intro hin
      have h1 := hin.left
      have h2 := hin.right
      have h3 := hin.top
      have h4 := hin.bottom
      exact hcell ⟨Fin.ext (by omega), Fin.ext (by omega)⟩

/-- **All rows move up.** -/
theorem Displays.rowsUp (hspace : ∀ yy, fonts 0 yy = 0) (h : f.Displays fonts m₀ s) {f' : FbConsole}
    (hm : f'.Mirrors (s.rowsUp (0x20, attr))) (hfb : f'.fb = f.fb)
    (hmem : f'.mem = fbConsoleScrollGfxOneLine f.fb f.mem attr) :
    f'.Displays fonts m₀ (s.rowsUp (0x20, attr)) := by
  refine ⟨hm, by rw [hfb]; exact h.fits, by rw [hfb]; exact h.tall, ?_, ?_⟩
  case refine_2 =>
    rw [hfb, hmem]
    exact h.frame.trans (h.fits.scroll_within h.tall f.mem attr)
  intro r k xx yy hxx hyy hi
  rw [hfb] at hi
  have hr := r.isLt
  have hk := k.isLt
  unfold vgaHeight at hr
  unfold vgaWidth at hk
  change _ = cellPixel fonts (if hlt : r.val + 1 < vgaHeight then s.cells ⟨r.val + 1, hlt⟩ k else
    (0x20, attr)) xx yy
  have hcols : fbMirrorCols * 8 = 640 := rfl
  have hrows : fbMirrorRows * 8 = 200 := rfl
  have hmoved : Fb.scrolledRows = 192 := rfl
  rw [hfb, hmem, h.fits.getPixel_scroll h.tall (h.on r hyy hi)]
  by_cases hlt : r.val + 1 < vgaHeight
  · rw [dif_pos hlt]
    unfold vgaHeight at hlt
    rw [if_pos (by omega), ← h.picture ⟨r.val + 1, hlt⟩ k xx yy hxx hyy hi]
    congr 1
    dsimp only
    omega
  · rw [dif_neg hlt, cellPixel_blank hspace]
    unfold vgaHeight at hlt
    rw [if_neg (by omega), if_pos (by omega)]

/-- Down by one row. -/
theorem Displays.lineFeed (hspace : ∀ yy, fonts 0 yy = 0) (h : f.Displays fonts m₀ s) :
    ({ f with mRow := f.mRow + 1 }.scrollRows attr).Displays fonts m₀
      (s.lineFeed (0x20, attr)) := by
  have hmoves : ({ f with mRow := f.mRow + 1 }.scrollRows attr).Mirrors (s.lineFeed (0x20, attr)) :=
    h.moves.lineFeed _
  have hlt := s.row.isLt
  unfold vgaHeight at hlt
  have hrow := h.moves.row
  by_cases hr : s.row.val + 1 < vgaHeight
  · have hr' : s.row.val + 1 < 25 := hr
    have hstay : ¬ f.mRow + 1 ≥ fbMirrorRows := by unfold fbMirrorRows; omega
    rw [scrollRows, if_neg hstay] at hmoves ⊢
    refine h.move hmoves rfl rfl ?_
    rw [Screen.lineFeed_of_lt hr]
  · have hr' : ¬ s.row.val + 1 < 25 := hr
    have hover : f.mRow + 1 ≥ fbMirrorRows := by unfold fbMirrorRows; omega
    have hback : ¬ f.mRow + 1 - 1 ≥ fbMirrorRows := by unfold fbMirrorRows; omega
    rw [Screen.lineFeed_of_last hr] at hmoves ⊢
    rw [scrollRows, if_pos hover, scrollRows, if_neg hback] at hmoves ⊢
    exact h.rowsUp hspace hmoves rfl rfl

theorem Displays.carriage (h : f.Displays fonts m₀ s) :
    Displays fonts m₀ { f with mCol := 0 } s.carriage :=
  h.move h.moves.carriage rfl rfl rfl

/-- To another column, behind the last of which the next row begins. -/
theorem Displays.toCol (hspace : ∀ yy, fonts 0 yy = 0) (h : f.Displays fonts m₀ s) (k : Nat) :
    ({ f with mCol := k }.wrap.scrollRows attr).Displays fonts m₀ (s.toCol (0x20, attr) k) := by
  have hmoves : ({ f with mCol := k }.wrap.scrollRows attr).Mirrors (s.toCol (0x20, attr) k) :=
    h.moves.toCol _ k
  unfold wrap at hmoves ⊢
  by_cases hk : k < vgaWidth
  · have hin : ¬ (k : Int) ≥ fbMirrorCols := by
      unfold vgaWidth at hk
      unfold fbMirrorCols
      omega
    rw [if_neg hin] at hmoves ⊢
    have hcol : Mirrors { f with mCol := k } { s with col := ⟨k, hk⟩ } :=
      ⟨h.moves.ok, h.moves.row, rfl⟩
    rw [hcol.scrollRows_eq] at hmoves ⊢
    refine h.move hmoves rfl rfl ?_
    rw [Screen.toCol_of_lt hk]
  · have hout : (k : Int) ≥ fbMirrorCols := by
      unfold vgaWidth at hk
      unfold fbMirrorCols
      omega
    rw [Screen.toCol_of_ge hk, if_pos hout]
    exact h.carriage.lineFeed hspace

/-- **`fb_console_putchar` makes the picture of the terminal's next screen**, whatever the
character. -/
theorem Displays.putchar {t : VgaTerm (UInt8 × UInt8)} (hspace : ∀ yy, fonts 0 yy = 0)
    (h : f.Displays fonts m₀ t.screen) (c : UInt8) :
    (f.putchar fonts c t.color).Displays fonts m₀ (t.putchar Prod.mk c) := by
  rw [FbConsole.putchar, if_neg (by rw [h.moves.ok]; decide)]
  rcases char_cases c with rfl | rfl | rfl | rfl | hc
  · exact h.carriage.lineFeed hspace
  · have hcr : Displays fonts m₀ (f.putcharCases fonts 0x0D t.color) t.screen.carriage := h.carriage
    rw [hcr.moves.scrollRows_eq]
    exact hcr
  · have htab : tabStop f.mCol = ((t.screen.col.val + 8) / 8 * 8 : Nat) := by
      rw [tabStop, h.moves.col]
      omega
    change ({ f with mCol := tabStop f.mCol }.wrap.scrollRows t.color).Displays fonts m₀
      (t.screen.tab _ 8)
    rw [htab]
    exact h.toCol hspace _
  · rw [putcharCases_back]
    have hcol := h.moves.col
    by_cases h0 : t.screen.col.val = 0
    · have hback : t.putchar Prod.mk 0x08 = t.screen := if_pos h0
      rw [hback, if_neg (by omega), h.moves.scrollRows_eq]
      exact h
    · have hlt := t.screen.col.isLt
      have hback : t.putchar Prod.mk 0x08 =
          ({ t.screen with col := ⟨t.screen.col.val - 1, by omega⟩ } : Screen vgaHeight vgaWidth
            (UInt8 × UInt8)).set (0x20, t.color) := if_neg h0
      have hleft : Displays fonts m₀ { f with mCol := f.mCol - 1 }
          { t.screen with col := ⟨t.screen.col.val - 1, by omega⟩ } := by
        refine h.move ⟨h.moves.ok, h.moves.row, ?_⟩ rfl rfl rfl
        dsimp only
        omega
      have hdrawn := hleft.draw 0x20 t.color
      rw [hback, if_pos (by omega), hdrawn.moves.scrollRows_eq]
      exact hdrawn
  · rw [putcharCases_printed hc, VgaTerm.putchar_printed Prod.mk hc]
    have hnext : (f.draw fonts c t.color).mCol + 1 = ((t.screen.col.val + 1 : Nat) : Int) := by
      change f.mCol + 1 = _
      rw [h.moves.col]
      rfl
    rw [hnext]
    exact (h.draw c t.color).toCol hspace _

/-- The whole screen is filled with the background's colour. -/
theorem reset_displays (hspace : ∀ yy, fonts 0 yy = 0) (hfb : f.fb.Fits) (htall : f.fb.Tall)
    (hframe : f.fb.SameOff m₀ f.mem) (s : Screen vgaHeight vgaWidth (UInt8 × UInt8))
    (attr : UInt8) :
    (f.reset attr).Displays fonts m₀ (s.clear (0x20, attr)) := by
  have hh : 200 ≤ f.fb.info.height := htall
  have hno : Fb.NoWrap f.fb.info 0 fbConTop f.fb.info.width (f.fb.info.height - fbConTop) := by
    by_cases hw : f.fb.info.width = 0
    · exact .inl hw
    · obtain ⟨h1, h2⟩ := hfb.sizes (show 0 < f.fb.info.width by omega)
        (show 0 < f.fb.info.height by omega)
      refine .inr (.inr (.inr (.inr ⟨by omega, ?_⟩)))
      unfold fbConTop
      omega
  have hfill := (Fb.fillRect_paints hfb f.mem
    (Fb.fbVga16Rgb_lt ((attr.toNat >>> 4) &&& 0x0F)) hno).draws
  have hmem : f.reset attr = { f with
      mRow := 0
      mCol := 0
      mem := f.fb.fillRect f.mem 0 fbConTop f.fb.info.width (f.fb.info.height - fbConTop)
        (fbAttrToColors attr).2 } := by
    have hok : ¬ (!f.fb.ok) = true := by rw [hfb.ok]; decide
    have htop : fbConTop < f.fb.info.height := by unfold fbConTop; omega
    exact (if_neg hok).trans (if_pos htop)
  rw [hmem]
  refine ⟨⟨hfb.ok, rfl, rfl⟩, hfb, htall, fun r k xx yy hxx hyy hi => ?_, ?_⟩
  · have hr := r.isLt
    unfold vgaHeight at hr
    have hon : f.fb.On (k.val * 8 + xx) (r.val * 8 + yy) := ⟨hi, by omega⟩
    change f.fb.getPixel (f.fb.fillRect f.mem 0 fbConTop f.fb.info.width
      (f.fb.info.height - fbConTop)
      (fbVga16Rgb ((attr.toNat >>> 4) &&& 0x0F))) _ _ = cellPixel fonts (0x20, attr) xx yy
    rw [hfb.getPixel_draws hfill (fun _ _ hin => hin.on) hon, cellPixel_blank hspace, if_pos]
    · rfl
    · refine ⟨Nat.zero_le _, ?_, Nat.zero_le _, ?_, hon.1, hon.2⟩
      · rw [Nat.zero_add]
        exact hon.1
      · unfold fbConTop
        have := hon.2
        omega
  · exact hframe.trans (hfill.within fun _ _ hin => hin.on)

/-- `fb_console_mirror_cursor` draws nothing. -/
theorem Displays.mirrorCursor (h : f.Displays fonts m₀ s) (i : Fin vgaHeight) (j : Fin vgaWidth) :
    (f.mirrorCursor i.val j.val).Displays fonts m₀ (s.moveTo i j) := by
  refine h.move (h.moves.mirrorCursor i j) ?_ ?_ rfl
  · unfold FbConsole.mirrorCursor
    split
    · rfl
    · rfl
  · unfold FbConsole.mirrorCursor
    split
    · rfl
    · rfl

end FbConsole

/-! ## Runs -/

section Runs

variable {m₀ : Mem} {s : Console} {t : VgaTerm UInt16} {T T' : VgaTerm (UInt8 × UInt8)}

/-- Both screens of a console: the terminal of `VGA_MEM`, and the picture of the other one. -/
structure Console.Displays (fonts : Fonts) (m₀ : Mem) (s : Console) (T : VgaTerm (UInt8 × UInt8)) :
    Prop where
  shown : ∃ t, s.Shows t
  color : s.curColor = T.color
  mirror : s.mirror.Displays fonts m₀ T.screen

/-- After `vga_clear`, whatever was seen before. -/
theorem Console.Shows.clear_displays (hspace : ∀ yy, fonts 0 yy = 0) (ht : s.Shows t)
    (hcolor : s.curColor = T.color) (hfb : s.mirror.fb.Fits) (htall : s.mirror.fb.Tall)
    (hframe : s.mirror.fb.SameOff m₀ s.mirror.mem) :
    ∃ s', s.clear.out = .done s' ∧ s'.Displays fonts m₀ (T.step Prod.mk .clear) := by
  obtain ⟨s', hrun, hshows, hmirror⟩ := ht.clear
  refine ⟨s', hrun.2, ⟨_, hshows⟩, hshows.color.trans (ht.color.symm.trans hcolor), ?_⟩
  rw [hmirror, hcolor]
  exact FbConsole.reset_displays hspace hfb htall hframe T.screen T.color

/-- **What one call does to the picture.** -/
theorem Console.Displays.op (hspace : ∀ yy, fonts 0 yy = 0) (h : s.Displays fonts m₀ T)
    (op : ConsoleOp) :
    ∃ s', (op.run fonts s).out = .done s' ∧ s'.Displays fonts m₀ (T.step Prod.mk op) := by
  obtain ⟨t, ht⟩ := h.shown
  have hcolor := h.color
  cases op with
  | setColor fg bg =>
      exact ⟨s.setColor fg bg, rfl, ⟨⟨t.screen, (s.setColor fg bg).curColor⟩, ht.row, ht.col, rfl,
        ht.cell⟩, rfl, h.mirror⟩
  | setCursor row col =>
      obtain ⟨s', hrun, hshows, hmirror⟩ := ht.setCursor row col
      refine ⟨s', hrun.2, ⟨_, hshows⟩, hshows.color.trans (ht.color.symm.trans hcolor), ?_⟩
      rw [hmirror]
      exact h.mirror.mirrorCursor _ _
  | clear => exact ht.clear_displays hspace hcolor h.mirror.fits h.mirror.tall h.mirror.frame
  | putchar c =>
      obtain ⟨s', hrun, hshows, hmirror⟩ := ht.putchar fonts c
      refine ⟨s', hrun.2, ⟨_, hshows⟩, hshows.color.trans (ht.color.symm.trans hcolor), ?_⟩
      rw [hmirror, hcolor]
      exact h.mirror.putchar hspace c

/-- **What calls do to the picture, one after the other.** -/
theorem Console.Displays.ops (hspace : ∀ yy, fonts 0 yy = 0) :
    ∀ {ops : List ConsoleOp} {s : Console} {T : VgaTerm (UInt8 × UInt8)}, s.Displays fonts m₀ T →
      ∃ s', (s.runOps fonts ops).out = .done s' ∧ s'.Displays fonts m₀ (T.run Prod.mk ops)
  | [], s, _, h => ⟨s, rfl, h⟩
  | op :: ops, s, _, h => by
      obtain ⟨s₁, hrun, h₁⟩ := h.op hspace op
      obtain ⟨s', hruns, h'⟩ := Console.Displays.ops hspace h₁
      refine ⟨s', ?_, h'⟩
      change (op.run fonts s >>= fun s => s.runOps fonts ops).out = .done s'
      rw [Logged.bind_of_done hrun]
      exact hruns

/-- A cleared screen is the same, whatever was on it. -/
theorem VgaTerm.step_clear (hcolor : T.color = T'.color) :
    T.step Prod.mk .clear = T'.step Prod.mk .clear := by
  refine VgaTerm.ext ?_ hcolor
  change T.screen.clear (0x20, T.color) = T'.screen.clear (0x20, T'.color)
  rw [hcolor]
  rfl

end Runs

/-- **What is seen on the framebuffer is a terminal's screen**, drawn cell by cell. From any
clearing of the screen on, whatever is printed and wherever the cursor is put, each pixel of the
text is the one of the character and the attribute that the terminal has in its cell, and no byte of
memory is changed that belongs to no pixel. As long as the characters are ASCII, the text screen
shows the characters and the attributes of the same terminal. -/
theorem console_pictured {s : Console} (hs : s.Booted gVnlFonts) (hok : s.mirror.fb.ok = true)
    (hwide : 4 * s.mirror.fb.info.width ≤ s.mirror.fb.info.pitch)
    (hshort : s.mirror.fb.info.pitch * s.mirror.fb.info.height < 2 ^ 32)
    (hvirt : s.mirror.fb.virt < 2 ^ 64)
    (hroom : s.mirror.fb.virt + s.mirror.fb.info.pitch * s.mirror.fb.info.height ≤ 2 ^ 64)
    (htall : 200 ≤ s.mirror.fb.info.height) (ops : List ConsoleOp) :
    ∃ s', (s.runOps gVnlFonts (.clear :: ops)).out = .done s' ∧
      ∀ T : VgaTerm (UInt8 × UInt8), T.color = s.curColor →
        Pictured gVnlFonts s'.mirror.fb s'.mirror.mem (T.run Prod.mk (.clear :: ops)).screen.cells
          ∧ s'.mirror.fb.SameOff s.mirror.mem s'.mirror.mem
          ∧ (VgaTerm.EachMakes Fits s.curColor ops
            → s'.ShowsText (T.run Prod.mk (.clear :: ops))) := by
  obtain ⟨t, ht⟩ := hs.shows
  have hfits : s.mirror.fb.Fits := ⟨hok, hwide, hshort, hvirt, hroom⟩
  have hsame : (t.map cellText).color = s.curColor := ht.color.symm
  obtain ⟨s₁, hrun, h₁⟩ := ht.clear_displays gVnlFonts_space hsame.symm hfits htall
    fun _ (_ : ∀ i j, s.mirror.fb.On i j → _) => (rfl : s.mirror.mem _ = s.mirror.mem _)
  obtain ⟨s', hruns, h'⟩ := Console.Displays.ops gVnlFonts_space h₁
  have hall : (s.runOps gVnlFonts (.clear :: ops)).out = .done s' := by
    change (s.clear >>= fun s => s.runOps gVnlFonts ops).out = .done s'
    rw [Logged.bind_out, hrun]
    exact hruns
  refine Exists.intro s' (And.intro hall ?_)
  intro T hT
  have hterm : T.run Prod.mk (.clear :: ops) = (t.map cellText).run Prod.mk (.clear :: ops) := by
    change (T.step Prod.mk .clear).run Prod.mk ops
      = ((t.map cellText).step Prod.mk .clear).run Prod.mk ops
    rw [VgaTerm.step_clear (hT.trans hsame.symm)]
  rw [hterm]
  refine ⟨h'.mirror.picture, h'.mirror.frame, fun hfit => ?_⟩
  have hprefix : ∀ ops', ops' <+: .clear :: ops → ∃ s', (s.runOps gVnlFonts ops').out = .done s'
      ∧ s'.ShowsText ((t.map cellText).run Prod.mk ops') := (ht.text_runs_iff _).mpr hfit
  obtain ⟨s'', hout, htext⟩ := hprefix _ (List.prefix_refl _)
  rw [hall] at hout
  cases hout
  exact htext

/-- A machine with a framebuffer of 640 pixels by 200, and a line of text that scrolls. -/
theorem console_pictured_line : ∃ s', (bootFbConsole.runOps gVnlFonts
      [.clear, .setCursor 24 79, .putchar 0x41]).out = .done s' ∧
    ∀ T : VgaTerm (UInt8 × UInt8), T.color = bootFbConsole.curColor →
      Pictured gVnlFonts s'.mirror.fb s'.mirror.mem
          (T.run Prod.mk [.clear, .setCursor 24 79, .putchar 0x41]).screen.cells
        ∧ s'.mirror.fb.SameOff bootFbConsole.mirror.mem s'.mirror.mem
        ∧ (VgaTerm.EachMakes Fits bootFbConsole.curColor [.setCursor 24 79, .putchar 0x41] →
          s'.ShowsText (T.run Prod.mk [.clear, .setCursor 24 79, .putchar 0x41])) :=
  console_pictured (s := bootFbConsole) (bootFbConsole_booted _) (by decide) (by decide) (by decide)
    (by decide) (by decide) (by decide) [.setCursor 24 79, .putchar 0x41]

end VnlKernel
