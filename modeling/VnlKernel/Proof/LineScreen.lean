import VnlKernel.Shell.Readline

/-!
# The row that is edited

A character that is not a control character goes into one cell and takes the cursor one column
further. The line and the blanks behind it end before the last column, so while it is written
anew the cursor does not leave the row.
-/

namespace VnlKernel

open ByteMem Logged

/-- A cell of the line's row, from the line's column on and before the last one. -/
def VgaEvent.OnLine (p : LinePlace) : VgaEvent → Prop
  | .cell row col => row = p.row ∧ p.col ≤ col ∧ col < 79
  | .nextRow => False
  | .scroll => False

section Screen

variable {v : Vga} {c : UInt8} {p : LinePlace}

theorem nextRow_done (v : Vga) : v.nextRow.out
    = .done { v with curCol := 0, curRow := v.curRow + 1 } := rfl

theorem putcharCases_done (v : Vga) (c : UInt8) : ∃ v', (v.putcharCases c).out = .done v' := by
  unfold Vga.putcharCases
  split
  · exact ⟨_, nextRow_done v⟩
  · split
    · exact ⟨_, rfl⟩
    · split
      · dsimp only
        split
        · exact ⟨_, nextRow_done _⟩
        · exact ⟨_, rfl⟩
      · split
        · split
          · exact ⟨_, rfl⟩
          · exact ⟨_, rfl⟩
        · dsimp only
          rw [bind_out]
          change ∃ v', (if v.curCol + 1 ≥ vgaWidth then _ else _ : Logged VgaEvent Vga).out
            = .done v'
          split
          · exact ⟨_, nextRow_done _⟩
          · exact ⟨_, rfl⟩

/-- `vga_putchar` returns, with the cursor on the screen. -/
theorem putchar_done (v : Vga) (c : UInt8) : ∃ v', (v.putchar c).out = .done v'
    ∧ v'.curRow < vgaHeight := by
  obtain ⟨v₁, hout⟩ := putcharCases_done v c
  rw [Vga.putchar, bind_out, hout, Outcome.bind_done]
  split
  · exact ⟨_, rfl, (by decide : vgaHeight - 1 < vgaHeight)⟩
  · next hlt => exact ⟨_, rfl, Nat.lt_of_not_le hlt⟩

/-- A newline takes the cursor to the first column. -/
theorem newline_done (v : Vga) :
    ∃ v', (v.putchar 0x0A).out = .done v' ∧ v'.curCol = 0 ∧ v'.curRow < vgaHeight := by
  obtain ⟨v', hout, hrow⟩ := putchar_done v 0x0A
  refine ⟨v', hout, ?_, hrow⟩
  rw [Vga.putchar, bind_out] at hout
  change (if v.curRow + 1 ≥ vgaHeight then _ else _ : Logged VgaEvent Vga).out = .done v' at hout
  split at hout
  · cases hout
    rfl
  · cases hout
    rfl

theorem putGlyphs_done (buf : Mem) : ∀ (n i : Nat) (v : Vga), ∃ v',
    (putGlyphs v buf i n).out = .done v'
  | 0, _, v => ⟨v, rfl⟩
  | n + 1, i, v => by
      obtain ⟨v₁, hout, _⟩ := putchar_done v (buf i)
      rw [putGlyphs, bind_out, hout, Outcome.bind_done]
      exact putGlyphs_done buf n (i + 1) v₁

/-- Writing the line anew changes the screen only. -/
theorem redraw_done (s : LineEdit) (p : LinePlace) (old : Nat) :
    ∃ v', (s.redraw p old).out = .done { s with vga := v' } := by
  obtain ⟨v₁, h₁⟩ := putGlyphs_done s.buf s.len 0 ((s.vga.setColor vgaWhite).setCursor p.row p.col)
  obtain ⟨v₂, h₂⟩ := putGlyphs_done (fun _ => 0x20) (old - s.len) s.len v₁
  rw [LineEdit.redraw, bind_out, h₁, Outcome.bind_done, bind_out, h₂]
  exact ⟨_, rfl⟩

/-! ## Characters that are not control characters -/

/-- What stays on its row. -/
def Printable (c : UInt8) : Prop := 0x20 ≤ c

instance (c : UInt8) : Decidable (Printable c) := inferInstanceAs (Decidable (_ ≤ _))

theorem Printable.not_control (h : Printable c) : c ≠ 0x0A ∧ c ≠ 0x0D ∧ c ≠ 0x09 ∧ c ≠ 0x08 := by
  have hc : (0x20 : UInt8).toNat ≤ c.toNat := h
  have hne : ∀ d : UInt8, d.toNat < 32 → c ≠ d := by
    intro d hd he
    rw [he] at hc
    exact absurd hc (Nat.not_le.mpr hd)
  exact ⟨hne _ (by decide), hne _ (by decide), hne _ (by decide), hne _ (by decide)⟩

theorem putchar_onLine (hc : Printable c) (hrow : v.curRow = p.row) (hp : p.row < vgaHeight)
    (hlow : p.col ≤ v.curCol)
    (hhigh : v.curCol < 79) :
    ∃ v', (v.putchar c).Comes (VgaEvent.OnLine p) v' ∧ v'.curRow = p.row
      ∧ v'.curCol = v.curCol + 1 := by
  obtain ⟨h1, h2, h3, h4⟩ := hc.not_control
  have hw : ¬ v.curCol + 1 ≥ vgaWidth := by
    rw [show vgaWidth = 80 from rfl]
    omega
  obtain ⟨v₁, hv₁, hrow₁, hcol₁⟩ : ∃ v₁,
    { v.write v.curRow v.curCol (makeEntry c v.curColor) with curCol := v.curCol + 1 } = v₁
      ∧ v₁.curRow = v.curRow ∧ v₁.curCol = v.curCol + 1 := ⟨_, rfl, rfl, rfl⟩
  have hcases : v.putcharCases c = Logged.note (.cell v.curRow v.curCol) >>= fun _ => pure v₁ := by
    rw [Vga.putcharCases, if_neg h1, if_neg h2, if_neg h3, if_neg h4, ← hv₁]
    dsimp only
    rw [show (v.write v.curRow v.curCol (makeEntry c v.curColor)).curCol = v.curCol from rfl,
      if_neg hw]
  rw [Vga.putchar, hcases, Logged.bind_assoc]
  refine ⟨v₁, Comes.bind (Comes.note ⟨hrow, hlow, hhigh⟩) ?_, hrow₁.trans hrow, hcol₁⟩
  rw [Logged.pure_bind, if_neg (by omega)]
  exact Comes.pure _

theorem putGlyphs_onLine (buf : Mem) (hp : p.row < vgaHeight) : ∀ (n i : Nat) (v : Vga),
    (∀ j, j < n → Printable (buf (i + j))) →
    v.curRow = p.row → p.col ≤ v.curCol → v.curCol + n ≤ 79 →
    ∃ v', (putGlyphs v buf i n).Comes (VgaEvent.OnLine p) v' ∧ v'.curRow = p.row
      ∧ v'.curCol = v.curCol + n
  | 0, _, v, _, hrow, _, _ => ⟨v, Comes.pure v, hrow, rfl⟩
  | n + 1, i, v, hplain, hrow, hlow, hhigh => by
      obtain ⟨v₁, hone, hrow₁, hcol₁⟩ :=
        putchar_onLine (hplain 0 (Nat.succ_pos n)) hrow hp hlow (by omega)
      obtain ⟨v₂, hrest, hrow₂, hcol₂⟩ := putGlyphs_onLine buf hp n (i + 1) v₁
        (fun j hj => by rw [Nat.add_assoc, Nat.add_comm 1 j]; exact hplain (j + 1) (Nat.succ_lt_succ hj)) hrow₁ (by omega) (by omega)
      exact ⟨v₂, hone.bind hrest, hrow₂, by omega⟩

/-- **Writing the line anew stays on its row**, before the last column. -/
theorem redraw_onLine {s : LineEdit} {old : Nat} (hp : p.row < vgaHeight)
    (hfit : p.col + p.limit ≤ 79)
    (hlen : s.len ≤ p.limit) (hold : old ≤ p.limit)
    (hplain : ∀ j, j < s.len → Printable (s.buf j)) :
    ∀ e ∈ (s.redraw p old).log, e.OnLine p := by
  have hrow : ¬ p.row ≥ vgaHeight := by omega
  have hcol : ¬ p.col ≥ vgaWidth := by
    rw [show vgaWidth = 80 from rfl]
    omega
  have hstart : ((s.vga.setColor vgaWhite).setCursor p.row p.col).curRow = p.row
      ∧ ((s.vga.setColor vgaWhite).setCursor p.row p.col).curCol = p.col :=
        ⟨if_neg hrow, if_neg hcol⟩
  obtain ⟨v₁, h₁, hrow₁, hcol₁⟩ := putGlyphs_onLine s.buf hp s.len 0 _
    (fun j hj => by rw [Nat.zero_add]; exact hplain j hj)
    hstart.1 (Nat.le_of_eq hstart.2.symm) (by rw [hstart.2]; omega)
  rw [hstart.2] at hcol₁
  obtain ⟨v₂, h₂, _⟩ := putGlyphs_onLine (fun _ => 0x20) hp (old - s.len) s.len v₁
    (fun j _ => (by decide : Printable 0x20)) hrow₁
    (by omega) (by omega)
  exact (Comes.bind h₁ (Comes.bind h₂ (Comes.pure { s with vga := v₂.setCursor p.row (p.col + s.cur) }))).1

end Screen

end VnlKernel
