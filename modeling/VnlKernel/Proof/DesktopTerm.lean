import VnlKernel.Lib.Columns
import VnlKernel.Kernel.Desktop
import VnlKernel.Proof.ConsoleTerm

/-!
# The terminal in a window

The hook has a code of its own for what a terminal does, with an array of 60 columns. It is a
terminal of that size, whatever is printed, except that a backspace in the first column blanks it.
The console goes on to column 80; where a line stays in front of column 60, and has no tabs, the
window shows what the console shows.
-/

namespace VnlKernel

open Terminal Logged

/-- A screen of the size that a window's terminal has. -/
abbrev WinScreen := Screen termRows termCols UInt16

/-- A store goes to one of the cells. -/
def DesktopEvent.OnTerm : DesktopEvent → Prop
  | .store i => 0 ≤ i ∧ i < termBufSize

theorem winRow_lt (y : Int) : min y.toNat (termRows - 1) < termRows := by
  unfold termRows
  omega

/-- The row nearest to `y`. -/
def winRow (y : Int) : Fin termRows := ⟨min y.toNat (termRows - 1), winRow_lt y⟩

/-- The column nearest to `x`. -/
def winCol (x : Int) : Fin termCols := ⟨min x.toNat (termCols - 1), by unfold termCols; omega⟩

/-- What the hook does to the screen. -/
def WinScreen.step (t : WinScreen) (e : HookCall) : WinScreen :=
  let blank := termEntry 0x20 e.color
  match e.ev with
  | .clear => t.clear blank
  | .cursor => t.moveTo (winRow e.y) (winCol e.x)
  | .putchar =>
      if e.c = 0x0A then t.newline blank
      else if e.c = 0x0D then t.carriage
      else if e.c = 0x08 then if t.col.val = 0 then t.set blank else t.back blank
      else t.put blank (termEntry e.c e.color)

/-- The console's cursor is on the window's screen. -/
def HookCall.InScreen (e : HookCall) : Prop :=
  e.ev = .cursor → 0 ≤ e.x ∧ e.x < termCols ∧ 0 ≤ e.y ∧ e.y < termRows

namespace Window

variable {win : Window} {t : WinScreen} {e : HookCall}

/-- A cell of `term_buffer`. -/
theorem cell_in {x y : Int} (hx : 0 ≤ x) (hx' : x < termCols) (hy : 0 ≤ y) (hy' : y < termRows) :
    0 ≤ y * termCols + x ∧ y * termCols + x < termBufSize := by
  have hsize : (termBufSize : Int) = 1500 := rfl
  have hrows : (termRows : Int) = 25 := rfl
  have hcols : (termCols : Int) = 60 := rfl
  rw [hcols] at hx' ⊢
  omega

/-! ## The loops -/

theorem storeTerm_comes (win : Window) {i : Int} (entry : UInt16) (hi : 0 ≤ i ∧ i < termBufSize) :
    Comes DesktopEvent.OnTerm (win.storeTerm i entry)
      { win with termBuffer := fun k => if k = i then entry else win.termBuffer k } :=
  (Comes.note (e := DesktopEvent.store i) hi).bind (Comes.pure _)

/-- A loop over a part of the screen. -/
theorem fillTerm_comes (win : Window) (lo : Int) (n : Nat) (f : Int → UInt16)
    (body : Nat → Window → Logged DesktopEvent Window) (hlo : 0 ≤ lo) (hn : lo + n ≤ termBufSize)
    (hbody : ∀ i cells, i < n → cells = Console.fillRange win.termBuffer lo (lo + i) f →
      body i { win with termBuffer := cells } = { win with termBuffer := cells }.storeTerm (lo + i)
      (f (lo + i))) :
    Comes DesktopEvent.OnTerm (forUpTo body win n)
      { win with termBuffer := Console.fillRange win.termBuffer lo (lo + n) f } := by
  have hloop : Comes DesktopEvent.OnTerm
      (forUpTo body
        { win with termBuffer := Console.fillRange win.termBuffer lo (lo + (0 : Nat)) f } n)
      { win with termBuffer := Console.fillRange win.termBuffer lo (lo + n) f } := by
    refine Comes.forUpTo
      (g := fun i : Nat => { win with termBuffer := Console.fillRange win.termBuffer lo (lo + i) f })
      fun i hi => ?_
    have hone := storeTerm_comes
      { win with termBuffer := Console.fillRange win.termBuffer lo (lo + i) f }
      (f (lo + i)) (show 0 ≤ lo + i ∧ lo + i < termBufSize by omega)
    rw [hbody i _ hi rfl]
    dsimp only at hone
    rw [Console.fillRange_succ (by omega), Int.add_assoc] at hone
    exact hone
  rw [show lo + ((0 : Nat) : Int) = lo from Int.add_zero lo, Console.fillRange_none] at hloop
  exact hloop

theorem fillRange_in {cells f : Int → UInt16} {lo hi k : Int} (h : lo ≤ k ∧ k < hi) :
    Console.fillRange cells lo hi f k = f k := if_pos h

theorem fillRange_out {cells f : Int → UInt16} {lo hi k : Int} (h : ¬ (lo ≤ k ∧ k < hi)) :
    Console.fillRange cells lo hi f k = cells k := if_neg h

/-- The rows that have moved up. -/
def termCopied (win : Window) : Int → UInt16 :=
  Console.fillRange win.termBuffer 0 (termCols * (termRows - 1)) fun k =>
    win.termBuffer (k + termCols)

/-- And a blank one. -/
def scrolledTerm (win : Window) (color : UInt8) : Int → UInt16 :=
  Console.fillRange win.termCopied (termCols * (termRows - 1)) (termCols * termRows) fun _ =>
    termEntry 0x20 color

/-- The window after the rows have moved up. -/
def termScrolled (win : Window) (color : UInt8) : Window :=
  { win with termBuffer := win.scrolledTerm color, termCursorY := termRows - 1 }

theorem termScroll_comes (win : Window) (color : UInt8) :
    Comes DesktopEvent.OnTerm (win.termScroll color) (win.termScrolled color) := by
  have hsize : (termBufSize : Int) = 1500 := rfl
  have hup : termCols * (termRows - 1) = 1440 := rfl
  have hlow : (termCols : Int) * (termRows - 1) = 1440 := rfl
  have hcols : (termCols : Int) = 60 := rfl
  have hcols' : termCols = 60 := rfl
  have hcopy := fillTerm_comes win 0 (termCols * (termRows - 1))
    (fun k => win.termBuffer (k + termCols))
    (fun i win => win.storeTerm i (win.termBuffer (i + termCols))) (Int.le_refl 0) (by omega) ?_
  · refine hcopy.bind ?_
    have hblank := fillTerm_comes { win with termBuffer := win.termCopied }
      (termCols * (termRows - 1)) termCols (fun _ => termEntry 0x20 color)
      (fun i win => win.storeTerm (termCols * (termRows - 1) + i) (termEntry 0x20 color)) (by omega)
        (by omega)
      (fun _ _ _ _ => rfl)
    exact hblank.bind (Comes.pure _)
  · intro i now hi hnow
    -- the cell is read before it is overwritten
    have hread : now ((i : Int) + termCols) = win.termBuffer (0 + (i : Int) + termCols) := by
      rw [hnow, Int.zero_add]
      exact if_neg (by omega)
    dsimp only
    rw [hread, Int.zero_add]

/-! ## The terminal that `term_buffer` holds -/

/-- What the window keeps is what the terminal has. -/
structure ShowsTerm (win : Window) (t : WinScreen) : Prop where
  row : win.termCursorY = t.row.val
  col : win.termCursorX = t.col.val
  cell : ∀ (i : Fin termRows) (j : Fin termCols),
    win.termBuffer (i.val * termCols + j.val) = t.cells i j

theorem ShowsTerm.range (h : win.ShowsTerm t) :
    0 ≤ win.termCursorY ∧ win.termCursorY < termRows ∧ 0 ≤ win.termCursorX
      ∧ win.termCursorX < termCols := by
  have hi := t.row.isLt
  have hj := t.col.isLt
  rw [h.row, h.col]
  omega

/-- Two cells are the same if their numbers are. -/
theorem termIndex_inj {i i' : Nat} {j j' : Fin termCols}
    (he : (i : Int) * termCols + j.val = i' * termCols + j'.val) : i = i' ∧ j = j' := by
  have hj := j.isLt
  have hj' := j'.isLt
  unfold termCols at he hj hj'
  exact ⟨by omega, Fin.ext (by omega)⟩

/-- A store at the cursor. -/
theorem ShowsTerm.set (h : win.ShowsTerm t) (entry : UInt16) :
    ShowsTerm { win with termBuffer := fun k =>
        if k = win.termCursorY * termCols + win.termCursorX then entry else win.termBuffer k }
          (t.set entry) where
  row := h.row
  col := h.col
  cell := by
    intro i j
    change ite _ _ _ = ite _ _ _
    by_cases hij : i = t.row ∧ j = t.col
    · rw [if_pos hij, if_pos]
      rw [h.row, h.col, hij.1, hij.2]
    · rw [if_neg hij, if_neg]
      · exact h.cell i j
      · intro he
        rw [h.row, h.col] at he
        exact hij ⟨Fin.ext (termIndex_inj he).1, (termIndex_inj he).2⟩

theorem ShowsTerm.set_comes (h : win.ShowsTerm t) (entry : UInt16) :
    Comes DesktopEvent.OnTerm (win.storeTerm (win.termCursorY * termCols + win.termCursorX) entry)
      { win with termBuffer := fun k =>
          if k = win.termCursorY * termCols + win.termCursorX then entry
          else win.termBuffer k } := by
  obtain ⟨h1, h2, h3, h4⟩ := h.range
  exact storeTerm_comes win entry (cell_in h3 h4 h1 h2)

/-- The rows move up. -/
theorem ShowsTerm.rowsUp {y : Int} {color : UInt8} (h : win.ShowsTerm t)
    (hlast : ¬ t.row.val + 1 < termRows) :
    ({ win with termCursorY := y } : Window).termScrolled color |>.ShowsTerm
      (t.rowsUp (termEntry 0x20 color)) where
  row := by
    have hi := t.row.isLt
    change (termRows : Int) - 1 = t.row.val
    omega
  col := h.col
  cell := by
    intro i j
    have hi := i.isLt
    have hj := j.isLt
    change Window.scrolledTerm _ _ _ = dite (i.val + 1 < termRows) _ _
    by_cases hlt : i.val + 1 < termRows
    · rw [dif_pos hlt, ← h.cell, scrolledTerm, fillRange_out, termCopied, fillRange_in]
      · dsimp only
        congr 1
        unfold termCols
        omega
      · unfold termCols termRows at *
        omega
      · unfold termCols termRows at *
        omega
    · rw [dif_neg hlt, scrolledTerm, fillRange_in]
      unfold termCols termRows at *
      omega

/-- What the hook does about the row in the end. -/
def termSettled (win : Window) (color : UInt8) : Window :=
  if win.termCursorY ≥ termRows then win.termScrolled color else win

theorem termSettled_kind (win : Window) (color : UInt8) : (win.termSettled color).kind
    = win.kind := by
  unfold termSettled
  split
  · rfl
  · rfl

theorem termWrap_kind (win : Window) : win.termWrap.kind = win.kind := by
  unfold termWrap
  split
  · rfl
  · rfl

theorem ShowsTerm.settled_eq (h : win.ShowsTerm t) (color : UInt8) : win.termSettled color = win :=
  if_neg (by have := h.range; omega)

theorem ShowsTerm.carriage (h : win.ShowsTerm t) :
    ShowsTerm { win with termCursorX := 0 } t.carriage :=
  ⟨h.row, rfl, h.cell⟩

/-- Down by one row. -/
theorem ShowsTerm.lineFeed (h : win.ShowsTerm t) (color : UInt8) :
    ({ win with termCursorY := win.termCursorY + 1 } : Window).termSettled color
      |>.ShowsTerm (t.lineFeed (termEntry 0x20 color)) := by
  unfold termSettled
  by_cases hr : t.row.val + 1 < termRows
  · rw [Screen.lineFeed_of_lt hr, if_neg (by dsimp only; rw [h.row]; omega)]
    exact ⟨by dsimp only; rw [h.row]; rfl, h.col, h.cell⟩
  · rw [Screen.lineFeed_of_last hr, if_pos (by dsimp only; rw [h.row]; omega)]
    exact h.rowsUp hr

/-- To the next column, behind the last of which the next row begins. -/
theorem ShowsTerm.advance (h : win.ShowsTerm t) (color : UInt8) :
    ({ win with termCursorX := win.termCursorX + 1 } : Window).termWrap.termSettled color
      |>.ShowsTerm (t.toCol (termEntry 0x20 color) (t.col.val + 1)) := by
  unfold termWrap
  by_cases hk : t.col.val + 1 < termCols
  · have hshows : ShowsTerm { win with termCursorX := win.termCursorX + 1 }
        { t with col := ⟨t.col.val + 1, hk⟩ } :=
      ⟨h.row, by dsimp only; rw [h.col]; rfl, h.cell⟩
    rw [Screen.toCol_of_lt hk, if_neg (by dsimp only; rw [h.col]; omega), hshows.settled_eq]
    exact hshows
  · rw [Screen.toCol_of_ge hk, if_pos (by dsimp only; rw [h.col]; omega)]
    exact h.carriage.lineFeed color

/-- A window that was cleared. -/
def termCleared (win : Window) (color : UInt8) : Window :=
  { win with
    termBuffer := Console.fillRange win.termBuffer 0 termBufSize fun _ => termEntry 0x20 color
    termCursorX := 0
    termCursorY := 0 }

theorem ShowsTerm.cleared (win : Window) (color : UInt8) (t : WinScreen) :
    (win.termCleared color).ShowsTerm (t.clear (termEntry 0x20 color)) where
  row := rfl
  col := rfl
  cell := by
    intro i j
    have hi := i.isLt
    have hj := j.isLt
    have hin : (0 : Int) ≤ i.val * termCols + j.val
        ∧ (i.val * termCols + j.val : Int) < termBufSize := by
      unfold termBufSize termCols termRows at *
      omega
    unfold termCleared
    dsimp only
    rw [fillRange_in hin]
    rfl

/-! ## The hook -/

theorem hook_comes_of {win₁ : Window} (h : Comes DesktopEvent.OnTerm (win.hookCases e) win₁) :
    Comes DesktopEvent.OnTerm (win.hook e) (win₁.termSettled e.color) := by
  refine h.bind ?_
  unfold termSettled
  split
  · exact termScroll_comes win₁ e.color
  · exact Comes.pure win₁

/-- Whatever the window has shown, it is blank after it was cleared. -/
theorem hook_clear_comes (win : Window) (t : WinScreen) (hev : e.ev = .clear) :
    Comes DesktopEvent.OnTerm (win.hook e) (win.termCleared e.color) := by
  have hfill := fillTerm_comes win 0 termBufSize (fun _ => termEntry 0x20 e.color)
    (fun i win => win.storeTerm i (termEntry 0x20 e.color)) (Int.le_refl 0) (by omega)
    (fun i cells _ _ => by rw [Int.zero_add])
  rw [Int.zero_add] at hfill
  have hcases : Comes DesktopEvent.OnTerm (win.hookCases e) (win.termCleared e.color) := by
    unfold hookCases
    rw [hev]
    exact hfill.bind (Comes.pure _)
  have hhook := hook_comes_of hcases
  rw [(ShowsTerm.cleared win e.color t).settled_eq] at hhook
  exact hhook

/-- **The hook is a terminal.** -/
theorem ShowsTerm.hook (h : win.ShowsTerm t) (he : e.InScreen) :
    ∃ win', Comes DesktopEvent.OnTerm (win.hook e) win' ∧ win'.kind = win.kind
      ∧ win'.ShowsTerm (t.step e) := by
  by_cases hclear : e.ev = .clear
  · refine ⟨_, hook_clear_comes win t hclear, rfl, ?_⟩
    unfold WinScreen.step
    rw [hclear]
    exact .cleared win e.color t
  have hcases : ∃ win₁, Comes DesktopEvent.OnTerm (win.hookCases e) win₁ ∧ win₁.kind = win.kind
      ∧ (win₁.termSettled e.color).ShowsTerm (t.step e) := by
    unfold hookCases WinScreen.step
    cases hev : e.ev with
    | clear => exact absurd hev hclear
    | cursor =>
        obtain ⟨h1, h2, h3, h4⟩ := he hev
        have hshows : ShowsTerm { win with termCursorX := e.x, termCursorY := e.y }
            (t.moveTo (winRow e.y) (winCol e.x)) := by
          refine ⟨?_, ?_, h.cell⟩
          · change e.y = ((winRow e.y).val : Int)
            unfold winRow termRows at *
            dsimp only
            omega
          · change e.x = ((winCol e.x).val : Int)
            unfold winCol termCols at *
            dsimp only
            omega
        refine ⟨_, Comes.pure _, rfl, ?_⟩
        rw [hshows.settled_eq]
        exact hshows
    | putchar =>
        dsimp only
        by_cases hn : e.c = 0x0A
        · rw [if_pos hn, if_pos hn]
          exact ⟨_, Comes.pure _, rfl, h.carriage.lineFeed e.color⟩
        rw [if_neg hn, if_neg hn]
        by_cases hr : e.c = 0x0D
        · rw [if_pos hr, if_pos hr]
          refine ⟨{ win with termCursorX := 0 }, Comes.pure _, rfl, ?_⟩
          rw [h.carriage.settled_eq]
          exact h.carriage
        rw [if_neg hr, if_neg hr]
        by_cases hb : e.c = 0x08
        · rw [if_pos hb, if_pos hb]
          by_cases h0 : t.col.val = 0
          · rw [if_pos h0, if_neg (by rw [h.col]; omega)]
            refine ⟨_, h.set_comes _, rfl, ?_⟩
            rw [(h.set _).settled_eq]
            exact h.set _
          · have hlt := t.col.isLt
            have hback : t.back (termEntry 0x20 e.color) = ({ t with
                col := ⟨t.col.val - 1, by omega⟩ } : WinScreen).set
                  (termEntry 0x20 e.color) := if_neg h0
            have hmoved : ShowsTerm { win with termCursorX := win.termCursorX - 1 }
                { t with col := ⟨t.col.val - 1, by omega⟩ } :=
              ⟨h.row, by dsimp only; rw [h.col]; omega, h.cell⟩
            rw [if_neg h0, if_pos (by rw [h.col]; omega), hback]
            refine ⟨_, hmoved.set_comes _, rfl, ?_⟩
            rw [(hmoved.set _).settled_eq]
            exact hmoved.set _
        rw [if_neg hb, if_neg hb]
        obtain ⟨h1, h2, h3, h4⟩ := h.range
        rw [if_pos ⟨h4, h2⟩]
        exact ⟨_, (h.set_comes _).bind (Comes.pure _), termWrap_kind _,
          (h.set (termEntry e.c e.color)).advance e.color⟩
  obtain ⟨win₁, hrun, hkind, hshows⟩ := hcases
  exact ⟨_, hook_comes_of hrun, (termSettled_kind _ _).trans hkind, hshows⟩

end Window

end VnlKernel
