import VnlKernel.Lib.Terminal
import VnlKernel.Drivers.Console
import Mathlib.Tactic.Tauto

/-!
# The console is a terminal

`vga.c` counts its row up first and scrolls afterwards. Seen after each call, its cursor, its
colour and its two thousand cells are a terminal's, whatever is asked for; and it stores to no
other cell. `fb.c` does the same moves in a code of its own, with a loop for the scrolling, and
its cursor is the cursor of the same terminal.
-/

namespace VnlKernel

open Terminal

variable {α β : Type}

/-- A character that goes to a cell. -/
def Printed (c : UInt8) : Prop := c ≠ 0x0A ∧ c ≠ 0x0D ∧ c ≠ 0x09 ∧ c ≠ 0x08

instance : DecidablePred Printed := fun _ => inferInstanceAs (Decidable (_ ∧ _))

theorem char_cases (c : UInt8) : c = 0x0A ∨ c = 0x0D ∨ c = 0x09 ∨ c = 0x08 ∨ Printed c := by
  unfold Printed
  tauto

/-! ## The terminal -/

/-- A screen of the console's size, and the colour that is set. -/
@[ext]
structure VgaTerm (α : Type) where
  screen : Screen vgaHeight vgaWidth α
  color : UInt8

namespace VgaTerm

/-- The row nearest to `row`. -/
def clampRow (row : Int) : Fin vgaHeight := ⟨min row.toNat (vgaHeight - 1), by unfold vgaHeight; omega⟩

/-- The column nearest to `col`. -/
def clampCol (col : Int) : Fin vgaWidth := ⟨min col.toNat (vgaWidth - 1), by unfold vgaWidth; omega⟩

variable (entry : UInt8 → UInt8 → α)

/-- A character; `entry` makes a cell of it and of the colour. -/
def putchar (t : VgaTerm α) (c : UInt8) : Screen vgaHeight vgaWidth α :=
  let blank := entry 0x20 t.color
  if c = 0x0A then t.screen.newline blank
  else if c = 0x0D then t.screen.carriage
  else if c = 0x09 then t.screen.tab blank 8
  else if c = 0x08 then t.screen.back blank
  else t.screen.put blank (entry c t.color)

def step (t : VgaTerm α) : ConsoleOp → VgaTerm α
  | .setColor fg bg => { t with color := UInt8.ofNat ((bg <<< 4) ||| (fg &&& 0x0F)) }
  | .setCursor row col => { t with screen := t.screen.moveTo (clampRow row) (clampCol col) }
  | .clear => { t with screen := t.screen.clear (entry 0x20 t.color) }
  | .putchar c => { t with screen := t.putchar entry c }

theorem putchar_printed {t : VgaTerm α} {c : UInt8} (hc : Printed c) :
    t.putchar entry c = t.screen.put (entry 0x20 t.color) (entry c t.color) := by
  rw [putchar, if_neg hc.1, if_neg hc.2.1, if_neg hc.2.2.1, if_neg hc.2.2.2]

/-- One call after the other. -/
def run (t : VgaTerm α) (ops : List ConsoleOp) : VgaTerm α := ops.foldl (step entry) t

end VgaTerm

/-! ## The loops of `vga.c` -/

/-- A store goes to one of the cells. -/
def ConsoleEvent.OnScreen : ConsoleEvent → Prop
  | .store i => 0 ≤ i ∧ i < vgaWidth * vgaHeight
  | _ => True

namespace Console

open Logged

variable {s : Console} {c : UInt8}

theorem store_comes {i : Int} (entry : UInt16) (hi : 0 ≤ i ∧ i < vgaWidth * vgaHeight) :
    Comes ConsoleEvent.OnScreen (s.store i entry)
    { s with cells := fun k => if k = i then entry else s.cells k } :=
  (Comes.note (e := ConsoleEvent.store i) hi).bind (Comes.pure _)

theorem updateHwCursor_comes : Comes ConsoleEvent.OnScreen s.updateHwCursor () := by
  have hport : ∀ port value, Comes ConsoleEvent.OnScreen (Logged.note (.outb port value)) () :=
    fun port value => Comes.note (e := ConsoleEvent.outb port value) trivial
  exact (hport _ _).bind ((hport _ _).bind ((hport _ _).bind (hport _ _)))

theorem callHook_comes {ev : VgaHookEvent} {x y : Int} :
    Comes ConsoleEvent.OnScreen (s.callHook ev x y c) () := by
  unfold callHook
  split
  · exact Comes.note (e := ConsoleEvent.hook ev x y c s.curColor) trivial
  · exact Comes.pure ()

/-- The cells from `lo` up to `hi` are `f`'s. -/
def fillRange (cells : Int → UInt16) (lo hi : Int) (f : Int → UInt16) : Int → UInt16 :=
  fun k => if lo ≤ k ∧ k < hi then f k else cells k

theorem fillRange_none (cells : Int → UInt16) (lo : Int) (f : Int → UInt16) :
    fillRange cells lo lo f = cells :=
  funext fun k => if_neg (by omega)

/-- One cell more. -/
theorem fillRange_succ {cells f : Int → UInt16} {lo hi : Int} (hle : lo ≤ hi) :
    (fun k => if k = hi then f hi else fillRange cells lo hi f k)
      = fillRange cells lo (hi + 1) f := by
  funext k
  unfold fillRange
  by_cases hk : k = hi
  · subst hk
    rw [if_pos rfl, if_pos (by omega)]
  · rw [if_neg hk]
    by_cases hin : lo ≤ k ∧ k < hi
    · rw [if_pos hin, if_pos (by omega)]
    · rw [if_neg hin, if_neg (by omega)]

theorem fillRange_append {cells f : Int → UInt16} {lo mid hi : Int} (h1 : lo ≤ mid)
    (h2 : mid ≤ hi) :
    fillRange (fillRange cells lo mid f) mid hi f = fillRange cells lo hi f := by
  funext k
  unfold fillRange
  by_cases hin : mid ≤ k ∧ k < hi
  · rw [if_pos hin, if_pos (by omega)]
  · rw [if_neg hin]
    by_cases hlow : lo ≤ k ∧ k < mid
    · rw [if_pos hlow, if_pos (by omega)]
    · rw [if_neg hlow, if_neg (by omega)]

/-- A loop over a part of the screen. -/
theorem fill_comes (s : Console) (lo : Int) (n : Nat) (f : Int → UInt16)
    (body : Nat → Console → Logged ConsoleEvent Console) (hlo : 0 ≤ lo)
    (hn : lo + n ≤ vgaWidth * vgaHeight)
    (hbody : ∀ i cells, i < n → cells = fillRange s.cells lo (lo + i) f →
      body i { s with cells := cells } = { s with cells := cells }.store (lo + i) (f (lo + i))) :
    Comes ConsoleEvent.OnScreen (forUpTo body s n)
        { s with cells := fillRange s.cells lo (lo + n) f } := by
  have hloop : Comes ConsoleEvent.OnScreen
    (forUpTo body { s with cells := fillRange s.cells lo (lo + (0 : Nat)) f } n)
      { s with cells := fillRange s.cells lo (lo + n) f } := by
    refine Comes.forUpTo (g := fun i : Nat => { s with cells := fillRange s.cells lo (lo + i) f })
      fun i hi => ?_
    have hone := store_comes (s := { s with cells := fillRange s.cells lo (lo + i) f }) (f (lo + i))
      (show 0 ≤ lo + i ∧ lo + i < vgaWidth * vgaHeight by omega)
    rw [hbody i _ hi rfl]
    dsimp only at hone
    rw [fillRange_succ (by omega), Int.add_assoc] at hone
    exact hone
  rw [show lo + ((0 : Nat) : Int) = lo from Int.add_zero lo, fillRange_none] at hloop
  exact hloop

/-- What `vga_clear` makes of the cells. -/
def blankCells (s : Console) : Int → UInt16 :=
  fillRange s.cells 0 (vgaWidth * vgaHeight) fun _ => makeEntry 0x20 s.curColor

theorem clearCells_comes : Comes ConsoleEvent.OnScreen s.clearCells { s
    with cells := s.blankCells } := by
  have hfill := fill_comes s 0 (vgaWidth * vgaHeight) (fun _ => makeEntry 0x20 s.curColor)
    (fun i s => s.store i (makeEntry 0x20 s.curColor)) (by omega) (by omega)
    (fun i cells _ _ => by rw [Int.zero_add])
  rw [Int.zero_add] at hfill
  exact hfill

/-- The rows of `scroll`, and the last one. -/
def scrolledCells (s : Console) : Int → UInt16 :=
  fillRange (fillRange s.cells 0 ((vgaHeight - 1) * vgaWidth) fun k => s.cells (k + vgaWidth))
    ((vgaHeight - 1) * vgaWidth) (vgaHeight * vgaWidth) fun _ => makeEntry 0x20 s.curColor

/-- The first `r` rows are copies of the rows below them. -/
def copiedTo (s : Console) (r : Nat) : Console :=
  { s with cells := fillRange s.cells 0 (r * vgaWidth) fun k => s.cells (k + vgaWidth) }

theorem copiedTo_zero (s : Console) : s.copiedTo 0 = s := by
  rw [copiedTo, show ((0 : Nat) : Int) * vgaWidth = 0 from Int.zero_mul _, fillRange_none]

/-- The rows from `r` on are as they were, so each is copied before it is overwritten. -/
theorem scrollRow_comes (s : Console) {r : Nat} (hr : r < vgaHeight - 1) :
    Comes ConsoleEvent.OnScreen (scrollRow r (s.copiedTo r)) (s.copiedTo (r + 1)) := by
  unfold vgaHeight at hr
  have hfill := fill_comes (s.copiedTo r) (r * vgaWidth) vgaWidth (fun k => s.cells (k + vgaWidth))
    (fun c s => s.store (r * vgaWidth + c) (s.cells ((r + 1) * vgaWidth + c)))
    (by unfold vgaWidth; omega) (by unfold vgaWidth vgaHeight; omega) ?_
  · have hnext : (r : Int) * vgaWidth + vgaWidth = (r + 1 : Nat) * vgaWidth := by
      unfold vgaWidth
      omega
    unfold copiedTo at hfill ⊢
    dsimp only at hfill
    rw [fillRange_append (by unfold vgaWidth; omega) (by unfold vgaWidth; omega), hnext] at hfill
    exact hfill
  · intro i now hi hnow
    have hidx : ((r : Int) + 1) * vgaWidth + i = r * vgaWidth + i + vgaWidth := by
      unfold vgaWidth
      omega
    have hread : now (((r : Int) + 1) * vgaWidth + i) = s.cells (r * vgaWidth + i + vgaWidth) := by
      rw [hnow, hidx]
      refine (if_neg ?_).trans (if_neg ?_)
      · omega
      · unfold vgaWidth
        omega
    dsimp only
    rw [hread]

/-- `scroll`, when it is over. -/
def scrolled (s : Console) : Console := { s with cells := s.scrolledCells, curRow := vgaHeight - 1 }

theorem scroll_comes : Comes ConsoleEvent.OnScreen s.scroll s.scrolled := by
  have hrows : Comes ConsoleEvent.OnScreen (forUpTo scrollRow s (vgaHeight - 1))
      (s.copiedTo (vgaHeight - 1)) := by
    have hloop := Comes.forUpTo (g := s.copiedTo) fun r (hr : r < vgaHeight - 1) =>
      scrollRow_comes s hr
    rw [copiedTo_zero] at hloop
    exact hloop
  refine hrows.bind (Comes.bind (a := { s with cells := s.scrolledCells }) ?_ (Comes.pure _))
  have hfill := fill_comes (s.copiedTo (vgaHeight - 1)) ((vgaHeight - 1) * vgaWidth) vgaWidth
    (fun _ => makeEntry 0x20 s.curColor)
    (fun c s => s.store ((vgaHeight - 1) * vgaWidth + c) (makeEntry 0x20 s.curColor))
    (by unfold vgaWidth vgaHeight; omega) (by unfold vgaWidth vgaHeight; omega) (fun _ _ _ _ => rfl)
  exact hfill

/-! ## The terminal that `VGA_MEM` holds -/

/-- What the program keeps is what the terminal has. -/
structure Shows (s : Console) (t : VgaTerm UInt16) : Prop where
  row : s.curRow = t.screen.row.val
  col : s.curCol = t.screen.col.val
  color : s.curColor = t.color
  cell : ∀ (i : Fin vgaHeight) (j : Fin vgaWidth), s.cells (i.val * vgaWidth + j.val) = t.screen.cells i j

variable {t : VgaTerm UInt16}

theorem Shows.range (h : Shows s t) : 0 ≤ s.curRow ∧ s.curRow < vgaHeight ∧ 0 ≤ s.curCol
    ∧ s.curCol < vgaWidth := by
  have hi := t.screen.row.isLt
  have hj := t.screen.col.isLt
  rw [h.row, h.col]
  omega

/-- The cell at the cursor is on the screen. -/
theorem Shows.cell_range (h : Shows s t) :
    0 ≤ s.curRow * vgaWidth + s.curCol ∧ s.curRow * vgaWidth + s.curCol < vgaWidth * vgaHeight := by
  obtain ⟨h1, h2, h3, h4⟩ := h.range
  unfold vgaHeight at h2 ⊢
  unfold vgaWidth at h4 ⊢
  omega

/-- Two cells are the same if their numbers are. -/
theorem index_inj {i i' : Nat} {j j' : Fin vgaWidth}
    (he : (i : Int) * vgaWidth + j.val = i' * vgaWidth + j'.val) : i = i' ∧ j = j' := by
  have hj := j.isLt
  have hj' := j'.isLt
  unfold vgaWidth at he hj hj'
  exact ⟨by omega, Fin.ext (by omega)⟩

/-- A store at the cursor. -/
theorem Shows.set (h : Shows s t) (entry : UInt16) :
    Shows { s with cells := fun k =>
        if k = s.curRow * vgaWidth + s.curCol then entry else s.cells k }
      ⟨t.screen.set entry, t.color⟩ where
  row := h.row
  col := h.col
  color := h.color
  cell := by
    intro i j
    change ite _ _ _ = ite _ _ _
    by_cases hij : i = t.screen.row ∧ j = t.screen.col
    · rw [if_pos hij, if_pos]
      rw [h.row, h.col, hij.1, hij.2]
    · rw [if_neg hij, if_neg]
      · exact h.cell i j
      · intro he
        rw [h.row, h.col] at he
        exact hij ⟨Fin.ext (index_inj he).1, (index_inj he).2⟩

/-- The rows move up. -/
theorem Shows.rowsUp {curRow : Int} (h : Shows s t) (hlast : ¬ t.screen.row.val + 1 < vgaHeight) :
    Shows { s with curRow := curRow }.scrolled ⟨t.screen.rowsUp (makeEntry 0x20 t.color),
      t.color⟩ where
  row := by
    have hi := t.screen.row.isLt
    change (vgaHeight : Int) - 1 = t.screen.row.val
    omega
  col := h.col
  color := h.color
  cell := by
    intro i j
    have hi := i.isLt
    have hj := j.isLt
    change Console.scrolledCells _ _ = dite (i.val + 1 < vgaHeight) _ _
    by_cases hlt : i.val + 1 < vgaHeight
    · rw [dif_pos hlt, ← h.cell]
      unfold vgaHeight at hlt
      unfold vgaWidth at hj
      refine (if_neg ?_).trans ((if_pos ?_).trans ?_)
      · unfold vgaHeight vgaWidth
        omega
      · unfold vgaHeight vgaWidth
        omega
      · dsimp only
        congr 1
        unfold vgaWidth
        omega
    · rw [dif_neg hlt, ← h.color]
      unfold vgaHeight at hi hlt
      unfold vgaWidth at hj
      refine if_pos ?_
      unfold vgaHeight vgaWidth
      omega

/-- What `vga_putchar` does about the row in the end. -/
def settled (s : Console) : Console := if s.curRow ≥ vgaHeight then s.scrolled else s

theorem settled_comes : Comes ConsoleEvent.OnScreen
    (if s.curRow ≥ vgaHeight then s.scroll else pure s) s.settled := by
  unfold settled
  split
  · exact scroll_comes
  · exact Comes.pure _

theorem Shows.settled_eq (h : Shows s t) : s.settled = s := if_neg (by have := h.range; omega)

theorem Shows.carriage (h : Shows s t) :
    Shows { s with curCol := 0 } ⟨t.screen.carriage, t.color⟩ :=
  ⟨h.row, rfl, h.color, h.cell⟩

/-- Down by one row. -/
theorem Shows.lineFeed (h : Shows s t) : Shows { s with curRow := s.curRow + 1 }.settled
    ⟨t.screen.lineFeed (makeEntry 0x20 t.color), t.color⟩ := by
  unfold settled
  by_cases hr : t.screen.row.val + 1 < vgaHeight
  · rw [Screen.lineFeed_of_lt hr, if_neg (by dsimp only; rw [h.row]; omega)]
    exact ⟨by dsimp only; rw [h.row]; rfl, h.col, h.color, h.cell⟩
  · rw [Screen.lineFeed_of_last hr, if_pos (by dsimp only; rw [h.row]; omega)]
    exact h.rowsUp hr

/-- To another column, behind the last of which the next row begins. -/
theorem Shows.toCol (h : Shows s t) (k : Nat) : Shows { s with curCol := k }.wrap.settled
    ⟨t.screen.toCol (makeEntry 0x20 t.color) k, t.color⟩ := by
  unfold wrap
  by_cases hk : k < vgaWidth
  · have hshows : Shows { s with curCol := k } ⟨{ t.screen with col := ⟨k, hk⟩ }, t.color⟩ :=
      ⟨h.row, rfl, h.color, h.cell⟩
    rw [Screen.toCol_of_lt hk, if_neg (by dsimp only; omega), hshows.settled_eq]
    exact hshows
  · rw [Screen.toCol_of_ge hk, if_pos (by dsimp only; omega)]
    exact h.carriage.lineFeed

theorem wrap_mirror : s.wrap.mirror = s.mirror := by
  unfold wrap
  split
  · rfl
  · rfl

theorem putcharCases_back : s.putcharCases 0x08 =
    if s.curCol > 0 then
      { s with curCol := s.curCol - 1 }.store (s.curRow * vgaWidth + (s.curCol - 1))
      (makeEntry 0x20 s.curColor)
    else pure s := by
  rw [putcharCases, if_neg (by decide), if_neg (by decide), if_neg (by decide), if_pos rfl]

theorem putcharCases_printed (hc : Printed c) : s.putcharCases c = (do
    let s ← s.store (s.curRow * vgaWidth + s.curCol) (makeEntry c s.curColor)
    return { s with curCol := s.curCol + 1 }.wrap) := by
  rw [putcharCases, if_neg hc.1, if_neg hc.2.1, if_neg hc.2.2.1, if_neg hc.2.2.2]

/-- **The cases of `vga_putchar`, and its scrolling.** The hook and the mirror are not touched. -/
theorem Shows.cases (h : Shows s t) (c : UInt8) :
    ∃ s₁, Comes ConsoleEvent.OnScreen (s.putcharCases c) s₁
    ∧ Shows s₁.settled ⟨t.putchar makeEntry c, t.color⟩ ∧ s₁.mirror = s.mirror := by
  rcases char_cases c with rfl | rfl | rfl | rfl | hc
  · exact ⟨_, Comes.pure _, h.carriage.lineFeed, rfl⟩
  · refine ⟨{ s with curCol := 0 }, Comes.pure _, ?_, rfl⟩
    rw [h.carriage.settled_eq]
    exact h.carriage
  · have htab : tabStop s.curCol = ((t.screen.col.val + 8) / 8 * 8 : Nat) := by
      rw [tabStop, h.col]
      omega
    refine ⟨{ s with curCol := tabStop s.curCol }.wrap, Comes.pure _, ?_, wrap_mirror⟩
    rw [htab]
    exact h.toCol _
  · by_cases h0 : t.screen.col.val = 0
    · have hback : t.putchar makeEntry 0x08 = t.screen := if_pos h0
      rw [hback, putcharCases_back, if_neg (by rw [h.col]; omega)]
      refine ⟨s, Comes.pure s, ?_, rfl⟩
      rw [h.settled_eq]
      exact h
    · have hlt := t.screen.col.isLt
      have hback : t.putchar makeEntry 0x08 =
          ({ t.screen with col := ⟨t.screen.col.val - 1, by omega⟩ } : Screen vgaHeight vgaWidth
            UInt16).set
            (makeEntry 0x20 t.color) := if_neg h0
      have hmoved : Shows { s with curCol := s.curCol - 1 }
          ⟨{ t.screen with col := ⟨t.screen.col.val - 1, by omega⟩ }, t.color⟩ :=
        ⟨h.row, by dsimp only; rw [h.col]; omega, h.color, h.cell⟩
      have hset := hmoved.set (makeEntry 0x20 s.curColor)
      rw [hback, putcharCases_back, if_pos (by rw [h.col]; omega), ← h.color]
      refine ⟨_, store_comes _ hmoved.cell_range, ?_, rfl⟩
      · rw [h.color] at hset ⊢
        rw [hset.settled_eq]
        exact hset
  · rw [putcharCases_printed hc, VgaTerm.putchar_printed makeEntry hc]
    refine ⟨_, (store_comes _ h.cell_range).bind (Comes.pure _), ?_, wrap_mirror⟩
    have hset := (h.set (makeEntry c s.curColor)).toCol (t.screen.col.val + 1)
    rw [h.color] at hset ⊢
    rw [show s.curCol + 1 = ((t.screen.col.val + 1 : Nat) : Int) by rw [h.col]; rfl]
    exact hset

theorem Shows.putchar (fonts : Fonts) (h : Shows s t) (c : UInt8) :
    ∃ s', Comes ConsoleEvent.OnScreen (s.putchar fonts c) s'
      ∧ Shows s' ⟨t.putchar makeEntry c, t.color⟩
      ∧ s'.mirror = s.mirror.putchar fonts c s.curColor := by
  obtain ⟨s₁, hcases, hshows, hmirror⟩ := h.cases c
  have hkept : s₁.settled.mirror = s.mirror := by
    rw [← hmirror]
    unfold settled
    split
    · rfl
    · rfl
  refine ⟨{ s₁.settled with mirror := s₁.settled.mirror.putchar fonts c s₁.settled.curColor }, ?_,
    ?_, ?_⟩
  · exact callHook_comes.bind (hcases.bind
      (settled_comes.bind (updateHwCursor_comes.bind (Comes.pure _))))
  · exact ⟨hshows.row, hshows.col, hshows.color, hshows.cell⟩
  · dsimp only
    rw [hkept, hshows.color, h.color]

/-- The clamping of `vga_set_cursor`. -/
theorem clampRow_val (row : Int) : ((VgaTerm.clampRow row).val : Int) =
    (if (if row < 0 then 0 else row) ≥ vgaHeight then
      (vgaHeight : Int) - 1 else if row < 0 then 0 else row) := by
  unfold VgaTerm.clampRow vgaHeight
  dsimp only
  split
  · split
    · omega
    · omega
  · split
    · omega
    · omega

theorem clampCol_val (col : Int) : ((VgaTerm.clampCol col).val : Int) =
    (if (if col < 0 then 0 else col) ≥ vgaWidth then
      (vgaWidth : Int) - 1 else if col < 0 then 0 else col) := by
  unfold VgaTerm.clampCol vgaWidth
  dsimp only
  split
  · split
    · omega
    · omega
  · split
    · omega
    · omega

theorem Shows.setCursor (h : Shows s t) (row col : Int) :
    ∃ s', Comes ConsoleEvent.OnScreen (s.setCursor row col) s'
      ∧ Shows s' ⟨t.screen.moveTo (VgaTerm.clampRow row) (VgaTerm.clampCol col), t.color⟩
      ∧ s'.mirror = s.mirror.mirrorCursor (VgaTerm.clampRow row).val
        (VgaTerm.clampCol col).val := by
  refine ⟨{ s with
    curRow := (VgaTerm.clampRow row).val
    curCol := (VgaTerm.clampCol col).val
    mirror := s.mirror.mirrorCursor (VgaTerm.clampRow row).val (VgaTerm.clampCol col).val }, ?_, ?_,
      rfl⟩
  · unfold Console.setCursor
    rw [clampRow_val, clampCol_val]
    exact updateHwCursor_comes.bind (callHook_comes.bind (Comes.pure _))
  · exact ⟨rfl, rfl, h.color, h.cell⟩

theorem Shows.clear (h : Shows s t) : ∃ s', Comes ConsoleEvent.OnScreen s.clear s'
    ∧ Shows s' ⟨t.screen.clear (makeEntry 0x20 t.color), t.color⟩
      ∧ s'.mirror = s.mirror.reset s.curColor := by
  refine ⟨{ s with cells := s.blankCells, curRow := 0, curCol := 0, mirror := s.mirror.reset s.curColor }, ?_, ?_, rfl⟩
  · exact clearCells_comes.bind (updateHwCursor_comes.bind (callHook_comes.bind (Comes.pure _)))
  · refine ⟨rfl, rfl, h.color, fun i j => ?_⟩
    have hi := i.isLt
    have hj := j.isLt
    unfold vgaHeight at hi
    unfold vgaWidth at hj
    have hin : (0 : Int) ≤ i.val * vgaWidth + j.val
        ∧ (i.val * vgaWidth + j.val : Int) < vgaWidth * vgaHeight := by
      unfold vgaHeight vgaWidth
      omega
    have hblank : s.blankCells (i.val * vgaWidth + j.val) = makeEntry 0x20 s.curColor := by
      rw [blankCells, fillRange, if_pos hin]
    dsimp only
    rw [hblank, h.color]
    rfl

/-! ## The mirror -/

end Console

namespace FbConsole

/-- The framebuffer is there, and the mirror's cursor is the terminal's. -/
structure Mirrors (f : FbConsole) (s : Screen vgaHeight vgaWidth α) : Prop where
  ok : f.fb.ok = true
  row : f.mRow = s.row.val
  col : f.mCol = s.col.val

variable {f : FbConsole} {s : Screen vgaHeight vgaWidth α} {attr : UInt8}

/-- The loop has nothing to do. -/
theorem Mirrors.scrollRows_eq (h : f.Mirrors s) : f.scrollRows attr = f := by
  have hlt := s.row.isLt
  unfold vgaHeight at hlt
  rw [scrollRows, if_neg]
  rw [h.row]
  unfold fbMirrorRows
  omega

/-- The loop goes round at most once. -/
theorem Mirrors.lineFeed (h : f.Mirrors s) (b : α) :
    ({ f with mRow := f.mRow + 1 }.scrollRows attr).Mirrors (s.lineFeed b) := by
  have hlt := s.row.isLt
  by_cases hr : s.row.val + 1 < vgaHeight
  · have hdown : Mirrors { f with mRow := f.mRow + 1 } { s with row := ⟨s.row.val + 1, hr⟩ } :=
      ⟨h.ok, by dsimp only; rw [h.row]; rfl, h.col⟩
    rw [Screen.lineFeed_of_lt hr, hdown.scrollRows_eq]
    exact hdown
  · have hup : Mirrors { f with
        mem := fbConsoleScrollGfxOneLine f.fb f.mem attr
        mRow := f.mRow + 1 - 1 } (s.rowsUp b) :=
      ⟨h.ok, by dsimp only; rw [Int.add_sub_cancel]; exact h.row, h.col⟩
    rw [Screen.lineFeed_of_last hr, scrollRows, if_pos, hup.scrollRows_eq]
    · exact hup
    · dsimp only
      rw [h.row]
      unfold vgaHeight at hr
      unfold fbMirrorRows
      omega

theorem Mirrors.carriage (h : f.Mirrors s) : Mirrors { f with mCol := 0 } s.carriage :=
  ⟨h.ok, h.row, rfl⟩

theorem Mirrors.toCol (h : f.Mirrors s) (b : α) (k : Nat) :
    ({ f with mCol := k }.wrap.scrollRows attr).Mirrors (s.toCol b k) := by
  unfold wrap
  by_cases hk : k < vgaWidth
  · have hcol : Mirrors { f with mCol := k } { s with col := ⟨k, hk⟩ } := ⟨h.ok, h.row, rfl⟩
    rw [Screen.toCol_of_lt hk, if_neg (by unfold vgaWidth at hk; unfold fbMirrorCols; dsimp only; omega), hcol.scrollRows_eq]
    exact hcol
  · rw [Screen.toCol_of_ge hk, if_pos (by unfold vgaWidth at hk; unfold fbMirrorCols; dsimp only; omega)]
    exact h.carriage.lineFeed b

theorem putcharCases_back {fonts : Fonts} : f.putcharCases fonts 0x08 attr =
    if f.mCol > 0 then { f with mCol := f.mCol - 1 }.draw fonts 0x20 attr else f := by
  rw [putcharCases, if_neg (by decide), if_neg (by decide), if_pos rfl]

theorem putcharCases_printed {fonts : Fonts} {c : UInt8} (hc : Printed c) :
    f.putcharCases fonts c attr =
    { f.draw fonts c attr with mCol := (f.draw fonts c attr).mCol + 1 }.wrap := by
  rw [putcharCases, if_neg hc.1, if_neg hc.2.1, if_neg hc.2.2.2, if_neg hc.2.2.1]

/-- **`fb_console_putchar` makes the terminal's move**, whatever the cells hold. -/
theorem Mirrors.putchar {fonts : Fonts} {t : VgaTerm α} (h : f.Mirrors t.screen)
    (entry : UInt8 → UInt8 → α) (c : UInt8) :
    (f.putchar fonts c attr).Mirrors (t.putchar entry c) := by
  rw [FbConsole.putchar, if_neg (by rw [h.ok]; decide)]
  rcases char_cases c with rfl | rfl | rfl | rfl | hc
  · exact h.carriage.lineFeed _
  · have hcr : Mirrors (f.putcharCases fonts 0x0D attr) t.screen.carriage := h.carriage
    rw [hcr.scrollRows_eq]
    exact hcr
  · have htab : tabStop f.mCol = ((t.screen.col.val + 8) / 8 * 8 : Nat) := by
      rw [tabStop, h.col]
      omega
    change ({ f with mCol := tabStop f.mCol }.wrap.scrollRows attr).Mirrors (t.screen.tab _ 8)
    rw [htab]
    exact h.toCol _ _
  · rw [putcharCases_back]
    by_cases h0 : t.screen.col.val = 0
    · have hback : t.putchar entry 0x08 = t.screen := if_pos h0
      rw [hback, if_neg (by rw [h.col]; omega), h.scrollRows_eq]
      exact h
    · have hlt := t.screen.col.isLt
      have hback : t.putchar entry 0x08 =
          ({ t.screen with col := ⟨t.screen.col.val - 1, by omega⟩ } : Screen vgaHeight
            vgaWidth α).set
            (entry 0x20 t.color) := if_neg h0
      have hmoved : ({ f with mCol := f.mCol - 1 }.draw fonts 0x20 attr).Mirrors
          (t.putchar entry 0x08) := by
        rw [hback]
        have hcol : f.mCol - 1 = ((t.screen.col.val - 1 : Nat) : Int) := by
          rw [h.col]
          omega
        exact ⟨h.ok, h.row, hcol⟩
      rw [if_pos (by rw [h.col]; omega), hmoved.scrollRows_eq]
      exact hmoved
  · rw [putcharCases_printed hc, VgaTerm.putchar_printed entry hc]
    have hnext : (f.draw fonts c attr).mCol + 1 = ((t.screen.col.val + 1 : Nat) : Int) := by
      change f.mCol + 1 = _
      rw [h.col]
      rfl
    have hset : (f.draw fonts c attr).Mirrors (t.screen.set (entry c t.color)) :=
      ⟨h.ok, h.row, h.col⟩
    rw [hnext]
    exact hset.toCol _ _

theorem Mirrors.mirrorCursor (h : f.Mirrors s) (i : Fin vgaHeight) (j : Fin vgaWidth) :
    (f.mirrorCursor i.val j.val).Mirrors (s.moveTo i j) := by
  have hi := i.isLt
  have hj := j.isLt
  unfold vgaHeight at hi
  unfold vgaWidth at hj
  rw [FbConsole.mirrorCursor, if_neg (by rw [h.ok]; decide), if_neg (by omega),
    if_neg (by unfold fbMirrorRows; omega), if_neg (by omega),
      if_neg (by unfold fbMirrorCols; omega)]
  exact ⟨h.ok, rfl, rfl⟩

theorem Mirrors.reset (h : f.Mirrors s) (b : α) : (f.reset attr).Mirrors (s.clear b) := by
  rw [FbConsole.reset, if_neg (by dsimp only; rw [h.ok]; decide)]
  split
  · exact ⟨h.ok, rfl, rfl⟩
  · exact ⟨h.ok, rfl, rfl⟩

end FbConsole

end VnlKernel
