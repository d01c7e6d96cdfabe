import VnlKernel.Proof.ConsoleTerm

/-!
# Runs of the console

Whatever the kernel has done before, and whatever it calls next, the console shows a terminal:
the cursor is on the screen, nothing else is stored to, and once the two cursors are the same
they stay the same.

The cells of the terminal are words that `make_entry` makes. Read as a character and an
attribute, they are the ones that were put there as long as the characters are ASCII. A `char`
from 0x80 on is negative, its sign is kept in the upper half of the word, and the attribute is
lost in it.
-/

namespace VnlKernel

open Terminal Logged Console

variable {fonts : Fonts} {s : Console} {t : VgaTerm UInt16}

/-! ## One call, and many -/

/-- **What one call does.** -/
theorem Console.Shows.op (fonts : Fonts) (h : s.Shows t) (op : ConsoleOp) :
    ∃ s', Comes ConsoleEvent.OnScreen (op.run fonts s) s'
    ∧ s'.Shows (t.step makeEntry op)
    ∧ (s.mirror.Mirrors t.screen → s'.mirror.Mirrors (t.step makeEntry op).screen) := by
  cases op with
  | setColor fg bg => exact ⟨_, Comes.pure _, ⟨h.row, h.col, rfl, h.cell⟩, fun hm => hm⟩
  | setCursor row col =>
      obtain ⟨s', hrun, hshows, hmirror⟩ := h.setCursor row col
      refine ⟨s', hrun, hshows, fun hm => ?_⟩
      rw [hmirror]
      exact hm.mirrorCursor _ _
  | clear =>
      obtain ⟨s', hrun, hshows, hmirror⟩ := h.clear
      refine ⟨s', hrun, hshows, fun hm => ?_⟩
      rw [hmirror]
      exact hm.reset _
  | putchar c =>
      obtain ⟨s', hrun, hshows, hmirror⟩ := h.putchar fonts c
      refine ⟨s', hrun, hshows, fun hm => ?_⟩
      rw [hmirror]
      exact hm.putchar makeEntry c

/-- **What calls do, one after the other.** -/
theorem Console.Shows.ops (fonts : Fonts) : ∀ {s : Console} {t : VgaTerm UInt16}, s.Shows t
    → ∀ ops : List ConsoleOp,
    ∃ s', Comes ConsoleEvent.OnScreen (s.runOps fonts ops) s' ∧ s'.Shows (t.run makeEntry ops)
      ∧ (s.mirror.Mirrors t.screen → s'.mirror.Mirrors (t.run makeEntry ops).screen)
  | s, _, h, [] => ⟨s, Comes.pure s, h, fun hm => hm⟩
  | _, _, h, op :: ops => by
      obtain ⟨s₁, hrun, hshows, hmirror⟩ := h.op fonts op
      obtain ⟨s', hruns, hshows', hmirror'⟩ := hshows.ops fonts ops
      exact ⟨s', hrun.bind hruns, hshows', fun hm => hmirror' (hmirror hm)⟩

/-- Whatever has been called since the machine was started. -/
theorem Console.Booted.shows (h : s.Booted fonts) : ∃ t, s.Shows t := by
  induction h with
  | boot cells mem =>
      refine ⟨⟨⟨fun i j => cells (i.val * vgaWidth + j.val), ⟨0, by decide⟩, ⟨0, by decide⟩⟩, 0⟩,
        ?_⟩
      exact ⟨rfl, rfl, rfl, fun _ _ => rfl⟩
  | call op _ hout ih =>
      obtain ⟨t, ht⟩ := ih
      obtain ⟨s', hrun, hshows, _⟩ := ht.op fonts op
      rw [hrun.2] at hout
      cases hout
      exact ⟨_, hshows⟩
  | setHook hook _ ih =>
      obtain ⟨t, ht⟩ := ih
      exact ⟨t, ht.row, ht.col, ht.color, ht.cell⟩
  | fbInit info _ ih =>
      obtain ⟨t, ht⟩ := ih
      exact ⟨t, ht.row, ht.col, ht.color, ht.cell⟩
  | mapFb v _ ih =>
      obtain ⟨t, ht⟩ := ih
      exact ⟨t, ht.row, ht.col, ht.color, ht.cell⟩
  | resetMirror _ ih =>
      obtain ⟨t, ht⟩ := ih
      exact ⟨t, ht.row, ht.col, ht.color, ht.cell⟩
  | drawn mem _ ih =>
      obtain ⟨t, ht⟩ := ih
      exact ⟨t, ht.row, ht.col, ht.color, ht.cell⟩

/-- **The cursor is on the screen, stores go to the screen, and the mirror's cursor is the same**,
after every call. -/
theorem console_in_step (hs : s.Booted fonts) (hok : s.mirror.fb.ok) (hrow : s.mirror.mRow = s.curRow)
    (hcol : s.mirror.mCol = s.curCol) (ops : List ConsoleOp) :
    ∃ s', Comes ConsoleEvent.OnScreen (s.runOps fonts ops) s'
      ∧ (0 ≤ s'.curRow ∧ s'.curRow < vgaHeight ∧ 0 ≤ s'.curCol ∧ s'.curCol < vgaWidth)
      ∧ s'.mirror.mRow = s'.curRow ∧ s'.mirror.mCol = s'.curCol := by
  obtain ⟨t, ht⟩ := hs.shows
  obtain ⟨s', hrun, hshows, hmirror⟩ := ht.ops fonts ops
  have hm := hmirror ⟨hok, hrow.trans ht.row, hcol.trans ht.col⟩
  exact ⟨s', hrun, hshows.range, hm.row.trans hshows.row.symm, hm.col.trans hshows.col.symm⟩

/-- The machine after it was started, with nothing in memory. -/
def bootConsole : Console := ⟨0, 0, 0, fun _ => 0, false, ⟨⟨false, ⟨0, 0, 0, 0, 0, 0⟩, 0⟩, fun _ => 0, 0, 0⟩⟩

/-- A framebuffer of 640 pixels by 200, mapped where `kernel_main` wants it. -/
def bootFb : Fb :=
  (fbMultibootInit ⟨0xE0000000, 2560, 640, 200, 32, 1⟩).kernelMainMap ⟨0xE0000000, 640, 200, 2560, 32⟩

/-- And the machine with it. -/
def bootFbConsole : Console :=
  { bootConsole with mirror := { bootConsole.mirror with fb := bootFb } }

theorem bootFbConsole_booted (fonts : Fonts) : bootFbConsole.Booted fonts :=
  .mapFb _ (.fbInit _ (.boot (fun _ => 0) fun _ => 0))

/-- A line at the end of the screen. -/
theorem console_in_step_corner : ∃ s',
    Comes ConsoleEvent.OnScreen
      (bootFbConsole.runOps (fun _ _ => 0) [.setCursor 99 99, .putchar 0x41, .putchar 0x09, .clear]) s'
      ∧ (0 ≤ s'.curRow ∧ s'.curRow < vgaHeight ∧ 0 ≤ s'.curCol ∧ s'.curCol < vgaWidth)
      ∧ s'.mirror.mRow = s'.curRow ∧ s'.mirror.mCol = s'.curCol :=
  console_in_step (s := bootFbConsole) (bootFbConsole_booted _)
    (by decide) rfl rfl _

/-! ## The screen of the line editor -/

/-- The two models of the text screen hold the same. -/
structure Vga.Agrees (v : Vga) (s : Console) : Prop where
  row : s.curRow = v.curRow
  col : s.curCol = v.curCol
  color : s.curColor = v.curColor
  cell : ∀ i : Nat, s.cells i = v.mem i

namespace Vga.Agrees

variable {v : Vga} {c : UInt8}

theorem write (h : v.Agrees s) (c : UInt8) :
    (v.write v.curRow v.curCol (makeEntry c v.curColor)).Agrees { s with
    cells := fun k => if k = s.curRow * vgaWidth + s.curCol then makeEntry c s.curColor else s.cells
      k } where
  row := h.row
  col := h.col
  color := h.color
  cell := by
    intro i
    change (if (i : Int) = s.curRow * vgaWidth + s.curCol then makeEntry c s.curColor else s.cells
      i)
      = if i = v.curRow * vgaWidth + v.curCol then makeEntry c v.curColor else v.mem i
    rw [h.row, h.col, h.color]
    by_cases hi : i = v.curRow * vgaWidth + v.curCol
    · rw [if_pos hi, if_pos (by rw [hi]; rfl)]
    · rw [if_neg hi, if_neg (by exact_mod_cast hi)]
      exact h.cell i

/-- To the next row behind the last column. -/
theorem wrap (h : v.Agrees s) : ∃ v₁,
    Comes (fun _ => True) (if v.curCol ≥ vgaWidth then v.nextRow else pure v) v₁
      ∧ v₁.Agrees s.wrap := by
  unfold Console.wrap
  by_cases hc : v.curCol ≥ vgaWidth
  · rw [if_pos hc, if_pos (by rw [h.col]; omega)]
    exact ⟨_, (Comes.note (e := VgaEvent.nextRow) trivial).bind
      (Comes.pure _), by dsimp only; rw [h.row]; rfl, rfl,
      h.color, h.cell⟩
  · rw [if_neg hc, if_neg (by rw [h.col]; omega)]
    exact ⟨v, Comes.pure v, h⟩

theorem scrolled (h : v.Agrees s) : v.scroll.Agrees s.scrolled where
  row := rfl
  col := h.col
  color := h.color
  cell := by
    intro i
    have hread := h.cell (i + vgaWidth)
    change s.scrolledCells i = (if i < (vgaHeight - 1) * vgaWidth then v.mem (i + vgaWidth)
      else if i < vgaHeight * vgaWidth then makeEntry 0x20 v.curColor else v.mem i)
    rw [Console.scrolledCells, Console.fillRange, Console.fillRange, h.color, h.cell i, ← hread]
    by_cases hlow : i < (vgaHeight - 1) * vgaWidth
    · rw [if_pos hlow]
      unfold vgaHeight vgaWidth at hlow ⊢
      rw [if_neg (by omega), if_pos (by omega)]
      rfl
    · rw [if_neg hlow]
      unfold vgaHeight vgaWidth at hlow ⊢
      by_cases hin : i < 25 * 80
      · rw [if_pos hin, if_pos (by omega)]
      · rw [if_neg hin, if_neg (by omega), if_neg (by omega)]

theorem cases (h : v.Agrees s) (c : UInt8) : ∃ v₁ s₁, Comes (fun _ => True) (v.putcharCases c) v₁
    ∧ (s.putcharCases c).out = .done s₁ ∧ v₁.Agrees s₁ := by
  rcases char_cases c with rfl | rfl | rfl | rfl | hc
  · exact ⟨_, _, (Comes.note (e := VgaEvent.nextRow) trivial).bind (Comes.pure _),
      rfl, by dsimp only; rw [h.row]; rfl,
      rfl, h.color, h.cell⟩
  · exact ⟨_, _, Comes.pure _, rfl, h.row, rfl, h.color, h.cell⟩
  · have htab : Vga.Agrees { v with curCol := (v.curCol + 8) / 8 * 8 }
        { s with curCol := tabStop s.curCol } :=
      ⟨h.row, by dsimp only; rw [tabStop, h.col]; omega, h.color, h.cell⟩
    obtain ⟨v₁, hrun, hagree⟩ := htab.wrap
    exact ⟨v₁, _, hrun, rfl, hagree⟩
  · rw [Console.putcharCases_back]
    by_cases h0 : v.curCol > 0
    · have hback : v.putcharCases 0x08 = (do
          let v := { v with curCol := v.curCol - 1 }
          .note (.cell v.curRow v.curCol)
          return v.write v.curRow v.curCol (makeEntry 0x20 v.curColor)) := by
        rw [Vga.putcharCases, if_neg (by decide), if_neg (by decide), if_neg (by decide),
          if_pos rfl, if_pos h0]
      have hmoved : Vga.Agrees { v with curCol := v.curCol - 1 }
          { s with curCol := s.curCol - 1 } :=
        ⟨h.row, by dsimp only; rw [h.col]; omega, h.color, h.cell⟩
      rw [hback, if_pos (by rw [h.col]; omega)]
      exact ⟨_, _, (Comes.note (e := VgaEvent.cell _ _) trivial).bind (Comes.pure _), rfl,
        hmoved.write 0x20⟩
    · have hstay : v.putcharCases 0x08 = pure v := by
        rw [Vga.putcharCases, if_neg (by decide), if_neg (by decide), if_neg (by decide),
          if_pos rfl, if_neg h0]
      rw [hstay, if_neg (by rw [h.col]; omega)]
      exact ⟨v, s, Comes.pure v, rfl, h⟩
  · rw [Console.putcharCases_printed hc, Vga.putcharCases, if_neg hc.1, if_neg hc.2.1,
      if_neg hc.2.2.1,
      if_neg hc.2.2.2]
    have hset := h.write c
    have hnext : Vga.Agrees
        { v.write v.curRow v.curCol (makeEntry c v.curColor) with curCol := v.curCol + 1 }
        { s with
          cells := fun k => if k = s.curRow * vgaWidth + s.curCol then makeEntry c s.curColor else
            s.cells k
          curCol := s.curCol + 1 } :=
      ⟨hset.row, by dsimp only; rw [h.col]; rfl, hset.color, hset.cell⟩
    obtain ⟨v₁, hrun, hagree⟩ := hnext.wrap
    exact ⟨v₁, _, (Comes.note (e := VgaEvent.cell _ _) trivial).bind hrun, rfl, hagree⟩

/-- **A character on the line editor's screen is a character on the console.** -/
theorem putchar (h : v.Agrees s) (c : UInt8) : ∃ v' s', Comes (fun _ => True) (v.putchar c) v'
    ∧ (s.putchar fonts c).out = .done s' ∧ v'.Agrees s' := by
  obtain ⟨v₁, s₁, hv, hs, hagree⟩ := h.cases c
  have hsettle : ∃ v₂, Comes (fun _ => True)
      (if v₁.curRow ≥ vgaHeight then (do Logged.note VgaEvent.scroll; return v₁.scroll) else pure
          v₁) v₂ ∧ v₂.Agrees s₁.settled := by
    unfold Console.settled
    by_cases hr : v₁.curRow ≥ vgaHeight
    · rw [if_pos hr, if_pos (by rw [hagree.row]; omega)]
      exact ⟨_, (Comes.note (e := VgaEvent.scroll) trivial).bind (Comes.pure _), hagree.scrolled⟩
    · rw [if_neg hr, if_neg (by rw [hagree.row]; omega)]
      exact ⟨v₁, Comes.pure v₁, hagree⟩
  obtain ⟨v₂, hv₂, hagree₂⟩ := hsettle
  have hcases : Comes (fun _ => True) (s.putcharCases c) s₁ := ⟨fun _ _ => trivial, hs⟩
  have hall : ∀ {α : Type} {x : Logged ConsoleEvent α} {a : α}, Comes ConsoleEvent.OnScreen x a →
      Comes (fun _ => True) x a := fun hx => hx.mono fun _ _ => trivial
  have hrun : Comes (fun _ => True) (s.putchar fonts c)
      { s₁.settled with mirror := s₁.settled.mirror.putchar fonts c s₁.settled.curColor } :=
    (hall callHook_comes).bind (hcases.bind ((hall settled_comes).bind
      ((hall updateHwCursor_comes).bind (Comes.pure _))))
  exact ⟨v₂, _, hv.bind hv₂, hrun.2, hagree₂.row, hagree₂.col, hagree₂.color, hagree₂.cell⟩

end Vga.Agrees

/-! ## Characters and attributes -/

namespace VgaTerm

variable {α β : Type}

/-- The same terminal, with its cells read by `f`. -/
def map (f : α → β) (t : VgaTerm α) : VgaTerm β := ⟨t.screen.map f, t.color⟩

theorem map_putchar (f : α → β) (t : VgaTerm α) (entry : UInt8 → UInt8 → α) (c : UInt8) :
    (t.putchar entry c).map f = (t.map f).putchar (fun c k => f (entry c k)) c := by
  rcases char_cases c with rfl | rfl | rfl | rfl | hc
  · exact Screen.map_newline f t.screen _
  · rfl
  · exact Screen.map_tab f t.screen _ 8
  · exact Screen.map_back f t.screen _
  · rw [putchar_printed _ hc, putchar_printed _ hc]
    exact Screen.map_put f t.screen _ _

theorem map_step (f : α → β) (t : VgaTerm α) (entry : UInt8 → UInt8 → α) (op : ConsoleOp) :
    (t.step entry op).map f = (t.map f).step (fun c k => f (entry c k)) op := by
  cases op with
  | setColor fg bg => rfl
  | setCursor row col => rfl
  | clear => rfl
  | putchar c => exact VgaTerm.ext (map_putchar f t entry c) rfl

theorem map_run (f : α → β) (entry : UInt8 → UInt8 → α) : ∀ (ops : List ConsoleOp) (t : VgaTerm α),
    (t.run entry ops).map f = (t.map f).run (fun c k => f (entry c k)) ops
  | [], _ => rfl
  | op :: ops, t => by
      change ((t.step entry op).run entry ops).map f = ((t.map f).step _ op).run _ ops
      rw [map_run f entry ops, map_step]

/-! ### Two ways of making a cell -/

variable {entry entry' : UInt8 → UInt8 → α} {t : VgaTerm α}

/-- A character leaves the same screen exactly if it makes the same cell. -/
theorem putchar_eq_iff (hblank : ∀ k, entry 0x20 k = entry' 0x20 k) (c : UInt8) :
    t.putchar entry c = t.putchar entry' c ↔ (Printed c → entry c t.color = entry' c t.color) := by
  rcases char_cases c with rfl | rfl | rfl | rfl | hc
  · exact ⟨fun _ h => absurd h (by decide), fun _ => congrArg t.screen.newline (hblank _)⟩
  · exact ⟨fun _ h => absurd h (by decide), fun _ => rfl⟩
  · exact ⟨fun _ h => absurd h (by decide), fun _ => congrArg (t.screen.tab · 8) (hblank _)⟩
  · exact ⟨fun _ h => absurd h (by decide), fun _ => congrArg t.screen.back (hblank _)⟩
  · rw [putchar_printed _ hc, putchar_printed _ hc, hblank]
    exact ⟨fun h _ => Screen.put_inj (by decide) h, fun h => by rw [h hc]⟩

/-- Each printed character makes the same cell in the colour that is then set. -/
def EachMakes (same : UInt8 → UInt8 → Prop) : UInt8 → List ConsoleOp → Prop
  | _, [] => True
  | k, .putchar c :: ops => (Printed c → same c k) ∧ EachMakes same k ops
  | _, .setColor fg bg :: ops => EachMakes same (UInt8.ofNat ((bg <<< 4) ||| (fg &&& 0x0F))) ops
  | k, .setCursor _ _ :: ops => EachMakes same k ops
  | k, .clear :: ops => EachMakes same k ops

/-- Runs that agree at every point take the same first step. -/
theorem agree_cons_iff {op : ConsoleOp} {ops : List ConsoleOp} :
    (∀ ops', ops' <+: op :: ops → t.run entry ops' = t.run entry' ops')
      ↔ t.step entry op = t.step entry' op
        ∧ ∀ ops', ops' <+: ops → (t.step entry op).run entry ops'
          = (t.step entry op).run entry' ops' := by
  constructor
  · intro h
    have h1 : t.step entry op = t.step entry' op := h [op] (by simp)
    refine ⟨h1, fun ops' hp => ?_⟩
    have h2 : (t.step entry op).run entry ops' = (t.step entry' op).run entry' ops' :=
      h (op :: ops') ((List.prefix_cons_inj op).mpr hp)
    rw [h2, h1]
  · intro ⟨h1, h2⟩ ops' hp
    rcases List.prefix_cons_iff.mp hp with rfl | ⟨rest, rfl, hrest⟩
    · rfl
    · change (t.step entry op).run entry rest = (t.step entry' op).run entry' rest
      rw [h2 rest hrest, h1]

theorem run_eq_iff (hblank : ∀ k, entry 0x20 k = entry' 0x20 k) :
    ∀ {ops : List ConsoleOp} {t : VgaTerm α},
    (∀ ops', ops' <+: ops → t.run entry ops' = t.run entry' ops')
      ↔ EachMakes (fun c k => entry c k = entry' c k) t.color ops
  | [], t => by
      refine ⟨fun _ => trivial, fun _ ops' hp => ?_⟩
      rw [List.prefix_nil.mp hp]
      rfl
  | .putchar c :: ops, t => by
      rw [agree_cons_iff, run_eq_iff hblank]
      have hiff : t.step entry (.putchar c) = t.step entry' (.putchar c)
          ↔ t.putchar entry c = t.putchar entry' c :=
        ⟨fun h => congrArg VgaTerm.screen h, fun h => VgaTerm.ext h rfl⟩
      rw [hiff, putchar_eq_iff hblank]
      rfl
  | .setColor fg bg :: ops, t => by
      rw [agree_cons_iff, run_eq_iff hblank]
      exact and_iff_right rfl
  | .setCursor row col :: ops, t => by
      rw [agree_cons_iff, run_eq_iff hblank]
      exact and_iff_right rfl
  | .clear :: ops, t => by
      rw [agree_cons_iff, run_eq_iff hblank]
      have hclear : t.step entry .clear = t.step entry' .clear :=
        VgaTerm.ext (congrArg t.screen.clear (hblank t.color)) rfl
      exact and_iff_right hclear

end VgaTerm

/-- The character and the attribute that a cell is shown with. -/
def cellText (e : UInt16) : UInt8 × UInt8 := (e.toUInt8, (e >>> 8).toUInt8)

/-- What is seen of the cell that `make_entry` makes. -/
def textEntry (c k : UInt8) : UInt8 × UInt8 := cellText (makeEntry c k)

/-- A cell whose upper half is `k`. -/
theorem cellText_of_toNat {e : UInt16} {c k : UInt8} (he : e.toNat = k.toNat * 256 + c.toNat) :
    cellText e = (c, k) := by
  have hc := c.toNat_lt
  have hk := k.toNat_lt
  have hlow : e.toUInt8 = c := by
    apply UInt8.toNat_inj.mp
    rw [UInt16.toNat_toUInt8, he]
    omega
  have hhigh : (e >>> 8).toUInt8 = k := by
    apply UInt8.toNat_inj.mp
    rw [UInt16.toNat_toUInt8, UInt16.toNat_shiftRight, he, Nat.shiftRight_eq_div_pow]
    change (k.toNat * 256 + c.toNat) / 2 ^ 8 % 256 = k.toNat
    omega
  rw [cellText, hlow, hhigh]

theorem attr_toNat (k : UInt8) : (k.toUInt16 <<< 8).toNat = k.toNat * 2 ^ 8 := by
  have hk := k.toNat_lt
  rw [UInt16.toNat_shiftLeft, UInt8.toNat_toUInt16, Nat.shiftLeft_eq]
  change k.toNat * 2 ^ 8 % 2 ^ 16 = k.toNat * 2 ^ 8
  exact Nat.mod_eq_of_lt (by omega)

/-- **A character below 0x80 keeps its attribute.** -/
theorem makeEntry_ascii {c k : UInt8} (hc : c < 0x80) : cellText (makeEntry c k) = (c, k) := by
  refine cellText_of_toNat ?_
  rw [makeEntry, if_pos hc, UInt16.toNat_or, attr_toNat, UInt8.toNat_toUInt16, Nat.or_comm]
  exact Bits.or_low (k := 8) c.toNat_lt

/-- Nothing shows through ones. -/
theorem ones_or {a k : Nat} (ha : a < 2 ^ k) : (2 ^ k - 1) ||| a = 2 ^ k - 1 := by
  apply Nat.eq_of_testBit_eq
  intro i
  rw [Nat.testBit_or, Nat.testBit_two_pow_sub_one]
  by_cases hi : i < k
  · simp [hi]
  · have hz : a.testBit i = false :=
      Nat.testBit_lt_two_pow (Nat.lt_of_lt_of_le ha (Nat.pow_le_pow_right (by decide) (by omega)))
    simp [hz]

/-- The sign of a character from 0x80 on is all that is left of it. -/
theorem makeEntry_high {c k : UInt8} (hc : ¬ c < 0x80) : cellText (makeEntry c k) = (c, 0xFF) := by
  have hones : 0xFF00 ||| k.toNat * 2 ^ 8 = 0xFF * 2 ^ 8 := by
    have h := congrArg (· <<< 8) (ones_or (k := 8) k.toNat_lt)
    rwa [Nat.shiftLeft_or_distrib, Nat.shiftLeft_eq, Nat.shiftLeft_eq] at h
  have hor : 0xFF00 ||| c.toNat ||| k.toNat * 2 ^ 8 = 0xFF * 256 + c.toNat := by
    rw [Nat.or_assoc, Nat.or_comm c.toNat, ← Nat.or_assoc, hones]
    exact Bits.or_low c.toNat_lt
  refine cellText_of_toNat ?_
  rw [makeEntry, if_neg hc, UInt16.toNat_or, UInt16.toNat_or, attr_toNat, UInt8.toNat_toUInt16]
  exact hor

/-- The attribute is kept where the character is ASCII, and where it is lost anyway. -/
theorem makeEntry_eq_iff {c k : UInt8} : cellText (makeEntry c k) = (c, k) ↔ c < 0x80
    ∨ k = 0xFF := by
  by_cases hc : c < 0x80
  · exact iff_of_true (makeEntry_ascii hc) (.inl hc)
  · rw [makeEntry_high hc, Prod.mk.injEq]
    constructor
    · intro h
      exact .inr h.2.symm
    · intro h
      exact ⟨rfl, (h.resolve_left hc).symm⟩

/-! ## The screen as text -/

/-- What is seen on the screen is what the terminal has: characters in the low bytes of the cells,
their colours in the high bytes. -/
structure Console.ShowsText (s : Console) (t : VgaTerm (UInt8 × UInt8)) : Prop where
  row : s.curRow = t.screen.row.val
  col : s.curCol = t.screen.col.val
  color : s.curColor = t.color
  char : ∀ (i : Fin vgaHeight) (j : Fin vgaWidth),
    (s.cells (i.val * vgaWidth + j.val)).toUInt8 = (t.screen.cells i j).1
  attr : ∀ (i : Fin vgaHeight) (j : Fin vgaWidth),
    (s.cells (i.val * vgaWidth + j.val) >>> 8).toUInt8 = (t.screen.cells i j).2

/-- There is one terminal that is seen. -/
theorem Console.Shows.text_iff (h : s.Shows t) {t' : VgaTerm (UInt8 × UInt8)} :
    s.ShowsText t' ↔ t.map cellText = t' := by
  constructor
  · intro ht
    refine VgaTerm.ext (Screen.ext ?_ (Fin.ext ?_) (Fin.ext ?_)) ?_
    · funext i j
      have hc := ht.char i j
      have ha := ht.attr i j
      rw [h.cell] at hc ha
      exact Prod.ext hc ha
    · have hrow := h.row.symm.trans ht.row
      exact Int.ofNat_inj.mp hrow
    · have hcol := h.col.symm.trans ht.col
      exact Int.ofNat_inj.mp hcol
    · exact h.color.symm.trans ht.color
  · intro he
    subst he
    refine ⟨h.row, h.col, h.color, fun i j => ?_, fun i j => ?_⟩
    · rw [h.cell]
      rfl
    · rw [h.cell]
      rfl

/-- The character is ASCII, or all bits of the colour are set anyway. -/
def Fits (c k : UInt8) : Prop := c < 0x80 ∨ k = 0xFF

/-- At every point of a run the terminal is seen, exactly if every character fits. -/
theorem Console.Shows.text_runs_iff (h : s.Shows t) (ops : List ConsoleOp) :
    (∀ ops', ops' <+: ops → ∃ s', (s.runOps fonts ops').out = .done s'
      ∧ s'.ShowsText ((t.map cellText).run Prod.mk ops'))
        ↔ VgaTerm.EachMakes Fits s.curColor ops := by
  have hsame : (fun c k => textEntry c k = (c, k)) = Fits := by
    funext c k
    exact propext makeEntry_eq_iff
  have hblank : ∀ k, textEntry 0x20 k = Prod.mk 0x20 k := fun k => makeEntry_ascii (by decide)
  rw [h.color, ← hsame]
  refine Iff.trans ?_ (VgaTerm.run_eq_iff (t := t.map cellText) hblank)
  refine forall_congr' fun ops' => imp_congr_right fun _ => ?_
  obtain ⟨s', hrun, hshows, _⟩ := h.ops fonts ops'
  have hmap : (t.map cellText).run textEntry ops' = (t.run makeEntry ops').map cellText :=
    (VgaTerm.map_run cellText makeEntry ops' t).symm
  rw [hmap, ← hshows.text_iff]
  constructor
  · intro ⟨s'', hout, htext⟩
    rw [hrun.2] at hout
    cases hout
    exact htext
  · intro htext
    exact ⟨s', hrun.2, htext⟩

/-- **The screen is a terminal's, exactly as long as the characters are ASCII** (or the attribute is
0xFF). -/
theorem vga_refines_iff (hs : s.Booted fonts) : ∃ t : VgaTerm (UInt8 × UInt8), s.ShowsText t ∧ ∀ ops,
    ((∀ ops', ops' <+: ops → ∃ s', (s.runOps fonts ops').out = .done s' ∧ s'.ShowsText (t.run Prod.mk ops'))
      ↔ VgaTerm.EachMakes Fits s.curColor ops) := by
  obtain ⟨t, ht⟩ := hs.shows
  exact ⟨t.map cellText, ht.text_iff.mpr rfl, ht.text_runs_iff⟩

/-- Right after the start a line is printed in light green, and then a character from 0x80 on, in
the attribute 0xFF. -/
theorem vga_refines_boot : ∃ t : VgaTerm (UInt8 × UInt8), bootConsole.ShowsText t ∧ ∀ ops',
    ops' <+: [.setColor 10 0, .putchar 0x56, .putchar 0x0A, .setColor 15 15, .putchar 0x80] →
      ∃ s', (bootConsole.runOps (fun _ _ => 0) ops').out = .done s' ∧ s'.ShowsText (t.run Prod.mk ops') := by
  obtain ⟨t, ht, hruns⟩ := vga_refines_iff
    (.boot (fun _ => 0) fun _ => 0 : bootConsole.Booted fun _ _ => 0)
  refine ⟨t, ht, (hruns _).mpr ⟨fun _ => ?_, fun h => ?_, fun _ => ?_, trivial⟩⟩
  · unfold Fits
    decide
  · exact absurd h (by decide)
  · unfold Fits
    decide

/-- **A character from 0x80 on in light green**: it is shown in another colour. -/
theorem vga_attribute_lost : ¬ ∃ t : VgaTerm (UInt8 × UInt8), bootConsole.ShowsText t ∧
    ∀ ops', ops' <+: [.setColor 10 0, .putchar 0x80] → ∃ s',
      (bootConsole.runOps (fun _ _ => 0) ops').out = .done s' ∧ s'.ShowsText (t.run Prod.mk ops') := by
  intro ⟨t, htext, hall⟩
  obtain ⟨t₀, ht₀⟩ := (Booted.boot (fun _ => 0) fun _ => 0 : bootConsole.Booted fun _ _ => 0).shows
  rw [← ht₀.text_iff.mp htext] at hall
  have hfits := (ht₀.text_runs_iff _).mp hall
  exact absurd hfits.1 (by unfold Fits; decide)

end VnlKernel
