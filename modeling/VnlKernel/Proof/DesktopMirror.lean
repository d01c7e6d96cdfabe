import VnlKernel.Proof.ConsoleRun
import VnlKernel.Proof.DesktopTerm

/-!
# The window shows what the console shows

What the console does, it tells the hook before. After the screen was cleared, the window that has
the focus shows the left 60 columns of the console, in the same colours and with the same cursor,
for as long as no line comes to the last of them. -/

namespace VnlKernel

open Terminal Logged

/-! ## What the hook is told -/

/-- A call of the hook. -/
def ConsoleEvent.hook? : ConsoleEvent → Option HookCall
  | .hook ev x y c color => some ⟨ev, x, y, c, color⟩
  | _ => none

/-- The calls of the hook, one after the other. -/
def hookCalls (log : List ConsoleEvent) : List HookCall := log.filterMap ConsoleEvent.hook?

/-- The hook is not called, and what is returned satisfies `Q`. -/
abbrev HookQuiet {α : Type} (Q : α → Prop) (x : Logged ConsoleEvent α) : Prop :=
  Logged.Keeps (fun e => e.hook? = none) Q x

section Hooks

variable {α β : Type} {Q : α → Prop}

theorem HookQuiet.ite {c : Prop} [Decidable c] {x y : Logged ConsoleEvent α} (hx : HookQuiet Q x)
    (hy : HookQuiet Q y) : HookQuiet Q (if c then x else y) := by
  split
  · exact hx
  · exact hy

theorem HookQuiet.forUpTo {body : Nat → α → Logged ConsoleEvent α}
    (h : ∀ i a, Q a → HookQuiet Q (body i a)) {a : α} (ha : Q a) :
    ∀ n, HookQuiet Q (forUpTo body a n)
  | 0 => Logged.Keeps.pure ha
  | n + 1 => (HookQuiet.forUpTo h ha n).bind fun a ha => h n a ha

theorem HookQuiet.calls {x : Logged ConsoleEvent α} (h : HookQuiet Q x) : hookCalls x.log = [] :=
  List.filterMap_eq_nil_iff.mpr h.1

/-- The calls of two halves. -/
theorem hookCalls_bind {x : Logged ConsoleEvent α} {a : α} (h : x.out = .done a)
    (f : α → Logged ConsoleEvent β) :
    hookCalls (x >>= f).log = hookCalls x.log ++ hookCalls (f a).log := by
  rw [bind_of_done h]
  exact List.filterMap_append

/-- A first half that is quiet. -/
theorem HookQuiet.then_calls {x : Logged ConsoleEvent α} {a : α} (hx : HookQuiet Q x)
    (h : x.out = .done a)
    (f : α → Logged ConsoleEvent β) : hookCalls (x >>= f).log = hookCalls (f a).log := by
  rw [hookCalls_bind h, hx.calls, List.nil_append]

end Hooks

namespace Console

variable {s : Console} {b : Bool}

/-- `s_vga_hook` is as it was. -/
abbrev HookedAs (b : Bool) (s : Console) : Prop := s.hooked = b

theorem store_quiet (h : s.hooked = b) (i : Int) (entry : UInt16) :
    HookQuiet (HookedAs b) (s.store i entry) :=
  (Comes.note (P := fun e => ConsoleEvent.hook? e = none) rfl).notes.bind fun _ _ =>
    Logged.Keeps.pure h

theorem updateHwCursor_quiet (s : Console) : HookQuiet (fun _ => True) s.updateHwCursor := by
  have hport : ∀ port value, HookQuiet (fun _ => True) (note (.outb port value)) := fun _ _ =>
    (Comes.note (P := fun e => ConsoleEvent.hook? e = none) rfl).notes
  exact (hport _ _).bind fun _ _ => (hport _ _).bind fun _ _ => (hport _ _).bind fun _ _ =>
    hport _ _

theorem scroll_quiet (h : s.hooked = b) : HookQuiet (HookedAs b) s.scroll :=
  (HookQuiet.forUpTo (fun _ _ h => .forUpTo (fun _ _ h => store_quiet h _ _) h _) h _).bind
      fun _ h =>
    (HookQuiet.forUpTo (fun _ _ h => store_quiet h _ _) h _).bind fun _ h => Logged.Keeps.pure h

theorem wrap_hooked (h : s.hooked = b) : s.wrap.hooked = b := by
  unfold wrap
  split
  · exact h
  · exact h

theorem putcharCases_quiet (h : s.hooked = b) (c : UInt8) :
    HookQuiet (HookedAs b) (s.putcharCases c) := by
  refine HookQuiet.ite (Logged.Keeps.pure h)
    (HookQuiet.ite (Logged.Keeps.pure h) (HookQuiet.ite (Logged.Keeps.pure (wrap_hooked h)) ?_))
  refine HookQuiet.ite (HookQuiet.ite (store_quiet (by exact h) _ _) (Logged.Keeps.pure h)) ?_
  exact (store_quiet h _ _).bind fun s h => Logged.Keeps.pure (wrap_hooked (by exact h))

/-- What `vga_putchar` does behind the hook. -/
theorem putcharRest_quiet (fonts : Fonts) (h : s.hooked = b) (c : UInt8) :
    HookQuiet (HookedAs b) (do
    let s ← s.putcharCases c
    let s ← (if s.curRow ≥ vgaHeight then s.scroll else pure s)
    s.updateHwCursor
    return { s with mirror := s.mirror.putchar fonts c s.curColor }) :=
  (putcharCases_quiet h c).bind fun _ h =>
      (HookQuiet.ite (scroll_quiet h) (Logged.Keeps.pure h)).bind fun s h =>
    s.updateHwCursor_quiet.bind fun _ _ => Logged.Keeps.pure h

theorem callHook_calls (h : s.hooked = true) (ev : VgaHookEvent) (x y : Int) (c : UInt8) :
    hookCalls (s.callHook ev x y c).log = [⟨ev, x, y, c, s.curColor⟩] := by
  unfold callHook
  rw [if_pos h]
  rfl

theorem callHook_out (s : Console) (ev : VgaHookEvent) (x y : Int) (c : UInt8) :
    (s.callHook ev x y c).out = .done () := by
  unfold callHook
  split
  · rfl
  · rfl

theorem updateHwCursor_out (s : Console) : s.updateHwCursor.out = .done () := rfl

/-- **A character is told first.** -/
theorem putchar_calls (fonts : Fonts) (h : s.hooked = true) (c : UInt8) :
    hookCalls (s.putchar fonts c).log = [⟨.putchar, s.curCol, s.curRow, c, s.curColor⟩] := by
  rw [putchar, hookCalls_bind (s.callHook_out _ _ _ _), callHook_calls h,
    (putcharRest_quiet fonts h c).calls, List.append_nil]

/-- And so is where the cursor is set. -/
theorem setCursor_calls (h : s.hooked = true) (row col : Int) :
    hookCalls (s.setCursor row col).log
      = [⟨.cursor, (VgaTerm.clampCol col).val, (VgaTerm.clampRow row).val, 0, s.curColor⟩] := by
  unfold setCursor
  rw [(updateHwCursor_quiet _).then_calls (updateHwCursor_out _),
    hookCalls_bind (callHook_out _ _ _ _ _),
    callHook_calls (by exact h), clampCol_val, clampRow_val]
  rfl

theorem clear_calls (h : s.hooked = true) :
    hookCalls s.clear.log = [⟨.clear, 0, 0, 0, s.curColor⟩] := by
  have hcells : HookQuiet (HookedAs true) s.clearCells :=
    .forUpTo (fun _ _ h => store_quiet h _ _) h _
  unfold clear
  rw [hcells.then_calls clearCells_comes.2,
    (updateHwCursor_quiet _).then_calls (updateHwCursor_out _),
    hookCalls_bind (callHook_out _ _ _ _ _), callHook_calls (by exact h)]
  rfl

/-- The hook is not taken away by what is printed. -/
theorem op_hooked {s' : Console} {fonts : Fonts} {op : ConsoleOp}
    (h : (op.run fonts s).out = .done s') : s'.hooked = s.hooked := by
  cases op with
  | setColor fg bg =>
      cases h
      rfl
  | setCursor row col =>
      change (s.setCursor row col).out = _ at h
      unfold setCursor at h
      rw [bind_out, updateHwCursor_out, Outcome.bind_done, bind_out, callHook_out,
        Outcome.bind_done] at h
      cases h
      rfl
  | clear =>
      change s.clear.out = _ at h
      unfold clear at h
      rw [bind_out, clearCells_comes.2, Outcome.bind_done, bind_out, updateHwCursor_out,
        Outcome.bind_done, bind_out, callHook_out, Outcome.bind_done] at h
      cases h
      rfl
  | putchar c =>
      change (s.putchar fonts c).out = _ at h
      rw [putchar, bind_out, callHook_out, Outcome.bind_done] at h
      exact (putcharRest_quiet fonts rfl c).2 s' h

end Console

/-! ## One call of the console -/

/-- No line comes to the last column of the window, and only characters that the two take for the
same are printed. -/
def Console.Narrow (s : Console) : ConsoleOp → Prop
  | .setColor _ _ => True
  | .setCursor _ col => col < termCols
  | .clear => True
  | .putchar c => c ≠ 0x09 ∧ c < 0x80 ∧ (c = 0x08 → s.curCol ≠ 0)
      ∧ (Printed c → s.curCol + 1 < termCols)

/-- A cell of ASCII is the same in both. -/
theorem makeEntry_eq_termEntry {c color : UInt8} (hc : c < 0x80) :
    makeEntry c color = termEntry c color := by
  unfold makeEntry termEntry
  rw [if_pos hc]

theorem clampCol_narrow {col : Int} (h : col < termCols) :
    (winCol (VgaTerm.clampCol col).val).val = (VgaTerm.clampCol col).val := by
  unfold winCol VgaTerm.clampCol
  unfold termCols at *
  unfold vgaWidth
  dsimp only
  omega

theorem winRow_clampRow (row : Int) : winRow (VgaTerm.clampRow row).val = VgaTerm.clampRow row := by
  unfold winRow VgaTerm.clampRow
  refine Fin.ext ?_
  dsimp only
  unfold termRows vgaHeight
  omega

section Step

variable {s : Console} {tc : VgaTerm UInt16} {tw : WinScreen} {op : ConsoleOp}

/-- **A call does the same to both screens.** -/
theorem leftOf_step (fonts : Fonts) (hs : s.Shows tc) (hh : s.hooked = true)
    (hl : Screen.LeftOf tw tc.screen) (hn : s.Narrow op) :
    Screen.LeftOf ((hookCalls (op.run fonts s).log).foldl WinScreen.step tw)
    (tc.step makeEntry op).screen ∧ ∀ e ∈ hookCalls (op.run fonts s).log, e.InScreen := by
  have hblank : makeEntry 0x20 s.curColor = termEntry 0x20 s.curColor :=
    makeEntry_eq_termEntry (by decide)
  cases op with
  | setColor fg bg => exact ⟨hl, fun e he => absurd he List.not_mem_nil⟩
  | setCursor row col =>
      change col < termCols at hn
      change Screen.LeftOf ((hookCalls (s.setCursor row col).log).foldl WinScreen.step tw) _
        ∧ ∀ e ∈ hookCalls (s.setCursor row col).log, e.InScreen
      rw [Console.setCursor_calls hh]
      refine ⟨?_, fun e he _ => ?_⟩
      · change Screen.LeftOf (tw.moveTo (winRow (VgaTerm.clampRow row).val)
          (winCol (VgaTerm.clampCol col).val))
          (tc.screen.moveTo (VgaTerm.clampRow row) (VgaTerm.clampCol col))
        rw [winRow_clampRow]
        exact hl.moveTo _ (clampCol_narrow hn)
      · rw [List.mem_singleton.mp he]
        dsimp only
        unfold VgaTerm.clampCol VgaTerm.clampRow
        unfold termCols at *
        unfold termRows vgaWidth vgaHeight
        dsimp only
        omega
  | clear =>
      change Screen.LeftOf ((hookCalls s.clear.log).foldl WinScreen.step tw) _
        ∧ ∀ e ∈ hookCalls s.clear.log, e.InScreen
      rw [Console.clear_calls hh]
      refine ⟨?_, fun e he hev => ?_⟩
      · change Screen.LeftOf (tw.clear (termEntry 0x20 s.curColor))
          (tc.screen.clear (makeEntry 0x20 tc.color))
        rw [← hs.color, hblank]
        exact .clear _ _ _
      · rw [List.mem_singleton.mp he] at hev
        cases hev
  | putchar c =>
      obtain ⟨htab, hascii, hback, hprinted⟩ := hn
      change Screen.LeftOf ((hookCalls (s.putchar fonts c).log).foldl WinScreen.step tw)
        (tc.putchar makeEntry c) ∧ ∀ e ∈ hookCalls (s.putchar fonts c).log, e.InScreen
      rw [Console.putchar_calls fonts hh]
      refine ⟨?_, fun e he hev => ?_⟩
      · change Screen.LeftOf (tw.step ⟨.putchar, s.curCol, s.curRow, c, s.curColor⟩) _
        have hcol := hs.col
        rcases char_cases c with rfl | rfl | rfl | rfl | hc
        · change Screen.LeftOf (tw.newline (termEntry 0x20 s.curColor))
            (tc.screen.newline (makeEntry 0x20 tc.color))
          rw [← hs.color, hblank]
          exact hl.newline _
        · exact hl.carriage
        · exact absurd rfl htab
        · have hne : ¬ tw.col.val = 0 := by
            have hcol0 := hback rfl
            rw [hl.col]
            omega
          change Screen.LeftOf (if tw.col.val = 0 then tw.set (termEntry 0x20 s.curColor)
            else tw.back (termEntry 0x20 s.curColor)) (tc.screen.back (makeEntry 0x20 tc.color))
          rw [if_neg hne, ← hs.color, hblank]
          exact hl.back _
        · have hput : tw.step ⟨.putchar, s.curCol, s.curRow, c, s.curColor⟩
              = tw.put (termEntry 0x20 s.curColor) (termEntry c s.curColor) := by
            unfold WinScreen.step
            dsimp only
            rw [if_neg hc.1, if_neg hc.2.1, if_neg hc.2.2.2]
          have hroom := hprinted hc
          rw [hput, VgaTerm.putchar_printed makeEntry hc, ← hs.color, hblank,
            makeEntry_eq_termEntry hascii]
          exact hl.put _ _ (by decide) (by omega)
      · rw [List.mem_singleton.mp he] at hev
        cases hev

end Step

/-! ## Many calls -/

/-- No line comes to the last column of the window, call by call. -/
def Console.NarrowRun (fonts : Fonts) : Console → List ConsoleOp → Prop
  | _, [] => True
  | s, op :: ops => s.Narrow op ∧ ∀ s', (op.run fonts s).out = .done s' → s'.NarrowRun fonts ops

section Runs

variable {fonts : Fonts}

/-- **What calls do, one after the other**, to both screens. -/
theorem leftOf_run : ∀ {ops : List ConsoleOp} {s : Console} {tc : VgaTerm UInt16} {tw : WinScreen},
    s.Shows tc → s.hooked = true → Screen.LeftOf tw tc.screen → s.NarrowRun fonts ops →
    ∃ s' tc', (s.runOps fonts ops).out = .done s' ∧ s'.Shows tc'
      ∧ Screen.LeftOf ((hookCalls (s.runOps fonts ops).log).foldl WinScreen.step tw) tc'.screen
      ∧ ∀ e ∈ hookCalls (s.runOps fonts ops).log, e.InScreen
  | [], s, tc, _, hs, _, hl, _ => ⟨s, tc, rfl, hs, hl, fun e he => absurd he List.not_mem_nil⟩
  | op :: ops, s, tc, tw, hs, hh, hl, hn => by
      obtain ⟨s₁, hrun, hs₁, -⟩ := hs.op fonts op
      obtain ⟨hl₁, hin₁⟩ := leftOf_step fonts hs hh hl hn.1
      have hh₁ : s₁.hooked = true := (Console.op_hooked hrun.2).trans hh
      obtain ⟨s₂, tc₂, hout, hs₂, hl₂, hin₂⟩ := leftOf_run hs₁ hh₁ hl₁ (hn.2 s₁ hrun.2)
      refine ⟨s₂, tc₂, ?_, hs₂, ?_, ?_⟩
      · rw [Console.runOps, bind_out, hrun.2, Outcome.bind_done]
        exact hout
      · rw [Console.runOps, hookCalls_bind hrun.2, List.foldl_append]
        exact hl₂
      · intro e he
        rw [Console.runOps, hookCalls_bind hrun.2] at he
        rcases List.mem_append.mp he with he | he
        · exact hin₁ e he
        · exact hin₂ e he

end Runs

/-! ## The window that has the focus -/

/-- The window with the focus is a terminal, and shows `t`. -/
structure Desktop.ShowsIn (d : Desktop) (t : WinScreen) : Prop where
  focused : d.focusedWin ≠ 0
  window : ∃ win, d.mem d.focusedWin = some win ∧ win.kind = .term ∧ win.ShowsTerm t

theorem Desktop.hook_eq {d : Desktop} {e : HookCall} {win win' : Window} (hf : d.focusedWin ≠ 0)
    (hwin : d.mem d.focusedWin = some win) (hk : win.kind = .term)
    (hrun : Comes DesktopEvent.OnTerm (win.hook e) win') :
    (d.hook e).out = .done (d.put d.focusedWin win') := by
  unfold hook
  rw [if_neg hf, deref, hwin, bind_out, pure_out, Outcome.bind_done, if_neg (not_not.mpr hk),
    bind_out, hrun.2]
  rfl

/-- What the hook does is seen in the window. -/
theorem Desktop.ShowsIn.hook {d : Desktop} {t : WinScreen} {e : HookCall} (h : d.ShowsIn t)
    (he : e.InScreen) :
    ∃ d', (d.hook e).out = .done d' ∧ d'.focusedWin = d.focusedWin ∧ d'.ShowsIn (t.step e) := by
  obtain ⟨win, hwin, hk, hshows⟩ := h.window
  obtain ⟨win', hrun, hkind, hshows'⟩ := hshows.hook he
  exact ⟨_, Desktop.hook_eq h.focused hwin hk hrun, rfl, h.focused, win', if_pos rfl,
    hkind.trans hk, hshows'⟩

theorem Desktop.ShowsIn.hooks : ∀ {es : List HookCall} {d : Desktop} {t : WinScreen}, d.ShowsIn t →
    (∀ e ∈ es, e.InScreen) →
    ∃ d', (d.hooks es).out = .done d' ∧ d'.focusedWin = d.focusedWin
      ∧ d'.ShowsIn (es.foldl WinScreen.step t)
  | [], d, t, h, _ => ⟨d, rfl, rfl, h⟩
  | e :: es, d, t, h, he => by
      obtain ⟨d₁, hout, hf, h₁⟩ := h.hook (he e List.mem_cons_self)
      obtain ⟨d₂, hout₂, hf₂, h₂⟩ := h₁.hooks fun e' he' => he e' (List.mem_cons_of_mem e he')
      refine ⟨d₂, ?_, hf₂.trans hf, h₂⟩
      rw [Desktop.hooks, bind_out, hout, Outcome.bind_done]
      exact hout₂

/-- **The window shows what the console shows**, from when the screen was cleared, whatever the
window held before: each cell of its 60 columns, and the cursor. -/
theorem window_shows_console {fonts : Fonts} {s : Console} (hs : s.Booted fonts)
    (hh : s.hooked = true)
    {d : Desktop} {win : Window} (hf : d.focusedWin ≠ 0) (hwin : d.mem d.focusedWin = some win)
    (hk : win.kind = .term) {ops : List ConsoleOp} (hn : s.NarrowRun fonts (.clear :: ops)) :
    ∃ s' d' win', (s.runOps fonts (.clear :: ops)).out = .done s'
      ∧ (d.hooks (hookCalls (s.runOps fonts (.clear :: ops)).log)).out = .done d'
      ∧ d'.mem d.focusedWin = some win' ∧ win'.termCursorX = s'.curCol
        ∧ win'.termCursorY = s'.curRow
      ∧ ∀ i j : Nat, i < termRows → j < termCols →
        win'.termBuffer (i * termCols + j) = s'.cells (i * vgaWidth + j) := by
  obtain ⟨tc, htc⟩ := hs.shows
  obtain ⟨s₁, hrun, hs₁, -⟩ := htc.op fonts .clear
  have hh₁ : s₁.hooked = true := (Console.op_hooked hrun.2).trans hh
  have hcalls : hookCalls (ConsoleOp.clear.run fonts s).log = [⟨.clear, 0, 0, 0, s.curColor⟩] :=
    Console.clear_calls hh
  -- both screens are blank now
  let tw : WinScreen := ⟨fun _ _ => 0, ⟨0, by decide⟩, ⟨0, by decide⟩⟩
  have hl₁ : Screen.LeftOf (tw.clear (termEntry 0x20 s.curColor))
      (tc.step makeEntry .clear).screen := by
    have hblank : makeEntry 0x20 s.curColor = termEntry 0x20 s.curColor :=
      makeEntry_eq_termEntry (by decide)
    change Screen.LeftOf _ (tc.screen.clear (makeEntry 0x20 tc.color))
    rw [← htc.color, hblank]
    exact .clear _ _ _
  obtain ⟨s₂, tc₂, hout, hs₂, hl₂, hin₂⟩ := leftOf_run hs₁ hh₁ hl₁ (hn.2 s₁ hrun.2)
  have hclear := Window.hook_clear_comes (e := ⟨.clear, 0, 0, 0, s.curColor⟩) win tw rfl
  have hd₁ := Desktop.hook_eq hf hwin hk hclear
  have hshows₁ : (d.put d.focusedWin (win.termCleared s.curColor)).ShowsIn
      (tw.clear (termEntry 0x20 s.curColor)) :=
    ⟨hf, _, if_pos rfl, hk, .cleared win s.curColor tw⟩
  obtain ⟨d₂, hout₂, hf₂, hshows₂⟩ := hshows₁.hooks hin₂
  obtain ⟨win₂, hwin₂, -, hterm⟩ := hshows₂.window
  rw [hf₂] at hwin₂
  refine ⟨s₂, d₂, win₂, ?_, ?_, hwin₂, ?_, ?_, fun i j hi hj => ?_⟩
  · rw [Console.runOps, bind_out, hrun.2, Outcome.bind_done]
    exact hout
  · rw [Console.runOps, hookCalls_bind hrun.2, hcalls, List.cons_append, Desktop.hooks, bind_out,
      hd₁, Outcome.bind_done]
    exact hout₂
  · rw [hterm.col, hs₂.col]
    exact congrArg Nat.cast hl₂.col
  · rw [hterm.row, hs₂.row]
    exact congrArg (fun r => ((Fin.val r : Nat) : Int)) hl₂.row
  · have hj' : j < vgaWidth := Nat.lt_trans hj (by decide)
    have hcell := hterm.cell ⟨i, hi⟩ ⟨j, hj⟩
    have hcell' := hs₂.cell ⟨i, hi⟩ ⟨j, hj'⟩
    dsimp only at hcell hcell'
    rw [hcell, hcell']
    exact hl₂.cells ⟨i, hi⟩ ⟨j, hj⟩ ⟨j, hj'⟩ rfl

/-- A terminal without neighbours has the focus. -/
def oneTerminal : Desktop :=
  { mem := fun p => if p = 1 then some (.created .term) else none
    focusedWin := 1 }

/-- An `A` and a new line. -/
theorem window_shows_console_a : ∃ s' d' win',
    (({ bootConsole with hooked := true } : Console).runOps (fun _ _ => 0)
      [.clear, .putchar 0x41, .putchar 0x0A]).out = .done s'
      ∧ (oneTerminal.hooks (hookCalls (({ bootConsole with hooked := true } : Console).runOps
        (fun _ _ => 0) [.clear, .putchar 0x41, .putchar 0x0A]).log)).out = .done d'
      ∧ d'.mem oneTerminal.focusedWin = some win' ∧ win'.termCursorX = s'.curCol
        ∧ win'.termCursorY = s'.curRow
      ∧ ∀ i j : Nat, i < termRows → j < termCols →
        win'.termBuffer (i * termCols + j) = s'.cells (i * vgaWidth + j) := by
  have hboot : ({ bootConsole with hooked := true } : Console).Booted fun _ _ => 0 :=
    .setHook true (.boot (fun _ => 0) fun _ => 0)
  refine window_shows_console hboot rfl (by decide) rfl rfl
    ⟨trivial, fun s' hout => ⟨?_, fun _ _ => ⟨?_, fun _ _ => trivial⟩⟩⟩
  · -- the cursor is in the first column after the screen was cleared
    obtain ⟨t, ht⟩ := hboot.shows
    obtain ⟨s₁, hrun, hs₁, -⟩ := ht.op (fun _ _ => 0) .clear
    cases hrun.2.symm.trans hout
    have hcol : s'.curCol = 0 := hs₁.col
    refine ⟨by decide, by decide, fun he => absurd he (by decide), fun _ => ?_⟩
    rw [hcol]
    decide
  · exact ⟨by decide, by decide, fun he => absurd he (by decide), fun hp => absurd rfl hp.1⟩

end VnlKernel
