import VnlKernel.Lib.LineZipper
import VnlKernel.Proof.LineScreen
import VnlKernel.Proof.ShellVars

/-!
# The line editor edits a line with a cursor

In the buffer the line is in one piece, with the cursor an index into it. Abstractly it is in two,
before the cursor and behind it, and each key changes one of them at its end that is nearer the
cursor: what `memmove` shifts is what is behind.
-/

namespace VnlKernel

open ByteMem CString Logged LineZipper

/-! ## What the keys mean -/

def Input.IsEnter : Input → Prop
  | .key c => c = 0x0A
  | .serial c => c = 0x0D ∨ c = 0x0A

instance : ∀ i : Input, Decidable i.IsEnter
  | .key _ => inferInstanceAs (Decidable (_ = _))
  | .serial _ => inferInstanceAs (Decidable (_ ∨ _))

/-- The key that is pressed; every byte from the serial line that is not a control character is put
in. -/
def Input.toKey : Input → Key UInt8
  | .key c =>
      if c = 0x08 then .backspace
      else if c = 0x80 then .up
      else if c = 0x81 then .down
      else if c = 0x82 then .left
      else if c = 0x83 then .right
      else if c = 0x84 then .home
      else if c = 0x85 then .toEnd
      else if c = 0x86 then .delete
      else if 0x20 ≤ c ∧ c < 0x80 then .insert c
      else .ignored
  | .serial c =>
      if c = 0x08 ∨ c = 127 then .backspace
      else if 0x20 ≤ c then .insert c
      else .ignored

/-- The comparisons of the loop's body. -/
def codeKey (k : Int) : Key UInt8 :=
  if k = 0x08 then .backspace
  else if k = keyDel then .delete
  else if k = keyLeft then .left
  else if k = keyRight then .right
  else if k = keyHome then .home
  else if k = keyEnd then .toEnd
  else if k = keyUp then .up
  else if k = keyDown then .down
  else if toU32 k ≥ 32 ∧ k < keyUp then .insert (UInt8.ofNat (toU32 k))
  else .ignored

/-- What holds of each byte by its number. -/
theorem forall_byte {P : UInt8 → Prop} (h : ∀ n : Fin 256, P (UInt8.ofNat n)) (c : UInt8) :
    P c := by
  have hc := h ⟨c.toNat, c.toNat_lt⟩
  rwa [UInt8.ofNat_toNat] at hc

theorem code_isEnter (i : Input) : i.code = 0x0A ↔ i.IsEnter := by
  have hkey : ∀ c, (Input.key c).code = 0x0A ↔ (Input.key c).IsEnter :=
    forall_byte (by decide +kernel)
  have hserial : ∀ c, (Input.serial c).code = 0x0A ↔ (Input.serial c).IsEnter :=
    forall_byte (by decide +kernel)
  cases i with
  | key c => exact hkey c
  | serial c => exact hserial c

/-- **The loop compares its way to the key.** -/
theorem codeKey_code (i : Input) : codeKey i.code = i.toKey := by
  have hkey : ∀ c, codeKey (Input.key c).code = (Input.key c).toKey :=
    forall_byte (by decide +kernel)
  have hserial : ∀ c, codeKey (Input.serial c).code = (Input.serial c).toKey :=
    forall_byte (by decide +kernel)
  cases i with
  | key c => exact hkey c
  | serial c => exact hserial c

/-- What is put in is not a control character. -/
theorem toKey_printable {i : Input} {c : UInt8} (h : i.toKey = .insert c) : Printable c := by
  cases i with
  | key d =>
      rw [Input.toKey] at h
      split_ifs at h with _ _ _ _ _ _ _ _ hd
      cases h
      exact hd.1
  | serial d =>
      rw [Input.toKey] at h
      split_ifs at h with _ hd
      cases h
      exact hd

/-- What the loop's body does, by the key. -/
def pressKey (h : History) (p : LinePlace) (s : LineEdit) : Key UInt8 → Logged VgaEvent LineEdit
  | .backspace => if s.cur > 0 then s.backspace.redraw p s.len else return s
  | .delete => if s.cur < s.len then s.delete.redraw p s.len else return s
  | .left => if s.cur > 0 then return s.moveTo p (s.cur - 1) else return s
  | .right => if s.cur < s.len then return s.moveTo p (s.cur + 1) else return s
  | .home => return s.moveTo p 0
  | .toEnd => return s.moveTo p s.len
  | .up => if s.histIdx > 0 then (s.recall h p (s.histIdx - 1)).redraw p s.len else return s
  | .down =>
      if s.histIdx < h.count then
        if s.histIdx + 1 = h.count then (s.clear (s.histIdx + 1)).redraw p s.len
        else (s.recall h p (s.histIdx + 1)).redraw p s.len
      else s.redraw p s.len
  | .insert c => if s.len < p.limit then (s.insert c).redraw p s.len else return s
  | .ignored => return s

theorem editKey_eq (h : History) (p : LinePlace) (s : LineEdit) (k : Int) :
    editKey h p s k = pressKey h p s (codeKey k) := by
  unfold editKey codeKey
  by_cases h1 : k = 0x08
  · rw [if_pos h1, if_pos h1, pressKey]
  rw [if_neg h1, if_neg h1]
  by_cases h2 : k = keyDel
  · rw [if_pos h2, if_pos h2, pressKey]
  rw [if_neg h2, if_neg h2]
  by_cases h3 : k = keyLeft
  · rw [if_pos h3, if_pos h3, pressKey]
  rw [if_neg h3, if_neg h3]
  by_cases h4 : k = keyRight
  · rw [if_pos h4, if_pos h4, pressKey]
  rw [if_neg h4, if_neg h4]
  by_cases h5 : k = keyHome
  · rw [if_pos h5, if_pos h5, pressKey]
  rw [if_neg h5, if_neg h5]
  by_cases h6 : k = keyEnd
  · rw [if_pos h6, if_pos h6, pressKey]
  rw [if_neg h6, if_neg h6]
  by_cases h7 : k = keyUp
  · rw [if_pos h7, if_pos h7, pressKey]
  rw [if_neg h7, if_neg h7]
  by_cases h8 : k = keyDown
  · rw [if_pos h8, if_pos h8, pressKey]
  rw [if_neg h8, if_neg h8]
  by_cases h9 : toU32 k ≥ 32 ∧ k < keyUp
  · rw [if_pos h9, pressKey]
    by_cases hlen : s.len < p.limit
    · rw [if_pos ⟨h9.1, h9.2, hlen⟩, if_pos hlen]
    · rw [if_neg fun h => hlen h.2.2, if_neg hlen]
  · rw [if_neg h9, if_neg fun h => h9 ⟨h.1, h.2.1⟩, pressKey]

/-! ## The buffer and the line -/

/-- The buffer holds the line; what lies behind its limit is as it was in `buf`. -/
structure EditsLine (buf : Mem) (p : LinePlace) (s : LineEdit) (e : Editor UInt8) : Prop where
  text : BytesAt s.buf 0 e.line.text
  len : s.len = e.line.text.length
  cur : s.cur = e.line.cursor
  recalled : s.histIdx = e.recalled
  fits : e.line.text.length ≤ p.limit
  beyond : ∀ x, p.limit < x → s.buf x = buf x

section Ops

variable {buf : Mem} {p : LinePlace} {s : LineEdit} {e : Editor UInt8} {h : History}

theorem LineEdit.backspace_buf (s : LineEdit) :
    s.backspace.buf = setByte (memmove s.buf (s.cur - 1) s.cur (s.len - s.cur)) (s.len - 1) 0 := rfl

theorem LineEdit.delete_buf (s : LineEdit) :
    s.delete.buf = setByte (memmove s.buf s.cur (s.cur + 1) (s.len - s.cur - 1)) (s.len - 1) 0 :=
      rfl

theorem LineEdit.insert_buf (s : LineEdit) (c : UInt8) : (s.insert c).buf
    = setByte (setByte (memmove s.buf (s.cur + 1) s.cur (s.len - s.cur)) s.cur c) (s.len + 1) 0 :=
      rfl

theorem LineEdit.clear_buf (s : LineEdit) (idx : Nat) : (s.clear idx).buf = setByte s.buf 0 0 := rfl

theorem LineEdit.recall_buf (s : LineEdit) (h : History) (p : LinePlace) (idx : Nat) :
    (s.recall h p idx).buf = setByte (strncpy s.buf 0 (h.get idx) p.limit) p.limit 0 := rfl

theorem EditsLine.withVga (he : EditsLine buf p s e) (v : Vga) :
    EditsLine buf p { s with vga := v } e := { he with }

/-- The two parts of the line in the buffer. -/
theorem EditsLine.parts (he : EditsLine buf p s e) : BytesAt s.buf 0 e.line.before
    ∧ BytesAt s.buf s.cur e.line.after
    ∧ s.len = s.cur + e.line.after.length := by
  have htext := he.text
  have hlen := he.len
  rw [Line.text, bytesAt_append, Nat.zero_add] at htext
  rw [Line.text_length] at hlen
  rw [he.cur]
  exact ⟨htext.1, htext.2, hlen⟩

theorem EditsLine.backspace (he : EditsLine buf p s e) (hcur : s.cur > 0) :
    EditsLine buf p s.backspace { e with line := e.line.backspace } := by
  obtain ⟨hbefore, hafter, hlen⟩ := he.parts
  have hfits := he.fits
  rw [← he.len] at hfits
  have hc := he.cur
  obtain ⟨⟨before, after⟩, idx⟩ := e
  rcases List.eq_nil_or_concat before with rfl | ⟨b, c, rfl⟩
  · rw [hc] at hcur
    exact absurd hcur (Nat.lt_irrefl 0)
  · rw [List.concat_eq_append] at hbefore hc
    rw [Line.cursor, List.length_append, List.length_singleton] at hc
    dsimp only at hafter hlen
    -- what is behind the cursor goes down by one
    have hbuf : BytesAt s.backspace.buf 0 (b ++ after) := by
      refine bytesAt_append.mpr ⟨(bytesAt_append.mp hbefore).1.congr fun x _ hx => ?_,
        hafter.moved fun i hi => ?_⟩
      · rw [LineEdit.backspace_buf, setByte_ne (by omega), memmove_out (by omega)]
      · rw [LineEdit.backspace_buf, setByte_ne (by omega),
          show 0 + b.length + i = s.cur - 1 + i by omega, memmove_in (by omega)]
    have hline : (Line.mk (b.concat c) after).backspace = ⟨b, after⟩ := by
      rw [Line.backspace, List.concat_eq_append, List.dropLast_concat]
    rw [hline]
    refine ⟨hbuf, ?_, ?_, he.recalled, ?_, fun x hx => ?_⟩
    · rw [Line.text_length, LineEdit.backspace]
      dsimp only
      omega
    · rw [Line.cursor, LineEdit.backspace]
      dsimp only
      omega
    · rw [Line.text_length]
      dsimp only
      omega
    · rw [LineEdit.backspace_buf, setByte_ne (by omega), memmove_out (by omega), he.beyond x hx]

theorem EditsLine.delete (he : EditsLine buf p s e) (hcur : s.cur < s.len) :
    EditsLine buf p s.delete { e with line := e.line.delete } := by
  obtain ⟨hbefore, hafter, hlen⟩ := he.parts
  have hfits := he.fits
  rw [← he.len] at hfits
  have hc := he.cur
  obtain ⟨⟨before, after⟩, idx⟩ := e
  cases after with
  | nil =>
      rw [hlen] at hcur
      exact absurd hcur (Nat.lt_irrefl _)
  | cons c a =>
      rw [Line.cursor] at hc
      dsimp only at hbefore hafter hlen hc
      rw [List.length_cons] at hlen
      have hbuf : BytesAt s.delete.buf 0 (before ++ a) := by
        refine bytesAt_append.mpr ⟨hbefore.congr fun x _ hx => ?_, hafter.2.moved fun i hi => ?_⟩
        · rw [LineEdit.delete_buf, setByte_ne (by omega), memmove_out (by omega)]
        · rw [LineEdit.delete_buf, setByte_ne (by omega),
            show 0 + before.length + i = s.cur + i by omega, memmove_in (by omega)]
      refine ⟨hbuf, ?_, he.cur, he.recalled, ?_, fun x hx => ?_⟩
      · rw [Line.text_length, LineEdit.delete, Line.delete, List.tail_cons]
        dsimp only
        omega
      · rw [Line.text_length, Line.delete, List.tail_cons]
        dsimp only
        omega
      · rw [LineEdit.delete_buf, setByte_ne (by omega), memmove_out (by omega), he.beyond x hx]

theorem EditsLine.insert (he : EditsLine buf p s e) (hroom : s.len < p.limit) (c : UInt8) :
    EditsLine buf p (s.insert c) { e with line := e.line.insert p.limit c } := by
  obtain ⟨hbefore, hafter, hlen⟩ := he.parts
  have hne : e.line.text.length ≠ p.limit := by
    rw [← he.len]
    exact Nat.ne_of_lt hroom
  have hc := he.cur
  rw [Line.insert, if_neg hne]
  obtain ⟨⟨before, after⟩, idx⟩ := e
  rw [Line.cursor] at hc
  dsimp only at hbefore hafter hlen hc
  -- what is behind the cursor goes up by one
  have hbuf : BytesAt (s.insert c).buf 0 ((before ++ [c]) ++ after) := by
    refine bytesAt_append.mpr ⟨bytesAt_append.mpr ⟨hbefore.congr fun x _ hx => ?_, ?_, trivial⟩,
      hafter.moved fun i hi => ?_⟩
    · rw [LineEdit.insert_buf, setByte_ne (by omega), setByte_ne (by omega), memmove_out (by omega)]
    · rw [LineEdit.insert_buf, setByte_ne (by omega),
        show 0 + before.length = s.cur by omega, setByte_self]
    · rw [List.length_append, List.length_singleton, LineEdit.insert_buf, setByte_ne (by omega),
        setByte_ne (by omega),
        show 0 + (before.length + 1) + i = s.cur + 1 + i by omega, memmove_in (by omega)]
  refine ⟨hbuf, ?_, ?_, he.recalled, ?_, fun x hx => ?_⟩
  · rw [Line.text_length, List.length_append, List.length_singleton, LineEdit.insert]
    dsimp only
    omega
  · rw [Line.cursor, List.length_append, List.length_singleton, LineEdit.insert]
    dsimp only
    omega
  · rw [Line.text_length, List.length_append, List.length_singleton]
    dsimp only
    omega
  · rw [LineEdit.insert_buf, setByte_ne (by omega), setByte_ne (by omega), memmove_out (by omega),
      he.beyond x hx]

/-- Moving the cursor. -/
theorem EditsLine.moveTo (he : EditsLine buf p s e) {l : Line UInt8} (ht : l.text = e.line.text) :
    EditsLine buf p (s.moveTo p l.cursor) { e with line := l } where
  text := ht.symm ▸ he.text
  len := ht.symm ▸ he.len
  cur := rfl
  recalled := he.recalled
  fits := ht.symm ▸ he.fits
  beyond := he.beyond

theorem strncpy_above : ∀ {src : CStr} {n : Nat} {dst : Mem} {k j : Nat}, k + n < j
    → strncpy dst k src n j = dst j
  | _, 0, _, _, _, _ => by rw [strncpy]
  | [], n + 1, dst, k, j, h => by
      rw [strncpy, zeroFill, memset_out (Or.inr (by omega)), setByte_ne (by omega)]
  | c :: src, n + 1, dst, k, j, h => by
      rw [strncpy, strncpy_above (by omega), setByte_ne (by omega)]

/-- What is recalled: a line cut to the limit. -/
theorem recall_strAt (s : LineEdit) (p : LinePlace) {text : CStr} (h0 : (0 : UInt8) ∉ text) :
    StrAt (setByte (strncpy s.buf 0 text p.limit) p.limit 0) 0 (text.take p.limit) := by
  have hz : (0 : UInt8) ∉ text.take p.limit := fun hmem => h0 (List.mem_of_mem_take hmem)
  refine (strAt_ofStr hz).congr fun x _ hx => ?_
  rw [Nat.zero_add] at hx
  have hlen : (text.take p.limit).length ≤ text.length := (List.take_sublist _ _).length_le
  rw [List.length_take] at hx
  rw [ofStr]
  rcases Nat.lt_or_ge x (text.take p.limit).length with hlt | hge
  · rw [List.getD_eq_getElem _ _ hlt, List.getElem_take]
    rw [List.length_take] at hlt
    have hin : strncpy s.buf 0 text p.limit (0 + x) = text[x] := strncpy_in (by omega) (by omega)
    rw [Nat.zero_add] at hin
    rw [setByte_ne (by omega), hin]
  · rw [List.getD_eq_default _ _ hge]
    rw [List.length_take] at hge
    by_cases hx' : x = p.limit
    · rw [hx', setByte_self]
    · have hpad : strncpy s.buf 0 text p.limit (0 + x) = 0 :=
        strncpy_pad (by omega) (by omega) (by omega)
      rw [Nat.zero_add] at hpad
      rw [setByte_ne hx', hpad]

/-- A string is its bytes and a NUL. -/
theorem strAt_iff {m : Mem} : ∀ {s : CStr} {q : Nat}, StrAt m q s ↔ BytesAt m q s ∧ (0 : UInt8) ∉ s
    ∧ m (q + s.length) = 0
  | [], q => ⟨fun h => ⟨trivial, List.not_mem_nil, h⟩, fun h => h.2.2⟩
  | c :: s, q => by
      rw [StrAt, BytesAt, strAt_iff, List.mem_cons, not_or, List.length_cons,
        show q + 1 + s.length = q + (s.length + 1) by omega]
      constructor
      · intro h
        obtain ⟨h1, h2, h3, h4, h5⟩ := h
        exact ⟨⟨h1, h3⟩, ⟨Ne.symm h2, h4⟩, h5⟩
      · intro h
        obtain ⟨⟨h1, h3⟩, ⟨h2, h4⟩, h5⟩ := h
        exact ⟨h1, Ne.symm h2, h3, h4, h5⟩

theorem EditsLine.recall (he : EditsLine buf p s e) (hrows : ∀ i, (0 : UInt8) ∉ h.row i)
    (idx : Nat) :
    EditsLine buf p (s.recall h p idx) ⟨.whole ((h.get idx).take p.limit), idx⟩ := by
  have hstr := recall_strAt s p (hrows (idx % histMax))
  have hshort : ((h.get idx).take p.limit).length ≤ p.limit := List.length_take_le _ _
  have hof : (strOf (setByte (strncpy s.buf 0 (h.get idx) p.limit) p.limit 0) 0
    (p.limit + 1)).length
      = ((h.get idx).take p.limit).length :=
        congrArg List.length (hstr.strOf_eq (Nat.lt_succ_of_le hshort))
  refine ⟨?_, ?_, hof, rfl, ?_, fun x hx => ?_⟩
  · rw [Line.whole_text]
    exact (strAt_iff.mp hstr).1
  · rw [Line.whole_text]
    exact hof
  · rw [Line.whole_text]
    exact hshort
  · rw [LineEdit.recall_buf, setByte_ne (by omega), strncpy_above (by omega), he.beyond x hx]

theorem EditsLine.clear (he : EditsLine buf p s e) (idx : Nat) :
    EditsLine buf p (s.clear idx) ⟨.whole [], idx⟩ where
  text := trivial
  len := rfl
  cur := rfl
  recalled := rfl
  fits := Nat.zero_le _
  beyond x hx := by
    rw [LineEdit.clear_buf, setByte_ne (by omega), he.beyond x hx]

end Ops

/-! ## One key -/

/-- The line's row is on the screen, and the line ends before the last column. -/
structure LinePlace.OnScreen (p : LinePlace) : Prop where
  row : p.row < vgaHeight
  fits : p.col + p.limit ≤ 79

/-- The call leaves the line of `e`, and as long as there are no control characters in it, it stays
on its row. -/
structure Leaves (buf : Mem) (p : LinePlace) (x : Logged VgaEvent LineEdit) (e : Editor UInt8) : Prop where
  done : ∃ s, x.out = .done s ∧ EditsLine buf p s e
  onLine : p.OnScreen → (∀ c ∈ e.line.text, Printable c) → ∀ ev ∈ x.log, ev.OnLine p

/-- What is recalled: behind the last line, an empty one. -/
def recallText (h : History) (limit i : Nat) : CStr := if i = h.count then [] else (h.get i).take limit

section Keys

variable {buf : Mem} {p : LinePlace} {s : LineEdit} {e : Editor UInt8} {h : History}

theorem Leaves.pure (he : EditsLine buf p s e) : Leaves buf p (pure s) e where
  done := ⟨s, rfl, he⟩
  onLine _ _ _ hev := absurd hev List.not_mem_nil

theorem bytesAt_mem {m : Mem} : ∀ {t : List UInt8} {q j : Nat}, BytesAt m q t → j < t.length
    → m (q + j) ∈ t
  | [], _, _, _, h => absurd h (Nat.not_lt_zero _)
  | c :: t, q, 0, h, _ => h.1 ▸ List.mem_cons_self ..
  | c :: t, q, j + 1, h, hj => by
      rw [show q + (j + 1) = q + 1 + j by omega]
      exact List.mem_cons_of_mem _ (bytesAt_mem h.2 (Nat.lt_of_succ_lt_succ hj))

theorem Leaves.redraw {old : Nat} (he : EditsLine buf p s e) (hold : old ≤ p.limit) :
    Leaves buf p (s.redraw p old) e where
  done := by
    obtain ⟨v', hout⟩ := redraw_done s p old
    exact ⟨_, hout, he.withVga v'⟩
  onLine hp hplain := by
    refine redraw_onLine hp.row hp.fits (he.len ▸ he.fits) hold fun j hj => ?_
    have hmem := bytesAt_mem he.text (he.len ▸ hj)
    rw [Nat.zero_add] at hmem
    exact hplain _ hmem

/-- **A key does to the buffer what it does to the line.** -/
theorem pressKey_leaves (he : EditsLine buf p s e) (hrec : e.recalled ≤ h.count)
    (hrows : ∀ i, (0 : UInt8) ∉ h.row i)
    (k : Key UInt8) : Leaves buf p (pressKey h p s k)
    (e.press p.limit h.count (recallText h p.limit) k) := by
  have hold : s.len ≤ p.limit := he.len ▸ he.fits
  have hcur : s.cur = e.line.before.length := he.cur
  have hlen : s.len = e.line.before.length + e.line.after.length := he.len.trans e.line.text_length
  cases k with
  | backspace =>
      rw [pressKey, Editor.press]
      by_cases hpos : s.cur > 0
      · rw [if_pos hpos]
        exact .redraw (he.backspace hpos) hold
      · -- at the start of the line there is nothing to take
        have hnil : e.line.before = [] := List.length_eq_zero_iff.mp (by omega)
        rw [if_neg hpos, Line.backspace, hnil, List.dropLast_nil, ← hnil]
        exact .pure he
  | delete =>
      rw [pressKey, Editor.press]
      by_cases hlt : s.cur < s.len
      · rw [if_pos hlt]
        exact .redraw (he.delete hlt) hold
      · have hnil : e.line.after = [] := List.length_eq_zero_iff.mp (by omega)
        rw [if_neg hlt, Line.delete, hnil, List.tail_nil, ← hnil]
        exact .pure he
  | left =>
      rw [pressKey, Editor.press]
      by_cases hpos : s.cur > 0
      · have hleft : s.cur - 1 = e.line.left.cursor := by
          rw [Line.cursor, Line.left, List.length_dropLast, hcur]
        rw [if_pos hpos, hleft]
        exact .pure (he.moveTo e.line.left_text)
      · have hnil : e.line.before = [] := List.length_eq_zero_iff.mp (by omega)
        have hsame : e.line.left = e.line := by
          obtain ⟨⟨before, after⟩, idx⟩ := e
          obtain rfl : before = [] := hnil
          rfl
        rw [if_neg hpos, hsame]
        exact .pure he
  | right =>
      rw [pressKey, Editor.press]
      by_cases hlt : s.cur < s.len
      · obtain ⟨c, a, ha⟩ := List.exists_cons_of_length_pos (show 0 < e.line.after.length by omega)
        have hright : s.cur + 1 = e.line.right.cursor := by
          rw [Line.cursor, Line.right, ha, List.length_append, hcur]
          rfl
        rw [if_pos hlt, hright]
        exact .pure (he.moveTo e.line.right_text)
      · have hnil : e.line.after = [] := List.length_eq_zero_iff.mp (by omega)
        have hsame : e.line.right = e.line := by
          obtain ⟨⟨before, after⟩, idx⟩ := e
          obtain rfl : after = [] := hnil
          rw [Line.right, List.head?_nil, Option.toList_none, List.append_nil, List.tail_nil]
        rw [if_neg hlt, hsame]
        exact .pure he
  | home => exact .pure (he.moveTo e.line.home_text)
  | toEnd =>
      have hend : s.len = e.line.toEnd.cursor := he.len
      rw [pressKey, Editor.press, hend]
      exact .pure (he.moveTo e.line.toEnd_text)
  | up =>
      rw [pressKey, Editor.press, he.recalled]
      by_cases h0 : e.recalled = 0
      · rw [if_neg (by omega), if_pos h0]
        exact .pure he
      · -- an entry that is recalled is cut to the limit
        have hold' : recallText h p.limit (e.recalled - 1)
          = (h.get (e.recalled - 1)).take p.limit := if_neg (by omega)
        rw [if_pos (by omega), if_neg h0, hold']
        exact .redraw (he.recall hrows _) hold
  | down =>
      rw [pressKey, Editor.press, he.recalled]
      by_cases hlt : e.recalled < h.count
      · rw [if_pos hlt, if_pos hlt]
        -- below the newest entry stands an empty line
        by_cases hlast : e.recalled + 1 = h.count
        · rw [if_pos hlast, show recallText h p.limit (e.recalled + 1) = [] from if_pos hlast]
          exact .redraw (he.clear _) hold
        · rw [if_neg hlast, show recallText h p.limit (e.recalled + 1) = _ from if_neg hlast]
          exact .redraw (he.recall hrows _) hold
      · -- nothing newer: the line is drawn again as it is
        rw [if_neg hlt, if_neg hlt]
        exact .redraw he hold
  | insert c =>
      rw [pressKey, Editor.press]
      by_cases hroom : s.len < p.limit
      · rw [if_pos hroom]
        exact .redraw (he.insert hroom c) hold
      · -- a line that is full takes no key
        rw [if_neg hroom, Line.insert, if_pos (by rw [← he.len]; omega)]
        exact .pure he
  | ignored => exact .pure he

end Keys

/-! ## A whole line -/

/-- The loop, up to Enter. -/
def editRun (h : History) (p : LinePlace) : LineEdit → List Input → Logged VgaEvent LineEdit
  | s, [] => pure s
  | s, i :: keys => do
      let s ← editKey h p s i.code
      editRun h p s keys

/-- The keys pressed one after the other. -/
def editorRun (saved : Nat → CStr) (limit count : Nat) (e : Editor UInt8) (keys : List Input) : Editor UInt8 :=
  keys.foldl (fun e i => e.press limit count saved i.toKey) e

/-- No row of the history has a control character in it. -/
def PlainRows (h : History) : Prop := ∀ i, ∀ c ∈ h.row i, Printable c

section Run

variable {buf : Mem} {p : LinePlace} {h : History}

theorem editLoop_eq {enter : Input} (henter : enter.IsEnter) (rest : List Input) :
    ∀ {keys : List Input} {s : LineEdit},
    (∀ i ∈ keys, ¬ i.IsEnter) → editLoop h p s (keys ++ enter :: rest)
      = editRun h p s keys >>= finishLine p
  | [], s, _ => by
      rw [List.nil_append, editLoop, if_pos ((code_isEnter enter).mpr henter), editRun,
        Logged.pure_bind]
  | i :: keys, s, hkeys => by
      have hi : ¬ i.code = 0x0A := fun he => hkeys i (List.mem_cons_self ..)
        ((code_isEnter i).mp he)
      rw [List.cons_append, editLoop, if_neg hi, editRun, Logged.bind_assoc]
      congr 1
      funext s
      exact editLoop_eq henter rest fun i hi => hkeys i (List.mem_cons_of_mem _ hi)

theorem mem_recallText (limit i : Nat) {c : UInt8} (hc : c ∈ recallText h limit i) :
    c ∈ h.get i := by
  rw [recallText] at hc
  split at hc
  · exact absurd hc List.not_mem_nil
  · exact List.mem_of_mem_take hc

/-- What is in the line was put in or recalled. -/
theorem editorRun_mem {P : UInt8 → Prop} {saved : Nat → CStr} (limit count : Nat)
    (hkey : ∀ c, Printable c → P c) (hsaved : ∀ i, ∀ c ∈ saved i, P c) :
    ∀ (keys : List Input) {e : Editor UInt8},
    (∀ c ∈ e.line.text, P c) → ∀ c ∈ (editorRun saved limit count e keys).line.text, P c
  | [], _, h => h
  | i :: keys, e, h => by
      have hpress : ∀ c ∈ (e.press limit count saved i.toKey).line.text, P c :=
        Editor.press_mem (fun c hc => hkey c (toKey_printable hc)) hsaved h
      exact editorRun_mem limit count hkey hsaved keys hpress

/-- **A run of the loop** is a run of the editor. -/
theorem editRun_leaves (hrows : ∀ i, (0 : UInt8) ∉ h.row i) :
    ∀ (keys : List Input) {s : LineEdit} {e : Editor UInt8},
    EditsLine buf p s e → e.recalled ≤ h.count →
    (∃ s', (editRun h p s keys).out = .done s'
      ∧ EditsLine buf p s' (editorRun (recallText h p.limit) p.limit h.count e keys))
    ∧ (p.OnScreen → PlainRows h → (∀ c ∈ e.line.text, Printable c)
      → ∀ ev ∈ (editRun h p s keys).log, ev.OnLine p)
  | [], s, e, he, _ => ⟨⟨s, rfl, he⟩, fun _ _ _ ev hev => absurd hev List.not_mem_nil⟩
  | i :: keys, s, e, he, hrec => by
      have hkey := pressKey_leaves (h := h) he hrec hrows i.toKey
      rw [← codeKey_code, ← editKey_eq, codeKey_code] at hkey
      obtain ⟨s₁, hout₁, he₁⟩ := hkey.done
      obtain ⟨⟨s₂, hout₂, he₂⟩, hscreen⟩ :=
        editRun_leaves hrows keys he₁ (Editor.press_recalled i.toKey hrec)
      refine ⟨⟨s₂, ?_, he₂⟩, fun hp hplain htext ev hev => ?_⟩
      · rw [editRun, bind_out, hout₁]
        exact hout₂
      · have htext₁ : ∀ c ∈ (e.press p.limit h.count (recallText h p.limit) i.toKey).line.text,
            Printable c :=
          Editor.press_mem (fun c hc => toKey_printable hc)
            (fun i c hc => hplain _ c (mem_recallText _ i hc)) htext
        rw [editRun] at hev
        rcases mem_bind.mp hev with hev | ⟨s', hs', hev⟩
        · exact hkey.onLine hp htext₁ ev hev
        · cases hout₁.symm.trans hs'
          exact hscreen hp hplain htext₁ ev hev

theorem roomBehind_spec {maxlen col : Nat} (hmax : 2 ≤ maxlen) (hcol : col < 79) :
    1 ≤ roomBehind maxlen col ∧ roomBehind maxlen col < maxlen
      ∧ col + roomBehind maxlen col ≤ 79 := by
  rw [roomBehind]
  split
  · omega
  · omega

/-- Where the line begins: there is room for a character at least. -/
theorem startLine_done {maxlen : Nat} (v : Vga) (hmax : 2 ≤ maxlen) :
    ∃ p v₀, (startLine v maxlen).out = .done (p, v₀)
    ∧ 1 ≤ p.limit ∧ p.limit < maxlen ∧ p.col + p.limit ≤ 79
      ∧ (v.curRow < vgaHeight → p.row < vgaHeight) := by
  unfold startLine
  dsimp only
  by_cases hlast : v.curCol < 79
  · have hcol : (v.setColor vgaWhite).curCol = v.curCol := rfl
    obtain ⟨h1, h2, h3⟩ := roomBehind_spec hmax hlast
    rw [hcol, if_neg (show ¬ v.curCol > 79 by omega),
      if_neg (show ¬ roomBehind maxlen v.curCol < 1 by omega)]
    exact ⟨_, _, rfl, h1, h2, h3, id⟩
  · -- the last column, so the line begins on the next row
    have hcol : (if (v.setColor vgaWhite).curCol > 79 then 79 else (v.setColor vgaWhite).curCol)
        = 79 := by
      show (if v.curCol > 79 then 79 else v.curCol) = 79
      split
      · rfl
      · omega
    have hnone : roomBehind maxlen 79 < 1 := by
      rw [roomBehind, if_pos (by omega)]
      exact Nat.one_pos
    obtain ⟨v', hout, hv', hrow⟩ := newline_done (v.setColor vgaWhite)
    have hcol' : (v'.setColor vgaWhite).curCol = 0 := hv'
    obtain ⟨h1, h2, h3⟩ := roomBehind_spec hmax (show 0 < 79 by decide)
    rw [hcol, if_pos hnone, bind_out, hout, Outcome.bind_done, hcol',
      if_neg (show ¬ 0 > 79 by decide),
      if_neg (show ¬ roomBehind maxlen 0 < 1 by omega)]
    exact ⟨_, _, rfl, h1, h2, h3, fun _ => hrow⟩

end Run

/-- **What `readline` does with the keys up to Enter**, where `saved limit i` is what the line `i`
is recalled as: after each of them the buffer holds the editor's line, nothing but the line's row is
written to, and what is returned is the line with its NUL. -/
structure ReadsLine (saved : Nat → Nat → CStr) (h : History) (v : Vga) (buf : Mem) (maxlen : Nat)
    (keys : List Input) (enter : Input) (rest : List Input) (p : LinePlace) (v₀ : Vga) : Prop where
  start : (startLine v maxlen).out = .done (p, v₀)
  room : 1 ≤ p.limit ∧ p.limit < maxlen ∧ p.col + p.limit ≤ 79
  edits : ∀ ks, ks <+: keys → ∃ s, (editRun h p ⟨buf, 0, 0, h.count, v₀⟩ ks).out = .done s
    ∧ s.cur ≤ s.len ∧ s.len ≤ p.limit
    ∧ EditsLine buf p s (editorRun (saved p.limit) p.limit h.count ⟨.empty, h.count⟩ ks)
  onLine : v.curRow < vgaHeight → PlainRows h → ∀ ev ∈ (editRun h p ⟨buf, 0, 0, h.count, v₀⟩ keys).log, ev.OnLine p
  returns : ∃ r, (readline h v buf maxlen (keys ++ enter :: rest)).out = .done r
    ∧ r.len = (editorRun (saved p.limit) p.limit h.count ⟨.empty, h.count⟩ keys).line.text.length
    ∧ StrAt r.buf 0 (editorRun (saved p.limit) p.limit h.count ⟨.empty, h.count⟩ keys).line.text

/-- The history as the shell makes it: each line that is entered is pushed. -/
inductive ShellHistory : History → Prop
  | boot : ShellHistory ⟨fun _ => [], 0⟩
  | line {h : History} {v : Vga} {buf : Mem} {keys : List Input} {r : LineResult} : ShellHistory h →
      (readline h v buf cmdMax keys).out = .done r → r.len ≠ 0 → ShellHistory (pushHistory h (strOf r.buf 0 cmdMax))

section Whole

variable {h : History} {v : Vga} {buf : Mem} {maxlen : Nat} {keys : List Input} {enter : Input}

theorem readline_reads (v : Vga) (buf : Mem) (rest : List Input) (hmax : 2 ≤ maxlen)
    (hrows : ∀ i, (0 : UInt8) ∉ h.row i) (hkeys : ∀ i ∈ keys, ¬ i.IsEnter)
    (henter : enter.IsEnter) :
    ∃ p v₀, ReadsLine (recallText h) h v buf maxlen keys enter rest p v₀ := by
  obtain ⟨p, v₀, hstart, h1, h2, h3, hrow⟩ := startLine_done v hmax
  have hempty : EditsLine buf p ⟨buf, 0, 0, h.count, v₀⟩ ⟨.empty, h.count⟩ :=
    ⟨trivial, rfl, rfl, rfl, Nat.zero_le _, fun _ _ => rfl⟩
  have hrun := fun ks => editRun_leaves hrows ks hempty (Nat.le_refl _)
  refine ⟨p, v₀, hstart, ⟨h1, h2, h3⟩, fun ks _ => ?_, fun hv hplain => ?_, ?_⟩
  · obtain ⟨s, hout, he⟩ := (hrun ks).1
    refine ⟨s, hout, ?_, he.len ▸ he.fits, he⟩
    rw [he.cur, he.len]
    exact Line.cursor_le _
  · exact (hrun keys).2 ⟨hrow hv, h3⟩ hplain fun c hc => absurd hc List.not_mem_nil
  · obtain ⟨s, hout, he⟩ := (hrun keys).1
    obtain ⟨v₁, hv₁, _⟩ := putchar_done ((s.vga.setColor vgaWhite).setCursor p.row
      (p.col + s.len)) 0x0A
    refine ⟨⟨s.len, setByte s.buf s.len 0, v₁⟩, ?_, he.len, strAt_iff.mpr ⟨?_, ?_, ?_⟩⟩
    · rw [readline, bind_out, hstart, Outcome.bind_done]
      dsimp only
      rw [editLoop_eq henter rest hkeys, bind_out, hout, Outcome.bind_done, finishLine, bind_out,
        hv₁]
      rfl
    · refine he.text.congr fun x _ hx => setByte_ne ?_
      rw [he.len]
      omega
    · intro hz
      refine editorRun_mem (P := fun c => c ≠ 0) _ _ ?_ ?_ keys
        (fun c hc => absurd hc List.not_mem_nil) 0 hz rfl
      · exact fun c hc h0 => absurd (h0 ▸ hc : Printable 0) (by decide)
      · exact fun i c hc h0 => hrows _ (h0 ▸ mem_recallText _ i hc)
    · rw [Nat.zero_add, ← he.len]
      exact setByte_self _ _ _

/-- The keys up to the first Enter. -/
theorem exists_enter : ∀ {keys : List Input}, (∃ i ∈ keys, i.IsEnter) →
    ∃ ks enter rest, keys = ks ++ enter :: rest ∧ (∀ i ∈ ks, ¬ i.IsEnter) ∧ enter.IsEnter
  | [], hex => absurd hex (by simp)
  | i :: keys, hex => by
      by_cases hi : i.IsEnter
      · exact ⟨[], i, keys, rfl, fun _ hmem => absurd hmem List.not_mem_nil, hi⟩
      · obtain ⟨j, hj, hent⟩ := hex
        have hj' : j ∈ keys := (List.mem_cons.mp hj).resolve_left fun he => hi (he ▸ hent)
        obtain ⟨ks, enter, rest, rfl, hks, henter⟩ := exists_enter ⟨j, hj', hent⟩
        refine ⟨i :: ks, enter, rest, rfl, fun k hk => ?_, henter⟩
        rcases List.mem_cons.mp hk with rfl | hk
        · exact hi
        · exact hks k hk

/-- Without Enter the loop waits for ever. -/
theorem editLoop_waits {p : LinePlace} {r : LineResult} : ∀ {keys : List Input} {s : LineEdit},
    (editLoop h p s keys).out = .done r → ∃ i ∈ keys, i.IsEnter
  | [], _, hout => by cases hout
  | i :: keys, s, hout => by
      by_cases hi : i.code = 0x0A
      · exact ⟨i, List.mem_cons_self .., (code_isEnter i).mp hi⟩
      · rw [editLoop, if_neg hi, bind_out] at hout
        obtain ⟨s', _, hout⟩ := Outcome.bind_eq_done hout
        obtain ⟨j, hj, hent⟩ := editLoop_waits hout
        exact ⟨j, List.mem_cons_of_mem _ hj, hent⟩

/-- **No control character comes into the history.** -/
theorem ShellHistory.plain (hh : ShellHistory h) : PlainRows h := by
  induction hh with
  | boot => exact fun _ c hc => absurd hc List.not_mem_nil
  | @line h v buf keys r _ hout hlen ih =>
      have hrows : ∀ i, (0 : UInt8) ∉ h.row i := fun i hz => absurd (ih i 0 hz) (by decide)
      -- the call read the keys up to an Enter
      have hent : ∃ i ∈ keys, i.IsEnter := by
        rw [readline, bind_out] at hout
        obtain ⟨⟨p, v₀⟩, _, hout⟩ := Outcome.bind_eq_done hout
        exact editLoop_waits hout
      obtain ⟨ks, enter, rest, rfl, hks, henter⟩ := exists_enter hent
      obtain ⟨p, v₀, hreads⟩ := readline_reads v buf rest
        (show 2 ≤ cmdMax by decide) hrows hks henter
      obtain ⟨r', hout', hr, hstr⟩ := hreads.returns
      cases hout.symm.trans hout'
      have htext : ∀ c ∈ (editorRun (recallText h p.limit) p.limit h.count
          ⟨.empty, h.count⟩ ks).line.text, Printable c :=
        editorRun_mem _ _ (fun c hc => hc)
            (fun i c hc => ih _ c (mem_recallText _ i hc)) ks fun c hc =>
          absurd hc List.not_mem_nil
      obtain ⟨s, _, _, hle, he⟩ := hreads.edits ks (List.prefix_refl ks)
      have hline : strOf r.buf 0 cmdMax = _ :=
        hstr.strOf_eq (by rw [← he.len]; exact Nat.lt_of_le_of_lt hle hreads.room.2.1)
      rw [hline, pushHistory]
      split
      · exact ih
      · split
        · exact ih
        · intro i c hc
          dsimp only at hc
          split at hc
          · exact htext c (List.mem_of_mem_take hc)
          · exact ih i c hc

end Whole

/-- **The line editor refines a line with a cursor**, for every history, and stays on its row while
it does, unless there are control characters in the history; the shell lets none in. -/
theorem readline_edits :
    (∀ (h : History) (v : Vga) (buf : Mem) (maxlen : Nat) (keys : List Input) (enter : Input) (rest : List Input),
      2 ≤ maxlen → (∀ i, (0 : UInt8) ∉ h.row i) → (∀ i ∈ keys, ¬ i.IsEnter) → enter.IsEnter →
      ∃ p v₀, ReadsLine (recallText h) h v buf maxlen keys enter rest p v₀)
    ∧ ∀ h, ShellHistory h → PlainRows h :=
  ⟨fun _ v buf _ _ _ rest hmax hrows hkeys henter =>
    readline_reads v buf rest hmax hrows hkeys henter,
    fun _ hh => hh.plain⟩

/-- A history of 32 lines. -/
def fullHistory : History := ⟨fun i => if i % 2 = 0 then cstr "a" else cstr "b", 32⟩

theorem fullHistory_rows (i : Nat) : (0 : UInt8) ∉ fullHistory.row i := by
  show (0 : UInt8) ∉ (if i % 2 = 0 then cstr "a" else cstr "b")
  split
  · decide
  · decide

/-- A blank screen. -/
def blankVga : Vga := ⟨fun _ => 0x0F20, 0, 11, vgaWhite⟩

/-- The last line is recalled and its last character deleted. -/
theorem readline_edits_recall : (∃ p v₀, ReadsLine (recallText fullHistory) fullHistory blankVga (fun _ => 0) cmdMax
      [.key 0x80, .serial 0x7F] (.key 0x0A) [] p v₀) ∧ PlainRows ⟨fun _ => [], 0⟩ :=
  ⟨readline_edits.1 fullHistory blankVga (fun _ => 0) cmdMax [.key 0x80, .serial 0x7F] (.key 0x0A)
    [] (by decide)
      fullHistory_rows (by decide) (by decide),
    readline_edits.2 _ .boot⟩

/-- **Behind the newest line there is an empty one**, not the one in the row that comes round. -/
theorem readline_clears : ¬ ∀ (h : History) (v : Vga) (buf : Mem) (maxlen : Nat) (keys : List Input) (enter : Input)
    (rest : List Input), 2 ≤ maxlen → (∀ i, (0 : UInt8) ∉ h.row i) → (∀ i ∈ keys, ¬ i.IsEnter) → enter.IsEnter →
    ∃ p v₀, ReadsLine (fun limit i => (h.get i).take limit) h v buf maxlen keys enter rest p v₀ := by
  intro hall
  obtain ⟨p, v₀, hreads⟩ := hall fullHistory blankVga (fun _ => 0) cmdMax [.key 0x80, .key 0x81]
    (.key 0x0A) []
    (by decide) fullHistory_rows (by decide) (by decide)
  obtain ⟨p', v₀', hreads'⟩ := readline_reads blankVga (fun _ => 0) []
    (show 2 ≤ cmdMax by decide) fullHistory_rows
    (show ∀ i ∈ [Input.key 0x80, .key 0x81], ¬ i.IsEnter by decide)
      (show (Input.key 0x0A).IsEnter by decide)
  cases hreads.start.symm.trans hreads'.start
  obtain ⟨s, hout, _, _, he⟩ := hreads.edits _ (List.prefix_refl _)
  obtain ⟨s', hout', _, _, he'⟩ := hreads'.edits _ (List.prefix_refl _)
  cases hout.symm.trans hout'
  -- up and down again
  have hup : (Input.key 0x80).toKey = .up := by decide
  have hdown : (Input.key 0x81).toKey = .down := by decide
  have hrun : ∀ saved limit, editorRun saved limit fullHistory.count ⟨.empty, fullHistory.count⟩
      [.key 0x80, .key 0x81] = ⟨.whole (saved 32), 32⟩ := by
    intro saved limit
    rw [editorRun, List.foldl_cons, List.foldl_cons, List.foldl_nil, hup, hdown]
    rfl
  have hone := he.len
  have hnone := he'.len
  rw [hrun, Line.whole_text, List.length_take, show fullHistory.get 32 = cstr "a" from rfl] at hone
  rw [hrun, Line.whole_text, show recallText fullHistory p.limit 32 = [] from rfl,
    List.length_nil] at hnone
  have hroom := hreads.room.1
  have hlen : (cstr "a").length = 1 := rfl
  omega

end VnlKernel
