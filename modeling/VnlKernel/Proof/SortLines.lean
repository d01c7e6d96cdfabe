import VnlKernel.Proof.FormatText
import VnlKernel.Proof.ShellVars
import VnlKernel.Shell.Filters

/-!
# `sort` sorts

The lines stay where they are in the buffer; what is sorted are pointers, so the lines that are
printed are those that were split off, each as often as it was there. The value of a shell
variable is shorter than 512 bytes, so it is copied whole with its NUL, and no line is too long
for `kprintf`.
-/

namespace VnlKernel

open ByteMem CString

/-- The lines of a text; the newline of the last one may be missing. -/
def textLines : CStr → List CStr
  | [] => []
  | c :: s =>
      if c = newline then [] :: textLines s
      else
        match textLines s with
        | [] => [[c]]
        | l :: ls => (c :: l) :: ls

/-- Lines as they are printed. -/
def printed (ls : List CStr) : CStr := ls.flatMap (· ++ [newline])

/-! ## Order -/

theorem toNat_pos_of_ne {c : UInt8} (h : (0 : UInt8) ≠ c) : 0 < c.toNat := by
  rcases Nat.eq_zero_or_pos c.toNat with h0 | h0
  · exact absurd (UInt8.toNat_inj.mp (h0.symm ▸ rfl : (0 : UInt8).toNat = c.toNat)) h
  · exact h0

theorem strcmp_antisymm : ∀ s t : CStr, strcmp t s = -strcmp s t
  | [], [] => rfl
  | [], d :: t => by simp [strcmp]
  | c :: s, [] => by simp [strcmp]
  | c :: s, d :: t => by
      rw [strcmp, strcmp]
      by_cases h : c = d
      · rw [if_pos h, if_pos h.symm, strcmp_antisymm s t]
      · rw [if_neg h, if_neg (Ne.symm h)]
        omega

theorem strcmp_trans : ∀ {s t u : CStr}, (0 : UInt8) ∉ s → (0 : UInt8) ∉ t → strcmp s t ≤ 0
    → strcmp t u ≤ 0 →
    strcmp s u ≤ 0
  | [], _, [], _, _, _, _ => Int.le_refl 0
  | [], _, _ :: _, _, _, _, _ => by
      rw [strcmp]
      omega
  | c :: _, [], _, hs, _, hst, _ => by
      rw [List.mem_cons, not_or] at hs
      have hc := toNat_pos_of_ne hs.1
      rw [strcmp] at hst
      omega
  | _ :: _, d :: _, [], _, ht, _, htu => by
      rw [List.mem_cons, not_or] at ht
      have hd := toNat_pos_of_ne ht.1
      rw [strcmp] at htu
      omega
  | c :: s, d :: t, e :: u, hs, ht, hst, htu => by
      rw [List.mem_cons, not_or] at hs ht
      rw [strcmp] at hst htu ⊢
      by_cases hcd : c = d
      · subst hcd
        rw [if_pos rfl] at hst
        by_cases hce : c = e
        · rw [if_pos hce] at htu ⊢
          exact strcmp_trans hs.2 ht.2 hst htu
        · rw [if_neg hce] at htu ⊢
          exact htu
      · rw [if_neg hcd] at hst
        have hne : c.toNat ≠ d.toNat := fun h => hcd (UInt8.toNat_inj.mp h)
        by_cases hde : d = e
        · subst hde
          rw [if_neg hcd]
          exact hst
        · rw [if_neg hde] at htu
          by_cases hce : c = e
          · subst hce
            omega
          · rw [if_neg hce]
            omega

/-- Lines do not contain a NUL, so comparing them is as good as an order. -/
theorem strcmp_total (buf : Mem) :
    ExchangeSort.Total fun a b : Nat => decide (strcmp (lineAt buf a) (lineAt buf b) > 0) where
  total := by
    intro a b h
    have hgt := of_decide_eq_true h
    have hanti := strcmp_antisymm (lineAt buf a) (lineAt buf b)
    exact decide_eq_false (by omega)
  trans := by
    intro a b c hab hbc
    have h1 := of_decide_eq_false hab
    have h2 := of_decide_eq_false hbc
    have h3 : strcmp (lineAt buf a) (lineAt buf c) ≤ 0 :=
      strcmp_trans (strOf_noZero a _) (strOf_noZero b _) (not_lt.mp h1) (not_lt.mp h2)
    exact decide_eq_false (not_lt.mpr h3)

/-! ## Splitting -/

/-- The first line of a text, and what is behind it. -/
theorem textLines_cons {c : UInt8} {s : CStr} : textLines (c :: s)
    = (c :: s).takeWhile (· ≠ newline) :: textLines
      (((c :: s).dropWhile (· ≠ newline)).drop 1) := by
  induction s generalizing c with
  | nil =>
      by_cases hc : c = newline
      · simp [textLines, hc]
      · simp [textLines, hc]
  | cons d s ih =>
      rw [textLines]
      by_cases hc : c = newline
      · simp [hc]
      · rw [if_neg hc, ih]
        simp [hc]

theorem lineEnd_done {buf : Mem} : ∀ {s : CStr} {fuel p : Nat}, StrAt buf p s → s.length < fuel →
    lineEnd buf fuel p = .done (p + (s.takeWhile (· ≠ newline)).length)
      ∧ StrAt buf (p + (s.takeWhile (· ≠ newline)).length) (s.dropWhile (· ≠ newline))
  | _, 0, _, _, hf => absurd hf (by omega)
  | [], fuel + 1, p, h, _ => by
      have h0 : buf p = 0 := h
      rw [lineEnd, if_neg (by simp [h0])]
      exact ⟨rfl, h⟩
  | c :: s, fuel + 1, p, h, hf => by
      have hc : buf p = c := h.1
      rw [List.length_cons] at hf
      rw [lineEnd, hc]
      by_cases hnl : c = newline
      · rw [if_neg (by simp [hnl])]
        simp only [hnl, List.takeWhile_cons, List.dropWhile_cons, ne_eq, not_true, decide_false,
          Bool.false_eq_true, if_false]
        exact ⟨rfl, hnl ▸ h⟩
      · obtain ⟨hrun, hstr⟩ := lineEnd_done h.2.2 (Nat.lt_of_succ_lt_succ hf)
        rw [if_pos ⟨h.2.1, hnl⟩, hrun]
        simp only [List.takeWhile_cons, List.dropWhile_cons, ne_eq, hnl, not_false_iff, decide_true,
          if_true, List.length_cons]
        rw [show p + ((s.takeWhile (· ≠ newline)).length + 1) = p + 1 +
          (s.takeWhile (· ≠ newline)).length by omega]
        exact ⟨rfl, hstr⟩

/-- **The lines are split off**, each ended by a NUL of its own, as long as the array has room for
them. -/
theorem grabLines_done : ∀ (fuel : Nat) {p : Nat} {buf : Mem} {s : CStr} (lines : List Nat),
    StrAt buf p s →
    s.length + 1 < fuel → lines.length + (textLines s).length ≤ 256 →
    ∃ buf' ps, grabLines fuel buf p lines = .done (buf', lines ++ ps)
      ∧ (∀ x, x < p → buf' x = buf x)
      ∧ List.Forall₂ (StrAt buf') ps (textLines s)
  | 0, _, _, _, _, _, hf, _ => absurd hf (by omega)
  | fuel + 1, p, buf, [], lines, h, _, _ => by
      have h0 : buf p = 0 := h
      refine ⟨buf, [], ?_, fun _ _ => rfl, .nil⟩
      rw [grabLines, if_neg (by simp [h0]), List.append_nil]
  | fuel + 1, p, buf, c :: s, lines, h, hf, hn => by
      have hc : buf p ≠ 0 := by
        rw [h.1]
        exact h.2.1
      obtain ⟨hrun, hstr⟩ := lineEnd_done h (Nat.lt_of_succ_lt_succ hf)
      have hsplit := List.takeWhile_append_dropWhile (p := fun c => decide (c ≠ newline))
        (l := c :: s)
      rw [textLines_cons] at hn ⊢
      rw [List.length_cons] at hn
      obtain ⟨l, hl⟩ : ∃ l, (c :: s).takeWhile (· ≠ newline) = l := ⟨_, rfl⟩
      obtain ⟨r, hr⟩ : ∃ r, (c :: s).dropWhile (· ≠ newline) = r := ⟨_, rfl⟩
      rw [hl, hr] at hsplit
      rw [hl, hr] at hstr
      rw [hl] at hrun
      rw [hr] at hn
      rw [hl, hr]
      have hlen : l.length + r.length = s.length + 1 := by
        rw [← List.length_append, hsplit, List.length_cons]
      rw [← hsplit] at h
      rw [grabLines, if_pos ⟨hc, by omega⟩, hrun, Outcome.bind_done]
      cases r with
      | nil =>
          -- the last line, without its newline
          have hend : buf (p + l.length) = 0 := hstr
          rw [List.length_nil] at hlen
          rw [List.length_cons] at hf
          obtain ⟨buf', ps, hgrab, hlow, hps⟩ := grabLines_done fuel (lines ++ [p]) hstr
            (by rw [List.length_nil]; omega)
              (by rw [List.length_append, List.length_singleton]; simp [textLines]; omega)
          cases hps
          rw [if_neg (by simp [hend]), hgrab, List.append_nil]
          refine ⟨buf', [p], rfl, fun x hx => hlow x (by omega), .cons ?_ .nil⟩
          have hq : buf' (p + l.length) = 0 := by
            obtain ⟨fuel, rfl⟩ : ∃ k, fuel = k + 1 := ⟨fuel - 1, by omega⟩
            rw [grabLines, if_neg (by simp [hend])] at hgrab
            rw [← (Prod.mk.inj (Outcome.done.inj hgrab)).1]
            exact hend
          exact h.cut (fun x _ hx => hlow x hx) hq
      | cons d r =>
          have hd : buf (p + l.length) ≠ 0 := by
            rw [hstr.1]
            exact hstr.2.1
          rw [List.length_cons] at hlen hf
          have hrest : StrAt (setByte buf (p + l.length) 0) (p + l.length + 1) r :=
            hstr.2.2.congr fun x hx _ => setByte_ne (by omega)
          obtain ⟨buf', ps, hgrab, hlow, hps⟩ := grabLines_done fuel (lines ++ [p]) hrest
            (by omega) (by rw [List.length_append, List.length_singleton]; simpa [Nat.add_assoc, Nat.add_comm] using hn)
          rw [if_pos hd, hgrab, List.append_assoc, List.singleton_append]
          have hbelow : ∀ x, x < p + l.length → buf' x = buf x := by
            intro x hx
            rw [hlow x (by omega), setByte_ne (by omega)]
          refine ⟨buf', p :: ps, rfl, fun x hx => hbelow x (by omega), .cons ?_ hps⟩
          exact h.cut (fun x _ hx => hbelow x hx) (by rw [hlow _ (by omega), setByte_self])

/-! ## Printing -/

/-- Every line is printed, with a newline. -/
theorem printLines_done {buf : Mem} : ∀ {ps : List Nat},
    (∀ p ∈ ps, (lineAt buf p).length < fmtBufSize - 2) →
    printLines buf ps = .done (printed (ps.map (lineAt buf)))
  | [], _ => rfl
  | p :: ps, h => by
      rw [printLines, kprintf_line (s := lineAt buf p) (strOf_noZero p _)
        (h p (List.mem_cons_self ..)),
        printLines_done fun q hq => h q (List.mem_cons_of_mem _ hq)]
      rfl

theorem map_lineAt {buf : Mem} {ps : List Nat} {ls : List CStr} (h : List.Forall₂ (StrAt buf) ps ls)
    (hlen : ∀ l ∈ ls, l.length < shPipeBuf) : ps.map (lineAt buf) = ls := by
  induction h with
  | nil => rfl
  | cons hl _ ih =>
      rw [List.map_cons, ih fun l hl => hlen l (List.mem_cons_of_mem _ hl), lineAt,
        hl.strOf_eq (hlen _ (List.mem_cons_self ..))]

/-- No line is longer than the text. -/
theorem length_le_of_mem_textLines : ∀ {s l : CStr}, l ∈ textLines s → l.length ≤ s.length
  | [], _, h => by cases h
  | c :: s, l, h => by
      rw [textLines] at h
      rw [List.length_cons]
      split at h
      · rcases List.mem_cons.mp h with rfl | h
        · exact Nat.zero_le _
        · exact Nat.le_succ_of_le (length_le_of_mem_textLines h)
      · cases hs : textLines s with
        | nil =>
            rw [hs, List.mem_singleton] at h
            rw [h, List.length_singleton]
            omega
        | cons l' ls =>
            rw [hs, List.mem_cons] at h
            rcases h with rfl | h
            · have := length_le_of_mem_textLines (s := s) (l := l')
                (by rw [hs]; exact List.mem_cons_self ..)
              rw [List.length_cons]
              omega
            · exact Nat.le_succ_of_le (length_le_of_mem_textLines
                (by rw [hs]; exact List.mem_cons_of_mem _ h))

/-- A text that is shorter than the buffer is copied with its NUL. -/
theorem strAt_strncpy {stack : Mem} {sc : CStr} (h0 : (0 : UInt8) ∉ sc)
    (h : sc.length < shPipeBuf - 1) :
    StrAt (strncpy stack 0 sc (shPipeBuf - 1)) 0 sc := by
  have hbytes : ∀ x, x ≤ sc.length → strncpy stack 0 sc (shPipeBuf - 1) x = ofStr sc x := by
    intro x hx
    rcases Nat.lt_or_ge x sc.length with hlt | hge
    · have hin : strncpy stack 0 sc (shPipeBuf - 1) (0 + x) = sc[x] := strncpy_in hlt (by omega)
      rw [Nat.zero_add] at hin
      rw [hin, ofStr, List.getD_eq_getElem _ _ hlt]
    · have hpad : strncpy stack 0 sc (shPipeBuf - 1) (0 + x) = 0 := strncpy_pad h hge (by omega)
      rw [Nat.zero_add] at hpad
      rw [hpad, ofStr, List.getD_eq_default _ _ hge]
  refine (strAt_ofStr h0).congr fun x _ hx => ?_
  rw [Nat.zero_add] at hx
  exact hbytes x hx

/-- **`sort` sorts.** What it prints are the lines of `STDIN_CONTENT`, each as often as it is there,
and none before one that `strcmp` puts before it. -/
theorem cmdSort_sorts {fuel : Nat} (hf : shPipeBuf < fuel) (stack : Mem) {st : VarStore} {text : CStr}
    (ht : st.get (cstr "STDIN_CONTENT") = some text) (hn : (textLines text).length ≤ 256) :
    ∃ ls, cmdSort fuel stack st = .done (printed ls) ∧ ls.Perm (textLines text)
      ∧ ls.Pairwise fun a b => strcmp a b ≤ 0 := by
  obtain ⟨i, _, hi⟩ := Option.map_eq_some_iff.mp ht
  have h0 : (0 : UInt8) ∉ text := hi ▸ strOf_noZero 0 _
  have hlen : text.length ≤ shVarValsz := hi ▸ strOf_length 0 _
  have hval : shVarValsz = 512 := rfl
  have hpipe : shPipeBuf = 4096 := rfl
  have hbuf : fmtBufSize = 2048 := rfl
  obtain ⟨buf, ps, hgrab, _, hps⟩ := grabLines_done fuel []
    (strAt_strncpy h0 (by omega)) (by omega) (by rw [List.length_nil]; omega)
  have hline : ∀ l ∈ textLines text, l.length ≤ 512 := fun l hl =>
    Nat.le_trans (length_le_of_mem_textLines hl) hlen
  have hmap := map_lineAt hps fun l hl => Nat.lt_of_le_of_lt (hline l hl) (by omega)
  obtain ⟨hperm, hsorted⟩ := ExchangeSort.sort_spec (strcmp_total buf) ps
  obtain ⟨qs, hqs⟩ : ∃ qs, ExchangeSort.sort
      (fun a b => decide (strcmp (lineAt buf a) (lineAt buf b) > 0)) ps = qs :=
    ⟨_, rfl⟩
  rw [hqs] at hperm hsorted
  have hlines : (qs.map (lineAt buf)).Perm (textLines text) := hmap ▸ hperm.map (lineAt buf)
  have hshort : ∀ q ∈ qs, (lineAt buf q).length < fmtBufSize - 2 := by
    intro q hq
    have := hline _ (hlines.mem_iff.mp (List.mem_map_of_mem hq))
    omega
  refine ⟨qs.map (lineAt buf), ?_, hlines, ?_⟩
  · rw [cmdSort, ht]
    dsimp only
    rw [hgrab, Outcome.bind_done, List.nil_append]
    dsimp only
    rw [hqs, printLines_done hshort]
  · rw [List.pairwise_map]
    refine hsorted.imp fun {a b} hab => ?_
    have hle := of_decide_eq_false hab
    omega

/-- Three lines, the last one without its newline. -/
theorem cmdSort_sorts_three : ∃ ls, cmdSort 5000 (fun _ => 0xFF)
      (VarStore.init.set (cstr "STDIN_CONTENT") (cstr "b\n\nab") false) = .done (printed ls)
    ∧ ls.Perm (textLines (cstr "b\n\nab")) ∧ ls.Pairwise fun a b => strcmp a b ≤ 0 :=
  cmdSort_sorts (by decide) _ (by decide +kernel) (by decide)

end VnlKernel
