import VnlKernel.Proof.FormatRound
import VnlKernel.Proof.SortLines
import VnlKernel.Proof.VfsFile

/-!
# What `tail` prints

`tail` leaves the loop over the text behind the newline that makes the count equal to the
number of lines to be skipped. Where none are to be skipped the count is past that with the
first newline, so the loop runs to the end and nothing is printed. And `kprintf` does not come
to the end of a text of more than 2047 characters.
-/

namespace VnlKernel

open ByteMem CString

variable {σ : Type} {ls : List CStr}

/-- What a line may consist of. -/
def IsLine (l : CStr) : Prop := newline ∉ l ∧ (0 : UInt8) ∉ l

instance (l : CStr) : Decidable (IsLine l) := inferInstanceAs (Decidable (_ ∧ _))

theorem printed_cons (l : CStr) (ls : List CStr) :
    printed (l :: ls) = l ++ newline :: printed ls := by
  rw [printed, List.flatMap_cons, List.append_assoc]
  rfl

theorem count_printed (h : ∀ l ∈ ls, IsLine l) : (printed ls).count newline = ls.length := by
  induction ls with
  | nil => rfl
  | cons l ls ih =>
      have hl := h l (List.mem_cons_self ..)
      rw [printed_cons, List.count_append, List.count_eq_zero.mpr hl.1, List.count_cons_self,
        ih fun l hl => h l (List.mem_cons_of_mem _ hl), List.length_cons]
      omega

theorem printed_noZero (h : ∀ l ∈ ls, IsLine l) : (0 : UInt8) ∉ printed ls := by
  intro hz
  obtain ⟨l, hl, hz⟩ := List.mem_flatMap.mp hz
  rcases List.mem_append.mp hz with hz | hz
  · exact (h l hl).2 hz
  · exact absurd (List.mem_singleton.mp hz) (by decide)

/-! ## The loop -/

/-- The characters of a line are passed over. -/
theorem tailLoop_line {skip ln2 : Int} : ∀ {l p : CStr}, newline ∉ l
    → tailLoop skip (l ++ p) ln2 = tailLoop skip p ln2
  | [], _, _ => rfl
  | c :: l, p, h => by
      rw [List.mem_cons, not_or] at h
      rw [List.cons_append, tailLoop, if_neg (Ne.symm h.1), tailLoop_line h.2]

/-- **The loop passes over as many lines as are to be skipped**, if any are. -/
theorem tailLoop_printed : ∀ {ls : List CStr} {ln2 : Int} {k : Nat}, (∀ l ∈ ls, IsLine l)
    → k < ls.length →
    tailLoop (ln2 + (k + 1 : Nat)) (printed ls) ln2 = printed (ls.drop (k + 1))
  | [], _, _, _, hk => absurd hk (Nat.not_lt_zero _)
  | l :: ls, ln2, k, h, hk => by
      rw [printed_cons, tailLoop_line (h l (List.mem_cons_self ..)).1, tailLoop, if_pos rfl,
        List.drop_succ_cons]
      cases k with
      | zero => rw [if_pos (by omega), List.drop_zero]
      | succ k =>
          rw [if_neg (by omega)]
          have hrest : tailLoop (ln2 + 1 + (k + 1 : Nat)) (printed ls) (ln2 + 1)
              = printed (ls.drop (k + 1)) :=
            tailLoop_printed (fun l hl => h l (List.mem_cons_of_mem _ hl))
              (Nat.lt_of_succ_lt_succ hk)
          rw [← hrest]
          congr 1
          omega

/-- In any case the first character is passed over. -/
theorem tailLoop_suffix (skip : Int) : ∀ (p : CStr) (ln2 : Int), tailLoop skip p ln2 <:+ p.tail
  | [], _ => List.suffix_refl _
  | c :: p, ln2 => by
      have hrest : ∀ ln2, tailLoop skip p ln2 <:+ p :=
        fun ln2 => (tailLoop_suffix skip p ln2).trans (List.tail_suffix p)
      rw [tailLoop, List.tail_cons]
      split
      · split
        · exact List.suffix_refl p
        · exact hrest _
      · exact hrest _

/-! ## The number -/

theorem digitChar_decimal {d : Nat} (h : d < 10) :
    (0x30 ≤ digitChar false d ∧ digitChar false d ≤ 0x39)
    ∧ (digitChar false d).toNat - 0x30 = d := by
  have hall : ∀ d : Fin 10, (0x30 ≤ digitChar false d.val ∧ digitChar false d.val ≤ 0x39)
      ∧ (digitChar false d.val).toNat - 0x30 = d.val := by decide
  exact hall ⟨d, h⟩

theorem foldl_decimal : ∀ {ds : List Nat} (v w : Nat), (∀ d ∈ ds, d < 10) → w = v % 2 ^ 64 →
    (ds.map (digitChar false)).foldl (fun v c => (v * 10 + (c.toNat - 0x30)) % 2 ^ 64) w
      = ds.foldl (fun v d => v * 10 + d) v % 2 ^ 64
  | [], _, _, _, hw => hw
  | d :: ds, v, w, h, hw => by
      rw [List.map_cons, List.foldl_cons, List.foldl_cons,
        (digitChar_decimal (h d (List.mem_cons_self ..))).2]
      refine foldl_decimal (v * 10 + d) _ (fun d hd => h d (List.mem_cons_of_mem _ hd)) ?_
      rw [hw]
      omega

/-- `(int)strtol` of a number that fits. -/
theorem strtol10_numeral {n : Nat} (hn : n < 2 ^ 31) : strtol10 (numeral 10 false n) = n := by
  obtain ⟨c, s, hcs⟩ := List.exists_cons_of_length_pos (numeral_length_pos 10 false n)
  obtain ⟨d, hd, hc⟩ := mem_numeral (show 2 ≤ 10 by decide)
    (by rw [hcs]; exact List.mem_cons_self ..)
  obtain ⟨hblank, hminus, hplus, _⟩ := digitChar_not_blank (Nat.lt_trans hd (by decide)) false
  rw [← hc] at hblank hminus hplus
  have hskip : skipBlanks (numeral 10 false n) = c :: s := by
    rw [hcs, skipBlanks, List.dropWhile_cons, hblank]
    rfl
  have hall : (c :: s).takeWhile (fun c => 0x30 ≤ c && c ≤ 0x39) = c :: s := by
    refine List.takeWhile_eq_self_iff.mpr fun c' hc' => ?_
    rw [← hcs] at hc'
    obtain ⟨d, hd, rfl⟩ := mem_numeral (by decide) hc'
    rw [Bool.and_eq_true, decide_eq_true_eq, decide_eq_true_eq]
    exact (digitChar_decimal hd).1
  rw [strtol10, hskip]
  dsimp only
  rw [if_neg hminus, if_neg hplus]
  dsimp only
  rw [hall, ← hcs, numeral, foldl_decimal 0 0
    (fun d hd => Numeral.lt_of_mem_ofNat (by decide) hd) rfl]
  have hval : (Numeral.ofNat 10 n).foldl (fun v d => v * 10 + d) 0 = n := Numeral.value_ofNat 10 n
  rw [hval, if_neg (by decide), Nat.mod_eq_of_lt (Nat.lt_trans hn (by decide)), toInt32_of_lt hn]

/-! ## The command -/

theorem tailArgs_n (num : CStr) (path : Option CStr) :
    tailArgs ([cstr "-n", num] ++ path.toList) 10 none = (strtol10 num, path) := by
  cases path with
  | none => rw [Option.toList_none, List.append_nil, tailArgs, if_pos rfl, tailArgs]
  | some path => rw [Option.toList_some, List.cons_append, List.cons_append, List.nil_append, tailArgs, if_pos rfl, tailArgs]

variable {fs : FrameService σ} {v v' : Vfs σ} {input : DevInput} {st : VarStore} {path : Option CStr}

/-- What is printed of the text. -/
theorem cmdTail_eq {src num : CStr} (hsrc : tailSource fs v input st path = .done (v', some src))
    (h0 : (0 : UInt8) ∉ src)
    (hlen : src.length < shPipeBuf) : ∃ skip : Int,
    ((src.count newline : Int) > strtol10 num
      → skip = toInt32 (toU32 (src.count newline - strtol10 num)))
    ∧ cmdTail fs v input st ([cstr "tail", cstr "-n", num] ++ path.toList)
      = if (tailLoop skip src 0).length < fmtBufSize then .done
        (v', tailLoop skip src 0) else .timeout := by
  obtain ⟨skip, hskip⟩ : ∃ skip, (if (src.count newline : Int) > strtol10 num then
    toInt32 (toU32 (src.count newline - strtol10 num)) else 0) = skip := ⟨_, rfl⟩
  refine ⟨skip, fun h => hskip.symm.trans (if_pos h), ?_⟩
  have hpipe : shPipeBuf = 4096 := rfl
  have hsuffix := (tailLoop_suffix skip src 0).trans (List.tail_suffix src)
  have hshort := hsuffix.length_le
  have hargs : (([cstr "tail", cstr "-n", num] ++ path.toList).drop 1)
    = [cstr "-n", num] ++ path.toList := rfl
  rw [cmdTail, hargs, tailArgs_n]
  dsimp only
  rw [hsrc, Outcome.bind_done]
  dsimp only
  rw [hskip, kprintf_string (fun h => h0 (hsuffix.subset h)) (by omega)]
  split
  · rfl
  · rfl

/-- **`tail` prints the last lines exactly if** there are more lines than it is asked for, or none
at all, and what is to be printed fits the buffer of `kprintf`. -/
theorem tail_prints_iff (n : Nat) (hsrc : tailSource fs v input st path = .done (v', some (printed ls)))
    (hlines : ∀ l ∈ ls, IsLine l) (hlen : (printed ls).length < shPipeBuf) :
    cmdTail fs v input st ([cstr "tail", cstr "-n", numeral 10 false n] ++ path.toList)
        = .done (v', printed (ls.drop (ls.length - n)))
      ↔ (ls = [] ∨ n < ls.length) ∧ (printed (ls.drop (ls.length - n))).length < fmtBufSize := by
  have hpipe : shPipeBuf = 4096 := rfl
  have hbuf : fmtBufSize = 2048 := rfl
  have hcount := count_printed hlines
  obtain ⟨skip, hskip, hout⟩ := cmdTail_eq hsrc (printed_noZero hlines) hlen
  rw [hcount] at hskip
  rw [hout]
  rcases Nat.lt_or_ge n ls.length with hn | hn
  · -- lines are to be skipped, and the loop stops behind them
    have hmany : ls.length ≤ (printed ls).length := by
      rw [← hcount]
      exact List.count_le_length (a := newline)
    obtain ⟨k, hk⟩ : ∃ k, ls.length - n = k + 1 := ⟨ls.length - n - 1, by omega⟩
    rw [strtol10_numeral (by omega)] at hskip
    have hskip' : skip = 0 + (k + 1 : Nat) := by
      rw [hskip (by omega), show (ls.length : Int) - n =
        (k + 1 : Nat) by omega, toU32_natCast (by omega),
        toInt32_of_lt (by omega), Int.zero_add]
    rw [hskip', tailLoop_printed hlines (by omega), ← hk]
    constructor
    · intro h
      refine ⟨.inr hn, ?_⟩
      by_contra hlong
      rw [if_neg hlong] at h
      cases h
    · intro ⟨_, hfits⟩
      rw [if_pos hfits]
  · -- none are, and the loop passes over the first of them nevertheless
    have hall : ls.drop (ls.length - n) = ls := by rw [Nat.sub_eq_zero_of_le hn, List.drop_zero]
    rw [hall]
    cases ls with
    | nil => exact iff_of_true rfl ⟨.inl rfl, by decide⟩
    | cons l ls =>
        refine iff_of_false (fun h => ?_) (fun h => ?_)
        · have hshort := (tailLoop_suffix skip (printed (l :: ls)) 0).length_le
          have hpos : 0 < (printed (l :: ls)).length := by
            rw [printed_cons, List.length_append, List.length_cons]
            omega
          rw [List.length_tail] at hshort
          split at h
          · have hsame := congrArg List.length (Prod.mk.inj (Outcome.done.inj h)).2
            omega
          · cases h
        · rcases h.1 with hnil | hlt
          · cases hnil
          · exact absurd hlt (Nat.not_lt.mpr hn)

/-- The last of two lines. -/
theorem tail_prints_last : cmdTail zeroedService bootVfs noInput
      (VarStore.init.set (cstr "STDIN_CONTENT") (cstr "a\nb\n") false)
      ([cstr "tail", cstr "-n", numeral 10 false 1] ++ (none : Option CStr).toList)
    = .done (bootVfs, printed ([cstr "a", cstr "b"].drop ([cstr "a", cstr "b"].length - 1))) :=
  (tail_prints_iff 1 rfl (by decide) (by decide)).mpr ⟨.inr (by decide), by decide⟩

/-- The last two of two lines. -/
theorem tail_prints_nothing : ¬ ∀ (fs : FrameService Nat) (v v' : Vfs Nat) (input : DevInput) (st : VarStore)
    (path : Option CStr) (ls : List CStr) (n : Nat), tailSource fs v input st path = .done (v', some (printed ls)) →
    (∀ l ∈ ls, IsLine l) → (printed ls).length < shPipeBuf →
    cmdTail fs v input st ([cstr "tail", cstr "-n", numeral 10 false n] ++ path.toList)
      = .done (v', printed (ls.drop (ls.length - n))) := by
  intro h
  have hrun := h zeroedService bootVfs bootVfs noInput
    (VarStore.init.set (cstr "STDIN_CONTENT") (cstr "a\nb\n") false) none [cstr "a", cstr "b"] 2 rfl
      (by decide) (by decide)
  have hout := congrArg (fun r => r.get?.map Prod.snd) hrun
  exact absurd hout (by decide +kernel)

end VnlKernel
