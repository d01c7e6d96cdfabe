import VnlKernel.Kernel.Kstring
import VnlKernel.Proof.ShellVars

/-!
# What the copies of bytes do

`strncpy` counts down in the body of its first loop and in the test of its second. A NUL that
the first loop copies ends it before it is counted, so the second loop pads one byte more than
there is room for. Nothing is wrong exactly when no NUL is copied.

`memmove` goes in the direction in which no byte of the source is overwritten before it is read,
so it does what copying through a buffer of its own would do.
-/

namespace VnlKernel

open ByteMem Bits CString

/-! ## `strncpy` -/

section Strncpy

variable {m : Mem} {dst src n : Nat} {s : CStr}

theorem note_bind {α : Type} (a : Nat) (f : Unit → Logged Nat α) :
    (Logged.note a >>= f) = ⟨a :: (f ()).log, (f ()).out⟩ := Logged.bind_of_done rfl f

/-- The padding loop fills the `k` bytes from `p` on. -/
theorem strncpyPad_eq : ∀ (k p : Nat) (m : Mem), p + k ≤ 2 ^ 64 →
    strncpyPad m p k = ⟨List.range' p k, .done (memset m p 0 k)⟩
  | 0, p, m, _ => by
      have hm : memset m p 0 0 = m := by
        funext x
        exact memset_out (by omega)
      rw [hm]
      rfl
  | 1, p, m, _ => by
      rw [strncpyPad, note_bind, memset_succ, strncpyPad]
      have hm : memset (setByte m p 0) (p + 1) 0 0 = setByte m p 0 := by
        funext x
        exact memset_out (by omega)
      rw [hm]
      rfl
  | k + 2, p, m, h => by
      rw [strncpyPad, note_bind, u64_of_lt (by omega), strncpyPad_eq (k + 1) (p + 1) _ (by omega),
        ← memset_succ,
        ← List.range'_succ]

/-- How many bytes are stored: one more than there are when the string is shorter. -/
def strncpyStores (n len : Nat) : Nat := if n ≤ len then n else n + 1

theorem strncpyStores_zero (n : Nat) : strncpyStores (n + 1) 0 = n + 2 := if_neg (by omega)

theorem strncpyStores_succ (n len : Nat) :
    strncpyStores (n + 1) (len + 1) = strncpyStores n len + 1 := by
  unfold strncpyStores
  split
  · next h => rw [if_pos (by omega)]
  · next h => rw [if_neg (by omega)]

/-- **The two loops, on a string.** The bytes of the string are still there when they are read. -/
theorem strncpyCopy_pad : ∀ {s : CStr} {n dst src : Nat} {m : Mem}, StrAt m src s →
    ¬ (src < dst ∧ dst ≤ src + s.length) → src + s.length < 2 ^ 64 → dst + n < 2 ^ 64 →
    (strncpyCopy m dst src n >>= fun x => strncpyPad x.1 x.2.1 x.2.2)
      = ⟨List.range' dst (strncpyStores n s.length), .done (VnlKernel.strncpy m dst s n)⟩
  | s, 0, dst, src, m, _, _, _, _ => by
      rw [strncpyCopy, Logged.pure_bind, VnlKernel.strncpy, strncpyStores, if_pos (Nat.zero_le _)]
      rfl
  | [], n + 1, dst, src, m, hs, _, _, hdst => by
      have h0 : m src = 0 := hs
      rw [strncpyCopy, Logged.bind_assoc, note_bind]
      dsimp only
      rw [h0, if_neg (by simp), Logged.pure_bind, u64_of_lt (by omega),
        strncpyPad_eq (n + 1) (dst + 1) _ (by omega),
        VnlKernel.strncpy, List.length_nil, strncpyStores_zero, List.range'_succ]
      rfl
  | c :: s, n + 1, dst, src, m, ⟨hc, hc0, hs⟩, hap, hsrc, hdst => by
      rw [List.length_cons] at hap hsrc
      have hs' : StrAt (setByte m dst c) (src + 1) s :=
        hs.congr fun x h1 h2 => setByte_ne (by omega)
      have ih := strncpyCopy_pad (n := n) hs'
        (show ¬ (src + 1 < dst + 1 ∧ dst + 1 ≤ src + 1 + s.length) by omega)
        (by omega) (by omega)
      rw [strncpyCopy, Logged.bind_assoc, note_bind]
      dsimp only
      rw [hc, if_pos hc0, u64_of_lt (show dst + 1 < 2 ^ 64 by omega),
        u64_of_lt (show src + 1 < 2 ^ 64 by omega), ih,
        List.length_cons, strncpyStores_succ, List.range'_succ, VnlKernel.strncpy]

/-- The loops are the copy that the rest of the development reasons with. -/
theorem strncpyLoops_eq (hs : StrAt m src s) (hap : ¬ (src < dst ∧ dst ≤ src + s.length))
    (hsrc : src + s.length < 2 ^ 64) (hdst : dst + n < 2 ^ 64) : strncpyLoops m dst src n
      = ⟨List.range' dst (strncpyStores n s.length), .done (VnlKernel.strncpy m dst s n, dst)⟩ := by
  have h : strncpyLoops m dst src n
      = (strncpyCopy m dst src n >>= fun x => strncpyPad x.1 x.2.1 x.2.2) >>= fun m =>
          pure (m, dst) := by
    rw [Logged.bind_assoc]
    rfl
  rw [h, strncpyCopy_pad hs hap hsrc hdst, Logged.bind_of_done rfl, Logged.pure_log,
    List.append_nil, Logged.pure_out]

/-- The call copies as much of the string as fits, fills the rest of the `n` bytes with zeros, and
stores nowhere else. -/
structure CopiesExactly (call : Logged Nat (Mem × Nat)) (m : Mem) (dst n : Nat) (s : CStr) : Prop where
  result : ∃ m', call.out = .done (m', dst) ∧ (∀ i, (h : i < s.length) → i < n → m' (dst + i) = s[i])
    ∧ (∀ i, s.length ≤ i → i < n → m' (dst + i) = 0) ∧ ∀ x, x < dst ∨ dst + n ≤ x → m' x = m x
  stores : ∀ a ∈ call.log, dst ≤ a ∧ a < dst + n

theorem strncpyLoops_exact_iff (hs : StrAt m src s) (hap : ¬ (src < dst ∧ dst ≤ src + s.length))
    (hsrc : src + s.length < 2 ^ 64) (hdst : dst + n < 2 ^ 64) :
    CopiesExactly (strncpyLoops m dst src n) m dst n s ↔ n ≤ s.length := by
  rw [strncpyLoops_eq hs hap hsrc hdst]
  constructor
  · intro h
    by_contra hlong
    have hlast : dst + n ∈ List.range' dst (strncpyStores n s.length) := by
      rw [strncpyStores, if_neg hlong]
      exact List.mem_range'_1.mpr (by omega)
    have := h.stores _ hlast
    omega
  · intro hn
    refine ⟨⟨_, rfl, fun i hi hin => strncpy_in hi hin, fun i h1 h2 => absurd h2 (by omega),
      fun x hx => ?_⟩, fun a ha => ?_⟩
    · rcases hx with hx | hx
      · exact strncpy_below hx
      · obtain ⟨j, rfl⟩ : ∃ j, x = dst + j := ⟨x - dst, by omega⟩
        exact strncpy_beyond hn (by omega)
    · dsimp only at ha
      rw [strncpyStores, if_pos hn] at ha
      have := List.mem_range'_1.mp ha
      omega

/-- **`strncpy` keeps to its bytes exactly when no NUL is copied**, in the kernel and in the
library. -/
theorem strncpy_exact_iff (hs : StrAt m src s) (hap : ¬ (src < dst ∧ dst ≤ src + s.length))
    (hsrc : src + s.length < 2 ^ 64) (hdst : dst + n < 2 ^ 64) :
    (CopiesExactly (Kstring.strncpy m dst src n) m dst n s ↔ n ≤ s.length)
      ∧ (CopiesExactly (Libc.strncpy m dst src n) m dst n s ↔ n ≤ s.length) :=
  ⟨strncpyLoops_exact_iff hs hap hsrc hdst, strncpyLoops_exact_iff hs hap hsrc hdst⟩

/-- Two bytes of a string of three. -/
theorem strncpy_exact_cut : CopiesExactly (Kstring.strncpy (ofStr [0x61, 0x62, 0x63]) 0x100 0 2)
    (ofStr [0x61, 0x62, 0x63]) 0x100 2 [0x61, 0x62, 0x63] :=
  (strncpy_exact_iff (strAt_ofStr (by decide)) (by decide) (by decide) (by decide)).1.mpr
    (by decide)

/-- **A string of one byte, and room for four**: five bytes are stored. -/
theorem strncpy_overruns : ¬ CopiesExactly (Kstring.strncpy (ofStr [0x61]) 0x100 0 4) (ofStr [0x61]) 0x100 4 [0x61] := by
  intro h
  have hle := (strncpyLoops_exact_iff (strAt_ofStr (by decide)) (by decide) (by decide)
    (by decide)).mp h
  exact absurd hle (by decide)

end Strncpy

/-! ## `memmove` -/

section Memmove

variable {m : Mem} {d s n : Nat}

theorem copyUp_eq : ∀ {n d s : Nat} {m : Mem}, d + n ≤ 2 ^ 64 → s + n ≤ 2 ^ 64
    → copyUp m d s n = memcpy m d s n
  | 0, _, _, _, _, _ => rfl
  | 1, _, _, _, _, _ => rfl
  | n + 2, d, s, m, hd, hs => by
      rw [copyUp, memcpy, u64_of_lt (show d + 1 < 2 ^ 64 by omega),
        u64_of_lt (show s + 1 < 2 ^ 64 by omega)]
      exact copyUp_eq (by omega) (by omega)

/-- One step back from where the pointer may have wrapped. -/
theorem sub64_step {a : Nat} (h : a < 2 ^ 64) : sub64 (u64 (a + 1)) 1 = a := by
  unfold sub64 u64
  omega

theorem copyDown_eq : ∀ {n d s : Nat} {m : Mem}, d + n ≤ 2 ^ 64 → s + n ≤ 2 ^ 64 →
    copyDown m (u64 (d + n)) (u64 (s + n)) n = memcpyDown m d s n
  | 0, _, _, _, _, _ => rfl
  | n + 1, d, s, m, hd, hs => by
      have ih := copyDown_eq (n := n) (m := setByte m (d + n) (m (s + n)))
        (show d + n ≤ 2 ^ 64 by omega)
        (show s + n ≤ 2 ^ 64 by omega)
      rw [u64_of_lt (show d + n < 2 ^ 64 by omega), u64_of_lt (show s + n < 2 ^ 64 by omega)] at ih
      rw [copyDown, memcpyDown, ← Nat.add_assoc, ← Nat.add_assoc, sub64_step (by omega),
        sub64_step (by omega), ih]

theorem memmoveLoops_eq (hd : d + n ≤ 2 ^ 64) (hs : s + n ≤ 2 ^ 64) :
    memmoveLoops m d s n = (ByteMem.memmove m d s n, d) := by
  unfold memmoveLoops ByteMem.memmove
  split
  · rw [copyUp_eq hd hs]
  · rw [copyDown_eq hd hs]

/-- The destination holds what the source held, and no other byte has changed. -/
structure MovesExactly (call : Mem × Nat) (m : Mem) (d s n : Nat) : Prop where
  moved : ∀ i, i < n → call.1 (d + i) = m (s + i)
  rest : ∀ x, x < d ∨ d + n ≤ x → call.1 x = m x
  returns : call.2 = d

theorem memmoveLoops_exact (hd : d + n ≤ 2 ^ 64) (hs : s + n ≤ 2 ^ 64) :
    MovesExactly (memmoveLoops m d s n) m d s n := by
  rw [memmoveLoops_eq hd hs]
  exact ⟨fun i hi => memmove_in hi, fun x hx => memmove_out hx, rfl⟩

/-- **`memmove` moves, however the ranges lie**, in the kernel and in the library. -/
theorem memmove_exact (m : Mem) {d s n : Nat} (hd : d + n ≤ 2 ^ 64) (hs : s + n ≤ 2 ^ 64) :
    MovesExactly (Kstring.memmove m d s n) m d s n ∧ MovesExactly (Libc.memmove m d s n) m d s n :=
  ⟨memmoveLoops_exact hd hs, memmoveLoops_exact hd hs⟩

/-- Four bytes moved by one, at the end of memory. -/
theorem memmove_exact_overlapping : MovesExactly (Kstring.memmove (ofStr [1, 2, 3, 4]) (2 ^ 64 - 4) (2 ^ 64 - 5) 4)
    (ofStr [1, 2, 3, 4]) (2 ^ 64 - 4) (2 ^ 64 - 5) 4 :=
  (memmove_exact (ofStr [1, 2, 3, 4]) (by decide) (by decide)).1

end Memmove

end VnlKernel
