import VnlKernel.Proof.FormatText

/-!
# Where `kvsnprintf` stays in bounds

Characters stop in front of the buffer's last byte by themselves. A string waits there for ever,
a number is stored whatever its width is, a directive that the format cuts off is left with the
pointer behind the NUL, and an `out` of no bytes is taken for one of `2^64`. Nothing else goes
wrong: the call returns and stays in bounds exactly if none of the four happens on its way.
-/

namespace VnlKernel

open ByteMem Bits Logged CString

/-- The format of `len` bytes at `fmt` is read up to its NUL, the buffer is written inside its 2048
bytes, and `out` inside the bytes there are. -/
def FmtEvent.InBounds (fmt len : Nat) (out : Option Nat) : FmtEvent → Prop
  | .read a => fmt ≤ a ∧ a ≤ fmt + len
  | .store i => i < fmtBufSize
  | .copy n => ∃ outSize, out = some outSize ∧ n ≤ outSize
  | .nul n => ∃ outSize, out = some outSize ∧ n < outSize

/-- The call returns, stays in bounds, and ends with the NUL of what it copied. -/
structure PrintsInBounds (m : Mem) (fuel : Nat) (out : Option Nat) (fmt len : Nat) (ap : VaList) : Prop where
  fine : Fine (FmtEvent.InBounds fmt len out) (kvsnprintf m fuel out fmt ap)
  ends : out ≠ none → ∃ log n, (kvsnprintf m fuel out fmt ap).log = log ++ [.copy n, .nul n]

/-- No directive that the loop comes to is cut off, every string ends before the buffer does, and
with every piece there is still room for the NUL. -/
def FitsBuffer (ap : VaList) : List Piece → Nat → CStr → Prop
  | [], _, _ => True
  | pc :: ps, i, text => text.length < fmtBufSize - 1 →
      pc ≠ .cut ∧ EndParts text (pc.parts ap i) ∧ (afterParts text (pc.parts ap i)).length < fmtBufSize
        ∧ FitsBuffer ap ps (pc.next i) (afterParts text (pc.parts ap i))

instance decidableFitsBuffer (ap : VaList) : ∀ (ps : List Piece) (i : Nat) (text : CStr),
    Decidable (FitsBuffer ap ps i text)
  | [], _, _ => .isTrue trivial
  | pc :: ps, i, text =>
      have := decidableFitsBuffer ap ps (pc.next i) (afterParts text (pc.parts ap i))
      inferInstanceAs (Decidable (_ → _ ∧ _ ∧ _ ∧ _))

section

variable {m : Mem} {fmt len fuel i p : Nat} {out : Option Nat} {ap : VaList} {text : CStr}

theorem inBounds_of_readIn {e : FmtEvent} (h : ReadIn fmt (fmt + len) e) :
    e.InBounds fmt len out := by
  obtain ⟨a, rfl, ha⟩ := h
  exact ha

/-- `buf[pos] = '\0'`, with the buffer as the loop leaves it. -/
def closeBuf (text : CStr) : Logged FmtEvent CStr := do
  .note (.store text.length)
  return text

theorem fine_closeBuf : Fine (FmtEvent.InBounds fmt len out) (closeBuf text)
    ↔ text.length < fmtBufSize := by
  rw [closeBuf, fine_bind_done rfl]
  simp [FmtEvent.InBounds]

/-- Whatever the loop does, it reads the format first. -/
theorem loop_reads : FmtEvent.read p ∈ (kvsnprintfLoop m ap (fuel + 1) p i text).log := by
  rw [kvsnprintfLoop]
  exact mem_bind.mpr (.inl (by simp [loadFmt, mem_bind]))

theorem fine_stores {k n : Nat} (hk : k < fmtBufSize) :
    (∀ e ∈ stores k n, e.InBounds fmt len out) ↔ k + n ≤ fmtBufSize := by
  constructor
  · intro h
    by_contra hno
    have := h (.store fmtBufSize) (mem_stores.mpr ⟨_, rfl, by omega, by omega⟩)
    exact absurd this (Nat.lt_irrefl _)
  · intro h e he
    obtain ⟨j, rfl, _, hj⟩ := mem_stores.mp he
    exact Nat.lt_of_lt_of_le hj h

/-- **The loop and the NUL behind it are in bounds exactly if the pieces fit.** -/
theorem loop_fine_iff : ∀ {n fuel i p : Nat} {s text : CStr}, StrTo m fmt (fmt + len) p s
    → s.length ≤ n →
    s.length < fuel → text.length < fmtBufSize →
    (Fine (FmtEvent.InBounds fmt len out) (kvsnprintfLoop m ap fuel p i text >>= closeBuf)
      ↔ FitsBuffer ap (pieces n s) i text)
  | _, 0, _, _, _, _, _, _, hf, _ => absurd hf (by omega)
  | n, fuel + 1, i, p, [], text, h, _, _, ht => by
      rw [pieces_nil, FitsBuffer, loop_ends (.inl h.str), fine_bind_done rfl, fine_closeBuf]
      have hle := h.le
      have hlow := h.low
      simp [FmtEvent.InBounds, hle, hlow, ht]
  | 0, _, _, _, _ :: _, _, _, hn, _, _ => absurd hn (by simp)
  | n + 1, fuel + 1, i, p, c :: s, text, h, hn, hf, ht => by
      rw [List.length_cons] at hn hf
      obtain ⟨pc, ps, hp⟩ := pieces_cons n c s
      rw [hp, FitsBuffer]
      obtain ⟨fuel, rfl⟩ : ∃ k, fuel = k + 1 := ⟨fuel - 1, by omega⟩
      by_cases hroom : text.length < fmtBufSize - 1
      · obtain ⟨q, s', ⟨log, j, hlog, hj, hloop⟩, hle, hps, hstr, hcut⟩ :=
          loop_piece (i := i) h (Nat.lt_of_succ_lt_succ hf) hroom hp
        by_cases hends : EndParts text (pc.parts ap i)
        swap
        · -- the loop over the string never ends
          refine iff_of_false ?_ (fun hno => hends (hno hroom).2.1)
          intro ⟨_, t, ht⟩
          rw [bind_timeout (loop_stuck h (Nat.lt_of_succ_lt_succ hf) hroom hp hends)] at ht
          cases ht
        have hstores : (∀ e ∈ stores text.length
          ((afterParts text (pc.parts ap i)).length - text.length),
            e.InBounds fmt len out) ↔ _ := fine_stores ht
        have hafter := afterParts_length_le (pc.parts ap i) text
        rw [hloop, Logged.bind_assoc, fine_bind_done rfl, Logged.bind_assoc, putParts_eq hends,
          fine_bind_done rfl, hstores]
        have hgood : ∀ e ∈ log, FmtEvent.InBounds fmt len out e :=
          fun e he => inBounds_of_readIn (hlog e he)
        rw [and_iff_right hgood, forall_prop_of_true hroom]
        by_cases hc : pc = .cut
        · -- the next read is behind the NUL
          refine iff_of_false ?_ (fun hno => hno.1 hc)
          intro ⟨_, hfine⟩
          have hread : FmtEvent.InBounds fmt len out (.read q) :=
            hfine.1 _ (mem_bind.mpr (.inl loop_reads))
          rw [hcut hc] at hread
          exact absurd hread.2 (by omega)
        · rw [and_iff_right hc, and_iff_right hends, hj hc, hps]
          by_cases hfit : (afterParts text (pc.parts ap i)).length < fmtBufSize
          · rw [and_iff_right hfit, and_iff_right (by omega)]
            exact loop_fine_iff (hstr hc) (Nat.le_trans hle (Nat.le_of_succ_le_succ hn))
              (Nat.lt_of_le_of_lt hle (Nat.lt_of_succ_lt_succ hf)) hfit
          · -- the loop is left, and the NUL is stored behind the buffer
            refine iff_of_false ?_ (fun hno => hfit hno.1)
            intro ⟨_, hfine⟩
            rw [loop_ends (.inr (by omega)), fine_bind_done rfl, fine_closeBuf] at hfine
            exact hfit hfine.2
      · have hlow := h.low
        have hle := h.le
        rw [loop_ends (.inr hroom), fine_bind_done rfl, fine_closeBuf]
        refine iff_of_true ⟨fun e he => ?_, ht⟩ fun hno => absurd hno hroom
        rw [List.mem_singleton] at he
        rw [he]
        exact ⟨hlow, hle⟩

/-- What `kvsnprintf` does with the finished buffer. -/
def finishOut (out : Option Nat) (text : CStr) : Logged FmtEvent FmtResult :=
  match out with
  | some outSize => do
      let n := if text.length < outSize then text.length else sub64 outSize 1
      .note (.copy n)
      .note (.nul n)
      return ⟨text.take n, text.length⟩
  | none => return ⟨text.takeWhile (· ≠ 0), text.length⟩

theorem kvsnprintf_eq : kvsnprintf m fuel out fmt ap
    = (kvsnprintfLoop m ap fuel fmt 0 [] >>= closeBuf) >>= finishOut out := by
  rw [kvsnprintf, Logged.bind_assoc]
  rfl

/-- The length of what is copied is right unless `out` has no bytes at all. -/
theorem fine_finishOut (hout : ∀ outSize, out = some outSize → outSize < 2 ^ 64) :
    Fine (FmtEvent.InBounds fmt len out) (finishOut out text) ↔ out ≠ some 0 := by
  cases out with
  | none =>
      rw [finishOut]
      exact iff_of_true (fine_pure _) (by simp)
  | some outSize =>
      have hsize := hout outSize rfl
      have hne : (some outSize ≠ some 0) ↔ 0 < outSize := by
        rw [ne_eq, Option.some_inj]
        omega
      rw [hne, finishOut]
      rw [fine_bind_done rfl, fine_bind_done rfl]
      constructor
      · intro ⟨_, h, _⟩
        obtain ⟨k, hk, hlt⟩ := h (.nul _) (List.mem_singleton_self _)
        rw [Option.some_inj] at hk
        omega
      · intro hpos
        have hlt : (if text.length < outSize then text.length else sub64 outSize 1) < outSize := by
          rw [sub64_of_le hpos hsize]
          split
          · assumption
          · omega
        refine ⟨fun e he => ?_, fun e he => ?_, fine_pure _⟩
        · rw [note_log, List.mem_singleton] at he
          rw [he]
          exact ⟨outSize, rfl, Nat.le_of_lt hlt⟩
        · rw [note_log, List.mem_singleton] at he
          rw [he]
          exact ⟨outSize, rfl, hlt⟩

/-- **`kvsnprintf` stays in bounds exactly if the pieces of the format fit the buffer, as far as it
comes to them, and `out`, if there is one, is not empty.** -/
theorem kvsnprintf_inBounds_iff {m : Mem} {fmt fuel : Nat} {s : CStr} (h : StrAt m fmt s) (hf : s.length < fuel)
    (ap : VaList) {out : Option Nat} (hout : ∀ outSize, out = some outSize → outSize < 2 ^ 64) :
    PrintsInBounds m fuel out fmt s.length ap ↔ FitsBuffer ap (pieces s.length s) 0 [] ∧ out ≠ some 0 := by
  have hloop : Fine (FmtEvent.InBounds fmt s.length out)
    (kvsnprintfLoop m ap fuel fmt 0 [] >>= closeBuf)
      ↔ FitsBuffer ap (pieces s.length s) 0 [] :=
        loop_fine_iff ⟨h, Nat.le_refl fmt, rfl⟩ (Nat.le_refl s.length) hf (by decide)
  constructor
  · intro hp
    have hfine := hp.fine
    rw [kvsnprintf_eq, fine_bind] at hfine
    obtain ⟨t, ht⟩ := hfine.1.2
    exact ⟨hloop.mp hfine.1, (fine_finishOut hout).mp (hfine.2 t ht)⟩
  · intro ⟨hfits, hne⟩
    have hfine := hloop.mpr hfits
    refine ⟨?_, fun hsome => ?_⟩
    · rw [kvsnprintf_eq, fine_bind]
      exact ⟨hfine, fun t _ => (fine_finishOut hout).mpr hne⟩
    · obtain ⟨t, ht⟩ := hfine.2
      obtain ⟨outSize, rfl⟩ := Option.ne_none_iff_exists'.mp hsome
      rw [kvsnprintf_eq, bind_of_done ht]
      exact ⟨_, _, rfl⟩

end

/-- A number with a width, and a string, into sixteen bytes. -/
theorem kvsnprintf_inBounds_width :
    PrintsInBounds (ofStr (cstr "%5d %s")) 7 (some 16) 0 6 ⟨fun _ => 42, fun _ => cstr "ok"⟩ :=
  (kvsnprintf_inBounds_iff (s := cstr "%5d %s") (strAt_ofStr (by decide)) (by decide) _
    (fun outSize h => by cases h; decide)).mpr ⟨by decide +kernel, by decide⟩

/-- A lone `%` is not. -/
theorem kvsnprintf_leaves_format : ¬ ∀ (m : Mem) (fmt fuel : Nat) (s : CStr) (ap : VaList) (out : Option Nat),
    StrAt m fmt s → s.length < fuel → (∀ outSize, out = some outSize → outSize < 2 ^ 64) →
    PrintsInBounds m fuel out fmt s.length ap := by
  intro hall
  have h := hall (ofStr (cstr "%")) 0 2 (cstr "%")
    ⟨fun _ => 0, fun _ => []⟩ none (strAt_ofStr (by decide)) (by decide)
    (fun outSize h => by cases h)
  have hread : FmtEvent.InBounds 0 1 none (.read 2) :=
    h.fine.1 (.read 2) (by decide +kernel)
  exact absurd hread.2 (by decide)

end VnlKernel
