import VnlKernel.Proof.StdioText

/-!
# Sizes in `vsnprintf` and `vasprintf`

Two things can go wrong in `vsnprintf`. A directive it does not know stores two bytes after
one look at the room that is left, so that with 1022 bytes in the buffer the NUL lands
behind it. And the length of the final copy is `size - 1` where the text does not fit, which
is no length at all for a size of zero, and which is compared as an `int` before. `vasprintf`
asks for the length with a size of zero; it never comes back from that.
-/

namespace VnlKernel

open ByteMem Bits Logged CString

namespace Libc

/-- The scratch buffer is used inside its 1024 bytes, the copy included, and at most `size` bytes
are written to the caller's. -/
def Respects (size : Nat) : FmtEvent → Prop
  | .read _ => True
  | .store i => i < stdioBufSize
  | .copy n => n ≤ stdioBufSize ∧ n ≤ size
  | .nul n => n < size

/-- The length that is returned: that of the whole text, as far as the scratch buffer goes. -/
def fullLength (ap : VaList) (s : CStr) : Nat := min (itemsText ap (items s) 0).length (stdioBufSize - 1)

/-- The call returns, respects the sizes, and says how long the text is. -/
structure FormatsWithin (m : Mem) (fuel : Nat) (stack : Nat → UInt8) (str size format : Nat) (s : CStr) (ap : VaList) :
    Prop where
  fine : Fine (Respects size) (vsnprintf m fuel stack str size format ap)
  length : ∀ r, (vsnprintf m fuel stack str size format ap).out = .done r → r.2 = fullLength ap s

/-- No directive that is not known is come to with 1022 bytes in the buffer. -/
def ScratchFits (ap : VaList) : List Item → Nat → Nat → Prop
  | [], _, _ => True
  | it :: its, i, pos => pos < stdioBufSize - 1 →
      (it.isOther = true → pos ≠ stdioBufSize - 2) ∧ ScratchFits ap its (i + it.args) (pos + (it.text ap i).length)

instance decidableScratchFits (ap : VaList) : ∀ (its : List Item) (i pos : Nat), Decidable (ScratchFits ap its i pos)
  | [], _, _ => .isTrue trivial
  | it :: its, i, pos =>
      have := decidableScratchFits ap its (i + it.args) (pos + (it.text ap i).length)
      inferInstanceAs (Decidable (_ → _ ∧ _))

variable {m : Mem} {ap : VaList} {fuel size : Nat} {s : CStr}

theorem ScratchFits.full {its : List Item} {i pos : Nat} (h : ¬ pos < stdioBufSize - 1) :
    ScratchFits ap its i pos := by
  cases its with
  | nil => trivial
  | cons it its => exact fun hlt => absurd hlt h

/-- From here on, what is left of the text where it is cut off does not matter. -/
theorem scratchFits_cut {its : List Item} {i pos len : Nat} (h : pos ≤ stdioBufSize - 1) :
    ScratchFits ap its i (pos + min (stdioBufSize - 1 - pos) len)
      ↔ ScratchFits ap its i (pos + len) := by
  by_cases hfit : pos + len ≤ stdioBufSize - 1
  · rw [Nat.min_eq_right (by omega)]
  · exact iff_of_true (.full (by omega)) (.full (by omega))

theorem other_length {it : Item} (h : it.isOther = true) (i : Nat) : (it.text ap i).length = 2 := by
  cases it with
  | other c => rfl
  | _ => cases h

/-- **The buffer holds the text, as far as it goes, where nothing is stored behind it.** -/
theorem itemsFilled_eq : ∀ {its : List Item} {i : Nat} {buf : CStr}, buf.length ≤ stdioBufSize - 1 →
    ScratchFits ap its i buf.length → itemsFilled ap its i buf
      = (buf ++ itemsText ap its i).take (stdioBufSize - 1)
  | [], i, buf, hb, _ => by rw [itemsFilled, itemsText, List.append_nil, List.take_of_length_le hb]
  | it :: its, i, buf, hb, hfits => by
      rw [itemsFilled, itemsText]
      by_cases hroom : buf.length < stdioBufSize - 1
      · obtain ⟨hother, hrest⟩ := hfits hroom
        have hadd : it.added ap i buf = (it.text ap i).take (stdioBufSize - 1 - buf.length) := by
          rw [Item.added]
          split
          · next ho =>
            rw [List.take_of_length_le]
            have := hother ho
            rw [other_length ho]
            omega
          · rfl
        have hlen : (buf ++ it.added ap i buf).length
            = buf.length + min (stdioBufSize - 1 - buf.length) (it.text ap i).length := by
          rw [hadd, List.length_append, List.length_take]
        rw [if_pos hroom, itemsFilled_eq (by omega)
          (by rw [hlen]; exact (scratchFits_cut hb).mpr hrest), hadd,
          ← List.append_assoc]
        by_cases hfit : (it.text ap i).length ≤ stdioBufSize - 1 - buf.length
        · rw [List.take_of_length_le hfit]
        · have hcut : (buf ++ (it.text ap i).take (stdioBufSize - 1 - buf.length)).length
              = stdioBufSize - 1 := by
            rw [List.length_append, List.length_take]
            omega
          rw [List.take_append_of_le_length (Nat.le_of_eq hcut.symm),
            List.take_of_length_le (Nat.le_of_eq hcut),
            List.take_append_of_le_length (by rw [List.length_append]; omega), List.take_append,
            List.take_of_length_le hb]
      · rw [if_neg hroom, List.take_append_of_le_length (by omega), List.take_of_length_le hb]

/-- **And otherwise something is.** -/
theorem scratchFits_of_le : ∀ {its : List Item} {i : Nat} {buf : CStr},
    buf.length ≤ stdioBufSize - 1 →
    (itemsFilled ap its i buf).length < stdioBufSize → ScratchFits ap its i buf.length
  | [], _, _, _, _ => trivial
  | it :: its, i, buf, hb, hlen => by
      intro hroom
      rw [itemsFilled, if_pos hroom] at hlen
      have hle := itemsFilled_length_le ap its (i + it.args) (buf ++ it.added ap i buf)
      have hother : it.isOther = true → buf.length ≠ stdioBufSize - 2 := by
        intro ho heq
        have hwhole : it.added ap i buf = it.text ap i := by rw [Item.added, if_pos ho]
        rw [hwhole] at hle hlen
        rw [List.length_append, other_length ho] at hle
        have hsize : stdioBufSize = 1024 := rfl
        omega
      have hadd : (buf ++ it.added ap i buf).length
          = buf.length + min (stdioBufSize - 1 - buf.length) (it.text ap i).length := by
        rw [List.length_append, Item.added]
        split
        · next ho =>
          have := hother ho
          rw [other_length ho]
          omega
        · rw [List.length_take]
      have hrest := scratchFits_of_le (by omega) hlen
      rw [hadd] at hrest
      exact ⟨hother, (scratchFits_cut hb).mp hrest⟩

theorem filled_length (h : ScratchFits ap (items s) 0 0) :
    (itemsFilled ap (items s) 0 []).length = fullLength ap s := by
  rw [itemsFilled_eq (Nat.zero_le _) h, List.nil_append, List.length_take, fullLength, Nat.min_comm]

theorem fullLength_lt (ap : VaList) (s : CStr) : fullLength ap s < stdioBufSize := by
  have hsize : stdioBufSize = 1024 := rfl
  rw [fullLength]
  omega

/-! ## The copy -/

theorem toInt32_le (n : Nat) : toInt32 n ≤ n := by
  rw [toInt32]
  split
  · omega
  · omega

theorem toInt32_zero : toInt32 0 = 0 := rfl

/-- **The copy is inside both buffers exactly if there is a size at all**, and one that is an `int`
or is still greater than the text as one. -/
theorem copyLen_iff {pos : Nat} (hpos : pos < stdioBufSize) (hsize : size < 2 ^ 64) :
    (copyLen size pos ≤ stdioBufSize ∧ copyLen size pos < size)
      ↔ size ≠ 0 ∧ (size < 2 ^ 31 ∨ (pos : Int) < toInt32 size) := by
  have hbuf : stdioBufSize = 1024 := rfl
  have hle := toInt32_le size
  by_cases h0 : size = 0
  · rw [h0]
    simp
  have hsub : sub64 size 1 = size - 1 := sub64_of_le (by omega) hsize
  rw [copyLen, hsub]
  by_cases hlt : (pos : Int) < toInt32 size
  · rw [if_pos hlt]
    exact iff_of_true ⟨Nat.le_of_lt hpos, by omega⟩ ⟨h0, .inr hlt⟩
  · rw [if_neg hlt, or_iff_left hlt]
    constructor
    · intro ⟨h, _⟩
      exact ⟨h0, by omega⟩
    · intro ⟨_, hint⟩
      rw [toInt32_of_lt hint] at hlt
      omega

/-- The events of a call, once it is known what the loop leaves. -/
theorem vsnprintf_eq {stack : Nat → UInt8} {str format : Nat} {buf : CStr}
    (hloop : (vsnprintfLoop m ap fuel format 0 []).out = .done buf) :
    vsnprintf m fuel stack str size format ap
      = (⟨(vsnprintfLoop m ap fuel format 0 []).log ++ [.store buf.length,
        .copy (copyLen size buf.length)], .done ()⟩ : Logged FmtEvent Unit) >>= fun _ =>
      if copyLen size buf.length ≥ userHalf then .lift (.panic "Page Fault")
      else do
        .note (.nul (copyLen size buf.length))
        return (setByte (fun a => if str ≤ a ∧ a < str + copyLen size buf.length then bufByte stack
          buf (a - str)
          else m a) (str + copyLen size buf.length) 0, buf.length) := by
  rw [vsnprintf, bind_of_done hloop, bind_of_done (note_out _), bind_of_done (note_out _),
    bind_of_done (x := ⟨_, _⟩) rfl, List.append_assoc]
  rfl

/-- **Everything is in bounds exactly if** the scratch buffer is enough and the copy is. -/
theorem fine_vsnprintf_iff (ap : VaList) (stack : Nat → UInt8) (str : Nat) {format : Nat}
    (hstr : StrAt m format s) (hfuel : s.length < fuel)
    (hsize : size < 2 ^ 64) : Fine (Respects size) (vsnprintf m fuel stack str size format ap)
      ↔ ScratchFits ap (items s) 0 0 ∧ size ≠ 0
        ∧ (size < 2 ^ 31 ∨ (fullLength ap s : Int) < toInt32 size) := by
  have hbuf : stdioBufSize = 1024 := rfl
  have hhalf : userHalf = 2 ^ 47 := rfl
  have hloop := stdioLoop_comes ap 0 [] ⟨hstr, Nat.le_refl format, rfl⟩ hfuel
  obtain ⟨buf, hb⟩ : ∃ buf, itemsFilled ap (items s) 0 [] = buf := ⟨_, rfl⟩
  rw [hb] at hloop
  rw [vsnprintf_eq hloop.2, fine_bind_done rfl]
  constructor
  · intro hfine
    have hstore : buf.length < stdioBufSize := hfine.1 (.store buf.length) (by simp)
    have hcopy : copyLen size buf.length ≤ stdioBufSize ∧ _ := hfine.1 (.copy _) (by simp)
    have hfits : ScratchFits ap (items s) 0 0 :=
      scratchFits_of_le (Nat.zero_le _) (by rw [hb]; exact hstore)
    have hnul : copyLen size buf.length < size := by
      have hrest := hfine.2
      rw [if_neg (by omega), fine_bind_done rfl] at hrest
      exact hrest.1 (.nul _) (List.mem_singleton_self _)
    have hlen := filled_length hfits
    rw [hb] at hlen
    rw [← hlen]
    exact ⟨hfits, (copyLen_iff hstore hsize).mp ⟨hcopy.1, hnul⟩⟩
  · intro ⟨hfits, hcond⟩
    have hlen := filled_length hfits
    rw [hb] at hlen
    have hlt : buf.length < stdioBufSize := hlen ▸ fullLength_lt ap s
    rw [← hlen] at hcond
    have hcopy := (copyLen_iff hlt hsize).mpr hcond
    refine ⟨fun e he => ?_, ?_⟩
    · rcases List.mem_append.mp he with he | he
      · rcases hloop.1 e he with ⟨a, rfl, _⟩ | ⟨k, rfl, hk⟩
        · trivial
        · exact Nat.lt_trans hk hlt
      · simp only [List.mem_cons, List.not_mem_nil, or_false] at he
        rcases he with rfl | rfl
        · exact hlt
        · exact ⟨hcopy.1, Nat.le_of_lt hcopy.2⟩
    · rw [if_neg (by omega), fine_bind_done rfl]
      refine ⟨fun e he => ?_, fine_pure _⟩
      rw [note_log, List.mem_singleton] at he
      rw [he]
      exact hcopy.2

/-- What is returned is the length of what is in the buffer. -/
theorem vsnprintf_result {stack : Nat → UInt8} {str format : Nat} {buf : CStr} {r : Mem × Nat}
    (hloop : (vsnprintfLoop m ap fuel format 0 []).out = .done buf)
    (hr : (vsnprintf m fuel stack str size format ap).out = .done r) : r.2 = buf.length := by
  rw [vsnprintf_eq hloop] at hr
  by_cases hlong : copyLen size buf.length ≥ userHalf
  · rw [if_pos hlong] at hr
    cases hr
  · rw [if_neg hlong] at hr
    cases hr
    rfl

/-- **`vsnprintf` respects the sizes exactly if** no directive that is not known ends on the last
byte of the scratch buffer, and the size is not zero and, if it is no `int`, still more than the
length when taken for one. `vasprintf` measures with a size of zero, so it never returns. -/
theorem vsnprintf_within_iff (stack : Nat → UInt8) (s : CStr) (ap : VaList) {fuel : Nat} (hfuel : s.length < fuel) :
    (∀ (m : Mem) (str size format : Nat), StrAt m format s → size < 2 ^ 64 →
      (FormatsWithin m fuel stack str size format s ap
        ↔ ScratchFits ap (items s) 0 0 ∧ size ≠ 0 ∧ (size < 2 ^ 31 ∨ (fullLength ap s : Int) < toInt32 size)))
    ∧ ∀ (mmap : Nat → Option Nat) (h : LibcHeap) (strp fmt : Nat), StrAt h.mem fmt s →
      (vasprintf mmap fuel stack h strp fmt ap).out = .panic "Page Fault" := by
  constructor
  · intro m str size format hstr hsize
    have hloop := stdioLoop_comes ap 0 [] ⟨hstr, Nat.le_refl format, rfl⟩ hfuel
    rw [← fine_vsnprintf_iff ap stack str hstr hfuel hsize]
    refine ⟨fun h => h.fine, fun h => ⟨h, fun r hr => ?_⟩⟩
    have hfits := ((fine_vsnprintf_iff ap stack str hstr hfuel hsize).mp h).1
    rw [vsnprintf_result hloop.2 hr, filled_length hfits]
  · intro mmap h strp fmt hstr
    have hloop := stdioLoop_comes ap 0 [] ⟨hstr, Nat.le_refl fmt, rfl⟩ hfuel
    have hpos : ¬ ((itemsFilled ap (items s) 0 []).length : Int) < toInt32 0 := by
      rw [toInt32_zero]
      omega
    have hcopy : copyLen 0 (itemsFilled ap (items s) 0 []).length ≥ userHalf := by
      rw [copyLen, if_neg hpos]
      decide
    rw [vasprintf, bind_out, vsnprintf_eq hloop.2, if_pos hcopy]
    rfl

/-- A format with a number, into a hundred bytes, and the same format where memory is to be had for
the text. -/
theorem vsnprintf_within_number :
    FormatsWithin (ofStr (cstr "x=%d")) 5 (fun _ => 0) 0x1000 100 0 (cstr "x=%d") ⟨fun _ => 7, fun _ => []⟩
    ∧ (vasprintf (fun _ => some 0x10000) 5 (fun _ => 0) ⟨ofStr (cstr "x=%d"), 0, []⟩ 0x2000 0
        ⟨fun _ => 7, fun _ => []⟩).out = .panic "Page Fault" :=
  ⟨((vsnprintf_within_iff _ (cstr "x=%d") _ (by decide)).1 _ _ 100 0 (strAt_ofStr (by decide))
    (by decide)).mpr
      ⟨by decide, by decide, .inl (by decide)⟩,
    (vsnprintf_within_iff _ (cstr "x=%d") _ (by decide)).2 _ _ _ 0 (strAt_ofStr (by decide))⟩

/-- Measuring with a size of zero. -/
theorem vsnprintf_measures : ¬ ∀ (m : Mem) (fuel : Nat) (stack : Nat → UInt8) (str size format : Nat) (s : CStr)
    (ap : VaList), StrAt m format s → s.length < fuel → size < 2 ^ 64 →
    FormatsWithin m fuel stack str size format s ap := by
  intro hall
  have h := hall (ofStr []) 1 (fun _ => 0) 0 0 0 []
    ⟨fun _ => 0, fun _ => []⟩ (strAt_ofStr (by decide)) (by decide) (by decide)
  have hcopy : Respects 0 (.copy (2 ^ 64 - 1)) := h.fine.1 _ (by decide)
  exact absurd hcopy.2 (by decide)

end Libc

end VnlKernel
