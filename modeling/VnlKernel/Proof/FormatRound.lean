import VnlKernel.Proof.ArithSource
import VnlKernel.Proof.FormatText

/-!
# Numbers that are printed and read back

`fmt_uint` writes a number with its most significant digit first, and puts what fills it up
to the width on one side or between sign and digits. `strtol` reads digits from the left and
multiplies as it goes, in 64 bits, so that what it makes of a printed number is the number
again, also where the digits alone say more than an `int64_t` holds.
-/

namespace VnlKernel

open ByteMem Bits Logged CString

/-! ## The length and the place of the padding -/

theorem numeral_length_pos (base : Nat) (upper : Bool) (val : Nat) :
    0 < (numeral base upper val).length := by
  rw [numeral, List.length_map]
  exact Numeral.length_ofNat_pos base val

theorem padded_length {left : Bool} {pad : UInt8} {width : Nat} {sign digits : CStr}
    (hpad : pad = ascii ' ' ∨ pad = ascii '0') :
    (padded left pad width sign digits).length = max width (digits.length + sign.length) := by
  have hfill : (digits.length + sign.length) + fillOf width sign digits
      = max width (digits.length + sign.length) := by
    rw [fillOf]
    omega
  rw [← hfill, padded]
  have hne : ascii '0' ≠ ascii ' ' := by decide
  cases left with
  | true =>
      simp only [if_true, List.length_append, List.length_replicate]
      omega
  | false =>
      rcases hpad with rfl | rfl
      · simp only [Bool.false_eq_true, if_false, if_true, List.length_append, List.length_replicate]
        omega
      · simp only [Bool.false_eq_true, if_false, if_neg hne, if_true, List.length_append,
          List.length_replicate]
        omega

/-! ## Reading digits back -/

theorem digitOf_digitChar {d : Nat} (h : d < 16) (upper : Bool) :
    digitOf (digitChar upper d) = some d := by
  have hall : ∀ u : Bool, ∀ d : Fin 16, digitOf (digitChar u d) = some d.val := by decide
  exact hall upper ⟨d, h⟩

theorem digitChar_not_blank {d : Nat} (h : d < 16) (upper : Bool) :
    isBlank (digitChar upper d) = false
    ∧ digitChar upper d ≠ 0x2D ∧ digitChar upper d ≠ 0x2B ∧ digitChar upper d ≠ 0x78
      ∧ digitChar upper d ≠ 0x58 := by
  have hall : ∀ u : Bool, ∀ d : Fin 16, isBlank (digitChar u d) = false
      ∧ digitChar u d ≠ 0x2D ∧ digitChar u d ≠ 0x2B ∧ digitChar u d ≠ 0x78
        ∧ digitChar u d ≠ 0x58 := by decide
  exact hall upper ⟨d, h⟩

theorem mem_numeral {base val : Nat} {upper : Bool} {c : UInt8} (hb : 2 ≤ base)
    (h : c ∈ numeral base upper val) :
    ∃ d, d < base ∧ c = digitChar upper d := by
  rw [numeral, List.mem_map] at h
  obtain ⟨d, hd, rfl⟩ := h
  exact ⟨d, Numeral.lt_of_mem_ofNat hb hd, rfl⟩

/-- What the digits of a number add up to. -/
theorem foldl_numeral {base : Nat} (hb : base ≤ 16) (upper : Bool) : ∀ {ds : List Nat} (n : Nat),
    (∀ d ∈ ds, d < base) →
    (ds.map (digitChar upper)).foldl (fun v c => v * base + (digitOf c).getD 0) n
      = ds.foldl (fun v d => v * base + d) n
  | [], _, _ => rfl
  | d :: ds, n, h => by
      have hd : d < 16 := Nat.lt_of_lt_of_le (h d (List.mem_cons_self ..)) hb
      rw [List.map_cons, List.foldl_cons, List.foldl_cons, digitOf_digitChar hd, Option.getD_some]
      exact foldl_numeral hb upper _ fun d hd => h d (List.mem_cons_of_mem _ hd)

/-- **Digits are read back as the number**, in 64 bits. -/
theorem strtolDigits_numeral {base : Nat} (hb : 2 ≤ base) (hb' : base ≤ 16) (upper : Bool)
    (val : Nat) :
    strtolDigits base 0 (numeral base upper val) = (BitVec.ofNat 64 val, []) := by
  have hdigits : ∀ c ∈ numeral base upper val, ∃ d, digitOf c = some d ∧ d < base := by
    intro c hc
    obtain ⟨d, hd, rfl⟩ := mem_numeral hb hc
    exact ⟨d, digitOf_digitChar (Nat.lt_of_lt_of_le hd hb') upper, hd⟩
  have hread := strtolDigits_digits hdigits (r := []) (fun c hc => by cases hc) 0
  rw [List.append_nil] at hread
  have hval : (numeral base upper val).foldl (fun v c => v * base + (digitOf c).getD 0) 0
      = val := by
    rw [numeral, foldl_numeral hb' upper 0 fun d hd => Numeral.lt_of_mem_ofNat hb hd]
    exact Numeral.value_ofNat base val
  rw [hval] at hread
  exact hread

theorem hexMark_numeral {base : Nat} (hb : 2 ≤ base) (hb' : base ≤ 16) (upper : Bool) (val : Nat) :
    hexMark (numeral base upper val) = false := by
  have hx : ∀ c ∈ (numeral base upper val).drop 1, c ≠ 0x78 ∧ c ≠ 0x58 := by
    intro c hc
    obtain ⟨d, hd, rfl⟩ := mem_numeral hb (List.mem_of_mem_drop hc)
    exact (digitChar_not_blank (Nat.lt_of_lt_of_le hd hb') upper).2.2.2
  rw [hexMark]
  cases hs : (numeral base upper val).drop 1 with
  | nil => simp
  | cons c s =>
      have hc := hx c (by rw [hs]; exact List.mem_cons_self ..)
      simp [hc.1, hc.2]

/-- **A sign and digits are read back as the number**, in the base that was asked for. -/
theorem strtol_numeral {base : Nat} (hb : 2 ≤ base) (hb' : base ≤ 16) (upper negative : Bool)
    (val : Nat) :
    strtol base (signOf false negative ++ numeral base upper val)
      = (if negative then -BitVec.ofNat 64 val else BitVec.ofNat 64 val, []) := by
  have hbase : base ≠ 0 := by omega
  have hhex := hexMark_numeral hb hb' upper val
  have hread := strtolDigits_numeral hb hb' upper val
  obtain ⟨c, s, hcs⟩ := List.exists_cons_of_length_pos (numeral_length_pos base upper val)
  obtain ⟨d, hd, hc⟩ := mem_numeral hb (by rw [hcs]; exact List.mem_cons_self ..)
  obtain ⟨hblank, hminus, hplus, _⟩ := digitChar_not_blank (Nat.lt_of_lt_of_le hd hb') upper
  rw [← hc] at hblank hminus hplus
  have hnohex : ¬ (base = 16 ∧ hexMark (c :: s) = true) := by
    rw [← hcs, hhex]
    simp
  rw [hcs] at hread ⊢
  cases negative with
  | true =>
      have hskip : skipBlanks (signOf false true ++ c :: s) = 0x2D :: c :: s := rfl
      have hsign : (0x2D :: c :: s).head? = some (0x2D : UInt8)
        ∨ (0x2D :: c :: s).head? = some 0x2B := .inl rfl
      rw [strtol, hskip]
      dsimp only
      rw [if_pos hsign, if_neg hbase, List.drop_one, List.tail_cons, if_neg hnohex, hread]
      rfl
  | false =>
      have hskip : skipBlanks (signOf false false ++ c :: s) = c :: s := by
        change skipBlanks (c :: s) = c :: s
        rw [skipBlanks, List.dropWhile_cons, hblank]
        rfl
      have hsign : ¬ ((c :: s).head? = some 0x2D
        ∨ (c :: s).head? = some 0x2B) := by simp [hminus, hplus]
      have hneg : ¬ ((c :: s).head? = some 0x2D) := fun h => hsign (.inl h)
      rw [strtol, hskip]
      dsimp only
      rw [if_neg hsign, if_neg hbase, if_neg hnohex, hread]
      simp [hminus]

/-! ## Printing and reading -/

/-- Without flags and width nothing is padded. -/
theorem padded_plain (sign digits : CStr) :
    padded false (ascii ' ') 0 sign digits = sign ++ digits := by
  have hfill : fillOf 0 sign digits = 0 := by
    rw [fillOf]
    omega
  rw [padded, hfill]
  rfl

/-- What `strtol` in some base makes of what `ksprintf` writes for one argument. -/
def ReadsBack (format : CStr) (base : Nat) (v : BitVec 64) : Prop :=
  ∀ (m : Mem) (fmt fuel size : Nat) (ap : VaList), StrAt m fmt format → format.length < fuel → ap.word 0 = v →
    ∃ r, (kvsnprintf m fuel (some size) fmt ap).out = .done r ∧ (r.pos < size → strtol base r.text = (v, []))

/-- A format of a single number. -/
theorem readsBack_of {format : CStr} {base : Nat} {v : BitVec 64} (negative : Bool) (val : Nat)
    (hb : 2 ≤ base)
    (hb' : base ≤ 16) (hc : Complete format)
    (hn : (pieces format.length format).all Piece.noString = true)
    (hf : ∀ ap : VaList, ap.word 0 = v → formatted ap format
      = signOf false negative ++ numeral base false val)
    (hv : (if negative then -BitVec.ofNat 64 val else BitVec.ofNat 64 val) = v) :
    ReadsBack format base v := by
  intro m fmt fuel size ap hstr hfuel hword
  refine ⟨_, kvsnprintf_done (some size) hstr hc (ending_noString ap hn) hfuel, fun hsize => ?_⟩
  dsimp only at hsize ⊢
  rw [if_pos hsize, List.take_length, hf ap hword, strtol_numeral hb hb', hv]

/-- A signed number: its sign, and how far it is from zero. -/
theorem signed_abs (v : BitVec 64) :
    (if v.msb then -BitVec.ofNat 64 (if v.msb then (-v).toNat else v.toNat)
      else BitVec.ofNat 64 (if v.msb then (-v).toNat else v.toNat)) = v := by
  cases v.msb with
  | true =>
      rw [if_pos rfl, if_pos rfl, BitVec.ofNat_toNat, BitVec.setWidth_eq, BitVec.neg_neg]
  | false =>
      rw [if_neg (by decide), if_neg (by decide), BitVec.ofNat_toNat, BitVec.setWidth_eq]

/-- **Numbers round-trip.** `fmt_uint` writes as many characters as the width asks for or as sign
and digits take, sign and digits among them and the padding where the flags put it. And what
`ksprintf` makes of `%lld`, `%llo` and `%llx`, read in the same base, is the argument. -/
theorem numbers_round_trip :
    (∀ (text : CStr) (val base : Nat) (upper : Bool) (width : Nat) (pad : UInt8) (left signPlus negative : Bool),
      val < 2 ^ 64 → base ∈ [2, 8, 10, 16] → pad = ascii ' ' ∨ pad = ascii '0' →
      ∃ s : CStr, (fmtUint text val base upper width pad left signPlus negative).Comes
          (fun e => ∃ k, e = .store k ∧ text.length ≤ k ∧ k < text.length + s.length) (text ++ s)
        ∧ s = padded left pad width (signOf signPlus negative) (numeral base upper val)
        ∧ s.length = max width ((numeral base upper val).length + (signOf signPlus negative).length))
    ∧ ∀ v : BitVec 64, ReadsBack (cstr "%lld") 10 v ∧ ReadsBack (cstr "%llo") 8 v ∧ ReadsBack (cstr "%llx") 16 v := by
  constructor
  · intro text val base upper width pad left signPlus negative hval hbase hpad
    have hb : 2 ≤ base := by
      simp only [List.mem_cons, List.not_mem_nil, or_false] at hbase
      omega
    refine ⟨_, ?_, rfl, padded_length hpad⟩
    rw [fmtUint_eq text hb hval, storeAll_eq]
    exact ⟨fun e he => mem_stores.mp he, rfl⟩
  · intro v
    refine ⟨readsBack_of _ _ (by decide) (by decide) (by decide) (by decide) (fun ap hap => ?_)
      (signed_abs v),
      readsBack_of false v.toNat (by decide) (by decide) (by decide) (by decide) (fun ap hap => ?_)
        (by simp),
      readsBack_of false v.toNat (by decide) (by decide) (by decide) (by decide) (fun ap hap => ?_)
        (by simp)⟩
    · rw [← hap]
      exact padded_plain (signOf false (ap.word 0).msb) (numeral 10 false _)
    · rw [← hap]
      exact padded_plain [] (numeral 8 false _)
    · rw [← hap]
      exact padded_plain [] (numeral 16 false _)

/-- A number with sign and zeros, and the least number there is. -/
theorem numbers_round_trip_least :
    (∃ s : CStr, (fmtUint [] 42 10 false 6 (ascii '0') false true false).Comes
        (fun e => ∃ k, e = .store k ∧ 0 ≤ k ∧ k < 0 + s.length) ([] ++ s)
      ∧ s = cstr "+00042" ∧ s.length = 6)
    ∧ ∃ r, (kvsnprintf (ofStr (cstr "%lld")) 5 (some 32) 0 ⟨fun _ => BitVec.intMin 64, fun _ => []⟩).out = .done r
      ∧ (r.pos < 32 → strtol 10 r.text = (BitVec.intMin 64, [])) := by
  constructor
  · obtain ⟨s, hs, htext, hlen⟩ := numbers_round_trip.1 [] 42 10 false 6
      (ascii '0') false true false (by decide)
      (by decide) (by decide)
    exact ⟨s, hs, htext.trans (by decide), hlen.trans (by decide)⟩
  · exact (numbers_round_trip.2 (BitVec.intMin 64)).1 _ 0 5 32 _ (strAt_ofStr (by decide))
      (by decide) rfl

end VnlKernel
