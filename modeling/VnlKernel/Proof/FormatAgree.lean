import VnlKernel.Lib.RingBuf
import VnlKernel.Proof.StdioSizes
import VnlKernel.Proof.FormatRound

/-!
# The kernel's formatter and the C library's

The two have `%s`, `%d`, `%u` and `%x` in common. Without flags and widths each puts the
same characters into its buffer, with one exception. The C library takes the sign off a
negative `int` as an `int`, which leaves the least one negative, and then divides it down
digit by digit: what it prints are the characters in front of the digits. The kernel takes
the sign off in 64 bits.
-/

namespace VnlKernel

open ByteMem Bits Logged CString

/-- What both formatters know. -/
inductive PlainPiece where
  | lit (c : {c : UInt8 // c ≠ 0 ∧ c ≠ ascii '%'})
  | string
  | int
  | uint
  | hex

namespace PlainPiece

/-- The piece as it is written. -/
def bytes : PlainPiece → CStr
  | .lit c => [c.val]
  | .string => cstr "%s"
  | .int => cstr "%d"
  | .uint => cstr "%u"
  | .hex => cstr "%x"

/-- How many arguments it takes. -/
def args : PlainPiece → Nat
  | .lit _ => 0
  | _ => 1

/-- Is it `%d`? -/
def isInt : PlainPiece → Bool
  | .int => true
  | _ => false

/-- What it stands for. -/
def text (ap : VaList) (i : Nat) : PlainPiece → CStr
  | .lit c => [c.val]
  | .string => ap.string i
  | .int => signOf false (decide (ap.int i < 0)) ++ numeral 10 false (ap.int i).natAbs
  | .uint => numeral 10 false (ap.uint i)
  | .hex => numeral 16 false (ap.uint i)

/-- The piece as the kernel reads it. -/
def piece : PlainPiece → Piece
  | .lit c => .char c.val
  | .string => .dir ⟨noFlags, some 0, false, .string⟩
  | .int => .dir ⟨noFlags, some 0, false, .signed⟩
  | .uint => .dir ⟨noFlags, some 0, false, .unsigned 10 false⟩
  | .hex => .dir ⟨noFlags, some 0, false, .unsigned 16 false⟩

/-- The piece as the C library reads it. -/
def item : PlainPiece → Libc.Item
  | .lit c => .char c.val
  | .string => .string
  | .int => .int
  | .uint => .uint 10
  | .hex => .uint 16

end PlainPiece

/-- The format. -/
def plainFormat (ps : List PlainPiece) : CStr := ps.flatMap PlainPiece.bytes

/-- What it makes of the arguments. -/
def plainText (ap : VaList) : List PlainPiece → Nat → CStr
  | [], _ => []
  | p :: ps, i => p.text ap i ++ plainText ap ps (i + p.args)

/-- No `%d` has the least `int` for its argument. -/
def NoLeastInt (ap : VaList) : List PlainPiece → Nat → Prop
  | [], _ => True
  | p :: ps, i => (p.isInt = true → ap.int i ≠ -2 ^ 31) ∧ NoLeastInt ap ps (i + p.args)

variable {ap : VaList}

/-! ## How the formats are read -/

theorem pieces_plain : ∀ {ps : List PlainPiece} {n : Nat}, (plainFormat ps).length ≤ n →
    pieces n (plainFormat ps) = ps.map PlainPiece.piece
  | [], n, _ => pieces_nil n
  | p :: ps, n, hn => by
      have hcons : plainFormat (p :: ps) = p.bytes ++ plainFormat ps := rfl
      have hpos : 0 < p.bytes.length := by
        cases p with
        | lit c => exact Nat.one_pos
        | _ => decide
      rw [hcons, List.length_append] at hn
      obtain ⟨n, rfl⟩ : ∃ k, n = k + 1 := ⟨n - 1, by omega⟩
      have ih : pieces n (plainFormat ps) = ps.map PlainPiece.piece := pieces_plain (by omega)
      rw [hcons, List.map_cons, ← ih]
      cases p with
      | lit c =>
          change pieces (n + 1) (c.val :: plainFormat ps) = _
          rw [pieces, if_pos c.property.2]
          rfl
      | string => rfl
      | int => rfl
      | uint => rfl
      | hex => rfl

theorem items_plain : ∀ {ps : List PlainPiece}, Libc.items (plainFormat ps) = ps.map PlainPiece.item
  | [] => rfl
  | p :: ps => by
      have hcons : plainFormat (p :: ps) = p.bytes ++ plainFormat ps := rfl
      rw [hcons, List.map_cons, ← items_plain]
      cases p with
      | lit c => exact Libc.items_char c.property.2 _
      | string => exact Libc.items_dir (ascii 's') _
      | int => exact Libc.items_dir (ascii 'd') _
      | uint => exact Libc.items_dir (ascii 'u') _
      | hex => exact Libc.items_dir (ascii 'x') _

/-! ## The kernel's text -/

/-- An `int` in 64 bits: its sign, and how far it is from zero. -/
theorem signedArg_int (i : Nat) : (signedArg ap i false).msb = decide (ap.int i < 0)
    ∧ (if (signedArg ap i false).msb then (-(signedArg ap i false)).toNat else
      (signedArg ap i false).toNat)
      = (ap.int i).natAbs := by
  have hint : (signedArg ap i false).toInt = ap.int i := by
    rw [signedArg, if_neg (by decide), BitVec.toInt_signExtend_of_le (by decide)]
    rfl
  have hmsb : (signedArg ap i false).msb = decide (ap.int i < 0) := by
    rw [← hint, BitVec.msb_eq_toInt]
  refine ⟨hmsb, ?_⟩
  generalize signedArg ap i false = v at hint hmsb
  have hlt := v.isLt
  rw [hmsb, ← hint, BitVec.toInt_eq_msb_cond]
  rw [← hint] at hmsb
  cases hv : v.msb with
  | true =>
      rw [hv] at hmsb
      have hpos : 2 ^ 63 ≤ v.toNat := by
        rw [BitVec.msb_eq_decide, decide_eq_true_eq] at hv
        exact hv
      have hneg : ((v.toNat : Int) - (2 ^ 64 : Nat)) < 0 := by omega
      simp only [if_true, decide_eq_true hneg, BitVec.toNat_neg]
      omega
  | false => simp

theorem roomFor_all {text s : CStr} (h : text.length + s.length < fmtBufSize) :
    roomFor text s = s := by
  rw [roomFor, List.take_of_length_le]
  have hbuf : fmtBufSize = 2048 := rfl
  omega

/-- **What one piece puts into the kernel's buffer**, where there is room for it. -/
theorem afterParts_plain (p : PlainPiece) {i : Nat} {text : CStr}
    (h : text.length + (p.text ap i).length < fmtBufSize) :
    afterParts text (p.piece.parts ap i) = text ++ p.text ap i := by
  cases p with
  | lit c =>
      change text ++ roomFor text [c.val] = _
      rw [roomFor_all (s := [c.val]) h]
      rfl
  | string => exact (string_plain text h).2
  | int =>
      obtain ⟨hmsb, habs⟩ := signedArg_int i
      change text ++ padded false (ascii ' ') 0 (signOf false (signedArg ap i false).msb)
        (numeral 10 false
        (if (signedArg ap i false).msb then (-(signedArg ap i false)).toNat else
          (signedArg ap i false).toNat)) = _
      rw [padded_plain, habs, hmsb]
      rfl
  | uint =>
      change text ++ padded false (ascii ' ') 0 [] (numeral 10 false (ap.uint i)) = _
      rw [padded_plain]
      rfl
  | hex =>
      change text ++ padded false (ascii ' ') 0 [] (numeral 16 false (ap.uint i)) = _
      rw [padded_plain]
      rfl

/-- Nor does it wait for room for a string. -/
theorem endParts_plain (p : PlainPiece) {i : Nat} {text : CStr}
    (h : text.length + (p.text ap i).length < fmtBufSize) : EndParts text (p.piece.parts ap i) := by
  cases p with
  | string => exact (string_plain text h).1
  | _ => exact endParts_noString rfl

theorem next_plain (p : PlainPiece) (i : Nat) : p.piece.next i = i + p.args := by
  cases p with
  | lit c => rfl
  | _ => rfl

/-- **The kernel's text.** -/
theorem filled_plain : ∀ {ps : List PlainPiece} {i : Nat} {text : CStr},
    text.length + (plainText ap ps i).length < fmtBufSize - 1 →
    filled ap (ps.map PlainPiece.piece) i text = text ++ plainText ap ps i
  | [], _, text, _ => (List.append_nil text).symm
  | p :: ps, i, text, h => by
      rw [plainText, List.length_append] at h
      rw [List.map_cons, filled, if_pos (by omega), afterParts_plain p (by omega), next_plain,
        filled_plain (by rw [List.length_append]; omega), plainText, List.append_assoc]

theorem stringsFit_plain : ∀ {ps : List PlainPiece} {i : Nat} {text : CStr},
    text.length + (plainText ap ps i).length < fmtBufSize - 1 →
    StringsFit ap (ps.map PlainPiece.piece) i text
  | [], _, _, _ => trivial
  | p :: ps, i, text, h => by
      rw [plainText, List.length_append] at h
      rw [List.map_cons, StringsFit, afterParts_plain p (by omega), next_plain]
      exact fun _ => ⟨endParts_plain p (by omega),
        stringsFit_plain (by rw [List.length_append]; omega)⟩

/-! ## The C library's text -/

theorem digitChar_int {d : Nat} (h : d < 10) :
    UInt8.ofNat (toU32 (0x30 + (d : Int))) = digitChar false d := by
  have hall : ∀ d : Fin 10, UInt8.ofNat (toU32 (0x30 + (d.val : Int)))
    = digitChar false d.val := by decide
  exact hall ⟨d, h⟩

theorem intLoop_nat : ∀ (fuel n : Nat), Libc.intLoop fuel n
    = (Numeral.divide 10 fuel n).map (digitChar false)
  | 0, _ => rfl
  | fuel + 1, n => by
      rw [Libc.intLoop, Numeral.divide]
      by_cases hn : n = 0
      · rw [hn]
        rfl
      · have hdiv : (n : Int).tdiv 10 = ((n / 10 : Nat) : Int) := rfl
        have hmod : (n : Int).tmod 10 = ((n % 10 : Nat) : Int) := rfl
        rw [if_neg (by omega), if_neg hn, List.map_cons, hdiv, hmod, intLoop_nat fuel (n / 10),
          digitChar_int (Nat.mod_lt _ (by decide))]

theorem reverse_divide {base n : Nat} (hb : 10 ≤ base) (hn : n < 2 ^ 32) :
    (if n = 0 then [ascii '0'] else (Numeral.divide base 16 n).map (digitChar false)).reverse
      = numeral base false n := by
  have hlt : n < base ^ 16 := Nat.lt_of_lt_of_le hn
    (Nat.le_trans (by decide) (Nat.pow_le_pow_left hb 16))
  rw [numeral, Numeral.ofNat]
  by_cases h : n = 0
  · rw [if_pos h, if_pos h]
    rfl
  · rw [if_neg h, if_neg h, Numeral.divide_eq_digits (by omega) hlt, List.map_reverse]

theorem intTmp_nat {n : Nat} (hn : n < 2 ^ 32) : (Libc.intTmp n).reverse = numeral 10 false n := by
  rw [← reverse_divide (by decide) hn, Libc.intTmp, intLoop_nat]
  by_cases h : n = 0
  · rw [h]
    rfl
  · rw [if_neg (by omega), if_neg h]

theorem uintTmp_eq {n base : Nat} (hb : 10 ≤ base) (hn : n < 2 ^ 32) :
    (Libc.uintTmp n base).reverse = numeral base false n :=
  reverse_divide hb hn

theorem int_bounds (i : Nat) : -2 ^ 31 ≤ ap.int i ∧ ap.int i < 2 ^ 31 := by
  rw [VaList.int]
  exact ⟨BitVec.le_toInt _, BitVec.toInt_lt⟩

theorem negInt_eq {v : Int} (h : -2 ^ 31 < v) (h' : v < 0) : Libc.negInt v = v.natAbs := by
  rw [Libc.negInt, show (-v) = ((v.natAbs : Nat) : Int) by omega, toU32_natCast (by omega), toInt32_of_lt (by omega)]

/-- **What one piece puts into the C library's buffer**: what it stands for, unless it is the least
`int`, and in any case as many characters. -/
theorem item_text (p : PlainPiece) (i : Nat) : (p.item.text ap i).length = (p.text ap i).length
    ∧ (p.item.text ap i = p.text ap i ↔ (p.isInt = true → ap.int i ≠ -2 ^ 31)) := by
  have huint : ap.uint i < 2 ^ 32 := ((ap.word i).setWidth 32).isLt
  cases p with
  | lit c => exact ⟨rfl, iff_of_true rfl (fun h => by cases h)⟩
  | string => exact ⟨rfl, iff_of_true rfl (fun h => by cases h)⟩
  | uint =>
      have h : PlainPiece.uint.item.text ap i = PlainPiece.uint.text ap i :=
        uintTmp_eq (by decide) huint
      rw [h]
      exact ⟨rfl, iff_of_true rfl (fun h => by cases h)⟩
  | hex =>
      have h : PlainPiece.hex.item.text ap i = PlainPiece.hex.text ap i :=
        uintTmp_eq (by decide) huint
      rw [h]
      exact ⟨rfl, iff_of_true rfl (fun h => by cases h)⟩
  | int =>
      obtain ⟨hlow, hhigh⟩ := int_bounds i
      change ((if ap.int i < 0 then [ascii '-'] else []) ++
        (Libc.intTmp (if ap.int i < 0 then Libc.negInt (ap.int i)
          else ap.int i)).reverse).length =
            (signOf false (decide (ap.int i < 0)) ++ numeral 10 false (ap.int i).natAbs).length
        ∧ ((if ap.int i < 0 then [ascii '-'] else []) ++
          (Libc.intTmp (if ap.int i < 0 then Libc.negInt (ap.int i)
          else ap.int i)).reverse = signOf false (decide (ap.int i < 0)) ++ numeral 10 false
            (ap.int i).natAbs ↔ _)
      generalize ap.int i = v at hlow hhigh
      by_cases hleast : v = -2 ^ 31
      · rw [hleast]
        exact ⟨by decide +kernel, iff_of_false (by decide +kernel) (fun h => h rfl rfl)⟩
      · have hsame : (if v < 0 then [ascii '-'] else []) ++
          (Libc.intTmp (if v < 0 then Libc.negInt v else v)).reverse
            = signOf false (decide (v < 0)) ++ numeral 10 false v.natAbs := by
          by_cases hneg : v < 0
          · rw [if_pos hneg, if_pos hneg, negInt_eq (by omega) hneg, intTmp_nat (by omega),
              decide_eq_true hneg]
            rfl
          · obtain ⟨n, rfl⟩ := Int.eq_ofNat_of_zero_le (not_lt.mp hneg)
            rw [if_neg hneg, if_neg hneg, intTmp_nat (by omega), decide_eq_false hneg]
            rfl
        rw [hsame]
        exact ⟨rfl, iff_of_true rfl (fun _ => hleast)⟩

theorem item_args (p : PlainPiece) : p.item.args = p.args := by
  cases p with
  | lit c => rfl
  | _ => rfl

/-- **The C library's text** is as long as the kernel's, and the same unless a `%d` has the least
`int`. -/
theorem itemsText_plain : ∀ (ps : List PlainPiece) (i : Nat),
    (Libc.itemsText ap (ps.map PlainPiece.item) i).length = (plainText ap ps i).length
    ∧ (Libc.itemsText ap (ps.map PlainPiece.item) i = plainText ap ps i ↔ NoLeastInt ap ps i)
  | [], _ => ⟨rfl, iff_of_true rfl trivial⟩
  | p :: ps, i => by
      obtain ⟨hlen, hsame⟩ := item_text p i
      obtain ⟨hlens, hsames⟩ := itemsText_plain ps (i + p.args)
      rw [List.map_cons, Libc.itemsText, plainText, item_args, NoLeastInt, ← hsame, ← hsames]
      refine ⟨by rw [List.length_append, List.length_append, hlen, hlens], ?_⟩
      constructor
      · intro h
        exact List.append_inj h hlen
      · intro h
        rw [h.1, h.2]

/-! ## Agreement -/

/-- Both calls return the same, and leave the same text; the C library's stays inside its buffers.
-/
def FormattersAgree (m : Mem) (fuel : Nat) (stack : Nat → UInt8) (outSize str size fmt : Nat) (ap : VaList) : Prop :=
  ∃ r m', (kvsnprintf m fuel (some outSize) fmt ap).out = .done r
    ∧ (Libc.vsnprintf m fuel stack str size fmt ap).out = .done (m', r.pos)
    ∧ RingBuf.slice m' str r.pos = r.text ∧ m' (str + r.pos) = 0
    ∧ Fine (Libc.Respects size) (Libc.vsnprintf m fuel stack str size fmt ap)

theorem complete_plain (ps : List PlainPiece) : Complete (plainFormat ps) := by
  rw [Complete, pieces_plain (Nat.le_refl _)]
  intro h
  obtain ⟨p, _, hp⟩ := List.mem_map.mp h
  cases p with
  | lit c => cases hp
  | _ => cases hp

theorem scratchFits_plain : ∀ (ps : List PlainPiece) (i pos : Nat),
    Libc.ScratchFits ap (ps.map PlainPiece.item) i pos
  | [], _, _ => trivial
  | p :: ps, i, pos => by
      refine fun _ => ⟨fun h => ?_, scratchFits_plain ps _ _⟩
      cases p with
      | lit c => cases h
      | _ => cases h

/-- A copy of exactly the text, and the NUL behind it. -/
theorem copied_slice {m : Mem} {stack : Nat → UInt8} {str : Nat} {buf : CStr} :
    RingBuf.slice (setByte (fun a => if str ≤ a ∧ a < str + buf.length then Libc.bufByte stack buf
      (a - str) else m a)
      (str + buf.length) 0) str buf.length = buf := by
  refine List.ext_getElem (by simp [RingBuf.slice]) fun j h1 h2 => ?_
  have hj : str ≤ str + j ∧ str + j < str + buf.length := by omega
  simp only [RingBuf.slice, List.getElem_map, List.getElem_range]
  rw [setByte_ne (by omega), if_pos hj, Nat.add_sub_cancel_left, Libc.bufByte, if_neg (by omega),
    List.getD_eq_getElem _ _ h2]

/-- A text that is shorter than the size is copied whole. -/
theorem copyLen_text {size pos : Nat} (h : pos < size)
    (hcond : size < 2 ^ 31 ∨ (pos : Int) < toInt32 size) :
    Libc.copyLen size pos = pos := by
  rw [Libc.copyLen, if_pos]
  rcases hcond with hint | hlt
  · rw [toInt32_of_lt hint]
    omega
  · exact hlt

/-- **The two formatters agree exactly if no `%d` has the least `int` for its argument**, as long as
the text is shorter than 1023 bytes, both buffers are longer than the text, and the C library is
given a size that is no less when taken for an `int`. -/
theorem formatters_agree_iff {m : Mem} {fmt fuel outSize size : Nat} {ps : List PlainPiece} (ap : VaList)
    (stack : Nat → UInt8) (str : Nat) (h : StrAt m fmt (plainFormat ps)) (hf : (plainFormat ps).length < fuel)
    (hlen : (plainText ap ps 0).length < 1023) (hout : (plainText ap ps 0).length < outSize)
    (hstr : (plainText ap ps 0).length < size) (hsize : size < 2 ^ 64) :
    FormattersAgree m fuel stack outSize str size fmt ap
      ↔ NoLeastInt ap ps 0 ∧ (size < 2 ^ 31 ∨ ((plainText ap ps 0).length : Int) < toInt32 size) := by
  have hbuf : Libc.stdioBufSize = 1024 := rfl
  obtain ⟨text, htext⟩ : ∃ text, plainText ap ps 0 = text := ⟨_, rfl⟩
  obtain ⟨buf, hb⟩ : ∃ buf, Libc.itemsText ap (ps.map PlainPiece.item) 0 = buf := ⟨_, rfl⟩
  obtain ⟨hblen, hsame⟩ := itemsText_plain ps 0
  rw [htext] at hlen hout hstr hblen hsame
  rw [hb] at hblen hsame
  -- the kernel's call
  have hkern : (kvsnprintf m fuel (some outSize) fmt ap).out = .done ⟨text, text.length⟩ := by
    have hformatted : formatted ap (plainFormat ps) = text := by
      rw [formatted, pieces_plain (Nat.le_refl _),
        filled_plain (by rw [htext]; exact Nat.lt_trans (by simpa) (by decide)),
        htext, List.nil_append]
    have hending : Ending ap (plainFormat ps) := by
      rw [Ending, pieces_plain (Nat.le_refl _)]
      exact stringsFit_plain (by rw [htext]; exact Nat.lt_trans (by simpa) (by decide))
    rw [kvsnprintf_done (some outSize) h (complete_plain ps) hending hf, hformatted]
    dsimp only
    rw [if_pos hout, List.take_length]
  -- the C library's
  have hfits : Libc.ScratchFits ap (Libc.items (plainFormat ps)) 0 0 := by
    rw [items_plain]
    exact scratchFits_plain ps 0 0
  have hloop : (Libc.vsnprintfLoop m ap fuel fmt 0 []).out = .done buf := by
    rw [(Libc.stdioLoop_comes ap 0 [] ⟨h, Nat.le_refl fmt, rfl⟩ hf).2,
      Libc.itemsFilled_eq (Nat.zero_le _) hfits, items_plain, hb,
      List.nil_append, List.take_of_length_le (by omega)]
  have hfull : Libc.fullLength ap (plainFormat ps) = text.length := by
    rw [Libc.fullLength, items_plain, hb]
    omega
  have hfine := Libc.fine_vsnprintf_iff ap stack str h hf hsize
  rw [hfull] at hfine
  -- and what it comes to where its copy is right
  have hlibc : (size < 2 ^ 31 ∨ (text.length : Int) < toInt32 size) →
      (Libc.vsnprintf m fuel stack str size fmt ap).out
        = .done (setByte (fun a => if str ≤ a ∧ a < str + buf.length
        then Libc.bufByte stack buf (a - str) else m a) (str + buf.length) 0, text.length) := by
    intro hcond
    have hn : Libc.copyLen size buf.length = buf.length := copyLen_text (by omega) (hblen ▸ hcond)
    have hshort : ¬ buf.length ≥ Libc.userHalf := by
      rw [Libc.userHalf]
      omega
    rw [Libc.vsnprintf_eq hloop, hn, if_neg hshort, hblen]
    rfl
  rw [htext, ← hsame]
  constructor
  · intro hagree
    obtain ⟨r, m', hr, hdone, hslice, _, hw⟩ := hagree
    obtain ⟨_, _, hcond⟩ := hfine.mp hw
    rw [hkern] at hr
    cases hr
    rw [hlibc hcond] at hdone
    cases hdone
    dsimp only at hslice
    rw [← hblen, copied_slice] at hslice
    exact ⟨hslice, hcond⟩
  · intro hboth
    obtain ⟨hbuf, hcond⟩ := hboth
    refine ⟨_, _, hkern, hlibc hcond, ?_, ?_, hfine.mpr ⟨hfits, by omega, hcond⟩⟩
    · dsimp only
      rw [← hblen, copied_slice, hbuf]
    · dsimp only
      rw [← hblen, setByte_self]

/-- A string and a number. -/
theorem formatters_agree_pair :
    FormattersAgree (ofStr (cstr "%s%x")) 5 (fun _ => 0) 64 0x1000 64 0 ⟨fun _ => 255, fun _ => cstr "0x"⟩ :=
  (formatters_agree_iff ⟨fun _ => 255, fun _ => cstr "0x"⟩ (fun _ => 0) 0x1000
    (show StrAt (ofStr (cstr "%s%x")) 0 (plainFormat [.string, .hex]) from strAt_ofStr (by decide))
      (by decide) (by decide) (by decide) (by decide) (by decide)).mpr
    ⟨⟨nofun, nofun, trivial⟩, .inl (by decide)⟩

/-- The least `int`. -/
theorem formatters_disagree : ¬ ∀ (m : Mem) (fmt fuel outSize size : Nat) (ps : List PlainPiece) (ap : VaList)
    (stack : Nat → UInt8) (str : Nat), StrAt m fmt (plainFormat ps) → (plainFormat ps).length < fuel →
    (plainText ap ps 0).length < 1023 → (plainText ap ps 0).length < outSize → (plainText ap ps 0).length < size →
    size < 2 ^ 31 → FormattersAgree m fuel stack outSize str size fmt ap := by
  intro hall
  obtain ⟨r, m', hr, hdone, hslice, _⟩ :=
    hall (ofStr (cstr "%d")) 0 3 64 64 [.int] ⟨fun _ => 0x80000000, fun _ => []⟩
    (fun _ => 0) 0x1000 (strAt_ofStr (by decide)) (by decide) (by decide) (by decide) (by decide)
      (by decide)
  have hkern : (kvsnprintf (ofStr (cstr "%d")) 3 (some 64) 0 ⟨fun _ => 0x80000000, fun _ => []⟩).out
      = .done ⟨cstr "-2147483648", 11⟩ := by decide +kernel
  have hlibc : ((Libc.vsnprintf (ofStr (cstr "%d")) 3 (fun _ => 0) 0x1000 64 0 ⟨fun _ => 0x80000000,
    fun _ => []⟩).out.get?.map
      fun r => RingBuf.slice r.1 0x1000 11) = some (cstr "-./,),(-*,(") := by decide +kernel
  rw [hkern] at hr
  cases hr
  rw [hdone] at hlibc
  have hsame := (Option.some_inj.mp hlibc).symm.trans hslice
  exact absurd hsame (by decide)

end VnlKernel
