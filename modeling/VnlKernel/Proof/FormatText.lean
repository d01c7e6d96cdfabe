import VnlKernel.Kernel.Printf
import Mathlib.Data.List.TakeWhile

/-!
# What a format makes of its arguments

A format is a row of pieces: single characters, directives, and at its very end perhaps a
directive that was never finished. Each piece puts some characters into the buffer, and
which ones depends on the arguments only, not on the buffer, but for where they are cut off.
The loop of `kvsnprintf` is followed piece by piece.
-/

namespace VnlKernel

open ByteMem Bits Logged CString

/-! ## Stores -/

/-- The stores to the `n` places from `k` on. -/
def stores (k n : Nat) : List FmtEvent := (List.range' k n).map .store

theorem mem_stores {k n : Nat} {e : FmtEvent} : e ∈ stores k n ↔ ∃ i, e = .store i ∧ k ≤ i
    ∧ i < k + n := by
  rw [stores, List.mem_map]
  constructor
  · intro ⟨i, hi, he⟩
    rw [List.mem_range'_1] at hi
    exact ⟨i, he.symm, hi⟩
  · intro ⟨i, he, hi⟩
    exact ⟨i, List.mem_range'_1.mpr hi, he.symm⟩

theorem storeChar_eq (text : CStr) (c : UInt8) :
    storeChar text c = ⟨[.store text.length], .done (text ++ [c])⟩ := rfl

theorem storeAll_eq : ∀ (s text : CStr),
    storeAll text s = ⟨stores text.length s.length, .done (text ++ s)⟩
  | [], text => by
      rw [List.append_nil]
      rfl
  | c :: s, text => by
      rw [storeAll, bind_of_done rfl, storeAll_eq s, storeChar_eq, List.append_assoc,
        List.length_append]
      rfl

theorem storeAll_append (text s t : CStr) :
    (storeAll text s >>= fun text => storeAll text t) = storeAll text (s ++ t) := by
  rw [bind_of_done (a := text ++ s) (by rw [storeAll_eq]), storeAll_eq, storeAll_eq, storeAll_eq]
  simp only [List.length_append, List.append_assoc, stores, ← List.range'_append_1, List.map_append]

theorem storeAll_ite (c : Prop) [Decidable c] (text s : CStr) :
    (if c then storeAll text s else pure text) = storeAll text (if c then s else []) := by
  split
  · rfl
  · rfl

/-- As much of a text as still fits before the last byte of the buffer. -/
def roomFor (text s : CStr) : CStr := s.take (fmtBufSize - 1 - text.length)

theorem emitAll_eq : ∀ (s text : CStr), emitAll text s = storeAll text (roomFor text s)
  | [], text => by
      rw [emitAll, roomFor, List.take_nil]
      rfl
  | c :: s, text => by
      rw [emitAll, emit]
      by_cases h : text.length < fmtBufSize - 1
      · have hroom : roomFor text (c :: s) = c :: roomFor (text ++ [c]) s := by
          rw [roomFor, roomFor, List.length_append, List.length_singleton,
            show fmtBufSize - 1 - text.length
              = (fmtBufSize - 1 - (text.length + 1)) + 1 by omega, List.take_succ_cons]
        rw [if_pos h, bind_of_done rfl, emitAll_eq s, hroom, storeAll, bind_of_done rfl]
      · have hroom : roomFor text (c :: s) = [] := by
          rw [roomFor, show fmtBufSize - 1 - text.length = 0 by omega, List.take_zero]
        have hroom' : roomFor text s = [] := by
          rw [roomFor, show fmtBufSize - 1 - text.length = 0 by omega, List.take_zero]
        rw [if_neg h, pure_bind, emitAll_eq s, hroom, hroom']

/-- The string gets into the buffer whole, and then the loop ends; or it fills the buffer. -/
theorem emitString_eq : ∀ (s text : CStr), emitString text s =
    storeAll text (roomFor text s) >>= fun text' =>
      if s.length ≤ fmtBufSize - 1 - text.length then pure text' else .lift .timeout
  | [], text => by
      rw [emitString, roomFor, List.take_nil]
      rfl
  | c :: s, text => by
      rw [emitString]
      by_cases h : text.length < fmtBufSize - 1
      · have hroom : roomFor text (c :: s) = c :: roomFor (text ++ [c]) s := by
          rw [roomFor, roomFor, List.length_append, List.length_singleton,
            show fmtBufSize - 1 - text.length
              = (fmtBufSize - 1 - (text.length + 1)) + 1 by omega, List.take_succ_cons]
        have hfits : (c :: s).length ≤ fmtBufSize - 1 - text.length
            ↔ s.length ≤ fmtBufSize - 1 - (text ++ [c]).length := by
          rw [List.length_cons, List.length_append, List.length_singleton]
          omega
        rw [if_pos h, hroom, storeAll, Logged.bind_assoc, bind_of_done (x := storeChar text c) rfl,
          bind_of_done (x := storeChar text c) rfl, emitString_eq s]
        simp only [hfits]
      · have hroom : roomFor text (c :: s) = [] := by
          rw [roomFor, show fmtBufSize - 1 - text.length = 0 by omega, List.take_zero]
        rw [if_neg h, hroom, storeAll, Logged.pure_bind, List.length_cons, if_neg (by omega)]

theorem emitAll_one (text : CStr) (c : UInt8) : emitAll text [c] = emit text c := by
  rw [emitAll]
  exact Logged.bind_pure _

/-! ## Numbers -/

/-- The digits of a number, as they are printed. -/
def numeral (base : Nat) (upper : Bool) (val : Nat) : CStr := (Numeral.ofNat base val).map (digitChar upper)

/-- How many characters fill a sign and digits up to the width. -/
def fillOf (width : Int) (sign digits : CStr) : Nat := (width - (digits.length + sign.length : Nat)).toNat

/-- A sign and digits, and what fills them up to the width: blanks behind them, blanks in front of
them, or zeros between them. -/
def padded (left : Bool) (pad : UInt8) (width : Int) (sign digits : CStr) : CStr :=
  if left then sign ++ digits ++ List.replicate (fillOf width sign digits) (ascii ' ')
  else if pad = ascii ' ' then List.replicate (fillOf width sign digits) (ascii ' ') ++ sign ++ digits
  else if pad = ascii '0' then sign ++ List.replicate (fillOf width sign digits) (ascii '0') ++ digits
  else sign ++ digits

/-- The sign that is printed, if one is. -/
def signOf (signPlus negative : Bool) : CStr :=
  if negative then [ascii '-'] else if signPlus then [ascii '+'] else []

theorem tmpDigits_reverse {val base : Nat} {upper : Bool} (hb : 2 ≤ base) (hv : val < 2 ^ 64) :
    (tmpDigits val base upper).reverse = numeral base upper val := by
  rw [tmpDigits, numeral, Numeral.ofNat]
  by_cases h : val = 0
  · rw [if_pos h, if_pos h]
    rfl
  · have hlt : val < base ^ 64 := Nat.lt_of_lt_of_le hv (Nat.pow_le_pow_left hb 64)
    rw [if_neg h, if_neg h, Numeral.divide_eq_digits hb hlt, List.map_reverse]

/-- **`fmt_uint` stores a number, its sign, and the padding where the flags put it.** -/
theorem fmtUint_eq (text : CStr) {val base : Nat} {upper : Bool} {width : Int} {pad : UInt8}
    {left signPlus negative : Bool} (hb : 2 ≤ base) (hv : val < 2 ^ 64) :
    fmtUint text val base upper width pad left signPlus negative
      = storeAll text (padded left pad width (signOf signPlus negative)
      (numeral base upper val)) := by
  have hpad : ∀ sign digits : CStr, (if width > ((digits.length + sign.length : Nat) : Int)
      then (width - (digits.length + sign.length : Nat)).toNat else 0)
          = fillOf width sign digits := by
    intro sign digits
    rw [fillOf]
    split
    · rfl
    · omega
  have hlen : (tmpDigits val base upper).length = (numeral base upper val).length := by
    rw [← tmpDigits_reverse hb hv, List.length_reverse]
  rw [fmtUint]
  rw [← signOf, hlen, tmpDigits_reverse hb hv, hpad, padded]
  generalize fillOf width _ _ = fill
  simp only [storeAll_ite, storeAll_append]
  congr 1
  cases left with
  | true => simp
  | false =>
      by_cases hs : pad = ascii ' '
      · rw [hs]
        simp [show ascii ' ' ≠ ascii '0' by decide]
      · by_cases hz : pad = ascii '0'
        · rw [hz]
          simp [show ascii '0' ≠ ascii ' ' by decide]
        · simp [hs, hz]

/-! ## What a directive puts into the buffer -/

/-- How characters get into the buffer. -/
inductive PartKind where
  /-- Through `EMIT`, each of them. -/
  | bounded
  /-- By `fmt_uint`. -/
  | free
  /-- Through `EMIT`, with the next one only where there was room for the last. -/
  | whole
deriving DecidableEq

/-- Characters of a directive. -/
structure Part where
  kind : PartKind
  chars : CStr

/-- What of them gets into the buffer. -/
def Part.added (text : CStr) (p : Part) : CStr :=
  if p.kind = .free then p.chars else roomFor text p.chars

@[simp] theorem Part.added_bounded (text s : CStr) :
    Part.added text ⟨.bounded, s⟩ = roomFor text s :=
  rfl

@[simp] theorem Part.added_whole (text s : CStr) : Part.added text ⟨.whole, s⟩ = roomFor text s :=
  rfl

/-- The loop that puts them there comes to an end. -/
def Part.Ends (text : CStr) (p : Part) : Prop :=
  p.kind = .whole → p.chars.length ≤ fmtBufSize - 1 - text.length

instance (text : CStr) (p : Part) : Decidable (p.Ends text) := inferInstanceAs (Decidable (_ → _))

/-- The characters of a directive, one part after the other. -/
def putParts : CStr → List Part → Logged FmtEvent CStr
  | text, [] => pure text
  | text, p :: ps => do
      let text' ← storeAll text (p.added text)
      if p.Ends text then putParts text' ps else .lift .timeout

/-- The buffer afterwards. -/
def afterParts (text : CStr) (ps : List Part) : CStr := ps.foldl (fun text p => text ++ p.added text) text

/-- All of the loops end. -/
def EndParts : CStr → List Part → Prop
  | _, [] => True
  | text, p :: ps => p.Ends text ∧ EndParts (text ++ p.added text) ps

instance decidableEndParts : ∀ (text : CStr) (ps : List Part), Decidable (EndParts text ps)
  | _, [] => .isTrue trivial
  | text, p :: ps =>
      have := decidableEndParts (text ++ p.added text) ps
      inferInstanceAs (Decidable (_ ∧ _))

/-- A string, and what fills it up to the width. -/
def stringParts (left : Bool) (width : Int) (s : CStr) : List Part :=
  let fill := List.replicate (width - toInt32 s.length).toNat (ascii ' ')
  if left then [⟨.whole, s⟩, ⟨.bounded, fill⟩] else [⟨.bounded, fill⟩, ⟨.whole, s⟩]

def FmtSpec.parts (ap : VaList) (i : Nat) (d : FmtSpec) : List Part :=
  match d.conv with
  | .char => [⟨.bounded, [((ap.word i).setWidth 8).toNat.toUInt8]⟩]
  | .string => stringParts d.flags.left d.width (ap.string i)
  | .signed =>
      let v := signedArg ap i d.long
      [⟨.free, padded d.flags.left d.flags.pad d.width (signOf d.flags.signPlus v.msb)
        (numeral 10 false (if v.msb then (-v).toNat else v.toNat))⟩]
  | .unsigned base upper =>
      [⟨.free, padded d.flags.left d.flags.pad d.width [] (numeral base upper (unsignedArg ap i d.long))⟩]
  | .binary => [⟨.free, padded d.flags.left d.flags.pad d.width [] (numeral 2 false (ap.word i).toNat)⟩]
  | .pointer => [⟨.bounded, cstr "0x"⟩, ⟨.free, padded false (ascii '0') 16 [] (numeral 16 false (ap.word i).toNat)⟩]
  | .percent => [⟨.bounded, [ascii '%']⟩]
  | .ignored => []
  | .other c => [⟨.bounded, [ascii '%', c]⟩]

/-- How many arguments a conversion takes. -/
def FmtConv.args : FmtConv → Nat
  | .percent | .ignored | .other _ => 0
  | _ => 1

/-- The bases of the directives there are. -/
def FmtConv.BaseOk : FmtConv → Prop
  | .unsigned base _ => 2 ≤ base
  | _ => True

theorem convOf_baseOk (c : UInt8) : (convOf c).BaseOk := by
  unfold convOf
  repeat' split
  all_goals simp [FmtConv.BaseOk]

theorem putParts_cons {p : Part} (hp : p.kind ≠ .whole) (text : CStr) (ps : List Part) :
    putParts text (p :: ps) = storeAll text (p.added text) >>= fun text => putParts text ps := by
  have hends : p.Ends text := fun h => absurd h hp
  simp only [putParts, if_pos hends]

theorem putParts_bounded (text s : CStr) (ps : List Part) :
    putParts text (⟨.bounded, s⟩ :: ps) = emitAll text s >>= fun text => putParts text ps := by
  rw [putParts_cons (fun h => by cases h), Part.added_bounded, emitAll_eq]

theorem putParts_free (text s : CStr) (ps : List Part) :
    putParts text (⟨.free, s⟩ :: ps) = storeAll text s >>= fun text => putParts text ps :=
  putParts_cons (p := ⟨.free, s⟩) (fun h => by cases h) text ps

theorem putParts_whole (text s : CStr) (ps : List Part) :
    putParts text (⟨.whole, s⟩ :: ps) = emitString text s >>= fun text => putParts text ps := by
  have hends : Part.Ends text ⟨.whole, s⟩ ↔ s.length ≤ fmtBufSize - 1 - text.length :=
    forall_prop_of_true rfl
  rw [putParts, emitString_eq, Logged.bind_assoc, Part.added_whole]
  refine congrArg _ (funext fun text' => ?_)
  simp only [hends]
  split
  · rw [Logged.pure_bind]
  · rfl

theorem signedArg_abs (v : BitVec 64) : (if v.msb then (-v).toNat else v.toNat) < 2 ^ 64 := by
  split
  · exact (-v).isLt
  · exact v.isLt

theorem unsignedArg_lt (ap : VaList) (i : Nat) (long : Bool) : unsignedArg ap i long < 2 ^ 64 := by
  rw [unsignedArg]
  split
  · exact (ap.word i).isLt
  · exact Nat.lt_of_lt_of_le ((ap.word i).setWidth 32).isLt (by decide)

/-- **Each directive puts its parts into the buffer**, and goes on with the argument behind its own.
-/
theorem convert_eq (ap : VaList) (i : Nat) (text : CStr) {d : FmtSpec} (hb : d.conv.BaseOk) :
    convert ap i text d = putParts text (d.parts ap i) >>= fun text =>
      pure (text, i + d.conv.args) := by
  obtain ⟨⟨left, signPlus, pad⟩, width, long, conv⟩ := d
  cases conv with
  | char =>
      rw [FmtSpec.parts, putParts_bounded, emitAll_one, Logged.bind_assoc]
      rfl
  | string =>
      have hfill : (if width > toInt32 (ap.string i).length then
        (width - toInt32 (ap.string i).length).toNat else 0)
          = (width - toInt32 (ap.string i).length).toNat := by
        split
        · rfl
        · omega
      rw [FmtSpec.parts, convert, stringParts]
      cases left with
      | true =>
          simp only [hfill, if_true, putParts_whole, putParts_bounded, Logged.bind_assoc,
            Logged.pure_bind, Bool.not_true, Bool.false_eq_true, if_false]
          rfl
      | false =>
          simp only [hfill, Bool.not_false, Bool.false_eq_true, if_false, if_true, putParts_whole,
            putParts_bounded, Logged.bind_assoc, Logged.pure_bind]
          rfl
  | signed =>
      rw [FmtSpec.parts, putParts_free, ← fmtUint_eq text (by decide) (signedArg_abs _),
        Logged.bind_assoc]
      rfl
  | unsigned base upper =>
      rw [FmtSpec.parts, putParts_free, show ([] : CStr) = signOf false false from rfl,
        ← fmtUint_eq text hb (unsignedArg_lt ..), Logged.bind_assoc]
      rfl
  | binary =>
      rw [FmtSpec.parts, putParts_free, show ([] : CStr) = signOf false false from rfl,
        ← fmtUint_eq text (by decide) (ap.word i).isLt, Logged.bind_assoc]
      rfl
  | pointer =>
      rw [FmtSpec.parts, putParts_bounded, Logged.bind_assoc]
      simp only [putParts_free, show ([] : CStr) = signOf false false from rfl,
        ← fmtUint_eq _ (show 2 ≤ 16 by decide) (ap.word i).isLt, Logged.bind_assoc]
      rfl
  | percent =>
      rw [FmtSpec.parts, putParts_bounded, emitAll_one, Logged.bind_assoc]
      rfl
  | ignored => rfl
  | other c =>
      rw [FmtSpec.parts, putParts_bounded, Logged.bind_assoc]
      rfl

/-! ## Formats, piece by piece -/

/-- A directive as it stands in the format; without a width it says `*`. -/
structure Directive where
  flags : FmtFlags
  width : Option Int
  long : Bool
  conv : FmtConv
deriving DecidableEq

inductive Piece where
  | char (c : UInt8)
  | dir (d : Directive)
  /-- The format ends before the directive says what is to be printed. -/
  | cut
deriving DecidableEq

def splitFlags : CStr → FmtFlags → FmtFlags × CStr
  | [], f => (f, [])
  | c :: s, f =>
      if c = ascii '-' then splitFlags s { f with left := true }
      else if c = ascii '+' then splitFlags s { f with signPlus := true }
      else if c = ascii '0' then splitFlags s { f with pad := ascii '0' }
      else if c = ascii '#' then splitFlags s f
      else (f, c :: s)

def splitDigits : CStr → Int → Int × CStr
  | [], width => (width, [])
  | c :: s, width => if isDigit c then splitDigits s (widthDigit width c) else (width, c :: s)

def splitWidth (s : CStr) : Option Int × CStr :=
  if s.head? = some (ascii '*') then (none, s.drop 1) else ((splitDigits s 0).1, (splitDigits s 0).2)

def splitLength (s : CStr) : Bool × CStr :=
  if s.head? = some (ascii 'l') then
    (true, if (s.drop 1).head? = some (ascii 'l') then s.drop 2 else s.drop 1)
  else if s.head? = some (ascii 'z') then (true, s.drop 1)
  else (false, s)

/-- Flags, width and length, and what stands behind them. -/
def splitSpec (s : CStr) : FmtFlags × Option Int × Bool × CStr :=
  let (flags, s) := splitFlags s noFlags
  let (width, s) := splitWidth s
  let (long, s) := splitLength s
  (flags, width, long, s)

/-- The pieces of a format of `n` bytes. -/
def pieces : Nat → CStr → List Piece
  | 0, _ => []
  | _ + 1, [] => []
  | n + 1, c :: s =>
      if c ≠ ascii '%' then .char c :: pieces n s
      else
        match splitSpec s with
        | (_, _, _, []) => [.cut]
        | (flags, width, long, c :: s) => .dir ⟨flags, width, long, convOf c⟩ :: pieces n s

theorem pieces_nil (n : Nat) : pieces n [] = [] := by
  cases n with
  | zero => rfl
  | succ n => rfl

theorem pieces_cons (n : Nat) (c : UInt8) (s : CStr) :
    ∃ pc ps, pieces (n + 1) (c :: s) = pc :: ps := by
  rw [pieces]
  repeat' split
  all_goals exact ⟨_, _, rfl⟩

/-- The directive, once the argument of a `*` is known. -/
def Directive.spec (d : Directive) (ap : VaList) (i : Nat) : FmtSpec :=
  ⟨d.flags, d.width.getD (ap.int i), d.long, d.conv⟩

/-- Where its own argument is. -/
def Directive.arg (d : Directive) (i : Nat) : Nat := if d.width.isNone then i + 1 else i

/-! ## Reading a directive -/

/-- What is left at `p` of a string from `b` to `e`. -/
structure StrTo (m : Mem) (b e p : Nat) (s : CStr) : Prop where
  str : StrAt m p s
  low : b ≤ p
  stop : p + s.length = e

/-- A read from `b` on, up to `e`. -/
def ReadIn (b e : Nat) (ev : FmtEvent) : Prop := ∃ a, ev = .read a ∧ b ≤ a ∧ a ≤ e

section Reading

variable {m : Mem} {b e p : Nat} {s : CStr} {c : UInt8}

theorem StrTo.le (h : StrTo m b e p s) : p ≤ e := by
  have := h.stop
  omega

theorem StrTo.tail (h : StrTo m b e p (c :: s)) : StrTo m b e (p + 1) s :=
  ⟨h.str.2.2, Nat.le_succ_of_le h.low, by rw [← h.stop, List.length_cons]; omega⟩

/-- The byte there, and whether it is a certain one. -/
theorem StrTo.byte (h : StrTo m b e p s) : m p = s.head?.getD 0 := by
  cases s with
  | nil => exact h.str
  | cons c s => exact h.str.1

theorem StrTo.is (h : StrTo m b e p s) (hc : c ≠ 0) : m p = c ↔ s.head? = some c := by
  rw [h.byte]
  cases s with
  | nil => simp [Ne.symm hc]
  | cons d s => simp

theorem StrTo.drop (h : StrTo m b e p s) {c : UInt8} (hc : s.head? = some c) :
    StrTo m b e (p + 1) (s.drop 1) := by
  cases s with
  | nil => cases hc
  | cons d s => exact h.tail

theorem loadFmt_comes (h : StrTo m b e p s) : (loadFmt m p).Comes (ReadIn b e) (m p) :=
  Comes.bind (.note ⟨p, rfl, h.low, h.le⟩) (.pure _)

theorem readFlags_comes : ∀ {s : CStr} {fuel p : Nat} {f : FmtFlags}, StrTo m b e p s
    → s.length < fuel →
    ∃ q, StrTo m b e q (splitFlags s f).2
      ∧ (readFlags m fuel p f).Comes (ReadIn b e) (q, (splitFlags s f).1)
  | _, 0, _, _, _, hf => absurd hf (by omega)
  | [], fuel + 1, p, f, h, _ => by
      have h0 : m p = 0 := h.str
      refine ⟨p, h, Comes.bind (loadFmt_comes h) ?_⟩
      rw [h0]
      exact .pure _
  | c :: s, fuel + 1, p, f, h, hf => by
      have hc : m p = c := h.str.1
      rw [List.length_cons] at hf
      rw [readFlags, splitFlags]
      by_cases h1 : c = ascii '-'
      · obtain ⟨q, hq, hr⟩ := readFlags_comes (f := { f with left := true }) h.tail
          (Nat.lt_of_succ_lt_succ hf)
        rw [if_pos h1]
        refine ⟨q, hq, Comes.bind (loadFmt_comes h) ?_⟩
        rw [hc, if_pos h1]
        exact hr
      by_cases h2 : c = ascii '+'
      · obtain ⟨q, hq, hr⟩ := readFlags_comes (f := { f with signPlus := true }) h.tail
          (Nat.lt_of_succ_lt_succ hf)
        rw [if_neg h1, if_pos h2]
        refine ⟨q, hq, Comes.bind (loadFmt_comes h) ?_⟩
        rw [hc, if_neg h1, if_pos h2]
        exact hr
      by_cases h3 : c = ascii '0'
      · obtain ⟨q, hq, hr⟩ := readFlags_comes (f := { f with pad := ascii '0' }) h.tail
          (Nat.lt_of_succ_lt_succ hf)
        rw [if_neg h1, if_neg h2, if_pos h3]
        refine ⟨q, hq, Comes.bind (loadFmt_comes h) ?_⟩
        rw [hc, if_neg h1, if_neg h2, if_pos h3]
        exact hr
      by_cases h4 : c = ascii '#'
      · obtain ⟨q, hq, hr⟩ := readFlags_comes (f := f) h.tail (Nat.lt_of_succ_lt_succ hf)
        rw [if_neg h1, if_neg h2, if_neg h3, if_pos h4]
        refine ⟨q, hq, Comes.bind (loadFmt_comes h) ?_⟩
        rw [hc, if_neg h1, if_neg h2, if_neg h3, if_pos h4]
        exact hr
      · rw [if_neg h1, if_neg h2, if_neg h3, if_neg h4]
        refine ⟨p, h, Comes.bind (loadFmt_comes h) ?_⟩
        rw [hc, if_neg h1, if_neg h2, if_neg h3, if_neg h4]
        exact .pure _

theorem isDigit_zero : isDigit 0 = false := by decide

theorem readDigits_comes : ∀ {s : CStr} {fuel p : Nat} {width : Int}, StrTo m b e p s
    → s.length < fuel →
    ∃ q, StrTo m b e q (splitDigits s width).2
      ∧ (readDigits m fuel p width).Comes (ReadIn b e) (q, (splitDigits s width).1)
  | _, 0, _, _, _, hf => absurd hf (by omega)
  | [], fuel + 1, p, width, h, _ => by
      have h0 : m p = 0 := h.str
      refine ⟨p, h, Comes.bind (loadFmt_comes h) ?_⟩
      rw [h0, isDigit_zero]
      exact .pure _
  | c :: s, fuel + 1, p, width, h, hf => by
      have hc : m p = c := h.str.1
      rw [List.length_cons] at hf
      rw [readDigits, splitDigits]
      by_cases hd : isDigit c = true
      · obtain ⟨q, hq, hr⟩ := readDigits_comes h.tail (Nat.lt_of_succ_lt_succ hf)
        rw [if_pos hd]
        refine ⟨q, hq, Comes.bind (loadFmt_comes h) ?_⟩
        rw [hc, if_pos hd]
        exact hr
      · rw [if_neg hd]
        refine ⟨p, h, Comes.bind (loadFmt_comes h) ?_⟩
        rw [hc, if_neg hd]
        exact .pure _

theorem readWidth_comes {fuel : Nat} (ap : VaList) (i : Nat) (h : StrTo m b e p s)
    (hf : s.length < fuel) :
    ∃ q, StrTo m b e q (splitWidth s).2 ∧ (readWidth m fuel ap p i).Comes (ReadIn b e)
      (q, if (splitWidth s).1.isNone then i + 1 else i, (splitWidth s).1.getD (ap.int i)) := by
  rw [readWidth, splitWidth]
  by_cases hstar : s.head? = some (ascii '*')
  · rw [if_pos hstar]
    refine ⟨p + 1, h.drop hstar, Comes.bind (loadFmt_comes h) ?_⟩
    rw [if_pos ((h.is (by decide)).mpr hstar)]
    exact .pure _
  · obtain ⟨q, hq, hr⟩ := readDigits_comes h hf
    rw [if_neg hstar]
    refine ⟨q, hq, Comes.bind (loadFmt_comes h) ?_⟩
    rw [if_neg (mt (h.is (by decide)).mp hstar)]
    exact Comes.bind hr (.pure _)

theorem readLength_comes (h : StrTo m b e p s) :
    ∃ q, StrTo m b e q (splitLength s).2
      ∧ (readLength m p).Comes (ReadIn b e) (q, (splitLength s).1) := by
  rw [readLength, splitLength]
  by_cases hl : s.head? = some (ascii 'l')
  · have ht := h.drop hl
    rw [if_pos hl]
    by_cases hll : (s.drop 1).head? = some (ascii 'l')
    · have hdrop : (s.drop 1).drop 1 = s.drop 2 := List.drop_drop
      rw [if_pos hll]
      refine ⟨p + 2, hdrop ▸ ht.drop hll, Comes.bind (loadFmt_comes h) ?_⟩
      rw [if_pos ((h.is (by decide)).mpr hl)]
      refine Comes.bind (loadFmt_comes ht) ?_
      rw [if_pos ((ht.is (by decide)).mpr hll)]
      exact .pure _
    · rw [if_neg hll]
      refine ⟨p + 1, ht, Comes.bind (loadFmt_comes h) ?_⟩
      rw [if_pos ((h.is (by decide)).mpr hl)]
      refine Comes.bind (loadFmt_comes ht) ?_
      rw [if_neg (mt (ht.is (by decide)).mp hll)]
      exact .pure _
  rw [if_neg hl]
  by_cases hz : s.head? = some (ascii 'z')
  · rw [if_pos hz]
    refine ⟨p + 1, h.drop hz, Comes.bind (loadFmt_comes h) ?_⟩
    rw [if_neg (mt (h.is (by decide)).mp hl), if_pos ((h.is (by decide)).mpr hz)]
    exact .pure _
  · rw [if_neg hz]
    refine ⟨p, h, Comes.bind (loadFmt_comes h) ?_⟩
    rw [if_neg (mt (h.is (by decide)).mp hl), if_neg (mt (h.is (by decide)).mp hz)]
    exact .pure _

theorem splitFlags_length : ∀ (s : CStr) (f : FmtFlags), (splitFlags s f).2.length ≤ s.length
  | [], _ => Nat.le_refl _
  | c :: s, f => by
      rw [splitFlags, List.length_cons]
      have := fun f => splitFlags_length s f
      repeat' split
      all_goals first
        | exact Nat.le_succ_of_le (this _)
        | exact Nat.le_refl _

/-- **A directive is read as it stands there**, to its conversion, or to the end of the format. -/
theorem readSpec_comes {fuel : Nat} (ap : VaList) (i : Nat) (h : StrTo m b e p s)
    (hf : s.length < fuel)
    {flags : FmtFlags} {width : Option Int} {long : Bool} {r : CStr}
    (hs : splitSpec s = (flags, width, long, r)) :
    ∃ q, StrTo m b e q r ∧ (readSpec m fuel ap p i).Comes (ReadIn b e)
    (q + 1, if width.isNone then i + 1 else i,
      ⟨flags, width.getD (ap.int i), long, convOf (r.head?.getD 0)⟩) := by
  obtain ⟨q1, hq1, h1⟩ := readFlags_comes (f := noFlags) h hf
  obtain ⟨q2, hq2, h2⟩ := readWidth_comes ap i hq1
    (Nat.lt_of_le_of_lt (splitFlags_length s noFlags) hf)
  obtain ⟨q3, hq3, h3⟩ := readLength_comes hq2
  rw [splitSpec] at hs
  dsimp only at hs
  obtain ⟨rfl, rfl, rfl, rfl⟩ : _ ∧ _ ∧ _ ∧ _ := by simpa only [Prod.mk.injEq] using hs
  refine ⟨q3, hq3, Comes.bind h1 (Comes.bind h2
    (Comes.bind h3 (Comes.bind (loadFmt_comes hq3) ?_)))⟩
  rw [← hq3.byte]
  exact .pure _

/-! ## The loop, piece by piece -/

/-- The argument behind those of a piece. -/
def Piece.next (i : Nat) : Piece → Nat
  | .dir d => d.arg i + d.conv.args
  | .char _ | .cut => i

/-- What a piece puts into the buffer; one that is cut off takes the NUL for its conversion. -/
def Piece.parts (ap : VaList) (i : Nat) : Piece → List Part
  | .char c => [⟨.bounded, [c]⟩]
  | .dir d => (d.spec ap i).parts ap (d.arg i)
  | .cut => [⟨.bounded, [ascii '%', 0]⟩]

theorem afterParts_length_le : ∀ (ps : List Part) (text : CStr),
    text.length ≤ (afterParts text ps).length
  | [], _ => Nat.le_refl _
  | p :: ps, text => by
      have h := afterParts_length_le ps (text ++ p.added text)
      rw [List.length_append] at h
      exact Nat.le_trans (Nat.le_add_right _ _) h

theorem putParts_eq : ∀ {ps : List Part} {text : CStr}, EndParts text ps → putParts text ps
    = ⟨stores text.length ((afterParts text ps).length - text.length), .done (afterParts text ps)⟩
  | [], text, _ => by
      rw [afterParts, List.foldl_nil, Nat.sub_self]
      rfl
  | p :: ps, text, hends => by
      have hle := afterParts_length_le ps (text ++ p.added text)
      have hlen : (text ++ p.added text).length = text.length + (p.added text).length :=
        List.length_append
      rw [putParts, bind_of_done (a := text ++ p.added text) (by rw [storeAll_eq]), storeAll_eq,
        if_pos hends.1, putParts_eq hends.2]
      have hafter : afterParts text (p :: ps) = afterParts (text ++ p.added text) ps := rfl
      have hsum : (afterParts text (p :: ps)).length - text.length = (p.added text).length
          + ((afterParts (text ++ p.added text) ps).length - (text ++ p.added text).length) := by
        rw [hafter]
        omega
      rw [hsum, hafter, stores, stores, stores, ← List.range'_append_1, List.map_append, hlen]

/-- A loop that does not end keeps the directive from ever being put out. -/
theorem putParts_stuck : ∀ {ps : List Part} {text : CStr}, ¬ EndParts text ps →
    (putParts text ps).out = .timeout
  | [], _, h => absurd trivial h
  | p :: ps, text, h => by
      rw [putParts, bind_of_done (a := text ++ p.added text) (by rw [storeAll_eq])]
      dsimp only
      by_cases hends : p.Ends text
      · rw [if_pos hends]
        exact putParts_stuck fun hrest => h ⟨hends, hrest⟩
      · rw [if_neg hends]
        rfl

/-- The loop reads a piece, puts it into the buffer, and goes on at `q`. -/
def ReadsPiece (m : Mem) (ap : VaList) (b e p fuel i : Nat) (text : CStr) (pc : Piece) (q : Nat) : Prop :=
  ∃ log j, (∀ ev ∈ log, ReadIn b e ev) ∧ (pc ≠ .cut → j = pc.next i) ∧
    kvsnprintfLoop m ap (fuel + 1) p i text = (⟨log, .done ()⟩ : Logged FmtEvent Unit) >>= fun _ =>
      putParts text (pc.parts ap i) >>= fun text => kvsnprintfLoop m ap fuel q j text

/-- **The loop takes a format apart piece by piece.** Behind a directive that is cut off it goes on
behind the end of the format. -/
theorem loop_piece {ap : VaList} {n fuel i : Nat} {text : CStr} {pc : Piece} {ps : List Piece}
    (h : StrTo m b e p (c :: s)) (hf : s.length < fuel) (hroom : text.length < fmtBufSize - 1)
    (hp : pieces (n + 1) (c :: s) = pc :: ps) :
    ∃ q s', ReadsPiece m ap b e p fuel i text pc q ∧ s'.length ≤ s.length ∧ ps = pieces n s'
      ∧ (pc ≠ .cut → StrTo m b e q s') ∧ (pc = .cut → q = e + 1) := by
  have hc : m p = c := h.str.1
  have h0 : ¬ (c = 0 ∨ ¬ text.length < fmtBufSize - 1) := by
    rw [not_or, not_not]
    exact ⟨h.str.2.1, hroom⟩
  have hload : (loadFmt m p).out = .done c := by rw [← hc]; rfl
  rw [pieces] at hp
  by_cases hpc : c ≠ ascii '%'
  · rw [if_pos hpc] at hp
    obtain ⟨rfl, rfl⟩ : _ ∧ _ := by simpa using hp
    refine ⟨p + 1, s, ⟨[.read p], i, ?_, fun _ => rfl, ?_⟩, Nat.le_refl _, rfl, fun _ => h.tail,
      fun h => by cases h⟩
    · exact (loadFmt_comes h).1
    · rw [kvsnprintfLoop, bind_of_done' hload, if_neg h0, if_pos hpc, Piece.parts,
        putParts_bounded, emitAll_one, Logged.bind_assoc]
      rfl
  · rw [if_neg hpc] at hp
    obtain ⟨⟨flags, width, long, r⟩, hsplit⟩ : ∃ x, splitSpec s = x := ⟨_, rfl⟩
    obtain ⟨q, hq, hread⟩ := readSpec_comes ap i h.tail hf hsplit
    rw [hsplit] at hp
    -- a directive: the digits and flags are read, then it is put out piece by piece
    have hloop : kvsnprintfLoop m ap (fuel + 1) p i text
      = (⟨(loadFmt m p).log ++ (readSpec m fuel ap (p + 1) i).log,
        .done ()⟩ : Logged FmtEvent Unit) >>= fun _ =>
        putParts text (FmtSpec.parts ap (if width.isNone then i + 1 else i)
          ⟨flags, width.getD (ap.int i), long, convOf (r.head?.getD 0)⟩) >>= fun text =>
        kvsnprintfLoop m ap fuel (q + 1)
          ((if width.isNone then i + 1 else i) + (convOf (r.head?.getD 0)).args) text := by
      rw [kvsnprintfLoop, bind_of_done hload, if_neg h0, if_neg hpc, bind_of_done hread.2]
      dsimp only
      rw [convert_eq ap _ text (convOf_baseOk _), Logged.bind_assoc, bind_of_done (x := ⟨_, _⟩) rfl]
      simp only [Logged.pure_bind, List.append_assoc]
    have hlog : ∀ ev ∈ (loadFmt m p).log ++ (readSpec m fuel ap (p + 1) i).log, ReadIn b e ev := by
      intro ev hev
      rcases List.mem_append.mp hev with hev | hev
      · exact (loadFmt_comes h).1 ev hev
      · exact hread.1 ev hev
    cases r with
    | nil =>
        obtain ⟨rfl, rfl⟩ : _ ∧ _ := by simpa using hp
        -- the directive is cut off, and the next read is behind the NUL
        have hend : q = e := by simpa using hq.stop
        refine ⟨q + 1, [], ⟨_, _, hlog, fun h => absurd rfl h, hloop⟩, Nat.zero_le _,
          (pieces_nil n).symm,
          fun h => absurd rfl h, fun _ => by rw [hend]⟩
    | cons d r =>
        obtain ⟨rfl, rfl⟩ : _ ∧ _ := by simpa using hp
        obtain ⟨q', hq', _⟩ := readSpec_comes (b := p + 1) ap i ⟨h.tail.str, Nat.le_refl _,
          h.tail.stop⟩ hf hsplit
        have hlow := hq'.low
        have hstop := hq'.stop
        have hstop' := h.tail.stop
        rw [List.length_cons] at hstop
        exact ⟨q + 1, r, ⟨_, _, hlog, fun _ => rfl,
          hloop⟩, by omega, rfl, fun _ => hq.tail, fun h => by cases h⟩

/-- The loop does not come behind a piece that is never put out. -/
theorem loop_stuck {ap : VaList} {n fuel i : Nat} {text : CStr} {pc : Piece} {ps : List Piece}
    (h : StrTo m b e p (c :: s)) (hf : s.length < fuel) (hroom : text.length < fmtBufSize - 1)
    (hp : pieces (n + 1) (c :: s) = pc :: ps) (hends : ¬ EndParts text (pc.parts ap i)) :
    (kvsnprintfLoop m ap (fuel + 1) p i text).out = .timeout := by
  obtain ⟨q, _, ⟨log, j, _, _, hloop⟩, _⟩ := loop_piece (i := i) h hf hroom hp
  rw [hloop, bind_of_done (a := ()) rfl, bind_timeout (putParts_stuck hends)]

/-- What the buffer holds behind the pieces; the loop is left when there is room for the NUL only.
-/
def filled (ap : VaList) : List Piece → Nat → CStr → CStr
  | [], _, text => text
  | pc :: ps, i, text =>
      if text.length < fmtBufSize - 1 then filled ap ps (pc.next i) (afterParts text (pc.parts ap i)) else text

theorem filled_length_le (ap : VaList) : ∀ (ps : List Piece) (i : Nat) (text : CStr),
    text.length ≤ (filled ap ps i text).length
  | [], _, _ => Nat.le_refl _
  | pc :: ps, i, text => by
      rw [filled]
      split
      · exact Nat.le_trans (afterParts_length_le _ _) (filled_length_le ap ps _ _)
      · exact Nat.le_refl _

/-- Every string that the loop comes to gets into the buffer whole. -/
def StringsFit (ap : VaList) : List Piece → Nat → CStr → Prop
  | [], _, _ => True
  | pc :: ps, i, text => text.length < fmtBufSize - 1 →
      EndParts text (pc.parts ap i) ∧ StringsFit ap ps (pc.next i) (afterParts text (pc.parts ap i))

/-- A read of the format, or a store before `len`. -/
def FmtWithin (b e len : Nat) (ev : FmtEvent) : Prop := ReadIn b e ev ∨ ∃ k, ev = .store k ∧ k < len

/-- At the end of the format, and with no room left, the loop is left. -/
theorem loop_ends {ap : VaList} {fuel i : Nat} {text : CStr}
    (hend : m p = 0 ∨ ¬ text.length < fmtBufSize - 1) :
    kvsnprintfLoop m ap (fuel + 1) p i text = ⟨[.read p], .done text⟩ := by
  rw [kvsnprintfLoop, bind_of_done (a := m p) rfl, if_pos hend]
  rfl

/-- **A run of the loop.** The pieces are put into the buffer one after the other. -/
theorem loop_comes (ap : VaList) : ∀ {n fuel p : Nat} {s : CStr} (i : Nat) (text : CStr),
    StrTo m b e p s → s.length ≤ n →
    s.length < fuel → Piece.cut ∉ pieces n s → StringsFit ap (pieces n s) i text →
    (kvsnprintfLoop m ap fuel p i text).Comes (FmtWithin b e (filled ap (pieces n s) i text).length)
      (filled ap (pieces n s) i text)
  | _, 0, _, _, _, _, _, _, hf, _, _ => absurd hf (by omega)
  | n, fuel + 1, p, [], i, text, h, _, _, _, _ => by
      rw [pieces_nil, filled, loop_ends (.inl h.str)]
      refine ⟨fun ev hev => ?_, rfl⟩
      rw [List.mem_singleton] at hev
      exact .inl ⟨p, hev, h.low, h.le⟩
  | 0, _, _, _ :: _, _, _, _, hn, _, _, _ => absurd hn (by simp)
  | n + 1, fuel + 1, p, c :: s, i, text, h, hn, hf, hcut, hfit => by
      rw [List.length_cons] at hn hf
      obtain ⟨pc, ps, hp⟩ := pieces_cons n c s
      rw [hp, List.mem_cons, not_or] at hcut
      rw [hp, StringsFit] at hfit
      rw [hp, filled]
      by_cases hroom : text.length < fmtBufSize - 1
      · obtain ⟨q, s', ⟨log, j, hlog, hj, hloop⟩, hle, hps, hstr, _⟩ :=
          loop_piece (i := i) h (Nat.lt_of_succ_lt_succ hf) hroom hp
        obtain ⟨hends, hfit⟩ := hfit hroom
        rw [if_pos hroom, hloop, hj (Ne.symm hcut.1), hps]
        have hrest := loop_comes ap (pc.next i) (afterParts text (pc.parts ap i))
          (hstr (Ne.symm hcut.1)) (Nat.le_trans hle (Nat.le_of_succ_le_succ hn))
          (Nat.lt_of_le_of_lt hle (Nat.lt_of_succ_lt_succ hf)) (hps ▸ hcut.2) (hps ▸ hfit)
        refine Comes.bind (a := ()) ⟨fun ev hev => .inl (hlog ev hev), rfl⟩ (Comes.bind ?_ hrest)
        rw [putParts_eq hends]
        refine ⟨fun ev hev => ?_, rfl⟩
        obtain ⟨k, rfl, _, hk⟩ := mem_stores.mp hev
        have h1 := afterParts_length_le (pc.parts ap i) text
        have h2 := filled_length_le ap (pieces n s') (pc.next i) (afterParts text (pc.parts ap i))
        exact .inr ⟨k, rfl, by omega⟩
      · rw [if_neg hroom, loop_ends (.inr hroom)]
        refine ⟨fun ev hev => ?_, rfl⟩
        rw [List.mem_singleton] at hev
        exact .inl ⟨p, hev, h.low, h.le⟩

end Reading

/-! ## The call -/

/-- What a format makes of its arguments. -/
def formatted (ap : VaList) (s : CStr) : CStr := filled ap (pieces s.length s) 0 []

/-- No directive is cut off. -/
def Complete (s : CStr) : Prop := Piece.cut ∉ pieces s.length s

instance (s : CStr) : Decidable (Complete s) := inferInstanceAs (Decidable (_ ∉ _))

/-- Every string is put out to its end. -/
def Ending (ap : VaList) (s : CStr) : Prop := StringsFit ap (pieces s.length s) 0 []

/-- Not a string. -/
def Piece.noString : Piece → Bool
  | .dir d => d.conv != .string
  | _ => true

theorem endParts_of_kind : ∀ {ps : List Part} {text : CStr}, (∀ p ∈ ps, p.kind ≠ .whole)
    → EndParts text ps
  | [], _, _ => trivial
  | p :: _, _, h => ⟨fun hp => absurd hp (h p (List.mem_cons_self ..)),
      endParts_of_kind fun q hq => h q (List.mem_cons_of_mem _ hq)⟩

theorem endParts_noString {ap : VaList} {i : Nat} {text : CStr} {pc : Piece}
    (h : pc.noString = true) : EndParts text (pc.parts ap i) := by
  refine endParts_of_kind fun p hp => ?_
  cases pc with
  | dir d =>
      obtain ⟨flags, width, long, conv⟩ := d
      cases conv with
      | string => cases h
      | ignored => cases hp
      | pointer =>
          rcases List.mem_cons.mp hp with rfl | hp
          · exact nofun
          · rw [List.mem_singleton.mp hp]
            exact nofun
      | _ =>
          rw [List.mem_singleton.mp hp]
          exact nofun
  | _ =>
      rw [List.mem_singleton.mp hp]
      exact nofun

theorem stringsFit_noString {ap : VaList} : ∀ {ps : List Piece} {i : Nat} {text : CStr},
    ps.all Piece.noString = true → StringsFit ap ps i text
  | [], _, _, _ => trivial
  | pc :: ps, _, _, h => by
      rw [List.all_cons, Bool.and_eq_true] at h
      exact fun _ => ⟨endParts_noString h.1, stringsFit_noString h.2⟩

theorem ending_noString (ap : VaList) {s : CStr}
    (h : (pieces s.length s).all Piece.noString = true) : Ending ap s :=
  stringsFit_noString h

/-- **The call returns** what the format makes of the arguments, as far as it may. -/
theorem kvsnprintf_done {m : Mem} {fmt fuel : Nat} {s : CStr} {ap : VaList} (out : Option Nat)
    (h : StrAt m fmt s) (hc : Complete s) (he : Ending ap s) (hf : s.length < fuel) :
    (kvsnprintf m fuel out fmt ap).out = .done ⟨match out with
      | some outSize => (formatted ap s).take
          (if (formatted ap s).length < outSize then (formatted ap s).length else sub64 outSize 1)
      | none => (formatted ap s).takeWhile (· ≠ 0), (formatted ap s).length⟩ := by
  have hloop := loop_comes ap 0 [] ⟨h, Nat.le_refl fmt, rfl⟩ (Nat.le_refl s.length) hf hc he
  rw [kvsnprintf, bind_out, hloop.2]
  cases out with
  | some outSize => rfl
  | none => rfl

/-- **What `kprintf` prints.** -/
theorem kprintf_done {ap : VaList} {s : CStr} (h0 : (0 : UInt8) ∉ s) (hc : Complete s)
    (he : Ending ap s) : kprintf s ap = .done ((formatted ap s).takeWhile (· ≠ 0)) := by
  rw [kprintf, kvsnprintf_done none (strAt_ofStr h0) hc he (Nat.lt_succ_self _)]
  rfl

theorem takeWhile_noZero {s : CStr} (h : (0 : UInt8) ∉ s) : s.takeWhile (· ≠ 0) = s := by
  refine List.takeWhile_eq_self_iff.mpr fun c hc => ?_
  rw [decide_eq_true_eq]
  rintro rfl
  exact h hc

theorem stringParts_plain {s : CStr} (h : s.length < 2 ^ 31) :
    stringParts false 0 s = [⟨.bounded, []⟩, ⟨.whole, s⟩] := by
  rw [stringParts, toInt32_of_lt h, show ((0 : Int) - s.length).toNat = 0 by omega]
  rfl

/-- A string that fits the buffer goes behind what is there. -/
theorem string_plain (text : CStr) {s : CStr} (h : text.length + s.length < fmtBufSize) :
    EndParts text (stringParts false 0 s)
      ∧ afterParts text (stringParts false 0 s) = text ++ s := by
  have hbuf : fmtBufSize = 2048 := rfl
  have hnil : roomFor text ([] : CStr) = [] := List.take_nil
  have hall : roomFor text s = s := List.take_of_length_le (by omega)
  rw [stringParts_plain (by omega)]
  constructor
  · refine ⟨nofun, fun _ => ?_, trivial⟩
    rw [Part.added_bounded, hnil, List.append_nil]
    change s.length ≤ _
    omega
  · change (text ++ roomFor text []) ++ roomFor (text ++ roomFor text []) s = _
    rw [hnil, List.append_nil, hall]

/-- A string is printed if the buffer has room for it, and otherwise the call never returns. -/
theorem kprintf_string {s : CStr} (h0 : (0 : UInt8) ∉ s) (h : s.length < 2 ^ 31) :
    kprintf (cstr "%s") (strArg s) = if s.length < fmtBufSize then .done s else .timeout := by
  have hbuf : fmtBufSize = 2048 := rfl
  by_cases hfits : s.length < fmtBufSize
  · obtain ⟨hends, hafter⟩ := string_plain [] (s := s) (by rw [List.length_nil]; omega)
    have hending : Ending (strArg s) (cstr "%s") := fun _ => ⟨hends, trivial⟩
    have hformatted : formatted (strArg s) (cstr "%s") = s := hafter
    rw [if_pos hfits, kprintf_done (by decide) (by decide) hending, hformatted, takeWhile_noZero h0]
  · have hstr : StrTo (ofStr (cstr "%s")) 0 2 0 (ascii '%' :: cstr "s") :=
      ⟨strAt_ofStr (by decide), Nat.le_refl _, rfl⟩
    have hstuck : ¬ EndParts [] (stringParts false 0 s) := by
      rw [stringParts_plain h]
      intro hends
      have hle : s.length ≤ fmtBufSize - 1 := hends.2.1 rfl
      omega
    have hloop : (kvsnprintfLoop (ofStr (cstr "%s")) (strArg s) ((cstr "%s").length + 1) 0 0 []).out
      = .timeout := loop_stuck hstr (by decide) (by decide)
        (show pieces 2 (cstr "%s") = [_] from rfl) hstuck
    rw [if_neg hfits, kprintf, kvsnprintf, bind_out, hloop]
    rfl

/-- A line that fits the buffer is printed whole. -/
theorem kprintf_line {s : CStr} (h0 : (0 : UInt8) ∉ s) (h : s.length < fmtBufSize - 2) :
    kprintf (cstr "%s\n") (strArg s) = .done (s ++ [ascii '\n']) := by
  have hbuf : fmtBufSize = 2048 := rfl
  obtain ⟨hends, hafter⟩ := string_plain [] (s := s) (by rw [List.length_nil]; omega)
  have hroom : roomFor s [ascii '\n'] = [ascii '\n'] :=
    List.take_of_length_le (by rw [List.length_singleton]; omega)
  have hending : Ending (strArg s) (cstr "%s\n") :=
    fun _ => ⟨hends, fun _ => ⟨⟨nofun, trivial⟩, trivial⟩⟩
  have hformatted : formatted (strArg s) (cstr "%s\n") = s ++ [ascii '\n'] := by
    change filled _ [.char (ascii '\n')] 1 (afterParts [] (stringParts false 0 s)) = _
    rw [hafter, List.nil_append, filled, if_pos (by omega)]
    change s ++ roomFor s [ascii '\n'] = _
    rw [hroom]
  have hnl : (0 : UInt8) ∉ s ++ [ascii '\n'] := by
    intro hz
    rcases List.mem_append.mp hz with hz | hz
    · exact h0 hz
    · exact absurd (List.mem_singleton.mp hz) (by decide)
  rw [kprintf_done (by decide) (by decide) hending, hformatted, takeWhile_noZero hnl]

end VnlKernel
