import VnlKernel.Proof.ArithTree
import Mathlib.Tactic.IntervalCases

/-!
# Expressions in writing

An expression is written with blanks in front of its tokens, and with a parenthesis wherever
an operand would bind less than its place asks for. The levels of the descent are those of C,
so without blanks what is read is what was written.

With blanks it is not. A primary skips those in front of it, and those in front of a closing
parenthesis do no harm, as the parenthesis is found by counting. But a level that looks for an
operator and finds a blank stops, and so do all the levels above it: the rest of the text, up to
the parenthesis, is not read. `cut` is what is left of an expression.
-/

namespace VnlKernel

/-! ## Tokens -/

def litBase (hex : Bool) : Nat := if hex then 16 else 10

/-- A literal: decimal without leading zero, or with `0x` in front. -/
structure Lit where
  hex : Bool
  digits : CStr
  ne_nil : digits ≠ []
  valid : ∀ c ∈ digits, ∃ d, digitOf c = some d ∧ d < litBase hex
  lead : hex = false → digits = [0x30] ∨ digits.head? ≠ some 0x30

def Lit.text (l : Lit) : CStr := if l.hex then 0x30 :: 0x78 :: l.digits else l.digits

/-- The number that is written. -/
def Lit.number (l : Lit) : Nat := l.digits.foldl (fun v c => v * litBase l.hex + (digitOf c).getD 0) 0

def Lit.val (l : Lit) : Val := BitVec.ofNat 64 l.number

/-- The name of a variable. -/
structure NameToken where
  text : CStr
  ne_nil : text ≠ []
  chars : ∀ c ∈ text, isNameChar c = true
  short : text.length < shVarNamsz

def UnOp.byte : UnOp → UInt8
  | .neg => 0x2D
  | .plus => 0x2B
  | .compl => 0x7E
  | .lnot => 0x21

def BinOp.text : BinOp → CStr
  | .mul => cstr "*"
  | .div => cstr "/"
  | .mod => cstr "%"
  | .add => cstr "+"
  | .sub => cstr "-"
  | .shl => cstr "<<"
  | .shr => cstr ">>"
  | .lt => cstr "<"
  | .le => cstr "<="
  | .gt => cstr ">"
  | .ge => cstr ">="
  | .eq => cstr "=="
  | .ne => cstr "!="
  | .band => cstr "&"
  | .bxor => cstr "^"
  | .bor => cstr "|"
  | .land => cstr "&&"
  | .lor => cstr "||"

/-- Precedence in C, from the operators that bind most. -/
def BinOp.level : BinOp → Nat
  | .mul | .div | .mod => 1
  | .add | .sub => 2
  | .shl | .shr => 3
  | .lt | .le | .gt | .ge => 4
  | .eq | .ne => 5
  | .band => 6
  | .bxor => 7
  | .bor => 8
  | .land => 9
  | .lor => 10

theorem BinOp.level_le (op : BinOp) : op.level ≤ 10 := by cases op <;> decide

/-! ## Sources -/

/-- An expression in writing. The numbers are blanks: in front of a token, and of what closes a
parenthesis. -/
inductive Source where
  | num (blanks : Nat) (l : Lit)
  | var (blanks : Nat) (name : NameToken)
  | un (blanks : Nat) (op : UnOp) (e : Source)
  | group (blanks : Nat) (e : Source) (close : Nat)
  | bin (op : BinOp) (l : Source) (blanks : Nat) (r : Source)

namespace Source

def text : Source → CStr
  | .num k l => List.replicate k space ++ l.text
  | .var k name => List.replicate k space ++ dollarSign :: name.text
  | .un k op e => List.replicate k space ++ op.byte :: e.text
  | .group k e close => List.replicate k space ++ parenOpen :: (e.text ++ (List.replicate close space ++ [parenClose]))
  | .bin op l k r => l.text ++ (List.replicate k space ++ (op.text ++ r.text))

def level : Source → Nat
  | .bin op _ _ _ => op.level
  | _ => 0

/-- Operands bind at least as much as their place asks for, and more on the right of an operator. -/
def Shaped : Source → Prop
  | .num _ _ => True
  | .var _ _ => True
  | .un _ _ e => e.level = 0 ∧ e.Shaped
  | .group _ e _ => e.Shaped
  | .bin op l _ r => (l.level ≤ op.level ∧ r.level < op.level) ∧ l.Shaped ∧ r.Shaped

/-- The expression that is written. -/
def whole : Source → Expr Val
  | .num _ l => .num l.val
  | .var _ name => .var name.text
  | .un _ op e => .un op e.whole
  | .group _ e _ => e.whole
  | .bin op l _ r => .bin op l.whole r.whole

/-- What is left of it if everything behind a blank in front of an operator is dropped, up to the
parenthesis; and whether anything was dropped outside of parentheses. -/
def cut : Source → Expr Val × Bool
  | .num _ l => (.num l.val, false)
  | .var _ name => (.var name.text, false)
  | .un _ op e => (.un op e.cut.1, e.cut.2)
  | .group _ e _ => (e.cut.1, false)
  | .bin op l k r =>
      if l.cut.2 then l.cut
      else if 0 < k then (l.cut.1, true)
      else (.bin op l.cut.1 r.cut.1, r.cut.2)

/-- The same without blanks. -/
def tight : Source → Source
  | .num _ l => .num 0 l
  | .var _ name => .var 0 name
  | .un _ op e => .un 0 op e.tight
  | .group _ e _ => .group 0 e.tight 0
  | .bin op l _ r => .bin op l.tight 0 r.tight

theorem tight_level : ∀ e : Source, e.tight.level = e.level
  | .num _ _ => rfl
  | .var _ _ => rfl
  | .un _ _ _ => rfl
  | .group _ _ _ => rfl
  | .bin _ _ _ _ => rfl

theorem tight_shaped : ∀ {e : Source}, e.Shaped → e.tight.Shaped
  | .num _ _, _ => trivial
  | .var _ _, _ => trivial
  | .un _ _ e, h => ⟨by rw [tight_level]; exact h.1, tight_shaped h.2⟩
  | .group _ e _, h => tight_shaped (e := e) h
  | .bin _ l _ r, h =>
      ⟨by rw [tight_level, tight_level]; exact h.1, tight_shaped h.2.1, tight_shaped h.2.2⟩

/-- There are no blanks in front of binary operators. -/
def Snug : Source → Prop
  | .num _ _ => True
  | .var _ _ => True
  | .un _ _ e => e.Snug
  | .group _ e _ => e.Snug
  | .bin _ l k r => k = 0 ∧ l.Snug ∧ r.Snug

/-- Then nothing is cut off. -/
theorem Snug.cut_eq : ∀ {e : Source}, e.Snug → e.cut = (e.whole, false)
  | .num _ _, _ => rfl
  | .var _ _, _ => rfl
  | .un _ _ e, h => by
      rw [cut, Snug.cut_eq (e := e) h]
      rfl
  | .group _ e _, h => by
      rw [cut, Snug.cut_eq (e := e) h]
      rfl
  | .bin _ l _ r, ⟨hk, hl, hr⟩ => by
      rw [cut, hl.cut_eq, hr.cut_eq, hk]
      rfl

theorem tight_snug : ∀ e : Source, e.tight.Snug
  | .num _ _ => trivial
  | .var _ _ => trivial
  | .un _ _ e => tight_snug e
  | .group _ e _ => tight_snug e
  | .bin _ l _ r => ⟨rfl, tight_snug l, tight_snug r⟩

theorem tight_whole : ∀ e : Source, e.tight.whole = e.whole
  | .num _ _ => rfl
  | .var _ _ => rfl
  | .un _ _ e => by rw [tight, whole, tight_whole e, whole]
  | .group _ e _ => by rw [tight, whole, tight_whole e, whole]
  | .bin _ l _ r => by rw [tight, whole, tight_whole l, tight_whole r, whole]

theorem tight_length : ∀ e : Source, e.tight.text.length ≤ e.text.length
  | .num _ _ => by simp [tight, text]
  | .var _ _ => by simp [tight, text]
  | .un _ _ e => by
      have := tight_length e
      simp only [tight, text, List.length_append, List.length_cons, List.length_replicate]
      omega
  | .group _ e _ => by
      have := tight_length e
      simp only [tight, text, List.length_append, List.length_cons, List.length_replicate]
      omega
  | .bin _ l _ r => by
      have hl := tight_length l
      have hr := tight_length r
      simp only [tight, text, List.length_append, List.length_replicate]
      omega

/-- Outside of parentheses there is nothing to cut in an operand of a unary operator. -/
theorem cut_primary : ∀ {e : Source}, e.Shaped → e.level = 0 → e.cut.2 = false
  | .num _ _, _, _ => rfl
  | .var _ _, _, _ => rfl
  | .un _ _ e, h, _ => cut_primary (e := e) h.2 h.1
  | .group _ _ _, _, _ => rfl
  | .bin op _ _ _, _, hl => by cases op <;> cases hl

end Source

/-! ## Literals and names -/

/-- What can stand behind a number or a name. -/
def TokenEnds (r : CStr) : Prop := ∀ c, r.head? = some c → isNameChar c = false

theorem digitOf_name {c : UInt8} (h : isNameChar c = false) : digitOf c = none := by
  simp only [isNameChar, Bool.or_eq_false_iff, Bool.and_eq_false_iff, decide_eq_false_iff_not] at h
  obtain ⟨⟨⟨hlow, hup⟩, hdig⟩, _⟩ := h
  have hf : ∀ {a b c : UInt8}, (¬ a ≤ c ∨ ¬ c ≤ b) → ¬ (a ≤ c ∧ c ≤ b) := by tauto
  rw [digitOf, if_neg (hf hdig), if_neg, if_neg]
  · rintro ⟨h1, h2⟩
    exact hf hup ⟨h1, UInt8.le_trans h2 (by decide)⟩
  · rintro ⟨h1, h2⟩
    exact hf hlow ⟨h1, UInt8.le_trans h2 (by decide)⟩

theorem strtolDigits_stop {base : Nat} {v : Val} {r : CStr} (hr : TokenEnds r) :
    strtolDigits base v r = (v, r) := by
  cases r with
  | nil => rfl
  | cons c r => rw [strtolDigits, digitOf_name (hr c rfl)]

theorem strtolDigits_digits {base : Nat} :
    ∀ {ds : CStr}, (∀ c ∈ ds, ∃ d, digitOf c = some d ∧ d < base) →
    ∀ {r : CStr}, TokenEnds r → ∀ n : Nat,
    strtolDigits base (BitVec.ofNat 64 n) (ds ++ r)
      = (BitVec.ofNat 64 (ds.foldl (fun v c => v * base + (digitOf c).getD 0) n), r)
  | [], _, r, hr, n => strtolDigits_stop hr
  | c :: ds, h, r, hr, n => by
      obtain ⟨d, hd, hlt⟩ := h c (List.mem_cons_self ..)
      have hval : BitVec.ofNat 64 n * BitVec.ofNat 64 base + BitVec.ofNat 64 d
          = BitVec.ofNat 64 (n * base + d) := by
        rw [← BitVec.ofNat_mul, ← BitVec.ofNat_add]
      rw [List.cons_append, strtolDigits, hd]
      dsimp only
      rw [if_neg (by omega), hval, strtolDigits_digits
        (fun c hc => h c (List.mem_cons_of_mem _ hc)) hr,
        List.foldl_cons, hd, Option.getD_some]

/-- A number without sign: the base is in front of the digits. -/
theorem strtol_unsigned {c : UInt8} {s : CStr} (hb : isBlank c = false) (hs : c ≠ 0x2D ∧ c ≠ 0x2B) :
    strtol 0 (c :: s)
      = if hexMark (c :: s) then strtolDigits 16 0 (s.drop 1)
        else if c = 0x30 then strtolDigits 8 0 s else strtolDigits 10 0 (c :: s) := by
  have hskip : skipBlanks (c :: s) = c :: s := by
    rw [skipBlanks, List.dropWhile_cons, hb]
    rfl
  have hneg : (c :: s).head? ≠ some 0x2D := by simpa using hs.1
  have hsign : ¬ ((c :: s).head? = some 0x2D ∨ (c :: s).head? = some 0x2B) := by simpa using hs
  rw [strtol]
  dsimp only
  rw [hskip, if_neg hsign, if_pos rfl, if_neg hneg]
  by_cases hhex : hexMark (c :: s) = true
  · rw [if_pos hhex, if_pos hhex]
    rfl
  · rw [if_neg hhex, if_neg hhex]
    by_cases hz : c = 0x30
    · rw [if_pos hz, if_pos (by rw [hz]; rfl)]
      rfl
    · rw [if_neg hz, if_neg (by simpa using hz)]

/-- A literal is read to its end. -/
theorem strtol_lit (l : Lit) {r : CStr} (hr : TokenEnds r) :
    strtol 0 (l.text ++ r) = (l.val, r) := by
  have hvalid := l.valid
  have hlead := l.lead
  rw [Lit.text, Lit.val, Lit.number]
  cases hh : l.hex with
  | true =>
      rw [hh] at hvalid
      rw [if_pos rfl, List.cons_append, strtol_unsigned (by decide) (by decide), if_pos rfl]
      exact strtolDigits_digits hvalid hr 0
  | false =>
      rw [hh] at hvalid
      rw [if_neg (by decide)]
      obtain ⟨c, ds, hds⟩ := List.exists_cons_of_ne_nil l.ne_nil
      rw [hds] at hvalid hlead ⊢
      -- a decimal literal begins with a digit, so with no sign and no blank
      have hdec : 0x30 ≤ c ∧ c ≤ 0x39 := by
        obtain ⟨d, hd, hlt⟩ := hvalid c (List.mem_cons_self ..)
        by_contra hno
        rw [digitOf, if_neg hno] at hd
        have hten : litBase false = 10 := rfl
        split at hd
        · cases hd
          omega
        · split at hd
          · cases hd
            omega
          · cases hd
      have hne : ∀ e : UInt8, ¬ (0x30 ≤ e ∧ e ≤ 0x39) → c ≠ e := fun e he hc => he (hc ▸ hdec)
      -- and no mark of the base follows: behind a zero the token ends
      have hmark : hexMark (c :: ds ++ r) = false := by
        rcases hlead hh with hzero | hnz
        · cases hzero
          cases r with
          | nil => rfl
          | cons e r =>
              have hx : e ≠ 0x78 ∧ e ≠ 0x58 := by
                have he := hr e rfl
                constructor
                · rintro rfl
                  exact absurd he (by decide)
                · rintro rfl
                  exact absurd he (by decide)
              simp [hexMark, hx]
        · have hc : c ≠ 0x30 := by simpa using hnz
          simp [hexMark, hc]
      rw [List.cons_append] at hmark ⊢
      rw [strtol_unsigned (by simp [isBlank, hne space (by decide), hne tab (by decide)])
        ⟨hne _ (by decide), hne _ (by decide)⟩, hmark, if_neg (by decide)]
      rcases hlead hh with hzero | hnz
      · cases hzero
        rw [if_pos rfl, List.nil_append, strtolDigits_stop hr]
        rfl
      · have hc : c ≠ 0x30 := by simpa using hnz
        rw [if_neg hc]
        exact strtolDigits_digits hvalid hr 0

theorem arithName_token (name : NameToken) {r : CStr} (hr : TokenEnds r) :
    arithName (name.text ++ r) = (name.text, r) := by
  have hbrace : (name.text ++ r).head? ≠ some braceOpen := by
    obtain ⟨c, q, hc⟩ := List.exists_cons_of_ne_nil name.ne_nil
    have := name.chars c (by rw [hc]; exact List.mem_cons_self ..)
    rw [hc, List.cons_append, List.head?_cons]
    intro he
    cases he
    exact absurd this (by decide)
  have hstop : r.takeWhile isNameChar = [] ∧ r.dropWhile isNameChar = r := by
    cases r with
    | nil => exact ⟨rfl, rfl⟩
    | cons c r =>
        rw [List.takeWhile_cons, List.dropWhile_cons, hr c rfl]
        exact ⟨rfl, rfl⟩
  rw [arithName, if_neg hbrace, List.takeWhile_append_of_pos name.chars,
    List.dropWhile_append_of_pos name.chars,
    hstop.1, hstop.2, List.append_nil]

/-! ## Operators and blanks -/

/-- No level goes on. -/
def Stops (k : Nat) (r : CStr) : Prop := ∀ j, j ≤ k → levelOp j r = none

theorem levelOp_none {c : UInt8} (hc : c ∉ cstr "*/%+-<>=!&^|") (q : CStr) (j : Nat) :
    levelOp j (c :: q) = none := by
  have hne : ∀ d ∈ cstr "*/%+-<>=!&^|", c ≠ d := fun d hd he => hc (he ▸ hd)
  have hall : c ≠ 0x2A ∧ c ≠ 0x2F ∧ c ≠ 0x25 ∧ c ≠ 0x2B ∧ c ≠ 0x2D ∧ c ≠ less ∧ c ≠ greater
    ∧ c ≠ 0x3D
      ∧ c ≠ 0x21 ∧ c ≠ 0x26 ∧ c ≠ 0x5E ∧ c ≠ pipeSign :=
    ⟨hne _ (by decide), hne _ (by decide), hne _ (by decide), hne _ (by decide), hne _ (by decide),
      hne _ (by decide), hne _ (by decide), hne _ (by decide), hne _ (by decide), hne _ (by decide),
      hne _ (by decide), hne _ (by decide)⟩
  unfold levelOp
  split <;> simp [mulOp, addOp, shiftOp, relOp, eqOp, bandOp, bxorOp, borOp, landOp, lorOp, op1,
    op1Not, op2, opRel,
    hall]

theorem levelOp_nil (j : Nat) : levelOp j [] = none := by
  unfold levelOp
  split <;> rfl

/-- The first byte of an operand is not the second of an operator. -/
def Starts (p : CStr) : Prop := ∃ c q, p = c :: q ∧ c ∉ cstr "&|=<>"

/-- An operator is found by its level, and not before. -/
theorem levelOp_text (op : BinOp) {p : CStr} (hp : Starts p) :
    levelOp op.level (op.text ++ p) = some (op, p) ∧ ∀ j < op.level,
      levelOp j (op.text ++ p) = none := by
  obtain ⟨c, q, rfl, hc⟩ := hp
  have hne : ∀ d ∈ cstr "&|=<>", c ≠ d := fun d hd he => hc (he ▸ hd)
  have hall : c ≠ 0x26 ∧ c ≠ 0x7C ∧ c ≠ 0x3D ∧ c ≠ 0x3C ∧ c ≠ 0x3E :=
    ⟨hne _ (by decide), hne _ (by decide), hne _ (by decide), hne _ (by decide), hne _ (by decide)⟩
  constructor
  · cases op <;> simp [BinOp.level, BinOp.text, levelOp, mulOp, addOp, shiftOp, relOp, eqOp, bandOp,
      bxorOp, borOp,
      landOp, lorOp, op1, op1Not, op2, opRel, cstr, less, greater, pipeSign, hall]
  · intro j hj
    cases op <;> simp only [BinOp.level] at hj <;> interval_cases j <;>
      simp [BinOp.text, levelOp, mulOp, addOp, shiftOp, relOp, eqOp, bandOp, bxorOp, borOp, landOp,
        op1, op1Not,
        op2, opRel, cstr, less, greater, pipeSign, hall]

/-! ## Blanks and parentheses -/

theorem arithPrimary_blanks {V : Type} (A : Arith V) (eval : CStr → Outcome V) (p : CStr) : ∀ k :
    Nat,
    arithPrimary A eval (List.replicate k space ++ p) = arithPrimary A eval p
  | 0 => rfl
  | k + 1 => by
      rw [List.replicate_succ, List.cons_append, arithPrimary]
      dsimp only
      rw [if_pos rfl]
      exact arithPrimary_blanks A eval p k

theorem parenSpan_plain (d : Nat) (p : CStr) : ∀ {a : CStr}, parenOpen ∉ a → parenClose ∉ a →
    parenSpan (d + 1) (a ++ p) = a.length + parenSpan (d + 1) p
  | [], _, _ => by rw [List.nil_append, List.length_nil, Nat.zero_add]
  | c :: a, ho, hc => by
      have hne : c ≠ parenOpen ∧ c ≠ parenClose :=
        ⟨fun he => ho (he ▸ List.mem_cons_self ..), fun he => hc (he ▸ List.mem_cons_self ..)⟩
      rw [List.cons_append, parenSpan, if_neg hne.1, if_neg hne.2,
        parenSpan_plain d p (fun h => ho (List.mem_cons_of_mem _ h))
          (fun h => hc (List.mem_cons_of_mem _ h)),
        List.length_cons]
      omega

theorem not_mem_blanks {c : UInt8} (hc : c ≠ space) (k : Nat) : c ∉ List.replicate k space :=
  fun h =>
  hc (List.eq_of_mem_replicate h)

theorem not_mem_lit {c : UInt8} (l : Lit) (hc : digitOf c = none) (hx : c ≠ 0x78) : c ∉ l.text := by
  have hd : c ∉ l.digits := by
    intro h
    obtain ⟨d, hd, _⟩ := l.valid c h
    rw [hc] at hd
    cases hd
  have hz : c ≠ 0x30 := by
    rintro rfl
    cases hc
  rw [Lit.text]
  split
  · simp only [List.mem_cons, not_or]
    exact ⟨hz, hx, hd⟩
  · exact hd

theorem not_mem_op {c : UInt8} (op : BinOp) (hc : c ∉ cstr "*/%+-<>=!&^|") : c ∉ op.text := by
  have hsub : ∀ op : BinOp, ∀ d ∈ op.text, d ∈ cstr "*/%+-<>=!&^|" := by
    intro op
    cases op <;> decide
  exact fun h => hc (hsub op c h)

/-- A literal is a primary. -/
theorem arithPrimary_lit {V : Type} {A : Arith V} {eval : CStr → Outcome V} (l : Lit) {r : CStr}
    (hr : TokenEnds r) :
    arithPrimary A eval (l.text ++ r) = .done (A.num l.val, r) := by
  have hne : l.text ≠ [] := by
    rw [Lit.text]
    split
    · exact List.cons_ne_nil _ _
    · exact l.ne_nil
  have hvalue := strtol_lit l hr
  obtain ⟨c, q, hc⟩ := List.exists_cons_of_ne_nil hne
  have hother : ∀ d, digitOf d = none → d ≠ 0x78 → c ≠ d := by
    rintro d hd hx rfl
    exact not_mem_lit l hd hx (by rw [hc]; exact List.mem_cons_self ..)
  rw [hc, List.cons_append] at hvalue ⊢
  rw [arithPrimary]
  dsimp only
  rw [if_neg (hother _ rfl (by decide)), if_neg (hother _ rfl (by decide)),
    if_neg (hother _ rfl (by decide)),
    if_neg (hother _ rfl (by decide)), if_neg (hother _ rfl (by decide)),
      if_neg (hother _ rfl (by decide)),
    if_neg (hother _ rfl (by decide)), hvalue]

namespace Source

/-- Parentheses in an expression are closed in it. -/
theorem parenSpan_text : ∀ (e : Source) (d : Nat) (p : CStr),
    parenSpan (d + 1) (e.text ++ p) = e.text.length + parenSpan (d + 1) p
  | .num k l, d, p => by
      refine parenSpan_plain d p ?_ ?_
      · rw [text, List.mem_append, not_or]
        exact ⟨not_mem_blanks (by decide) k, not_mem_lit l rfl (by decide)⟩
      · rw [text, List.mem_append, not_or]
        exact ⟨not_mem_blanks (by decide) k, not_mem_lit l rfl (by decide)⟩
  | .var k name, d, p => by
      have hname : ∀ c, isNameChar c = false → c ≠ space → c ≠ dollarSign →
          c ∉ List.replicate k space ++ dollarSign :: name.text := by
        intro c hc hs hd
        rw [List.mem_append, List.mem_cons, not_or, not_or]
        refine ⟨not_mem_blanks hs k, hd, fun h => ?_⟩
        rw [name.chars c h] at hc
        cases hc
      exact parenSpan_plain d p (hname _ (by decide) (by decide) (by decide))
        (hname _ (by decide) (by decide) (by decide))
  | .un k op e, d, p => by
      have hop : parenOpen ≠ op.byte ∧ parenClose ≠ op.byte := by cases op <;> decide
      have hfront : ∀ c, c ≠ space → c ≠ op.byte → c ∉ List.replicate k space ++ [op.byte] := by
        intro c hs hc
        rw [List.mem_append, List.mem_singleton, not_or]
        exact ⟨not_mem_blanks hs k, hc⟩
      have htext : (Source.un k op e).text = (List.replicate k space ++ [op.byte]) ++ e.text := by
        rw [text, List.append_assoc]
        rfl
      rw [htext, List.append_assoc, parenSpan_plain d _ (hfront _ (by decide) hop.1)
        (hfront _ (by decide) hop.2),
        e.parenSpan_text]
      simp only [List.length_append]
      omega
  | .group k e close, d, p => by
      rw [text, List.append_assoc, List.cons_append, List.append_assoc, List.append_assoc,
        parenSpan_plain d _ (not_mem_blanks (by decide) k) (not_mem_blanks (by decide) k),
          parenSpan, if_pos rfl,
        e.parenSpan_text, parenSpan_plain _ _ (not_mem_blanks (by decide) close)
          (not_mem_blanks (by decide) close),
        List.singleton_append, parenSpan, if_neg (by decide), if_pos rfl]
      simp only [List.length_append, List.length_cons, List.length_nil]
      omega
  | .bin op l k r, d, p => by
      rw [text, List.append_assoc, List.append_assoc, List.append_assoc, l.parenSpan_text,
        parenSpan_plain d _ (not_mem_blanks (by decide) k) (not_mem_blanks (by decide) k),
        parenSpan_plain d _ (not_mem_op op (by decide)) (not_mem_op op (by decide)),
          r.parenSpan_text]
      simp only [List.length_append]
      omega

/-- The first byte is a blank or begins a primary. -/
theorem text_starts : ∀ (e : Source) (p : CStr), Starts (e.text ++ p)
  | .num (k + 1) l, p => ⟨space, _, rfl, by decide⟩
  | .var (k + 1) name, p => ⟨space, _, rfl, by decide⟩
  | .un (k + 1) op e, p => ⟨space, _, rfl, by decide⟩
  | .group (k + 1) e close, p => ⟨space, _, rfl, by decide⟩
  | .num 0 l, p => by
      have hne : l.text ≠ [] := by
        rw [Lit.text]
        split
        · exact List.cons_ne_nil _ _
        · exact l.ne_nil
      obtain ⟨c, q, hc⟩ := List.exists_cons_of_ne_nil hne
      refine ⟨c, q ++ p, by rw [text, hc]; rfl, fun hmem => ?_⟩
      have hbad : ∀ c ∈ cstr "&|=<>", digitOf c = none ∧ c ≠ 0x78 := by decide
      exact not_mem_lit l (hbad c hmem).1 (hbad c hmem).2 (by rw [hc]; exact List.mem_cons_self ..)
  | .var 0 name, p => ⟨dollarSign, _, rfl, by decide⟩
  | .un 0 op e, p => ⟨op.byte, _, rfl, by cases op <;> decide⟩
  | .group 0 e close, p => ⟨parenOpen, _, rfl, by decide⟩
  | .bin op l k r, p => by
      rw [text, List.append_assoc]
      exact l.text_starts _

end Source

/-! ## What is read -/

/-- Go on at a level with what was read: there is nothing to go on with below the levels. -/
def loopAt (eval : CStr → Outcome (Expr Val)) : Nat → Expr Val → CStr → Outcome (Expr Val × CStr)
  | 0, t, r => .done (t, r)
  | k + 1, t, r => arithLoop reader (arithUpTo reader eval k) (levelOp (k + 1)) (r.length + 1) t r

theorem loopAt_stops {eval : CStr → Outcome (Expr Val)} {k : Nat} {t : Expr Val} {r : CStr}
    (h : levelOp k r = none) : loopAt eval k t r = .done (t, r) := by
  cases k with
  | zero => rfl
  | succ k => rw [loopAt, arithLoop, h]

/-- The fuel of a loop is enough if it is more than the text is long. -/
theorem arithLoop_fuel {n k f : Nat} {t : Expr Val} {r : CStr} (hn : r.length ≤ n)
    (hf : r.length < f) :
    arithLoop reader (arithUpTo reader (arithEval reader n) k) (levelOp (k + 1)) f t r
      = loopAt (arithEval reader n) (k + 1) t r := by
  have heval : ∀ q : CStr, q.length < n → EvalsAt reader (arithEval reader n q)
      (arithEval reader n q) :=
    fun q hq => arithEval_reads n n q hq hq
  obtain ⟨t', r', ht', _, hv⟩ := arithLoop_reads (shrinks_levelOp (k + 1))
    (arithUpTo_reads heval k) f (r.length + 1)
    t r hf (by omega) hn
  rw [loopAt, ht']
  rw [Expr.fold_reader, Expr.fold_reader, Outcome.bind_done, Outcome.bind_done] at hv
  exact hv

/-- At level `k` the text is read as what `cut` leaves of it. If nothing is cut off the level goes
on behind it; else it stops at a blank, and whatever is called it stops there too. -/
def Reading (e : Source) (k : Nat) : Prop :=
  ∀ (n : Nat) (r : CStr), (e.text ++ r).length ≤ n →
    if e.cut.2 then ∃ q, arithUpTo reader (arithEval reader n) k (e.text ++ r) = .done (e.cut.1, space :: q)
    else TokenEnds r → Stops (k - 1) r →
      arithUpTo reader (arithEval reader n) k (e.text ++ r) = loopAt (arithEval reader n) k e.cut.1 r

theorem levelOp_space (q : CStr) (j : Nat) : levelOp j (space :: q) = none :=
  levelOp_none (by decide) q j

theorem levelOp_close (q : CStr) (j : Nat) : levelOp j (parenClose :: q) = none :=
  levelOp_none (by decide) q j

/-- What is read at one level is read at the next. -/
theorem Reading.up {e : Source} {k : Nat} (h : Reading e k) : Reading e (k + 1) := by
  intro n r hn
  have hk := h n r hn
  cases hcut : e.cut.2 with
  | true =>
      rw [hcut, if_pos rfl] at hk
      obtain ⟨q, hq⟩ := hk
      rw [if_pos rfl]
      refine ⟨q, ?_⟩
      rw [arithUpTo, arithLevel, hq, Outcome.bind_done]
      exact loopAt_stops (k := k + 1) (levelOp_space q _)
  | false =>
      rw [hcut, if_neg (by decide)] at hk
      rw [if_neg (by decide)]
      intro hends hstops
      have hbelow : Stops (k - 1) r := fun j hj => hstops j (by omega)
      rw [arithUpTo, arithLevel, hk hends hbelow, loopAt_stops (hstops k (by omega)),
        Outcome.bind_done]
      rfl

theorem Reading.mono {e : Source} {k : Nat} (h : Reading e k) :
    ∀ {m : Nat}, k ≤ m → Reading e m := by
  intro m hm
  induction hm with
  | refl => exact h
  | step _ ih => exact ih.up

/-- In parentheses, or at the end. -/
theorem Reading.eval {e : Source} (h : Reading e 10) {n : Nat} {r : CStr}
    (hn : (e.text ++ r).length ≤ n)
    (hr : r = [] ∨ ∃ c q, r = c :: q ∧ (c = space ∨ c = parenClose)) :
    arithEval reader (n + 1) (e.text ++ r) = .done e.cut.1 := by
  have hread := h n r hn
  rw [arithEval, arithLor_eq]
  cases hcut : e.cut.2 with
  | true =>
      rw [hcut, if_pos rfl] at hread
      obtain ⟨q, hq⟩ := hread
      rw [hq]
      rfl
  | false =>
      rw [hcut, if_neg (by decide)] at hread
      have hnone : ∀ j, levelOp j r = none := by
        rcases hr with rfl | ⟨c, q, rfl, rfl | rfl⟩
        · exact levelOp_nil
        · exact levelOp_space q
        · exact levelOp_close q
      have hends : TokenEnds r := by
        intro c hc
        rcases hr with rfl | ⟨d, q, rfl, rfl | rfl⟩
        · cases hc
        · cases hc
          rfl
        · cases hc
          rfl
      rw [hread hends fun j _ => hnone j, loopAt_stops (hnone 10)]
      rfl

theorem blanks_head (k : Nat) (c : UInt8) (q : CStr) :
    ∃ d r, List.replicate k space ++ c :: q = d :: r ∧ (d = space ∨ (k = 0 ∧ d = c)) := by
  cases k with
  | zero => exact ⟨c, q, rfl, Or.inr ⟨rfl, rfl⟩⟩
  | succ k => exact ⟨space, _, rfl, Or.inl rfl⟩

/-- An operator ends the token in front of it. -/
theorem tokenEnds_op (op : BinOp) (p : CStr) : TokenEnds (op.text ++ p) := by
  have hop : ∀ op : BinOp, ∃ c q, op.text = c :: q ∧ isNameChar c = false := by
    intro op
    cases op <;> exact ⟨_, _, rfl, by decide⟩
  obtain ⟨c, q, hc, hname⟩ := hop op
  intro d hd
  rw [hc, List.cons_append, List.head?_cons] at hd
  cases hd
  exact hname

theorem tokenEnds_space (q : CStr) : TokenEnds (space :: q) := by
  intro c hc
  cases hc
  rfl

namespace Source

theorem level_le : ∀ e : Source, e.level ≤ 10
  | .num _ _ => Nat.zero_le _
  | .var _ _ => Nat.zero_le _
  | .un _ _ _ => Nat.zero_le _
  | .group _ _ _ => Nat.zero_le _
  | .bin op _ _ _ => op.level_le

/-- An operator with its operands, at its own level. -/
theorem reading_bin {op : BinOp} {l r : Source} {k j : Nat} (hop : op.level = j + 1)
    (hl : Reading l (j + 1))
    (hr : Reading r j) : Reading (.bin op l k r) (j + 1) := by
  intro n p hn
  have htext : (Source.bin op l k r).text ++ p
      = l.text ++ (List.replicate k space ++ (op.text ++ (r.text ++ p))) := by
    rw [text]
    simp only [List.append_assoc]
  rw [htext] at hn ⊢
  have hleft := hl n _ hn
  rw [cut]
  -- a left operand that was cut off ends the whole reading
  cases hlc : l.cut.2 with
  | true =>
      rw [hlc, if_pos rfl] at hleft
      simp only [if_true, hlc]
      exact hleft
  | false =>
      rw [hlc, if_neg (by decide)] at hleft
      simp only [Bool.false_eq_true, if_false]
      cases k with
      | succ k =>
          -- the level stops at the blank
          simp only [Nat.zero_lt_succ, if_true]
          refine ⟨List.replicate k space ++ (op.text ++ (r.text ++ p)), ?_⟩
          rw [List.replicate_succ, List.cons_append] at hleft ⊢
          rw [hleft (tokenEnds_space _) fun i _ => levelOp_space _ i,
            loopAt_stops (levelOp_space _ _)]
      | zero =>
          simp only [Nat.lt_irrefl, if_false]
          rw [List.replicate_zero, List.nil_append] at hleft hn ⊢
          obtain ⟨hfound, hbefore⟩ := levelOp_text op (r.text_starts p)
          rw [hop] at hfound hbefore
          -- the left operand, then the operator
          have hstep := hleft (tokenEnds_op op _) fun i hi => hbefore i (by omega)
          have hlen : (op.text ++ (r.text ++ p)).length ≤ n := by
            rw [List.length_append] at hn
            omega
          have hshort : (r.text ++ p).length < (op.text ++ (r.text ++ p)).length :=
            shrinks_levelOp (j + 1) _ _ _ hfound
          have hright := hr n p (by omega)
          rw [loopAt, arithLoop, hfound] at hstep
          dsimp only at hstep
          -- the right operand stops at a blank, or where the text behind it begins
          cases hrc : r.cut.2 with
          | true =>
              rw [hrc, if_pos rfl] at hright
              obtain ⟨q, hq⟩ := hright
              simp only [if_true]
              refine ⟨q, ?_⟩
              obtain ⟨f, hf⟩ := Nat.exists_eq_add_of_lt hshort
              rw [hstep, hq, Outcome.bind_done, hf]
              show arithLoop reader _ _ _ (Expr.bin op l.cut.1 r.cut.1) (space :: q) = _
              rw [arithLoop, levelOp_space]
          | false =>
              rw [hrc, if_neg (by decide)] at hright
              simp only [Bool.false_eq_true, if_false]
              intro hends hstops
              rw [hstep, hright hends fun i hi => hstops i (by omega),
                loopAt_stops (hstops j (by omega)),
                Outcome.bind_done]
              have hp : p.length ≤ (r.text ++ p).length := by simp
              show arithLoop reader _ _ _ (Expr.bin op l.cut.1 r.cut.1) p = _
              exact arithLoop_fuel (by omega) (by omega)

/-- A sign or a complement with its operand. -/
theorem reading_un {b : Nat} {op : UnOp} {e : Source} (hs : e.Shaped) (hlevel : e.level = 0)
    (he : Reading e 0) :
    Reading (.un b op e) 0 := by
  intro n r hn
  have hcut := cut_primary hs hlevel
  have htext : (Source.un b op e).text ++ r
      = List.replicate b space ++ op.byte :: (e.text ++ r) := by
    rw [text, List.append_assoc, List.cons_append]
  have ih := he n r (by
    rw [htext, List.length_append, List.length_cons] at hn
    omega)
  rw [hcut, if_neg (by decide)] at ih
  rw [cut, hcut, if_neg (by decide)]
  intro hends hstops
  have hoperand : arithPrimary reader (arithEval reader n) (e.text ++ r) = .done (e.cut.1, r) :=
    ih hends hstops
  rw [htext, arithUpTo, arithPrimary_blanks, arithPrimary]
  dsimp only
  rw [hoperand]
  cases op with
  | neg => rfl
  | plus => rfl
  | compl => rfl
  | lnot => rfl

/-- An expression in parentheses: it is read by itself, and the text behind it is that behind its
own closing parenthesis. -/
theorem reading_group {b close : Nat} {e : Source} (he : Reading e 10) :
    Reading (.group b e close) 0 := by
  intro n r hn
  have htext : (Source.group b e close).text ++ r = List.replicate b space
      ++ parenOpen :: (e.text ++ (List.replicate close space ++ parenClose :: r)) := by
    rw [text]
    simp only [List.append_assoc, List.cons_append, List.nil_append]
  rw [cut, if_neg (by simp)]
  intro _ _
  rw [htext, List.length_append, List.length_cons] at hn
  obtain ⟨m, rfl⟩ : ∃ m, n = m + 1 := ⟨n - 1, by omega⟩
  have hinner := he.eval (n := m) (r := List.replicate close space ++ parenClose :: r) (by omega)
      (by
    obtain ⟨d, q, hq, hd⟩ := blanks_head close parenClose r
    exact Or.inr ⟨d, q, hq, hd.imp id And.right⟩)
  -- the parentheses inside are balanced, so the span ends at this one
  have hspan : parenSpan 1 (e.text ++ (List.replicate close space ++ parenClose :: r))
      = (e.text ++ (List.replicate close space ++ [parenClose])).length := by
    rw [e.parenSpan_text,
      parenSpan_plain _ _ (not_mem_blanks (by decide) close) (not_mem_blanks (by decide) close),
        parenSpan,
      if_neg (by decide), if_pos rfl, parenSpan.eq_def]
    simp only [List.length_append, List.length_singleton]
  have hrest : (e.text ++ (List.replicate close space ++ parenClose :: r)).drop
      (parenSpan 1 (e.text ++ (List.replicate close space ++ parenClose :: r))) = r := by
    rw [hspan, show e.text ++ (List.replicate close space ++ parenClose :: r)
      = (e.text ++ (List.replicate close space ++ [parenClose])) ++ r by simp, List.drop_left]
  rw [htext, arithUpTo, arithPrimary_blanks, arithPrimary]
  dsimp only
  rw [if_neg (by decide), if_pos rfl, hinner, hrest]
  rfl

/-- **An expression is read as what `cut` leaves of it, at every level from its own.** -/
theorem reading : ∀ {e : Source}, e.Shaped → ∀ {k : Nat}, e.level ≤ k → Reading e k
  | .num b l, _, k, _ => by
      refine Reading.mono (k := 0) ?_ (Nat.zero_le k)
      intro n r hn
      rw [cut, if_neg (by simp)]
      intro hends _
      rw [text, List.append_assoc, arithUpTo, arithPrimary_blanks, arithPrimary_lit l hends]
      rfl
  | .var b name, _, k, _ => by
      refine Reading.mono (k := 0) ?_ (Nat.zero_le k)
      intro n r hn
      rw [cut, if_neg (by simp)]
      intro hends _
      rw [text, List.append_assoc, List.cons_append, arithUpTo, arithPrimary_blanks, arithPrimary]
      dsimp only
      rw [if_neg (by decide), if_neg (by decide), if_neg (by decide), if_neg (by decide),
        if_neg (by decide),
        if_neg (by decide), if_pos rfl, arithName_token name hends]
      rfl
  | .un b op e, h, k, _ =>
      (reading_un h.2 h.1 (reading h.2 (by rw [h.1]))).mono (Nat.zero_le k)
  | .group b e close, h, k, _ =>
      (reading_group (reading (e := e) h (k := 10) e.level_le)).mono (Nat.zero_le k)
  | .bin op l b r, h, k, hk => by
      obtain ⟨⟨hl, hr⟩, hls, hrs⟩ := h
      obtain ⟨j, hj⟩ : ∃ j, op.level = j + 1 := by cases op <;> exact ⟨_, rfl⟩
      refine Reading.mono (k := j + 1) ?_ (by rw [level, hj] at hk; exact hk)
      exact reading_bin hj (reading hls (by omega)) (reading hrs (by omega))

theorem shortNames_whole : ∀ e : Source, e.whole.ShortNames
  | .num _ _ => trivial
  | .var _ name => name.short
  | .un _ _ e => shortNames_whole e
  | .group _ e _ => shortNames_whole e
  | .bin _ l _ r => ⟨shortNames_whole l, shortNames_whole r⟩

theorem shortNames_cut : ∀ e : Source, e.cut.1.ShortNames
  | .num _ _ => trivial
  | .var _ name => name.short
  | .un _ _ e => shortNames_cut e
  | .group _ e _ => shortNames_cut e
  | .bin _ l k r => by
      rw [cut]
      split
      · exact shortNames_cut l
      · split
        · exact shortNames_cut l
        · exact ⟨shortNames_cut l, shortNames_cut r⟩

end Source

/-! ## Trees -/

/-- An expression tree. -/
inductive Term where
  | lit (l : Lit)
  | var (name : NameToken)
  | un (op : UnOp) (e : Term)
  | bin (op : BinOp) (l r : Term)

namespace Term

/-- Parentheses, if the place asks for them. -/
def paren (k : Nat) (s : Source) : Source := if s.level ≤ k then s else .group 0 s 0

/-- A tree as it is printed. -/
def source : Term → Source
  | .lit l => .num 0 l
  | .var name => .var 0 name
  | .un op e => .un 0 op (paren 0 e.source)
  | .bin op l r => .bin op (paren op.level l.source) 0 (paren (op.level - 1) r.source)

def text (t : Term) : CStr := t.source.text

def expr : Term → Expr Val
  | .lit l => .num l.val
  | .var name => .var name.text
  | .un op e => .un op e.expr
  | .bin op l r => .bin op l.expr r.expr

theorem paren_spec {k : Nat} {s : Source} (hs : s.Shaped) (hg : s.Snug) :
    (paren k s).level ≤ k ∧ (paren k s).Shaped ∧ (paren k s).Snug
      ∧ (paren k s).whole = s.whole := by
  rw [paren]
  split
  · next h => exact ⟨h, hs, hg, rfl⟩
  · exact ⟨Nat.zero_le k, hs, hg, rfl⟩

theorem source_spec : ∀ t : Term, t.source.Shaped ∧ t.source.Snug ∧ t.source.whole = t.expr
  | .lit l => ⟨trivial, trivial, rfl⟩
  | .var name => ⟨trivial, trivial, rfl⟩
  | .un op e => by
      obtain ⟨hs, hg, hw⟩ := source_spec e
      obtain ⟨hlevel, hs', hg', hw'⟩ := paren_spec (k := 0) hs hg
      refine ⟨⟨by omega, hs'⟩, hg', ?_⟩
      rw [source, Source.whole, hw', hw, expr]
  | .bin op l r => by
      obtain ⟨hls, hlg, hlw⟩ := source_spec l
      obtain ⟨hrs, hrg, hrw⟩ := source_spec r
      obtain ⟨hl, hls', hlg', hlw'⟩ := paren_spec (k := op.level) hls hlg
      obtain ⟨hr, hrs', hrg', hrw'⟩ := paren_spec (k := op.level - 1) hrs hrg
      have hpos : 0 < op.level := by cases op <;> decide
      refine ⟨⟨⟨hl, by omega⟩, hls', hrs'⟩, ⟨rfl, hlg', hrg'⟩, ?_⟩
      rw [source, Source.whole, hlw', hlw, hrw', hrw, expr]

end Term

section Results

variable {vars : List ShVar}

/-- **A printed tree is read to its end, and has the value that it means.** -/
theorem arithEval_print (t : Term) {x : Int} (hx : t.expr.meaning vars = some x) {n : Nat} (hn : t.text.length ≤ n) :
    ∃ v : Val, v.toInt = x ∧ arithLor (machine vars) (arithEval (machine vars) n) t.text = .done (v, [])
      ∧ arithEval (machine vars) (n + 1) t.text = .done v := by
  obtain ⟨hshaped, hsnug, hwhole⟩ := t.source_spec
  have hcut := hsnug.cut_eq
  rw [hwhole] at hcut
  have hshort : t.expr.ShortNames := hwhole ▸ t.source.shortNames_whole
  -- what is read
  have hread := Source.reading hshaped t.source.level_le n [] (by rw [List.append_nil]; exact hn)
  rw [hcut, List.append_nil] at hread
  have hnil : ∀ j, levelOp j [] = none := levelOp_nil
  have htree := hread (fun c hc => by cases hc) fun j _ => hnil j
  rw [loopAt_stops (hnil 10)] at htree
  -- what is computed
  have heval : ∀ q : CStr, q.length < n →
      EvalsAt (machine vars) (arithEval (machine vars) n q) (arithEval reader n q) :=
    fun q hq => arithEval_reads n n q hq hq
  obtain ⟨t', r, ht', _, hv⟩ := arithUpTo_reads heval 10 t.text hn
  rw [Term.text, htree] at ht'
  cases ht'
  rcases t.expr.fold_machine vars hshort with ⟨v, hfold, hm⟩ | ⟨_, hm⟩
  · rw [hfold, Outcome.bind_done] at hv
    refine ⟨v, Option.some.inj (hm.symm.trans hx), hv, ?_⟩
    rw [arithEval, arithLor_eq, hv]
    rfl
  · rw [hm] at hx
    cases hx

/-- **Blanks change nothing exactly if what they cut off changes nothing.** -/
theorem blanks_iff (e : Source) (he : e.Shaped) (k : Nat) {fuel : Nat}
    (hf : (e.text ++ List.replicate k space).length < fuel) :
    arithEval (machine vars) fuel (e.text ++ List.replicate k space) = arithEval (machine vars) fuel e.tight.text
      ↔ e.cut.1.meaning vars = e.whole.meaning vars := by
  obtain ⟨n, rfl⟩ : ∃ n, fuel = n + 1 := ⟨fuel - 1, by omega⟩
  have htight := e.tight_length
  have hlen : e.text.length ≤ (e.text ++ List.replicate k space).length := by simp
  have hspaced : arithEval reader (n + 1) (e.text ++ List.replicate k space) = .done e.cut.1 := by
    refine (Source.reading he e.level_le).eval (by omega) ?_
    cases k with
    | zero => exact Or.inl rfl
    | succ k => exact Or.inr ⟨space, _, rfl, Or.inl rfl⟩
  have hplain : arithEval reader (n + 1) (e.tight.text ++ []) = .done e.tight.cut.1 :=
    (Source.reading (Source.tight_shaped he) e.tight.level_le).eval (by rw [List.append_nil]; omega)
      (Or.inl rfl)
  rw [List.append_nil, e.tight_snug.cut_eq, Source.tight_whole] at hplain
  rw [arithEval_tree _ hf, arithEval_tree _ (by omega), arithTree_eq hf hspaced,
    arithTree_eq (by omega) hplain]
  rcases e.cut.1.fold_machine vars e.shortNames_cut with ⟨v, hv, hm⟩ | ⟨hv, hm⟩
  · rcases e.whole.fold_machine vars e.shortNames_whole with ⟨w, hw, hm'⟩ | ⟨hw, hm'⟩
    · rw [hv, hw, hm, hm', Option.some.injEq, BitVec.toInt_inj]
      exact ⟨fun h => Outcome.done.inj h, fun h => by rw [h]⟩
    · rw [hv, hw, hm, hm']
      simp
  · rcases e.whole.fold_machine vars e.shortNames_whole with ⟨w, hw, hm'⟩ | ⟨hw, hm'⟩
    · rw [hv, hw, hm, hm']
      simp
    · rw [hv, hw, hm, hm']
      simp

end Results

/-! ## In writing -/

/-- A literal of one digit. -/
def digitLit (d : Fin 10) : Lit where
  hex := false
  digits := [0x30 + UInt8.ofNat d.val]
  ne_nil := List.cons_ne_nil _ _
  valid := by
    intro c hc
    have hdigit : ∀ d : Fin 10, digitOf (0x30 + UInt8.ofNat d.val) = some d.val := by decide
    rw [List.mem_singleton.mp hc]
    exact ⟨d.val, hdigit d, d.isLt⟩
  lead _ := by
    revert d
    decide

def nameX : NameToken := ⟨cstr "x", by decide, by decide, by decide⟩

/-- `(1+2)*-$x`. -/
def productTree : Term :=
  .bin .mul (.bin .add (.lit (digitLit 1)) (.lit (digitLit 2))) (.un .neg (.var nameX))

theorem arithEval_print_product : ∃ v : Val, v.toInt = -15
    ∧ arithLor (machine [⟨cstr "x", cstr "5", false⟩]) (arithEval (machine [⟨cstr "x", cstr "5", false⟩]) 9)
        (cstr "(1+2)*-$x") = .done (v, [])
    ∧ arithEval (machine [⟨cstr "x", cstr "5", false⟩]) 10 (cstr "(1+2)*-$x") = .done v := by
  have htext : productTree.text = cstr "(1+2)*-$x" := by decide +kernel
  have hmeaning : productTree.expr.meaning [⟨cstr "x", cstr "5", false⟩]
    = some (-15) := by decide +kernel
  have h := arithEval_print productTree hmeaning (n := 9) (by rw [htext]; decide)
  rw [htext] at h
  exact h

/-- `( 1+ 2 )` with a blank behind it. -/
def spacedGroup : Source := .group 0 (.bin .add (.num 1 (digitLit 1)) 0 (.num 1 (digitLit 2))) 1

theorem blanks_iff_group :
    arithEval (machine []) 10 (cstr "( 1+ 2 ) ") = arithEval (machine []) 10 (cstr "(1+2)") := by
  have htext : spacedGroup.text ++ List.replicate 1 space = cstr "( 1+ 2 ) " := by decide +kernel
  have htight : spacedGroup.tight.text = cstr "(1+2)" := by decide +kernel
  have hsnug : spacedGroup.Snug := ⟨rfl, trivial, trivial⟩
  rw [← htext, ← htight]
  refine (blanks_iff spacedGroup ⟨⟨by decide, by decide⟩, trivial, trivial⟩ 1
    (by rw [htext]; decide)).mpr ?_
  rw [hsnug.cut_eq]

/-- **A blank in front of an operator.** `1 +2` is one. -/
theorem blank_before_operator : ¬ ∀ (vars : List ShVar) (e : Source) (k fuel : Nat), e.Shaped →
    (e.text ++ List.replicate k space).length < fuel →
    arithEval (machine vars) fuel (e.text ++ List.replicate k space) = arithEval (machine vars) fuel e.tight.text := by
  intro h
  have hone : arithEval (machine []) 5 (cstr "1 +2") = .done 1 := by decide +kernel
  have hthree : arithEval (machine []) 5 (cstr "1+2") = .done 3 := by decide +kernel
  have hsame := h [] (.bin .add (.num 0 (digitLit 1)) 1 (.num 0 (digitLit 2))) 0 5
    ⟨⟨by decide, by decide⟩, trivial, trivial⟩ (by decide +kernel)
  have hfirst : (Source.bin .add (.num 0 (digitLit 1)) 1 (.num 0 (digitLit 2))).text
    ++ List.replicate 0 space
      = cstr "1 +2" := by decide +kernel
  have hsecond : (Source.bin .add (.num 0 (digitLit 1)) 1 (.num 0 (digitLit 2))).tight.text
      = cstr "1+2" := by
    decide +kernel
  rw [hfirst, hsecond, hone, hthree] at hsame
  exact absurd hsame (by decide)

end VnlKernel
