import VnlKernel.Shell.Arith

/-!
# The expression that `arith_eval` reads

The descent decides where to go by the text alone. So whatever the text is, there is an
expression that is read from it, and what the code computes is the value of that expression:
operands from left to right, and a trap where one of its divisions traps. Reading ends for
every text, since every call consumes some of it or goes one level down.

What an expression means is said over the integers.
-/

namespace VnlKernel

/-! ## Expressions -/

inductive Expr (α : Type) where
  | num (a : α)
  | var (name : CStr)
  | un (op : UnOp) (e : Expr α)
  | bin (op : BinOp) (l r : Expr α)

/-- Evaluate the operands, from left to right, and apply the operator. -/
def Expr.fold {V : Type} (A : Arith V) : Expr Val → Outcome V
  | .num v => .done (A.num v)
  | .var name => A.var name
  | .un op e => do
      let v ← e.fold A
      pure (A.un op v)
  | .bin op l r => do
      let v ← l.fold A
      let w ← r.fold A
      A.bin op v w

/-- Only write down what was read. -/
def reader : Arith (Expr Val) where
  num := .num
  var name := .done (.var name)
  un := .un
  bin op l r := .done (.bin op l r)

/-! ## Reading ends, and comes before computing -/

section Reading

variable {V : Type} (A : Arith V)

/-- On a text the reader ends, without more text than before, and the other evaluates what was read.
-/
def ReadsAt (x : Outcome (V × CStr)) (y : Outcome (Expr Val × CStr)) (p : CStr) : Prop :=
  ∃ t r, y = .done (t, r) ∧ r.length ≤ p.length ∧ x = t.fold A >>= fun v => .done (v, r)

/-- The same for the call in parentheses. -/
def EvalsAt (x : Outcome V) (y : Outcome (Expr Val)) : Prop := ∃ t, y = .done t ∧ x = t.fold A

theorem strtolDigits_length (base : Nat) : ∀ (s : CStr) (v : Val),
    (strtolDigits base v s).2.length ≤ s.length
  | [], v => by simp [strtolDigits]
  | c :: s, v => by
      rw [strtolDigits]
      cases digitOf c with
      | none => simp
      | some d =>
          dsimp only
          split
          · simp
          · exact (strtolDigits_length base s _).trans (by simp)

theorem strtol_length (base : Nat) (s : CStr) : (strtol base s).2.length ≤ s.length := by
  have hskip : (skipBlanks s).length ≤ s.length := (List.dropWhile_sublist _).length_le
  have hsign : ∀ s : CStr, (if s.head? = some 0x2D ∨ s.head? = some 0x2B then s.drop 1 else
      s).length ≤ s.length := by
    intro s
    split
    · simp
    · exact le_refl _
  have hdigits : ∀ (b n : Nat) (s : CStr), (strtolDigits b 0 (s.drop n)).2.length ≤ s.length := by
    intro b n s
    exact (strtolDigits_length b _ 0).trans (by simp)
  rw [strtol]
  dsimp only
  refine le_trans ?_ ((hsign (skipBlanks s)).trans hskip)
  generalize (if (skipBlanks s).head? = some 0x2D ∨ (skipBlanks s).head? = some 0x2B then
    (skipBlanks s).drop 1
    else skipBlanks s) = s'
  split
  · split
    · exact hdigits 16 2 s'
    · split
      · exact hdigits 8 1 s'
      · exact hdigits 10 0 s'
  · split
    · exact hdigits 16 2 s'
    · exact hdigits base 0 s'

theorem arithName_length (p : CStr) : (arithName p).2.length ≤ p.length := by
  rw [arithName]
  split
  · dsimp only
    rw [skipBrace, List.length_drop]
    have : ((p.drop 1).dropWhile (· ≠ braceClose)).length ≤ (p.drop 1).length :=
      (List.dropWhile_sublist _).length_le
    rw [List.length_drop] at this
    omega
  · exact (List.dropWhile_sublist _).length_le

variable {A}

theorem arithPrimary_reads {evalA : CStr → Outcome V} {evalT : CStr → Outcome (Expr Val)} {n : Nat}
    (h : ∀ q : CStr, q.length < n → EvalsAt A (evalA q) (evalT q)) : ∀ p : CStr, p.length ≤ n →
    ReadsAt A (arithPrimary A evalA p) (arithPrimary reader evalT p) p
  | [], _ => ⟨.num 0, [], rfl, le_refl _, rfl⟩
  | c :: q, hp => by
      rw [List.length_cons] at hp
      have ih := arithPrimary_reads h q (by omega)
      have hunary : ∀ op, ReadsAt A
          (arithPrimary A evalA q >>= fun a => pure (A.un op a.1, a.2))
          (arithPrimary reader evalT q >>= fun a => pure (reader.un op a.1, a.2)) (c :: q) := by
        intro op
        obtain ⟨t, r, ht, hr, hv⟩ := ih
        refine ⟨.un op t, r, by rw [ht]; rfl, hr.trans (by simp), ?_⟩
        rw [hv, Expr.fold, Outcome.bind_assoc, Outcome.bind_assoc]
        rfl
      rw [arithPrimary, arithPrimary]
      dsimp only
      by_cases h1 : c = space
      · rw [if_pos h1, if_pos h1]
        obtain ⟨t, r, ht, hr, hv⟩ := ih
        exact ⟨t, r, ht, hr.trans (by simp), hv⟩
      rw [if_neg h1, if_neg h1]
      by_cases h2 : c = parenOpen
      · rw [if_pos h2, if_pos h2]
        obtain ⟨t, ht, hv⟩ := h q (by omega)
        exact ⟨t, q.drop (parenSpan 1 q), by rw [ht]; rfl, by simp; omega, by rw [hv]; rfl⟩
      rw [if_neg h2, if_neg h2]
      by_cases h3 : c = 0x2D
      · rw [if_pos h3, if_pos h3]
        exact hunary .neg
      rw [if_neg h3, if_neg h3]
      by_cases h4 : c = 0x2B
      · rw [if_pos h4, if_pos h4]
        exact hunary .plus
      rw [if_neg h4, if_neg h4]
      by_cases h5 : c = 0x7E
      · rw [if_pos h5, if_pos h5]
        exact hunary .compl
      rw [if_neg h5, if_neg h5]
      by_cases h6 : c = 0x21
      · rw [if_pos h6, if_pos h6]
        exact hunary .lnot
      rw [if_neg h6, if_neg h6]
      by_cases h7 : c = dollarSign
      · rw [if_pos h7, if_pos h7]
        exact ⟨.var (arithName q).1, (arithName q).2, rfl, (arithName_length q).trans (by simp),
          rfl⟩
      rw [if_neg h7, if_neg h7]
      exact ⟨.num (strtol 0 (c :: q)).1, (strtol 0 (c :: q)).2, rfl, strtol_length 0 (c :: q), rfl⟩

/-- Operators are not empty. -/
def Shrinks (opAt : CStr → Option (BinOp × CStr)) : Prop :=
  ∀ p op q, opAt p = some (op, q) → q.length < p.length

/-- The loop of a level goes on with what was read so far. -/
theorem arithLoop_reads {opAt : CStr → Option (BinOp × CStr)} (hop : Shrinks opAt)
    {operandA : CStr → Outcome (V × CStr)} {operandT : CStr → Outcome (Expr Val × CStr)} {n : Nat}
    (h : ∀ p : CStr, p.length ≤ n → ReadsAt A (operandA p) (operandT p) p) :
    ∀ (f g : Nat) (t : Expr Val) (p : CStr), p.length < f → p.length < g → p.length ≤ n →
    ReadsAt A (t.fold A >>= fun v => arithLoop A operandA opAt f v p)
    (arithLoop reader operandT opAt g t p) p
  | 0, _, _, _, hf, _, _ => absurd hf (by omega)
  | _ + 1, 0, _, _, _, hg, _ => absurd hg (by omega)
  | f + 1, g + 1, t, p, hf, hg, hn => by
      rw [arithLoop]
      cases hq : opAt p with
      | none =>
          refine ⟨t, p, rfl, le_refl _, ?_⟩
          refine Outcome.bind_congr fun v _ => ?_
          rw [arithLoop, hq]
      | some x =>
          obtain ⟨op, q⟩ := x
          have hlt := hop p op q hq
          obtain ⟨t₂, r, ht₂, hr, hv₂⟩ := h q (by omega)
          obtain ⟨t', r', ht', hr', hv'⟩ :=
            arithLoop_reads hop h f g (.bin op t t₂) r (by omega) (by omega) (by omega)
          refine ⟨t', r', ?_, by omega, ?_⟩
          · dsimp only
            rw [ht₂]
            exact ht'
          · rw [← hv', Expr.fold, Outcome.bind_assoc]
            refine Outcome.bind_congr fun v _ => ?_
            rw [arithLoop, hq]
            dsimp only
            rw [hv₂, Outcome.bind_assoc, Outcome.bind_assoc]
            rfl

theorem arithLevel_reads {opAt : CStr → Option (BinOp × CStr)} (hop : Shrinks opAt)
    {operandA : CStr → Outcome (V × CStr)} {operandT : CStr → Outcome (Expr Val × CStr)} {n : Nat}
    (h : ∀ p : CStr, p.length ≤ n → ReadsAt A (operandA p) (operandT p) p) (p : CStr)
    (hn : p.length ≤ n) :
    ReadsAt A (arithLevel A opAt operandA p) (arithLevel reader opAt operandT p) p := by
  obtain ⟨t, r, ht, hr, hv⟩ := h p hn
  obtain ⟨t', r', ht', hr', hv'⟩ :=
    arithLoop_reads hop h (r.length + 1) (r.length + 1) t r (by omega) (by omega) (by omega)
  refine ⟨t', r', ?_, by omega, ?_⟩
  · rw [arithLevel, ht]
    exact ht'
  · rw [arithLevel, hv, Outcome.bind_assoc, ← hv']
    rfl

/-! ### The operators of each level -/

/-- The operators of the levels, from the one that binds most. -/
def levelOp : Nat → CStr → Option (BinOp × CStr)
  | 1 => mulOp
  | 2 => addOp
  | 3 => shiftOp
  | 4 => relOp
  | 5 => eqOp
  | 6 => bandOp
  | 7 => bxorOp
  | 8 => borOp
  | 9 => landOp
  | 10 => lorOp
  | _ => fun _ => none

/-- The levels from the primary up. -/
def arithUpTo (A : Arith V) (eval : CStr → Outcome V) : Nat → CStr → Outcome (V × CStr)
  | 0 => arithPrimary A eval
  | k + 1 => arithLevel A (levelOp (k + 1)) (arithUpTo A eval k)

theorem arithLor_eq (A : Arith V) (eval : CStr → Outcome V) :
    arithLor A eval = arithUpTo A eval 10 := rfl

theorem shrinks_op1 (c : UInt8) (op : BinOp) : Shrinks (op1 c op) := by
  intro p o q h
  rw [op1] at h
  split at h
  · next hc =>
    cases h
    obtain ⟨r, rfl⟩ := List.head?_eq_some_iff.mp hc
    simp
  · cases h

theorem shrinks_op1Not (c d : UInt8) (op : BinOp) : Shrinks (op1Not c d op) := by
  intro p o q h
  rw [op1Not] at h
  split at h
  · next hc =>
    cases h
    obtain ⟨r, rfl⟩ := List.head?_eq_some_iff.mp hc.1
    simp
  · cases h

theorem shrinks_op2 (c d : UInt8) (op : BinOp) : Shrinks (op2 c d op) := by
  intro p o q h
  rw [op2] at h
  split at h
  · next hc =>
    cases h
    obtain ⟨r, rfl⟩ := List.head?_eq_some_iff.mp hc.1
    rw [List.length_drop, List.length_cons]
    omega
  · cases h

theorem shrinks_opRel (c : UInt8) (strict weak : BinOp) : Shrinks (opRel c strict weak) := by
  intro p o q h
  rw [opRel] at h
  split at h
  · next hc =>
    obtain ⟨r, rfl⟩ := List.head?_eq_some_iff.mp hc
    split at h
    · cases h
      rw [List.length_drop, List.length_cons]
      omega
    · cases h
      simp
  · cases h

theorem Shrinks.orElse {f g : CStr → Option (BinOp × CStr)} (hf : Shrinks f) (hg : Shrinks g) :
    Shrinks fun p => f p <|> g p := by
  intro p op q h
  change (f p <|> g p) = some (op, q) at h
  cases hp : f p with
  | none =>
      rw [hp] at h
      exact hg p op q h
  | some x =>
      rw [hp] at h
      cases h
      exact hf p op q hp

theorem shrinks_levelOp : ∀ k, Shrinks (levelOp k)
  | 0 => fun _ _ _ h => by cases h
  | 1 => (shrinks_op1 _ _).orElse ((shrinks_op1 _ _).orElse (shrinks_op1 _ _))
  | 2 => (shrinks_op1 _ _).orElse (shrinks_op1 _ _)
  | 3 => (shrinks_op2 _ _ _).orElse (shrinks_op2 _ _ _)
  | 4 => (shrinks_opRel _ _ _).orElse (shrinks_opRel _ _ _)
  | 5 => (shrinks_op2 _ _ _).orElse (shrinks_op2 _ _ _)
  | 6 => shrinks_op1Not _ _ _
  | 7 => shrinks_op1 _ _
  | 8 => shrinks_op1Not _ _ _
  | 9 => shrinks_op2 _ _ _
  | 10 => shrinks_op2 _ _ _
  | _ + 11 => fun _ _ _ h => by cases h

theorem arithUpTo_reads {evalA : CStr → Outcome V} {evalT : CStr → Outcome (Expr Val)} {n : Nat}
    (h : ∀ q : CStr, q.length < n → EvalsAt A (evalA q) (evalT q)) : ∀ (k : Nat) (p : CStr),
      p.length ≤ n →
    ReadsAt A (arithUpTo A evalA k p) (arithUpTo reader evalT k p) p
  | 0 => arithPrimary_reads h
  | k + 1 => arithLevel_reads (shrinks_levelOp _) (arithUpTo_reads h k)

/-- Fuel for both that is more than the text is long. -/
theorem arithEval_reads : ∀ (n m : Nat) (p : CStr), p.length < n → p.length < m →
    EvalsAt A (arithEval A n p) (arithEval reader m p)
  | 0, _, _, hn, _ => absurd hn (by omega)
  | _ + 1, 0, _, _, hm => absurd hm (by omega)
  | n + 1, m + 1, p, hn, hm => by
      have h : ∀ q : CStr, q.length < p.length
          → EvalsAt A (arithEval A n q) (arithEval reader m q) :=
        fun q hq => arithEval_reads n m q (by omega) (by omega)
      obtain ⟨t, r, ht, _, hv⟩ := arithUpTo_reads h 10 p (le_refl _)
      refine ⟨t, ?_, ?_⟩
      · rw [arithEval, arithLor_eq, ht]
        rfl
      · rw [arithEval, arithLor_eq, hv, Outcome.bind_assoc]
        cases t.fold A with
        | done v => rfl
        | panic msg => rfl
        | timeout => rfl

end Reading

/-- The expression that is read from a text. -/
def arithTree (p : CStr) : Expr Val := (arithEval reader (p.length + 1) p).get?.getD (.num 0)

/-- **What `arith_eval` computes is the value of the expression it reads.** -/
theorem arithEval_tree {V : Type} (A : Arith V) {fuel : Nat} {p : CStr} (hf : p.length < fuel) :
    arithEval A fuel p = (arithTree p).fold A := by
  obtain ⟨t, ht, hv⟩ := arithEval_reads (A := A) fuel (p.length + 1) p hf (by omega)
  rw [arithTree, ht]
  exact hv

theorem Expr.fold_reader : ∀ t : Expr Val, t.fold reader = .done t
  | .num _ => rfl
  | .var _ => rfl
  | .un _ e => by
      rw [Expr.fold, e.fold_reader]
      rfl
  | .bin _ l r => by
      rw [Expr.fold, l.fold_reader, r.fold_reader]
      rfl

/-- A text that is read is read with any fuel. -/
theorem arithTree_eq {fuel : Nat} {p : CStr} {t : Expr Val} (hf : p.length < fuel)
    (h : arithEval reader fuel p = .done t) : arithTree p = t := by
  rw [arithEval_tree reader hf, Expr.fold_reader] at h
  exact Outcome.done.inj h

/-! ## What an expression means -/

/-- Two's complement. -/
def wrap (i : Int) : Int := i.bmod (2 ^ 64)

def truth (b : Bool) : Int := if b then 1 else 0

def UnOp.value : UnOp → Int → Int
  | .neg, x => wrap (-x)
  | .plus, x => x
  | .compl, x => -x - 1
  | .lnot, x => truth (x = 0)

/-- Bits are those of the two's complement. -/
def bitwise (f : Val → Val → Val) (x y : Int) : Int := (f (BitVec.ofInt 64 x) (BitVec.ofInt 64 y)).toInt

/-- The value of an operation. The machine takes a count modulo 64. -/
def BinOp.value : BinOp → Int → Int → Int
  | .mul, x, y => wrap (x * y)
  | .div, x, y => if y = 0 then 0 else wrap (x.tdiv y)
  | .mod, x, y => if y = 0 then 0 else x.tmod y
  | .add, x, y => wrap (x + y)
  | .sub, x, y => wrap (x - y)
  | .shl, x, y => wrap (x * 2 ^ (y % 64).toNat)
  | .shr, x, y => x / 2 ^ (y % 64).toNat
  | .lt, x, y => truth (x < y)
  | .le, x, y => truth (x ≤ y)
  | .gt, x, y => truth (y < x)
  | .ge, x, y => truth (y ≤ x)
  | .eq, x, y => truth (x = y)
  | .ne, x, y => truth (x ≠ y)
  | .band, x, y => bitwise (· &&& ·) x y
  | .bxor, x, y => bitwise (· ^^^ ·) x y
  | .bor, x, y => bitwise (· ||| ·) x y
  | .land, x, y => truth (x ≠ 0 && y ≠ 0)
  | .lor, x, y => truth (x ≠ 0 || y ≠ 0)

/-- `INT64_MIN / -1` and `INT64_MIN % -1`. -/
def BinOp.traps (op : BinOp) (x y : Int) : Bool := (op = .div || op = .mod) && x = -2 ^ 63 && y = -1

/-- The value of an expression, if no division in it traps. Both operands of `&&` and `||` are
evaluated. -/
def Expr.meaning (vars : List ShVar) : Expr Val → Option Int
  | .num v => some v.toInt
  | .var name => some (varNumber vars name).toInt
  | .un op e => (e.meaning vars).map op.value
  | .bin op l r => do
      let x ← l.meaning vars
      let y ← r.meaning vars
      if op.traps x y then none else some (op.value x y)

/-- All names fit. -/
def Expr.ShortNames {α : Type} : Expr α → Prop
  | .num _ => True
  | .var name => name.length < shVarNamsz
  | .un _ e => e.ShortNames
  | .bin _ l r => l.ShortNames ∧ r.ShortNames

/-! ## The machine computes it -/

theorem toInt_ofBool (b : Bool) : (Val.ofBool b).toInt = truth b := by
  cases b
  · rfl
  · rfl

theorem toInt_eq_zero {v : Val} : v.toInt = 0 ↔ v = 0 := by
  rw [← BitVec.toInt_inj]
  rfl

theorem UnOp.apply_value (op : UnOp) (v : Val) : (op.apply v).toInt = op.value v.toInt := by
  cases op with
  | neg => exact BitVec.toInt_neg
  | plus => rfl
  | compl =>
      have h1 := BitVec.le_toInt v
      have h2 := BitVec.toInt_lt (x := v)
      rw [UnOp.apply, UnOp.value, BitVec.not_eq_neg_add, BitVec.toInt_sub, BitVec.toInt_neg]
      show ((-v.toInt).bmod (2 ^ 64) - 1).bmod (2 ^ 64) = _
      rw [Int.bmod_sub_bmod, Int.bmod_eq_of_le] <;> omega
  | lnot =>
      rw [UnOp.apply, UnOp.value, toInt_ofBool]
      simp only [toInt_eq_zero]

theorem shl_value (v : Val) (n : Nat) : (v <<< n).toInt = wrap (v.toInt * 2 ^ n) := by
  have hpow : ((v.toNat <<< n : Nat) : Int) = v.toNat * 2 ^ n := by
    rw [Nat.shiftLeft_eq]
    push_cast
    rfl
  rw [BitVec.toInt_shiftLeft, wrap, BitVec.toInt_eq_toNat_bmod, Int.bmod_mul_bmod]
  exact congrArg (fun i : Int => i.bmod (2 ^ 64)) hpow

/-- A division traps, or gives the value that it has over the integers; so does everything else. -/
theorem BinOp.apply_value (op : BinOp) (v r : Val) :
    if op.traps v.toInt r.toInt then op.apply v r = .panic "divide error"
    else ∃ w, op.apply v r = .done w ∧ w.toInt = op.value v.toInt r.toInt := by
  have hcount : (r.toInt % 64).toNat = r.toNat % 64 := by
    have := BitVec.toInt_eq_toNat_cond r
    split at this <;> omega
  -- a division of either kind, where it does not trap
  have hdiv : ∀ (f : Val → Val → Val) (x : Int), (r ≠ 0 → (f v r).toInt = x) →
      if (decide (v.toInt = -2 ^ 63) && decide (r.toInt = -1)) = true then
        (if r ≠ 0 then idiv f v r else .done 0) = .panic "divide error"
      else ∃ w, (if r ≠ 0 then idiv f v r else .done 0) = .done w
          ∧ w.toInt = if r.toInt = 0 then 0 else x := by
    intro f x hx
    have hmin : v = BitVec.intMin 64 ↔ v.toInt = -2 ^ 63 := by
      rw [← BitVec.toInt_inj]
      rfl
    have hone : r = -1 ↔ r.toInt = -1 := by
      rw [← BitVec.toInt_inj]
      rfl
    simp only [idiv, hmin, hone]
    by_cases hr : r = 0
    · simp [hr]
    · have hr' : r.toInt ≠ 0 := fun h => hr (toInt_eq_zero.mp h)
      by_cases htrap : v.toInt = -2 ^ 63 ∧ r.toInt = -1
      · rw [if_pos (by simpa using htrap), if_pos hr, if_neg hr, if_pos htrap]
      · rw [if_neg (by simpa using htrap), if_pos hr, if_neg hr, if_neg htrap, if_neg hr']
        exact ⟨_, rfl, hx hr⟩
  cases op with
  | mul => exact ⟨_, rfl, BitVec.toInt_mul v r⟩
  | add => exact ⟨_, rfl, BitVec.toInt_add v r⟩
  | sub => exact ⟨_, rfl, BitVec.toInt_sub⟩
  | div => exact hdiv BitVec.sdiv _ fun _ => BitVec.toInt_sdiv v r
  | mod => exact hdiv BitVec.srem _ fun _ => BitVec.toInt_srem v r
  | shl =>
      refine ⟨_, rfl, ?_⟩
      rw [shl_value, BinOp.value, hcount]
  | shr =>
      refine ⟨_, rfl, ?_⟩
      rw [BitVec.toInt_sshiftRight, BinOp.value, hcount, Int.shiftRight_eq_div_pow]
      rfl
  | lt => exact ⟨_, rfl, toInt_ofBool _⟩
  | le => exact ⟨_, rfl, toInt_ofBool _⟩
  | gt => exact ⟨_, rfl, toInt_ofBool _⟩
  | ge => exact ⟨_, rfl, toInt_ofBool _⟩
  | eq =>
      refine ⟨_, rfl, (toInt_ofBool _).trans ?_⟩
      simp only [BinOp.value, BitVec.toInt_inj]
  | ne =>
      refine ⟨_, rfl, (toInt_ofBool _).trans ?_⟩
      simp only [BinOp.value, ne_eq, BitVec.toInt_inj]
  | band =>
      refine ⟨_, rfl, ?_⟩
      rw [BinOp.value, bitwise, BitVec.ofInt_toInt, BitVec.ofInt_toInt]
  | bxor =>
      refine ⟨_, rfl, ?_⟩
      rw [BinOp.value, bitwise, BitVec.ofInt_toInt, BitVec.ofInt_toInt]
  | bor =>
      refine ⟨_, rfl, ?_⟩
      rw [BinOp.value, bitwise, BitVec.ofInt_toInt, BitVec.ofInt_toInt]
  | land =>
      refine ⟨_, rfl, (toInt_ofBool _).trans ?_⟩
      simp only [BinOp.value, ne_eq, toInt_eq_zero]
  | lor =>
      refine ⟨_, rfl, (toInt_ofBool _).trans ?_⟩
      simp only [BinOp.value, ne_eq, toInt_eq_zero]

variable {vars : List ShVar}

/-- **An expression is computed as it is meant, or it traps and has no meaning.** -/
theorem Expr.fold_machine (vars : List ShVar) : ∀ t : Expr Val, t.ShortNames →
    (∃ v, t.fold (machine vars) = .done v ∧ t.meaning vars = some v.toInt)
      ∨ (t.fold (machine vars) = .panic "divide error" ∧ t.meaning vars = none)
  | .num v, _ => Or.inl ⟨v, rfl, rfl⟩
  | .var name, h => by
      refine Or.inl ⟨varNumber vars name, ?_, rfl⟩
      rw [Expr.fold]
      exact if_neg (Nat.not_le.mpr h)
  | .un op e, h => by
      rcases e.fold_machine vars h with ⟨v, hv, hm⟩ | ⟨hv, hm⟩
      · refine Or.inl ⟨op.apply v, by rw [Expr.fold, hv]; rfl, ?_⟩
        rw [Expr.meaning, hm, UnOp.apply_value]
        rfl
      · exact Or.inr ⟨by rw [Expr.fold, hv]; rfl, by rw [Expr.meaning, hm]; rfl⟩
  | .bin op l r, h => by
      rcases l.fold_machine vars h.1 with ⟨v, hv, hm⟩ | ⟨hv, hm⟩
      · rcases r.fold_machine vars h.2 with ⟨w, hw, hn⟩ | ⟨hw, hn⟩
        · have hfold : (Expr.bin op l r).fold (machine vars)
            = op.apply v w := by rw [Expr.fold, hv, hw]; rfl
          have hmean : (Expr.bin op l r).meaning vars
              = if op.traps v.toInt w.toInt then none else some (op.value v.toInt w.toInt) := by
            rw [Expr.meaning, hm, hn]
            rfl
          have happly := op.apply_value v w
          cases ht : op.traps v.toInt w.toInt with
          | true =>
              rw [ht, if_pos rfl] at happly hmean
              exact Or.inr ⟨hfold.trans happly, hmean⟩
          | false =>
              rw [ht, if_neg (by decide)] at happly hmean
              obtain ⟨x, hx, hval⟩ := happly
              exact Or.inl ⟨x, hfold.trans hx, by rw [hmean, hval]⟩
        · exact Or.inr ⟨by rw [Expr.fold, hv, hw]; rfl, by rw [Expr.meaning, hm, hn]; rfl⟩
      · exact Or.inr ⟨by rw [Expr.fold, hv]; rfl, by rw [Expr.meaning, hm]; rfl⟩

/-- A name that does not fit is written past the end of its buffer. -/
theorem Expr.shortNames_of_fold : ∀ (t : Expr Val) {v : Val}, t.fold (machine vars) = .done v
    → t.ShortNames
  | .num _, _, _ => trivial
  | .var name, v, h => by
      by_contra hlen
      have : name.length ≥ shVarNamsz := Nat.not_lt.mp hlen
      have hpanic : (Expr.var name).fold (machine vars) = .panic "vname: write past the end" :=
        if_pos this
      rw [hpanic] at h
      cases h
  | .un op e, v, h => by
      obtain ⟨w, hw, _⟩ := Outcome.bind_eq_done h
      exact e.shortNames_of_fold hw
  | .bin op l r, v, h => by
      obtain ⟨w, hw, h⟩ := Outcome.bind_eq_done h
      obtain ⟨x, hx, _⟩ := Outcome.bind_eq_done h
      exact ⟨l.shortNames_of_fold hw, r.shortNames_of_fold hx⟩

/-! ## When evaluation ends well -/

/-- **`arith_eval` returns exactly if no division in the expression traps**, and the names in it
fit. -/
theorem arithEval_returns_iff {fuel : Nat} {p : CStr} (hf : p.length < fuel) :
    (∃ v, arithEval (machine vars) fuel p = .done v)
      ↔ (arithTree p).meaning vars ≠ none ∧ (arithTree p).ShortNames := by
  rw [arithEval_tree (machine vars) hf]
  constructor
  · rintro ⟨v, hv⟩
    have hshort := (arithTree p).shortNames_of_fold hv
    refine ⟨?_, hshort⟩
    rcases (arithTree p).fold_machine vars hshort with ⟨w, _, hm⟩ | ⟨htrap, _⟩
    · rw [hm]
      simp
    · rw [htrap] at hv
      cases hv
  · rintro ⟨hmean, hshort⟩
    rcases (arithTree p).fold_machine vars hshort with ⟨w, hw, _⟩ | ⟨_, hm⟩
    · exact ⟨w, hw⟩
    · exact absurd hm hmean

theorem arithEval_returns_iff_zero : ∃ v, arithEval (machine []) 4 (cstr "7/0") = .done v := by
  refine (arithEval_returns_iff (by decide)).mpr ⟨?_, ?_⟩
  · have hzero : (arithTree (cstr "7/0")).meaning [] = some 0 := by decide +kernel
    rw [hzero]
    simp
  · exact ⟨trivial, trivial⟩

/-- The smallest number, divided by minus one. -/
theorem smallest_by_minus_one : ¬ ∀ (vars : List ShVar) (p : CStr) (fuel : Nat), p.length < fuel →
    ∃ v, arithEval (machine vars) fuel p = .done v := by
  intro h
  obtain ⟨v, hv⟩ := h [] (cstr "(1<<63)/-1") 11 (by decide)
  have htrap : arithEval (machine []) 11 (cstr "(1<<63)/-1")
    = .panic "divide error" := by decide +kernel
  rw [htrap] at hv
  cases hv

end VnlKernel
