import VnlKernel.Shell.Words
import Mathlib.Data.BitVec

/-!
# Arithmetic: `arith_eval` of `src/shell/sh.c`

A recursive descent over eleven levels of precedence that share one cursor. Each level reads an
operand of the level below and goes on as long as the cursor is at an operator of its own. Blanks
are skipped in front of a primary and nowhere else. A parenthesis is evaluated from a copy of the
cursor, which is then moved behind it by counting parentheses.

The descent does not look at the values. What is done with them is a parameter, `Arith`: it is
`machine` for the code, and other instances say which expression was read.
-/

namespace VnlKernel

/-- `int64_t`. -/
abbrev Val : Type := BitVec 64

/-! ## `strtol` of `src/lib/string.c` -/

/-- The digit a character stands for, in any base. -/
def digitOf (c : UInt8) : Option Nat :=
  if 0x30 ≤ c ∧ c ≤ 0x39 then some (c.toNat - 0x30)
  else if 0x61 ≤ c ∧ c ≤ 0x66 then some (c.toNat - 0x61 + 10)
  else if 0x41 ≤ c ∧ c ≤ 0x46 then some (c.toNat - 0x41 + 10)
  else none

/-- The loop of `strtol`. -/
def strtolDigits (base : Nat) : Val → CStr → Val × CStr
  | v, [] => (v, [])
  | v, c :: s =>
      match digitOf c with
      | none => (v, c :: s)
      | some d =>
          if d ≥ base then (v, c :: s)
          else strtolDigits base (v * BitVec.ofNat 64 base + BitVec.ofNat 64 d) s

/-- Does the text begin with `0x`? -/
def hexMark (s : CStr) : Bool :=
  s.head? = some 0x30 && ((s.drop 1).head? = some 0x78 || (s.drop 1).head? = some 0x58)

/-- `strtol(s, &end, base)`: the value, and the text from `end` on. -/
def strtol (base : Nat) (s : CStr) : Val × CStr :=
  let s := skipBlanks s
  let neg := s.head? = some 0x2D
  let s := if s.head? = some 0x2D ∨ s.head? = some 0x2B then s.drop 1 else s
  let (base, s) :=
    if base = 0 then
      if hexMark s then (16, s.drop 2) else if s.head? = some 0x30 then (8, s.drop 1) else (10, s)
    else if base = 16 ∧ hexMark s then (16, s.drop 2)
    else (base, s)
  let (v, s) := strtolDigits base 0 s
  (if neg then -v else v, s)

/-! ## Operators -/

inductive UnOp where
  | neg
  | plus
  | compl
  | lnot
deriving DecidableEq

inductive BinOp where
  | mul | div | mod
  | add | sub
  | shl | shr
  | lt | le | gt | ge
  | eq | ne
  | band | bxor | bor
  | land | lor
deriving DecidableEq

def Val.ofBool (b : Bool) : Val := if b then 1 else 0

def UnOp.apply : UnOp → Val → Val
  | .neg, v => -v
  | .plus, v => v
  | .compl, v => ~~~v
  | .lnot, v => Val.ofBool (v = 0)

/-- The signed division of the machine traps on a zero, and where the quotient does not fit. -/
def idiv (f : Val → Val → Val) (v r : Val) : Outcome Val :=
  if r = 0 then .panic "divide error"
  else if v = BitVec.intMin 64 ∧ r = -1 then .panic "divide error"
  else .done (f v r)

/-- What the levels do with their operands. A shift takes its count modulo 64, as the machine does.
-/
def BinOp.apply : BinOp → Val → Val → Outcome Val
  | .mul, v, r => .done (v * r)
  | .div, v, r => if r ≠ 0 then idiv BitVec.sdiv v r else .done 0
  | .mod, v, r => if r ≠ 0 then idiv BitVec.srem v r else .done 0
  | .add, v, r => .done (v + r)
  | .sub, v, r => .done (v - r)
  | .shl, v, r => .done (v <<< (r.toNat % 64))
  | .shr, v, r => .done (v.sshiftRight (r.toNat % 64))
  | .lt, v, r => .done (Val.ofBool (v.slt r))
  | .le, v, r => .done (Val.ofBool (v.sle r))
  | .gt, v, r => .done (Val.ofBool (r.slt v))
  | .ge, v, r => .done (Val.ofBool (r.sle v))
  | .eq, v, r => .done (Val.ofBool (v = r))
  | .ne, v, r => .done (Val.ofBool (v ≠ r))
  | .band, v, r => .done (v &&& r)
  | .bxor, v, r => .done (v ^^^ r)
  | .bor, v, r => .done (v ||| r)
  | .land, v, r => .done (Val.ofBool (v ≠ 0 && r ≠ 0))
  | .lor, v, r => .done (Val.ofBool (v ≠ 0 || r ≠ 0))

/-- What becomes of numbers, variables and operators. -/
structure Arith (V : Type) where
  num : Val → V
  var : CStr → Outcome V
  un : UnOp → V → V
  bin : BinOp → V → V → Outcome V

/-- The value of a variable: its text as a number. -/
def varNumber (vars : List ShVar) (name : CStr) : Val :=
  match varGet vars name with
  | some v => (strtol 0 v).1
  | none => 0

/-- What the code does. -/
def machine (vars : List ShVar) : Arith Val where
  num v := v
  -- nothing is said about what a write past the end does
  var name := if name.length ≥ shVarNamsz then .panic "vname: write past the end" else .done (varNumber vars name)
  un := UnOp.apply
  bin := BinOp.apply

/-! ## The descent -/

/-- The name behind a dollar, and the text behind it. -/
def arithName (p : CStr) : CStr × CStr :=
  if p.head? = some braceOpen then
    let q := p.drop 1
    (q.takeWhile (· ≠ braceClose), skipBrace q)
  else (p.takeWhile isNameChar, p.dropWhile isNameChar)

section Descent

variable {V : Type} (A : Arith V) (eval : CStr → Outcome V)

/-- `arith_primary`. -/
def arithPrimary : CStr → Outcome (V × CStr)
  | [] => .done (A.num 0, [])
  | c :: q =>
      let unary := fun op => do
        let (v, r) ← arithPrimary q
        pure (A.un op v, r)
      if c = space then arithPrimary q
      else if c = parenOpen then do
        let v ← eval q
        pure (v, q.drop (parenSpan 1 q))
      else if c = 0x2D then unary .neg
      else if c = 0x2B then unary .plus
      else if c = 0x7E then unary .compl
      else if c = 0x21 then unary .lnot
      else if c = dollarSign then do
        let (name, r) := arithName q
        let v ← A.var name
        pure (v, r)
      else
        let (v, r) := strtol 0 (c :: q)
        .done (A.num v, r)

/-- The loop of a level: `opAt` is whether the cursor is at an operator of the level, and which. -/
def arithLoop (operand : CStr → Outcome (V × CStr)) (opAt : CStr → Option (BinOp × CStr)) :
    Nat → V → CStr → Outcome (V × CStr)
  | 0, _, _ => .timeout
  | fuel + 1, v, p =>
      match opAt p with
      | none => .done (v, p)
      | some (op, p) => do
          let (r, p) ← operand p
          let v ← A.bin op v r
          arithLoop operand opAt fuel v p

/-- A level. Every turn of its loop consumes something, so the length of the text is fuel enough. -/
def arithLevel (opAt : CStr → Option (BinOp × CStr)) (operand : CStr → Outcome (V × CStr)) (p : CStr) :
    Outcome (V × CStr) := do
  let (v, p) ← operand p
  arithLoop A operand opAt (p.length + 1) v p

end Descent

/-- An operator of one character. -/
def op1 (c : UInt8) (op : BinOp) (p : CStr) : Option (BinOp × CStr) :=
  if p.head? = some c then some (op, p.drop 1) else none

/-- An operator of one character that is not the first of `d` behind it. -/
def op1Not (c d : UInt8) (op : BinOp) (p : CStr) : Option (BinOp × CStr) :=
  if p.head? = some c ∧ (p.drop 1).head? ≠ some d then some (op, p.drop 1) else none

/-- An operator of two characters. -/
def op2 (c d : UInt8) (op : BinOp) (p : CStr) : Option (BinOp × CStr) :=
  if p.head? = some c ∧ (p.drop 1).head? = some d then some (op, p.drop 2) else none

/-- A comparison, with or without an equals sign behind it. -/
def opRel (c : UInt8) (strict weak : BinOp) (p : CStr) : Option (BinOp × CStr) :=
  if p.head? = some c then
    if (p.drop 1).head? = some 0x3D then some (weak, p.drop 2) else some (strict, p.drop 1)
  else none

def mulOp (p : CStr) : Option (BinOp × CStr) := op1 0x2A .mul p <|> op1 0x2F .div p <|> op1 0x25 .mod p
def addOp (p : CStr) : Option (BinOp × CStr) := op1 0x2B .add p <|> op1 0x2D .sub p
def shiftOp (p : CStr) : Option (BinOp × CStr) := op2 less less .shl p <|> op2 greater greater .shr p
def relOp (p : CStr) : Option (BinOp × CStr) := opRel less .lt .le p <|> opRel greater .gt .ge p
def eqOp (p : CStr) : Option (BinOp × CStr) := op2 0x3D 0x3D .eq p <|> op2 0x21 0x3D .ne p
def bandOp (p : CStr) : Option (BinOp × CStr) := op1Not 0x26 0x26 .band p
def bxorOp (p : CStr) : Option (BinOp × CStr) := op1 0x5E .bxor p
def borOp (p : CStr) : Option (BinOp × CStr) := op1Not pipeSign pipeSign .bor p
def landOp (p : CStr) : Option (BinOp × CStr) := op2 0x26 0x26 .land p
def lorOp (p : CStr) : Option (BinOp × CStr) := op2 pipeSign pipeSign .lor p

section Levels

variable {V : Type} (A : Arith V) (eval : CStr → Outcome V)

def arithMul : CStr → Outcome (V × CStr) := arithLevel A mulOp (arithPrimary A eval)
def arithAdd : CStr → Outcome (V × CStr) := arithLevel A addOp (arithMul A eval)
def arithShift : CStr → Outcome (V × CStr) := arithLevel A shiftOp (arithAdd A eval)
def arithRel : CStr → Outcome (V × CStr) := arithLevel A relOp (arithShift A eval)
def arithEq : CStr → Outcome (V × CStr) := arithLevel A eqOp (arithRel A eval)
def arithBand : CStr → Outcome (V × CStr) := arithLevel A bandOp (arithEq A eval)
def arithBxor : CStr → Outcome (V × CStr) := arithLevel A bxorOp (arithBand A eval)
def arithBor : CStr → Outcome (V × CStr) := arithLevel A borOp (arithBxor A eval)
def arithLand : CStr → Outcome (V × CStr) := arithLevel A landOp (arithBor A eval)
def arithLor : CStr → Outcome (V × CStr) := arithLevel A lorOp (arithLand A eval)

/-- `arith_eval`, with fuel for the depth of parentheses. -/
def arithEval : Nat → CStr → Outcome V
  | 0, _ => .timeout
  | fuel + 1, p => do
      let (v, _) ← arithLor A (arithEval fuel) p
      pure v

end Levels

end VnlKernel
