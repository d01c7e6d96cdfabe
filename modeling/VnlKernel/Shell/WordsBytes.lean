import VnlKernel.Shell.Words
import VnlKernel.Logged

/-!
# Words, byte by byte: `expand_word` of `src/shell/sh.c`

The same function with its loops as they stand and its arrays as arrays: the destination with
the bytes written to it so far, the copies with the lengths the code computes for them, and the
loops inside quotes, which go round as long as the code's do. Every access to the destination,
to the source behind the cursor and to a local array is noted down.

The cursor is the text that is left up to the NUL, so that what it points to can be read. A
copy from it that is longer reads past the NUL; what it finds there is behind a NUL in the copy
too, and nobody sees it.
-/

namespace VnlKernel

variable {ε : Type}

/-- A destination: what has been written to it, from its start, and `di`. -/
structure Dst where
  cells : CStr
  di : Nat
deriving DecidableEq

namespace Dst

/-- An array that nothing was written to. -/
def fresh : Dst := ⟨[], 0⟩

/-- `dst[di++] = c; dst[di] = '\0'`. -/
def put (d : Dst) (c : UInt8) : Dst := ⟨d.cells.take d.di ++ [c, 0], d.di + 1⟩

/-- Does a NUL stand in what was written? -/
def terminated (d : Dst) : Bool := (0 : UInt8) ∈ d.cells

/-- The string in an array, up to the NUL: no character that is put out is one. Without a NUL it is
whatever the array held before. -/
def read (junk : CStr) (d : Dst) : Logged Access CStr :=
  ⟨[.str d.terminated], .done (if d.terminated then d.cells.take d.di else junk)⟩

end Dst

/-- A call of `expand_word`: the size of the destination, the interpreter, the destination and the
text that is left. -/
structure Expansion (ε : Type) where
  dstsz : Nat
  sh : Sh (ShWorld ε)
  dst : Dst
  src : CStr

/-- `memcpy(a, start, n); a[n] = '\0'`, for an array of `cap` bytes, and the string in it. -/
def copyOut (cap : Nat) (start : CStr) (n : Nat) : Logged Access CStr :=
  ⟨[.span n (start.length + 1), .span (n + 1) cap], .done (start.take n)⟩

/-- `if (n >= cap) n = cap - 1`. The lengths are unsigned: a difference below zero wraps around, and
is clipped like any length that is too large. -/
def clip (cap : Nat) (n : Int) : Nat := if n < 0 then cap - 1 else min n.toNat (cap - 1)

namespace Expansion

/-- `expand_word(src, dst, dstsz)`, as it begins. -/
def start (dstsz : Nat) (s : Sh (ShWorld ε)) (src : CStr) : Expansion ε := ⟨dstsz, s, Dst.fresh, src⟩

/-- `OUT`. -/
def out (x : Expansion ε) (c : UInt8) : Logged Access (Expansion ε) :=
  if x.dst.di + 1 < x.dstsz then
    ⟨[.span (x.dst.di + 1) x.dstsz, .span (x.dst.di + 2) x.dstsz], .done { x with dst := x.dst.put c }⟩
  else pure x

/-- `OUT(*src++)`: without room the argument is not evaluated. -/
def outNext (x : Expansion ε) : Logged Access (Expansion ε) :=
  match x.src with
  | [] => pure x
  | c :: p => if x.dst.di + 1 < x.dstsz then { x with src := p }.out c else pure x

/-- `OUTS`. -/
def outs : CStr → Expansion ε → Logged Access (Expansion ε)
  | [], x => pure x
  | c :: text, x =>
      if x.dst.di + 1 < x.dstsz then do
        let x ← x.out c
        outs text x
      else pure x

/-- `while (*src && *src != '\'') OUT(*src++)`. -/
def squoteLoop : Nat → Expansion ε → Logged Access (Expansion ε)
  | 0, _ => .lift .timeout
  | fuel + 1, x =>
      match x.src with
      | [] => pure x
      | c :: _ =>
          if c = squote then pure x
          else do
            let x ← x.outNext
            squoteLoop fuel x

/-- What a backslash escapes inside double quotes. -/
def escapable (c : UInt8) : Bool := c = dquote || c = backslash || c = dollarSign || c = backquote

/-- The loop inside double quotes, and whether it is left for `handle_special`. -/
def dquoteLoop : Nat → Expansion ε → Logged Access (Expansion ε × Bool)
  | 0, _ => .lift .timeout
  | fuel + 1, x =>
      match x.src with
      | [] => pure (x, false)
      | c :: p =>
          if c = dquote then pure (x, false)
          else if c = backslash ∧ p.head?.any escapable then do
            let x ← { x with src := p }.outNext
            dquoteLoop fuel x
          else if c = dollarSign ∨ c = backquote then pure (x, true)
          else do
            let x ← x.outNext
            dquoteLoop fuel x

section Special

variable (env : ShEnv ε) (exec : Command ε)
  (expand : Sh (ShWorld ε) → CStr → Logged Access (Sh (ShWorld ε) × CStr))

/-- What stands behind `${`. `expand` is the call of `expand_word` for a default, with the string it
leaves. -/
def brace (s : Sh (ShWorld ε)) (p : CStr) : Logged Access (Sh (ShWorld ε) × CStr × CStr) :=
  let vname := (p.takeWhile fun c => !endsBraceName c).take (shVarNamsz - 1)
  let p := p.drop vname.length
  let v := varGet s.world.vars vname
  if p.head? = some hash then
    pure (s, decimal ((v.map List.length).getD 0 : Nat), skipBrace p)
  else if startsWith [colon, 0x2D] p then
    let start := p.drop 2
    let dl := (start.takeWhile (· ≠ braceClose)).length
    match v with
    | some (c :: t) => pure (s, c :: t, skipBrace p)
    | _ => do
        let dflt ← copyOut shVarValsz start (clip shVarValsz dl)
        let r ← expand s dflt
        pure (r.1, r.2, skipBrace p)
  else pure (s, v.getD [], if p.head? = some braceClose then p.drop 1 else p)

/-- What stands behind a dollar: what it comes to, and the text behind it. The forms without
parentheses and braces copy nothing but a name. -/
def dollar (s : Sh (ShWorld ε)) (p : CStr) : Logged Access (Sh (ShWorld ε) × CStr × CStr) :=
  if startsWith [parenOpen, parenOpen] p then do
    let start := p.drop 2
    let n := parenSpan 2 start
    let expr ← copyOut shArithMax start (clip shArithMax ((n : Int) - 2))
    pure (s, decimal (env.arith s.world.vars expr), start.drop n)
  else if startsWith [parenOpen] p then do
    let start := p.drop 1
    let n := parenSpan 1 start
    let cmd ← copyOut shLineMax start (clip shLineMax ((n : Int) - 1))
    let r ← Logged.lift (substitute .dollar exec s cmd)
    pure (r.1, r.2, start.drop n)
  else if startsWith [braceOpen] p then brace expand s (p.drop 1)
  else .lift (expandDollar env exec (fun s _ => .done (s, [])) s p)

/-- `handle_special`. -/
def special (x : Expansion ε) : Logged Access (Expansion ε) :=
  match x.src with
  | [] => pure x
  | c :: p =>
      if c = dollarSign then do
        let r ← dollar env exec expand x.sh p
        outs r.2.1 { x with sh := r.1, src := r.2.2 }
      else if c = backquote then do
        let n := (p.takeWhile (· ≠ backquote)).length
        let cmd ← copyOut shLineMax p (clip shLineMax n)
        let r ← Logged.lift (substitute .tick exec x.sh cmd)
        outs r.2 { x with sh := r.1, src := p.drop (n + 1) }
      else x.outNext

/-- One turn of the loop of `expand_word`. -/
def turn (fuel : Nat) (x : Expansion ε) : Logged Access (Expansion ε) :=
  match x.src with
  | [] => pure x
  | c :: p =>
      if c = backslash then { x with src := p }.outNext
      else if c = squote then do
        let x ← squoteLoop fuel { x with src := p }
        pure { x with src := x.src.drop 1 }
      else if c = dquote then do
        let r ← dquoteLoop fuel { x with src := p }
        if r.2 then special env exec expand r.1 else pure { r.1 with src := r.1.src.drop 1 }
      else special env exec expand x

end Special

/-- `while (*src && di+1 < dstsz)`. -/
def Turns (x : Expansion ε) : Prop := x.src ≠ [] ∧ x.dst.di + 1 < x.dstsz

instance (x : Expansion ε) : Decidable x.Turns := inferInstanceAs (Decidable (_ ∧ _))

/-- `expand_word`, from inside its loop. `junk` is what an array holds that nothing was written to.
-/
def run (env : ShEnv ε) (exec : Command ε) (junk : CStr) : Nat → Expansion ε → Logged Access (Expansion ε)
  | 0, _ => .lift .timeout
  | fuel + 1, x =>
      if x.Turns then do
        let expand := fun s src => do
          let y ← run env exec junk fuel (start shVarValsz s src)
          let text ← y.dst.read junk
          pure (y.sh, text)
        let x ← turn env exec expand fuel x
        run env exec junk fuel x
      else pure x

end Expansion

end VnlKernel
