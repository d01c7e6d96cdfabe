import VnlKernel.Shell.Kout

/-!
# Words: the variables of `src/shell/sh.c`, `expand_word` and `tokenize`

`expand_word` copies a text and replaces what is quoted, escaped or begins with a dollar.
It is a state machine over the source text with a bounded destination. Where the destination
is full, `OUT` does not evaluate its argument, so that a quoted text that does not fit is
never left. Where nothing was written, the destination is not terminated either.
-/

namespace VnlKernel

/-- `SH_MAX_VARS`. -/
def shMaxVars : Nat := 128

/-- `SH_VAR_VALSZ`. -/
def shVarValsz : Nat := 512

/-- `SH_MAX_ARGS`. -/
def shMaxArgs : Nat := 64

/-- `SH_MAX_FUNCS` and `SH_MAX_ALIASES`. -/
def shMaxFuncs : Nat := 32

/-- `SH_EXPAND_MAX`. -/
def shExpandMax : Nat := 2048

/-- `SH_ARITH_MAX`. -/
def shArithMax : Nat := 64

def squote : UInt8 := 0x27
def dquote : UInt8 := 0x22
def dollarSign : UInt8 := 0x24
def backquote : UInt8 := 0x60
def colon : UInt8 := 0x3A
def greater : UInt8 := 0x3E
def less : UInt8 := 0x3C

/-- `ShVar`. -/
structure ShVar where
  name : CStr
  val : CStr
  exported : Bool
deriving DecidableEq

/-- The static variables of the interpreter. `ext` is the rest of the machine. -/
structure ShWorld (ε : Type) where
  vars : List ShVar
  /-- Names and bodies. -/
  funcs : List (CStr × CStr)
  /-- Names and values. -/
  aliases : List (CStr × CStr)
  argv : List CStr
  scriptName : CStr
  kout : Kout
  /-- `stages` of `sh_run_pipeline`. -/
  stages : Nat → CStr
  outName : CStr
  appName : CStr
  ext : ε

variable {ε : Type}

/-! ## The variable store -/

/-- `var_get`. -/
def varGet (vars : List ShVar) (name : CStr) : Option CStr :=
  (vars.find? fun v => v.name = name).map (·.val)

/-- The entry that `var_set` writes to, if there is one. -/
def varUpdate (name val : CStr) (exported : Bool) : List ShVar → List ShVar
  | [] => []
  | v :: vs =>
      if v.name = name then { v with val := val, exported := v.exported || exported } :: vs
      else v :: varUpdate name val exported vs

/-- `var_set`. -/
def varSet (vars : List ShVar) (name val : CStr) (exported : Bool) : List ShVar :=
  let val := val.take (shVarValsz - 1)
  if vars.any (·.name = name) then varUpdate name val exported vars
  else if vars.length ≥ shMaxVars then vars
  else vars ++ [⟨name.take (shVarNamsz - 1), val, exported⟩]

/-- `func_set`, with a `strdup` that succeeds. -/
def funcSet (funcs : List (CStr × CStr)) (name body : CStr) : List (CStr × CStr) :=
  if funcs.any (·.1 = name) then funcs.map fun f => if f.1 = name then (name, body) else f
  else if funcs.length ≥ shMaxFuncs then funcs
  else funcs ++ [(name.take (shVarNamsz - 1), body)]

/-! ## What is not modelled -/

/-- How to run one command line, or a script. -/
abbrev Command (ε : Type) : Type := Sh (ShWorld ε) → CStr → Outcome (Sh (ShWorld ε) × Int)

/-- How to run a simple command, given how to run a command line and a script: `sh_run_simple` is
one. -/
abbrev Simple (ε : Type) : Type :=
  Command ε → Command ε → Sh (ShWorld ε) → List CStr → Outcome (Sh (ShWorld ε) × Int)

/-- What the interpreter calls and this development does not look into. -/
structure ShEnv (ε : Type) where
  /-- `arith_eval`, which reads the variables. -/
  arith : List ShVar → CStr → Int
  /-- `timer_ticks`. -/
  ticks : ε → Nat
  /-- Open a file for reading, read at most `n` bytes of it, and close it. -/
  slurp : ε → CStr → Nat → ε × Option CStr
  /-- Open a file for writing, truncated or not, write a text and close it. -/
  spill : ε → CStr → Bool → CStr → ε
  /-- The builtins of `sh_run_simple` that are not modelled. -/
  own : Sh (ShWorld ε) → List CStr → Outcome (Sh (ShWorld ε) × Int)
  /-- `shell_exec_builtin`. -/
  builtin : Simple ε

/-! ## Captures -/

def Sh.kout (s : Sh (ShWorld ε)) : Kout := s.world.kout

def Sh.setKout (s : Sh (ShWorld ε)) (k : Kout) : Sh (ShWorld ε) :=
  { s with world := { s.world with kout := k } }

def Sh.setVars (s : Sh (ShWorld ε)) (vars : List ShVar) : Sh (ShWorld ε) :=
  { s with world := { s.world with vars := vars } }

/-- `kout_redirect`, a command, `kout_reset`: the state, the command's status and what the buffer
then holds. -/
def capture (b : OutBuf) (run : Command ε) (s : Sh (ShWorld ε)) (cmd : CStr) :
    Outcome (Sh (ShWorld ε) × Int × CStr) := do
  let (s, r) ← run (s.setKout (s.kout.redirect b)) cmd
  let k := s.kout.reset
  let text := k.bufs b
  pure (s.setKout { k with yields := k.yields ++ [text] }, r, text)

/-- Command substitution: newlines are stripped in the buffer itself. -/
def substitute (b : OutBuf) (exec : Command ε) (s : Sh (ShWorld ε)) (cmd : CStr) :
    Outcome (Sh (ShWorld ε) × CStr) := do
  let (s, _, _) ← capture b exec s cmd
  let k := s.kout.strip b
  pure (s.setKout k, k.bufs b)

/-! ## `expand_word` -/

/-- `OUTS`. -/
def outs (dstsz : Nat) (dst text : CStr) : CStr := dst ++ text.take (dstsz - 1 - dst.length)

/-- The digits of a number, at most `fuel` of them. -/
def digitsAux : Nat → Nat → CStr
  | 0, _ => []
  | fuel + 1, n => (if n < 10 then [] else digitsAux fuel (n / 10)) ++ [UInt8.ofNat (0x30 + n % 10)]

/-- `%d`, `%lld`, `%u` and `%llu`. -/
def decimal (i : Int) : CStr := if i < 0 then 0x2D :: digitsAux 20 i.natAbs else digitsAux 20 i.natAbs

/-- `while (*src && depth) { if(*src=='(') depth++; else if(*src==')') depth--; src++; }`: how far
it goes. -/
def parenSpan : Nat → CStr → Nat
  | 0, _ => 0
  | _ + 1, [] => 0
  | d + 1, c :: p =>
      (if c = parenOpen then parenSpan (d + 2) p
        else if c = parenClose then parenSpan d p
        else parenSpan (d + 1) p) + 1

/-- Letters, digits and the underscore. -/
def isNameChar (c : UInt8) : Bool :=
  (0x61 ≤ c && c ≤ 0x7A) || (0x41 ≤ c && c ≤ 0x5A) || (0x30 ≤ c && c ≤ 0x39) || c = 0x5F

/-- What ends the name behind `${`. -/
def endsBraceName (c : UInt8) : Bool := c = braceClose || c = colon || c = hash

/-- `while (*src && *src!='}') src++; if (*src) src++`. -/
def skipBrace (p : CStr) : CStr := (p.dropWhile (· ≠ braceClose)).drop 1

/-- `$*` and `$@`. -/
def joinArgs : List CStr → CStr
  | [] => []
  | [a] => a
  | a :: as => a ++ space :: joinArgs as

/-- The expression between `$((` and where its parentheses are closed. With fewer than two
characters the length wraps, and the copy takes what is there. -/
def arithText (p : CStr) : CStr :=
  let text := p.take (parenSpan 2 p)
  (if text.length < 2 then text else text.take (text.length - 2)).take (shArithMax - 1)

/-- The command between `$(` and where its parenthesis is closed; without one, all but the last
character. -/
def commandText (p : CStr) : CStr :=
  let text := p.take (parenSpan 1 p)
  (text.take (text.length - 1)).take (shLineMax - 1)

/-- What stands behind `${`. `expand` is the call of `expand_word` for a default. -/
def expandBrace (expand : Sh (ShWorld ε) → CStr → Outcome (Sh (ShWorld ε) × CStr))
    (s : Sh (ShWorld ε)) (p : CStr) : Outcome (Sh (ShWorld ε) × CStr × CStr) :=
  let vname := (p.takeWhile fun c => !endsBraceName c).take (shVarNamsz - 1)
  let p := p.drop vname.length
  let v := varGet s.world.vars vname
  if p.head? = some hash then
    .done (s, decimal ((v.map List.length).getD 0 : Nat), skipBrace p)
  else if startsWith [colon, 0x2D] p then
    let dflt := (p.drop 2).takeWhile (· ≠ braceClose)
    let rest := skipBrace p
    match v with
    | some (c :: t) => .done (s, c :: t, rest)
    | _ => do
        let (s, text) ← expand s (dflt.take (shVarValsz - 1))
        -- nothing was written, and nothing terminates what is read
        if text = [] then .panic "expdef: never written" else pure (s, text, rest)
  else .done (s, v.getD [], if p.head? = some braceClose then p.drop 1 else p)

/-- What stands behind a dollar: what it comes to, and the text behind it. -/
def expandDollar (env : ShEnv ε) (exec : Command ε)
    (expand : Sh (ShWorld ε) → CStr → Outcome (Sh (ShWorld ε) × CStr)) (s : Sh (ShWorld ε)) (p : CStr) :
    Outcome (Sh (ShWorld ε) × CStr × CStr) :=
  let w := s.world
  if startsWith [parenOpen, parenOpen] p then
    let q := p.drop 2
    .done (s, decimal (env.arith w.vars (arithText q)), q.drop (parenSpan 2 q))
  else
    match p with
    | [] => .done (s, (varGet w.vars []).getD [], [])
    | c :: q =>
        if c = parenOpen then do
          let (s, text) ← substitute .dollar exec s (commandText q)
          pure (s, text, q.drop (parenSpan 1 q))
        else if c = braceOpen then expandBrace expand s q
        else if c = 0x3F then .done (s, decimal s.lastStatus, q)
        else if c = hash then .done (s, decimal (w.argv.length : Nat), q)
        else if c = dollarSign then .done (s, cstr "1", q)
        else if c = 0x2A ∨ c = 0x40 then .done (s, joinArgs w.argv, q)
        else if c = 0x30 then .done (s, w.scriptName, q)
        else if 0x31 ≤ c ∧ c ≤ 0x39 then .done (s, w.argv.getD (c.toNat - 0x31) [], q)
        else if startsWith (cstr "RANDOM") p then
          .done (s, decimal (env.ticks w.ext % 32768 : Nat), p.drop 6)
        else
          let vname := (p.takeWhile isNameChar).take (shVarNamsz - 1)
          .done (s, (varGet w.vars vname).getD [], p.drop vname.length)

/-- Where the loop inside double quotes stops. -/
inductive Quoted where
  /-- At the closing quote, or the end of the text. -/
  | closed (dst rest : CStr)
  /-- At a dollar or a backquote; whoever handles it does not know of the quotes. -/
  | special (dst rest : CStr)
  /-- Never. -/
  | stuck

/-- The loop inside double quotes. -/
def expandQuoted (dstsz : Nat) : CStr → CStr → Quoted
  | dst, [] => .closed dst []
  | dst, c :: p =>
      if c = dquote then .closed dst p
      else if c = dollarSign ∨ c = backquote then .special dst (c :: p)
      else if c = backslash then
        match p with
        | [] => if dst.length + 1 < dstsz then expandQuoted dstsz (dst ++ [c]) [] else .stuck
        | d :: q =>
            if d = dquote ∨ d = backslash ∨ d = dollarSign ∨ d = backquote then
              if dst.length + 1 < dstsz then expandQuoted dstsz (dst ++ [d]) q
              -- the escaped character stays where it is
              else expandQuoted dstsz dst (d :: q)
            else if dst.length + 1 < dstsz then expandQuoted dstsz (dst ++ [c]) (d :: q)
            else .stuck
      else if dst.length + 1 < dstsz then expandQuoted dstsz (dst ++ [c]) p
      else .stuck

/-- The label `handle_special` and what follows it: a dollar, a backquote or any other character. -/
def expandSpecial (env : ShEnv ε) (exec : Command ε)
    (expand : Sh (ShWorld ε) → CStr → Outcome (Sh (ShWorld ε) × CStr))
    (next : Sh (ShWorld ε) → CStr → CStr → Outcome (Sh (ShWorld ε) × CStr)) (dstsz : Nat)
    (s : Sh (ShWorld ε)) (dst : CStr) : CStr → Outcome (Sh (ShWorld ε) × CStr)
  | [] => next s dst []
  | c :: p =>
      if c = dollarSign then do
        let (s, text, rest) ← expandDollar env exec expand s p
        next s (outs dstsz dst text) rest
      else if c = backquote then do
        let cmd := p.takeWhile (· ≠ backquote)
        let (s, text) ← substitute .tick exec s (cmd.take (shLineMax - 1))
        next s (outs dstsz dst text) (p.drop (cmd.length + 1))
      else next s (outs dstsz dst [c]) p

/-- The loop of `expand_word`: what is written so far, and the text that is left. Every turn
consumes some of it, so its length is fuel enough. -/
def expandLoop (env : ShEnv ε) (exec : Command ε) :
    Nat → Nat → Sh (ShWorld ε) → CStr → CStr → Outcome (Sh (ShWorld ε) × CStr)
  | 0, _, _, _, _ => .timeout
  | _ + 1, _, s, dst, [] => .done (s, dst)
  | fuel + 1, dstsz, s, dst, c :: p =>
      let next := expandLoop env exec fuel dstsz
      let expand := fun s src => expandLoop env exec fuel shVarValsz s [] src
      if dstsz ≤ dst.length + 1 then .done (s, dst)
      else if c = backslash then next s (dst ++ p.take 1) (p.drop 1)
      else if c = squote then
        let text := p.takeWhile (· ≠ squote)
        if dstsz ≤ dst.length + text.length then .timeout
        else next s (dst ++ text) (p.drop (text.length + 1))
      else if c = dquote then
        match expandQuoted dstsz dst p with
        | .closed dst rest => next s dst rest
        | .special dst rest => expandSpecial env exec expand next dstsz s dst rest
        | .stuck => .timeout
      else expandSpecial env exec expand next dstsz s dst (c :: p)

/-- `expand_word(src, dst, dstsz)`. A destination nothing was written to is read all the same. -/
def expandWord (env : ShEnv ε) (exec : Command ε) (dstsz : Nat) (s : Sh (ShWorld ε)) (src : CStr) :
    Outcome (Sh (ShWorld ε) × CStr) := do
  let (s, dst) ← expandLoop env exec (src.length + 1) dstsz s [] src
  if dst = [] then .panic "dst: never written" else pure (s, dst)

/-! ## `tokenize` -/

/-- What ends a token that is not quoted. -/
def endsToken (c : UInt8) : Bool := isBlank c || c = newline || c = semicolon || c = hash

/-- How far it is to the closing double quote. -/
def quotedSpan : CStr → Nat
  | [] => 0
  | c :: p =>
      if c = dquote then 0
      else
        match p with
        | [] => 1
        | d :: q => if c = backslash then quotedSpan q + 2 else quotedSpan (d :: q) + 1

/-- How far the word goes that begins with a dollar or a backquote. -/
def pieceSpan : CStr → Nat
  | [] => 0
  | c :: p =>
      if c = dollarSign then
        match p with
        | [] => 1
        | d :: q =>
            if d = parenOpen then parenSpan 1 q + 2
            else if d = braceOpen then min ((q.takeWhile (· ≠ braceClose)).length + 1) q.length + 2
            else (p.takeWhile fun c => isNameChar c || c = 0x3F || c = hash || c = 0x2A || c = 0x40
              || c = dollarSign).length + 1
      else min ((p.takeWhile (· ≠ backquote)).length + 1) p.length + 1

/-- Collect one token into `strbuf`, where `bi` bytes are in use before it. -/
def tokenLoop (env : ShEnv ε) (exec : Command ε) (bufsz bi : Nat) :
    Nat → Sh (ShWorld ε) → CStr → CStr → Outcome (Sh (ShWorld ε) × CStr × CStr)
  | 0, _, _, _ => .timeout
  | _ + 1, s, tok, [] => .done (s, tok, [])
  | fuel + 1, s, tok, c :: p =>
      if endsToken c then .done (s, tok, c :: p)
      else if c = squote then
        let text := p.takeWhile (· ≠ squote)
        tokenLoop env exec bufsz bi fuel s (tok ++ text.take (bufsz - 1 - (bi + tok.length)))
          (p.drop (text.length + 1))
      else if c = dquote then do
        let n := quotedSpan p
        let (s, text) ← expandWord env exec shExpandMax s ((c :: p.take (n + 1)).take (shLineMax - 1))
        tokenLoop env exec bufsz bi fuel s
          (if bi + tok.length + text.length < bufsz then tok ++ text else tok) (p.drop (n + 1))
      else if c = dollarSign ∨ c = backquote then do
        let n := pieceSpan (c :: p)
        let (s, text) ← expandWord env exec shExpandMax s (((c :: p).take n).take (shExpandMax - 1))
        tokenLoop env exec bufsz bi fuel s
          (if bi + tok.length + text.length < bufsz then tok ++ text else tok) ((c :: p).drop n)
      else
        tokenLoop env exec bufsz bi fuel s
          (if bi + tok.length + 1 < bufsz then tok ++ [c] else tok) p

/-- The loop of `tokenize`, with room for `left` more arguments. -/
def tokenizeLoop (env : ShEnv ε) (exec : Command ε) (bufsz : Nat) :
    Nat → Sh (ShWorld ε) → CStr → Nat → Outcome (Sh (ShWorld ε) × List CStr)
  | 0, s, _, _ => .done (s, [])
  | left + 1, s, p, bi =>
      match skipBlanks p with
      | [] => .done (s, [])
      | c :: q =>
          if c = hash ∨ c = newline ∨ c = semicolon then .done (s, [])
          -- a token that begins behind the buffer is neither written nor terminated
          else if bufsz ≤ bi then .panic "strbuf: token past the end"
          else do
            let (s, tok, rest) ← tokenLoop env exec bufsz bi (q.length + 2) s [] (c :: q)
            let (s, toks) ← tokenizeLoop env exec bufsz left s rest (bi + tok.length + 1)
            pure (s, tok :: toks)

/-- `tokenize`. -/
def tokenize (env : ShEnv ε) (exec : Command ε) (bufsz : Nat) (s : Sh (ShWorld ε)) (line : CStr) :
    Outcome (Sh (ShWorld ε) × List CStr) :=
  tokenizeLoop env exec bufsz (shMaxArgs - 1) s line 0

end VnlKernel
