import VnlKernel.Fs.Vfs
import Mathlib.Data.List.DropRight

/-!
# Scripts: `sh_exec_block` of `src/shell/sh.c`

The shell has no syntax tree. A script is a text, and `sh_exec_block` walks it line by
line: it collects a line, looks at how the line begins, and calls itself for the text of
a nested block. The callee returns at a line that ends a block and leaves the cursor
behind it, or on it if the line is an `elif`; who consumes which line is all there is
to nesting. In a block that is not to be run the same walk is made with `execute` false.

A cursor is the text that is left. How commands run is a parameter, a `Runner`: this
file is about which commands run.
-/

namespace VnlKernel

/-- `SH_VAR_NAMSZ`. -/
def shVarNamsz : Nat := 64

/-- `SH_LINE_MAX`. -/
def shLineMax : Nat := 1024

def newline : UInt8 := 0x0A
def space : UInt8 := 0x20
def tab : UInt8 := 0x09
def semicolon : UInt8 := 0x3B
def hash : UInt8 := 0x23
def backslash : UInt8 := 0x5C
def parenOpen : UInt8 := 0x28
def parenClose : UInt8 := 0x29
def braceOpen : UInt8 := 0x7B
def braceClose : UInt8 := 0x7D
def pipeSign : UInt8 := 0x7C

/-- `SH_FLOW_NONE` and the signals of `break`, `continue` and `return`. -/
inductive Flow where
  | none
  | brk
  | cont
  | ret
deriving DecidableEq

/-- The executor's global variables, and whatever else commands change. -/
structure Sh (σ : Type) where
  flow : Flow
  returnVal : Int
  lastStatus : Int
  world : σ
deriving DecidableEq

/-- What the executor calls. -/
structure Runner (σ : Type) where
  /-- `sh_exec`. -/
  exec : Sh σ → CStr → Outcome (Sh σ × Int)
  /-- `expand_word` on a whole line, and `sh_run_pipeline`. -/
  line : Sh σ → CStr → Outcome (Sh σ × Int)
  /-- `expand_word` on a word list, and `tokenize`. -/
  words : Sh σ → CStr → Outcome (Sh σ × List CStr)
  /-- `expand_word`. -/
  word : Sh σ → CStr → Outcome (Sh σ × CStr)
  /-- `var_set`. -/
  varSet : Sh σ → CStr → CStr → Sh σ
  /-- `func_set`. -/
  funcSet : Sh σ → CStr → CStr → Sh σ

/-! ## Text -/

def isBlank (c : UInt8) : Bool := c = space || c = tab

/-- `while(*p==' '||*p=='\t') p++`. -/
def skipBlanks (p : CStr) : CStr := p.dropWhile isBlank

/-- `while(*p&&*p!='\n') p++; if(*p) p++`. -/
def skipLine (p : CStr) : CStr := (p.dropWhile (· ≠ newline)).drop 1

/-- `strncmp(p, s, strlen(s)) == 0`. -/
def startsWith (s p : CStr) : Bool := s.isPrefixOf p

/-- `strstr`: where `s` first occurs. -/
def strstr (s : CStr) : CStr → Option Nat
  | [] => if s = [] then some 0 else none
  | c :: p => if startsWith s (c :: p) then some 0 else (strstr s p).map (· + 1)

/-- Cut the text where `s` first occurs. -/
def cutAt (s p : CStr) : CStr :=
  match strstr s p with
  | some k => p.take k
  | none => p

/-- The keyword, alone or with a blank behind it. -/
def isKeyword (kw line : CStr) : Bool :=
  startsWith kw line && ((line.drop kw.length).isEmpty || (line.drop kw.length).head? = some space)

/-- Collect a logical line: up to a newline or a semicolon, with continued lines joined and comments
dropped. What was collected, and the text from where it stopped. -/
def collectLine : CStr → CStr × CStr
  | [] => ([], [])
  | c :: p =>
      if c = newline ∨ c = semicolon then ([], c :: p)
      else if c = hash then ([], p.dropWhile (· ≠ newline))
      else
        match p with
        | [] => ([c], [])
        | d :: q =>
            if c = backslash ∧ d = newline then collectLine q
            else
              let (line, rest) := collectLine (d :: q)
              (c :: line, rest)

/-- The line as the executor looks at it: as much of it as fits, without blanks at the end. -/
def logicalLine (p : CStr) : CStr × CStr :=
  let (line, rest) := collectLine p
  ((line.take (shLineMax - 1)).rdropWhile isBlank, rest.drop 1)

/-- `(int)strtol(s, NULL, 10)`. -/
def strtol10 (s : CStr) : Int :=
  let s := skipBlanks s
  let (neg, s) :=
    match s with
    | c :: r => if c = 0x2D then (true, r) else if c = 0x2B then (false, r) else (false, s)
    | [] => (false, s)
  let digits := s.takeWhile fun c => 0x30 ≤ c && c ≤ 0x39
  let v : Nat := digits.foldl (fun v c => (v * 10 + (c.toNat - 0x30)) % 2 ^ 64) 0
  toInt32 (if neg then toU64 (-(v : Int)) else v)

/-! ## Function definitions -/

/-- `while(*fl==' ')fl++`. -/
def skipSpaces (p : CStr) : CStr := p.dropWhile (· = space)

/-- Does the line begin a function definition, and of which name? The scan for `name()` copies the
line's first word into `fname` without looking at its size. -/
def functionName (line : CStr) : Outcome (Option CStr) :=
  let fl := skipSpaces line
  if startsWith (cstr "function ") fl then
    .done (some (((skipSpaces (fl.drop 9)).takeWhile fun c => c ≠ space && c ≠ parenOpen).take
      (shVarNamsz - 1)))
  else
    let fname := fl.takeWhile fun c => c ≠ parenOpen && c ≠ space
    let tp := fl.dropWhile fun c => c ≠ parenOpen && c ≠ space
    -- nothing is said about what a write past the end does
    if fname.length ≥ shVarNamsz then .panic "fname: write past the end"
    else if startsWith [parenOpen, parenClose] tp && (skipSpaces (tp.drop 2)).head? = some braceOpen then
      .done (some fname)
    else .done none

/-- Collect a function's body, up to a line that begins with a closing brace. Every turn consumes
something, so the length of the text is fuel enough. -/
def functionBody : Nat → CStr → CStr × CStr
  | 0, p => ([], p)
  | _ + 1, [] => ([], [])
  | fuel + 1, p =>
      let p := skipBlanks p
      if p.head? = some braceClose then ([], skipLine p)
      else
        let (body, rest) := functionBody fuel (skipLine p)
        (p.takeWhile (· ≠ newline) ++ newline :: body, rest)

/-! ## Conditionals -/

variable {σ : Type}

/-- Run a condition, if anything is to be run: did it succeed? -/
def Runner.test (R : Runner σ) (execute : Bool) (s : Sh σ) (cond : CStr) : Outcome (Sh σ × Bool) :=
  if execute then do
    let (s, r) ← R.exec s cond
    pure (s, decide (r = 0))
  else pure (s, false)

/-- The condition of an `if` line. -/
def ifCond (line : CStr) : CStr :=
  match strstr (cstr " then") line with
  | some k => if k < 3 then line.drop 3 else (line.drop 3).take (k - 3)
  | none => line.drop 3

/-- The condition behind `elif `: up to the end of the line or ` then`. -/
def elifCond : CStr → CStr
  | [] => []
  | c :: p => if c = newline ∨ startsWith (cstr " then") (c :: p) then [] else c :: elifCond p

/-- Does the next character, if there is one, end the word? -/
def endsWord (eof : Bool) (p : CStr) : Bool :=
  match p.head? with
  | none => eof
  | some c => c = newline || c = space || c = semicolon

/-- The loop behind the `then` block: it looks for `elif`, `else` and `fi` where the block left off.
-/
def ifLoop (R : Runner σ) (block : Sh σ → CStr → Bool → Outcome (Sh σ × CStr × Int)) (execute : Bool) :
    Nat → Sh σ → CStr → Bool → Outcome (Sh σ × CStr)
  | 0, _, _, _ => .timeout
  | _ + 1, s, [], _ => .done (s, [])
  | fuel + 1, s, c :: q, condTrue =>
      let p := skipBlanks (c :: q)
      if startsWith (cstr "elif ") p then
        let cond := elifCond (p.drop 5)
        -- once the buffer is full the cursor stops moving
        if cond.length ≥ shLineMax then .timeout
        else do
          let (s, elifTrue) ← R.test (execute && !condTrue) s cond
          let (s, p, _) ← block s (skipLine p) (execute && !condTrue && elifTrue)
          ifLoop R block execute fuel s p (elifTrue || condTrue)
      else if startsWith (cstr "else") p && endsWord false (p.drop 4) then do
        let (s, p, _) ← block s (skipLine p) (execute && !condTrue)
        ifLoop R block execute fuel s p condTrue
      else if startsWith (cstr "fi") p && endsWord true (p.drop 2) then .done (s, skipLine p)
      else .done (s, p)

/-! ## Loops -/

/-- What a loop does with the signal its body left: go on, or leave. With none, the cursor goes back
to the loop's start. -/
def afterBody (s : Sh σ) (loopStart p : CStr) : Sh σ × CStr × Bool :=
  match s.flow with
  | .brk => ({ s with flow := .none }, p, false)
  | .cont => ({ s with flow := .none }, p, true)
  | .ret => (s, p, false)
  | .none => (s, loopStart, true)

/-- `while`: the cursor and the last status come along. -/
def whileLoop (R : Runner σ) (block : Sh σ → CStr → Bool → Outcome (Sh σ × CStr × Int))
    (cond loopStart : CStr) : Nat → Sh σ → CStr → Int → Outcome (Sh σ × CStr × Int)
  | 0, _, _, _ => .timeout
  | fuel + 1, s, p, lastRet => do
      let (s, r) ← R.exec s cond
      if r ≠ 0 then return (s, p, lastRet)
      let (s, lp, lastRet) ← block s loopStart true
      let (s, p, more) := afterBody s loopStart lp
      if more then whileLoop R block cond loopStart fuel s p lastRet else return (s, p, lastRet)

/-- `for`, over the words that are left. -/
def forLoop (R : Runner σ) (block : Sh σ → CStr → Bool → Outcome (Sh σ × CStr × Int))
    (var loopStart : CStr) : List CStr → Sh σ → CStr → Int → Outcome (Sh σ × CStr × Int)
  | [], s, p, lastRet => .done (s, p, lastRet)
  | w :: ws, s, _, _ => do
      let (s, lp, lastRet) ← block (R.varSet s var w) loopStart true
      let (s, p, more) := afterBody s loopStart lp
      if more then forLoop R block var loopStart ws s p lastRet else return (s, p, lastRet)

/-- The variable and the word list of a `for` line. -/
def forHeader (line : CStr) : CStr × CStr :=
  let fp := line.drop 4
  let var := fp.takeWhile (· ≠ space)
  let fp := skipSpaces (fp.dropWhile (· ≠ space))
  let fp := if startsWith (cstr "in ") fp then fp.drop 3 else fp
  (var, cutAt (cstr " do") (cutAt (cstr "; do") fp))

/-! ## `case` -/

/-- Split at every bar. -/
def splitBars : CStr → List CStr
  | [] => [[]]
  | c :: p =>
      if c = pipeSign then [] :: splitBars p
      else
        match splitBars p with
        | [] => [[c]]
        | w :: ws => (c :: w) :: ws

/-- Does the pattern list match the word? -/
def patternMatches (pat word : CStr) : Bool :=
  (splitBars pat).any fun t =>
    let t := (skipSpaces t).rdropWhile (· = space)
    t = cstr "*" || t = word

/-- The text of a branch, up to `;;` or `esac`. -/
def caseBody : Nat → CStr → CStr × CStr
  | 0, p => ([], p)
  | _ + 1, [] => ([], [])
  | fuel + 1, p =>
      let p := skipBlanks p
      if startsWith (cstr ";;") p then ([], skipLine (p.drop 2))
      else if startsWith (cstr "esac") p then ([], p)
      else
        let (body, rest) := caseBody fuel (skipLine p)
        (p.takeWhile (· ≠ newline) ++ newline :: body, rest)

/-- The branches of a `case`. `run` is `sh_run_string`. -/
def caseLoop (run : Sh σ → CStr → Outcome (Sh σ × Int)) (execute : Bool) (word : CStr) :
    Nat → Sh σ → CStr → Bool → Int → Outcome (Sh σ × CStr × Int)
  | 0, _, _, _, _ => .timeout
  | _ + 1, s, [], _, lastRet => .done (s, [], lastRet)
  | fuel + 1, s, c :: q, matched, lastRet =>
      let p := (c :: q).dropWhile fun c => isBlank c || c = newline
      if startsWith (cstr "esac") p
          && ((p.drop 4).isEmpty || (p.drop 4).head? = some newline || (p.drop 4).head? = some space) then
        .done (s, skipLine p, lastRet)
      else
        let pat := (p.takeWhile (· ≠ parenClose)).take (shVarNamsz * 2 - 1)
        let p := p.drop pat.length
        let p := if p.head? = some parenClose then p.drop 1 else p
        let thisMatch := !matched && execute && patternMatches (pat.rdropWhile (· = space)) word
        let (body, p) := caseBody p.length p
        if thisMatch && execute then do
          let (s, lastRet) ← run s (body.take (shLineMax * 4 - 1))
          caseLoop run execute word fuel s p true lastRet
        else caseLoop run execute word fuel s p (matched || thisMatch) lastRet

/-! ## The block -/

/-- Where ` && ` or ` || ` first stands, and whether it is the former. -/
def findAndOr (line : CStr) : Option (Nat × Bool) :=
  match strstr (cstr " && ") line, strstr (cstr " || ") line with
  | some a, some o => if a < o then some (a, true) else some (o, false)
  | some a, none => some (a, true)
  | none, some o => some (o, false)
  | none, none => none

/-- A line that ends a block, and where it leaves the cursor: behind the line, or at its start. -/
def terminator (line lineStart p : CStr) : Option CStr :=
  if isKeyword (cstr "fi") line || isKeyword (cstr "done") line || isKeyword (cstr "esac") line
      || line.head? = some braceClose || isKeyword (cstr "else") line then some p
  else if startsWith (cstr "elif") line then some lineStart
  else none

/-- The body of the loop of `sh_exec_block`, once a line is collected: `lineStart` is the text from
the line on and `p` the text behind it. `block` is the call of `sh_exec_block` for a nested block,
and `next` goes on with the loop. -/
def execLine (R : Runner σ) (fuel : Nat) (block : Sh σ → CStr → Bool → Outcome (Sh σ × CStr × Int))
    (next : Sh σ → CStr → Int → Outcome (Sh σ × CStr × Int)) (s : Sh σ) (line lineStart p : CStr)
    (execute : Bool) (lastRet : Int) : Outcome (Sh σ × CStr × Int) := do
  match ← functionName line with
  | some name =>
      let (body, p) := functionBody p.length p
      next (if execute then R.funcSet s name (body.take (shLineMax * 8 - 1)) else s) p lastRet
  | none =>
      if line = cstr "if" then
        -- the condition is read from behind the end of the line
        .panic "cond: read past the end"
      else if startsWith (cstr "if ") line then
        let (s, condTrue) ← R.test execute s (ifCond line)
        let (s, p, _) ← block s p (execute && condTrue)
        let (s, p) ← ifLoop R block execute fuel s p condTrue
        next s p 0
      else
        match terminator line lineStart p with
        | some p => .done (s, p, lastRet)
        | none =>
            if isKeyword (cstr "then") line || isKeyword (cstr "do") line then next s p lastRet
            else if line = cstr "while" then .panic "cond: read past the end"
            else if startsWith (cstr "while ") line then
              let cond := cutAt (cstr " do") (cutAt (cstr "; do") (line.drop 6))
              if execute then
                let (s, p, lastRet) ← whileLoop R block cond p fuel s p lastRet
                next s p lastRet
              else
                let (s, p, _) ← block s p false
                next s p lastRet
            else if startsWith (cstr "for ") line then
              let (var, wordlist) := forHeader line
              -- a name that does not fit is never finished
              if var.length ≥ shVarNamsz then .timeout
              else
                let (s, words) ← R.words s wordlist
                if execute then
                  let (s, p, lastRet) ← forLoop R block var p words s p lastRet
                  next s p lastRet
                else
                  let (s, p, _) ← block s p false
                  next s p lastRet
            else if startsWith (cstr "case ") line then
              let (s, word) ← R.word s (cutAt (cstr " in") (line.drop 5))
              let run := fun s body => do
                let (s, _, r) ← block { s with flow := Flow.none } body true
                pure (s, r)
              let (s, p, lastRet) ← caseLoop run execute word (p.length + 1) s p false lastRet
              next s p lastRet
            else if line = cstr "break" then .done ({ s with flow := .brk }, p, lastRet)
            else if line = cstr "continue" then .done ({ s with flow := .cont }, p, lastRet)
            else if startsWith (cstr "return") line then
              if !execute then next s p lastRet
              else
                let rv := skipSpaces (line.drop 6)
                let val := if rv = [] then lastRet else strtol10 rv
                .done ({ s with flow := .ret, returnVal := val }, p, val)
            else
              match findAndOr line with
              | some (k, isAnd) =>
                  let (s, r1) ← if execute then R.exec s (line.take k) else pure (s, 0)
                  let s := { s with lastStatus := r1 }
                  let runRhs := if isAnd then decide (r1 = 0) else decide (r1 ≠ 0)
                  let (s, lastRet) ←
                    if execute && runRhs then R.exec s (line.drop (k + 4)) else pure (s, r1)
                  next { s with lastStatus := lastRet } p lastRet
              | none =>
                  if execute then
                    let (s, r) ← R.line s line
                    next { s with lastStatus := r } p r
                  else next s p lastRet

/-- `sh_exec_block`, from inside its loop: the text that is left, whether to run it, and the last
status. -/
def shExecBlock (R : Runner σ) : Nat → Sh σ → CStr → Bool → Int → Outcome (Sh σ × CStr × Int)
  | 0, _, _, _, _ => .timeout
  | fuel + 1, s, p, execute, lastRet =>
      let next := fun s p lastRet => shExecBlock R fuel s p execute lastRet
      match skipBlanks p with
      | [] => .done (s, [], lastRet)
      | c :: q =>
          if c = newline then next s q lastRet
          else if c = hash then next s (q.dropWhile (· ≠ newline)) lastRet
          else
            let (line, p) := logicalLine (c :: q)
            if line = [] then next s p lastRet
            else
              execLine R fuel (fun s p execute => shExecBlock R fuel s p execute 0) next s line (c :: q) p
                execute lastRet

/-- `sh_run_string`. -/
def shRunString (R : Runner σ) (fuel : Nat) (s : Sh σ) (script : CStr) : Outcome (Sh σ × Int) := do
  let (s, _, r) ← shExecBlock R fuel { s with flow := .none } script true 0
  return (s, r)

end VnlKernel
