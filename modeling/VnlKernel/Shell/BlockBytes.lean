import VnlKernel.Shell.Block
import VnlKernel.Logged

/-!
# Scripts and their buffers: `sh_exec_block` of `src/shell/sh.c`

The same walk with its arrays: the collected line, a function's name and body, the conditions,
the variable and the words of a `for`, the word, the patterns and the bodies of a `case`. Each
has a size, and each is filled by a loop of its own; the loops differ in what they do with a
byte there is no room for.

The walk notes down what it reads of the script and writes to its arrays, each line that it
collects, each `elif` it meets, and each call of `expand_word` that it makes whether or not
anything is to be run. An array is what was written to it.
-/

namespace VnlKernel

/-- What a run of `sh_exec_block` notes down. -/
inductive BlockNote (σ : Type) where
  | access (a : Access)
  /-- A line was collected. -/
  | line (line : CStr)
  /-- The condition of an `elif` is about to be copied. -/
  | elif (cond : CStr)
  /-- The word list of a `for` is about to be expanded and cut up. -/
  | words (s : Sh σ) (list : CStr)
  /-- The word of a `case` is about to be expanded. -/
  | word (s : Sh σ) (src : CStr)

namespace BlockNote

variable {σ : Type}

/-! ## Reading -/

/-- The first `n` bytes of what is left of a text are looked at. There is one more than its length,
the NUL. -/
def look (n : Nat) (p : CStr) : Logged (BlockNote σ) Unit := Logged.note (.access (.span n (p.length + 1)))

/-- `while (f(*p)) p++`. -/
def skipWhile (f : UInt8 → Bool) (p : CStr) : Logged (BlockNote σ) CStr := do
  look ((p.takeWhile f).length + 1) p
  pure (p.dropWhile f)

/-- `while(*p&&*p!='\n') p++; if(*p) p++`. -/
def skipLineBytes (p : CStr) : Logged (BlockNote σ) CStr := do
  let p ← skipWhile (· ≠ newline) p
  look 1 p
  pure (p.drop 1)

/-- How many bytes `strncmp(p, s, strlen(s))` looks at: up to the first that differs. -/
def compared : CStr → CStr → Nat
  | [], _ => 0
  | _ :: _, [] => 1
  | d :: s, c :: p => if d = c then compared s p + 1 else 1

/-- `strncmp(p, s, strlen(s)) == 0`. -/
def starts (s p : CStr) : Logged (BlockNote σ) Bool := do
  look (compared s p) p
  pure (startsWith s p)

/-- `strncmp(p, s, strlen(s)) == 0`, and a test of the byte behind it. -/
def startsThen (s : CStr) (test : CStr → Bool) (p : CStr) : Logged (BlockNote σ) Bool := do
  if ← starts s p then
    look (s.length + 1) p
    pure (test (p.drop s.length))
  else pure false

/-! ## Writing -/

/-- A byte is written at index `n` of an array of `cap`. -/
def put (cap n : Nat) : Logged (BlockNote σ) Unit := Logged.note (.access (.span (n + 1) cap))

/-- The first `n` bytes of an array of `cap` are written. -/
def fill (cap n : Nat) : Logged (BlockNote σ) Unit := Logged.note (.access (.span n cap))

/-- `strncpy(dst, src, cap-1)`: a string that ends before is padded, with one byte more. -/
def copyString (cap : Nat) (src : CStr) : Logged (BlockNote σ) Unit :=
  fill cap (if cap - 1 ≤ src.length then cap - 1 else cap)

/-- `if (n < cap-1) dst[n++] = c`. -/
def store (cap : Nat) (dst : CStr) (c : UInt8) : Logged (BlockNote σ) CStr :=
  if dst.length + 1 < cap then do
    put cap dst.length
    pure (dst ++ [c])
  else pure dst

/-- What a loop does with a byte that its array has no room for. -/
inductive WhenFull where
  /-- It goes on without it. -/
  | drop
  /-- It stops there. -/
  | stop
  /-- It moves the cursor only when it copies, and never gets further. -/
  | stick
  /-- It does not look whether there is room. -/
  | write
deriving DecidableEq

/-- `while (*p && !ends(p)) dst[n++] = *p++`, into an array of `cap` bytes. -/
def copyLoop (cap : Nat) (full : WhenFull) (looks : CStr → Nat) (ends : CStr → Bool) :
    CStr → CStr → Logged (BlockNote σ) (CStr × CStr)
  | dst, [] => do
      look 1 []
      pure (dst, [])
  | dst, c :: p => do
      look (looks (c :: p)) (c :: p)
      if ends (c :: p) then pure (dst, c :: p)
      else if dst.length + 1 < cap ∨ full = .write then
        put cap dst.length
        copyLoop cap full looks ends (dst ++ [c]) p
      else if full = .drop then copyLoop cap full looks ends dst p
      else if full = .stop then pure (dst, c :: p)
      else .lift .timeout

/-- `char *pos = strstr(text, s); if (pos) *pos = '\0'`. -/
def cutBytes (cap : Nat) (s text : CStr) : Logged (BlockNote σ) CStr :=
  match strstr s text with
  | some k => do
      put cap k
      pure (text.take k)
  | none => pure text

/-! ## Lines -/

/-- Collect a logical line into `logline`. -/
def collectBytes : CStr → CStr → Logged (BlockNote σ) (CStr × CStr)
  | dst, [] => do
      look 1 []
      pure (dst, [])
  | dst, c :: p => do
      look 1 (c :: p)
      if c = newline ∨ c = semicolon then pure (dst, c :: p)
      else if c = hash then
        let rest ← skipWhile (· ≠ newline) (c :: p)
        pure (dst, rest)
      else
        -- `*p == '\\' && p[1] == '\n'`
        look (if c = backslash then 2 else 1) (c :: p)
        match p with
        | [] =>
            let dst ← store shLineMax dst c
            look 1 []
            pure (dst, [])
        | d :: q =>
            if c = backslash ∧ d = newline then collectBytes dst q
            else
              let dst ← store shLineMax dst c
              collectBytes dst (d :: q)

/-- The line as the executor looks at it, and the text behind it. -/
def logicalLineBytes (p : CStr) : Logged (BlockNote σ) (CStr × CStr) := do
  let r ← collectBytes [] p
  put shLineMax r.1.length
  look 1 r.2
  -- blanks at the end are written over
  fill shLineMax r.1.length
  pure (r.1.rdropWhile isBlank, r.2.drop 1)

/-- What ends a function's name. -/
def endsName (p : CStr) : Bool := p.head? = some space || p.head? = some parenOpen

/-- Does the line begin a function definition? The scan for `name()` does not look at the size of
`fname`. -/
def functionNameBytes (line : CStr) : Logged (BlockNote σ) (Option CStr) := do
  let fl ← skipWhile (· = space) line
  if ← starts (cstr "function ") fl then
    let fl ← skipWhile (· = space) (fl.drop 9)
    let r ← copyLoop shVarNamsz .stop (fun _ => 1) endsName [] fl
    put shVarNamsz r.1.length
    pure (some r.1)
  else
    let r ← copyLoop shVarNamsz .write (fun _ => 1) endsName [] fl
    put shVarNamsz r.1.length
    -- nothing is said about what a write past the end does
    if r.1.length ≥ shVarNamsz then .lift (.panic "fname: write past the end")
    else if startsWith [parenOpen, parenClose] r.2 && (skipSpaces (r.2.drop 2)).head? = some braceOpen then
      pure (some r.1)
    else pure none

/-- Collect lines into an array until one of them ends it; `stop` is where the cursor then goes. -/
def linesBytes (cap : Nat) (stop : CStr → Logged (BlockNote σ) (Option CStr)) :
    Nat → CStr → CStr → Logged (BlockNote σ) (CStr × CStr)
  | 0, dst, p => pure (dst, p)
  | _ + 1, dst, [] => do
      look 1 []
      pure (dst, [])
  | fuel + 1, dst, p => do
      look 1 p
      let p ← skipWhile isBlank p
      match ← stop p with
      | some rest => pure (dst, rest)
      | none =>
          let r ← copyLoop cap .drop (fun _ => 1) (fun p => p.head? = some newline) dst p
          let dst ← store cap r.1 newline
          look 1 r.2
          linesBytes cap stop fuel dst (r.2.drop 1)

/-- A closing brace ends a function's body. -/
def bodyStop (p : CStr) : Logged (BlockNote σ) (Option CStr) := do
  look 1 p
  if p.head? = some braceClose then
    let rest ← skipLineBytes (p.drop 1)
    pure (some rest)
  else pure none

/-- `;;` or `esac` ends a branch. -/
def branchStop (p : CStr) : Logged (BlockNote σ) (Option CStr) := do
  if ← starts (cstr ";;") p then
    let rest ← skipLineBytes (p.drop 2)
    pure (some rest)
  else if ← starts (cstr "esac") p then pure (some p)
  else pure none

/-- Lines in an array of `cap` bytes, with the NUL. -/
def textBytes (cap : Nat) (stop : CStr → Logged (BlockNote σ) (Option CStr)) (p : CStr) :
    Logged (BlockNote σ) (CStr × CStr) := do
  let r ← linesBytes cap stop p.length [] p
  put cap r.1.length
  pure r

/-! ## Conditionals -/

/-- The condition of an `if` line. Behind `if then` its length wraps, and what fits is copied. -/
def ifCondBytes (line : CStr) : Logged (BlockNote σ) CStr := do
  match strstr (cstr " then") line with
  | some k =>
      let n := if k < 3 then shLineMax - 1 else min (k - 3) (shLineMax - 1)
      fill shLineMax n
      put shLineMax n
  | none => copyString shLineMax (line.drop 3)
  pure (ifCond line)

/-- What ends the condition of an `elif`. -/
def elifEnds (p : CStr) : Bool := p.head? = some newline || startsWith (cstr " then") p

/-- The condition behind `elif `. -/
def elifCondBytes (p : CStr) : Logged (BlockNote σ) (CStr × CStr) := do
  let r ← copyLoop shLineMax .stick (fun p => max 1 (compared (cstr " then") p)) elifEnds [] p
  put shLineMax r.1.length
  pure r

/-- The loop behind the `then` block. -/
def ifLoopBytes (R : Runner σ) (block : Sh σ → CStr → Bool → Logged (BlockNote σ) (Sh σ × CStr × Int))
    (execute : Bool) : Nat → Sh σ → CStr → Bool → Logged (BlockNote σ) (Sh σ × CStr)
  | 0, _, _, _ => .lift .timeout
  | _ + 1, s, [], _ => do
      look 1 []
      pure (s, [])
  | fuel + 1, s, c :: q, condTrue => do
      look 1 (c :: q)
      let p ← skipWhile isBlank (c :: q)
      if ← starts (cstr "elif ") p then
        Logged.note (.elif (elifCond (p.drop 5)))
        let r ← elifCondBytes (p.drop 5)
        let rest ← skipLineBytes r.2
        let t ← .lift (R.test (execute && !condTrue) s r.1)
        let b ← block t.1 rest (execute && !condTrue && t.2)
        ifLoopBytes R block execute fuel b.1 b.2.1 (t.2 || condTrue)
      else if ← startsThen (cstr "else") (endsWord false) p then
        let rest ← skipLineBytes p
        let b ← block s rest (execute && !condTrue)
        ifLoopBytes R block execute fuel b.1 b.2.1 condTrue
      else if ← startsThen (cstr "fi") (endsWord true) p then
        let rest ← skipLineBytes p
        pure (s, rest)
      else pure (s, p)

/-! ## Loops -/

/-- The condition of a `while` line. -/
def whileCondBytes (line : CStr) : Logged (BlockNote σ) CStr := do
  copyString shLineMax (line.drop 6)
  let cond ← cutBytes shLineMax (cstr "; do") (line.drop 6)
  cutBytes shLineMax (cstr " do") cond

def whileLoopBytes (R : Runner σ) (block : Sh σ → CStr → Bool → Logged (BlockNote σ) (Sh σ × CStr × Int))
    (cond loopStart : CStr) : Nat → Sh σ → CStr → Int → Logged (BlockNote σ) (Sh σ × CStr × Int)
  | 0, _, _, _ => .lift .timeout
  | fuel + 1, s, p, lastRet => do
      let t ← .lift (R.exec s cond)
      if t.2 ≠ 0 then pure (t.1, p, lastRet)
      else
        let b ← block t.1 loopStart true
        let a := afterBody b.1 loopStart b.2.1
        if a.2.2 then whileLoopBytes R block cond loopStart fuel a.1 a.2.1 b.2.2
        else pure (a.1, a.2.1, b.2.2)

/-- The variable and the word list of a `for` line. -/
def forHeaderBytes (line : CStr) : Logged (BlockNote σ) (CStr × CStr) := do
  let r ← copyLoop shVarNamsz .stick (fun _ => 1) (fun p => p.head? = some space) [] (line.drop 4)
  put shVarNamsz r.1.length
  let fp ← skipWhile (· = space) r.2
  let fp := if startsWith (cstr "in ") fp then fp.drop 3 else fp
  copyString shLineMax fp
  let list ← cutBytes shLineMax (cstr "; do") fp
  let list ← cutBytes shLineMax (cstr " do") list
  pure (r.1, list)

def forLoopBytes (R : Runner σ) (block : Sh σ → CStr → Bool → Logged (BlockNote σ) (Sh σ × CStr × Int))
    (var loopStart : CStr) : List CStr → Sh σ → CStr → Int → Logged (BlockNote σ) (Sh σ × CStr × Int)
  | [], s, p, lastRet => pure (s, p, lastRet)
  | w :: ws, s, _, _ => do
      let b ← block (R.varSet s var w) loopStart true
      let a := afterBody b.1 loopStart b.2.1
      if a.2.2 then forLoopBytes R block var loopStart ws a.1 a.2.1 b.2.2
      else pure (a.1, a.2.1, b.2.2)

/-! ## `case` -/

/-- The word of a `case` line. -/
def caseWordBytes (line : CStr) : Logged (BlockNote σ) CStr := do
  copyString shLineMax (line.drop 5)
  cutBytes shLineMax (cstr " in") (line.drop 5)

/-- Look for the word among the alternatives of a pattern, the first of them at `start`. Each gets a
NUL at its bar and one behind its last byte that is no space. -/
def matchBytes (cap : Nat) (word : CStr) : List CStr → Nat → Logged (BlockNote σ) Bool
  | [], _ => pure false
  | t :: ts, start => do
      if ts ≠ [] then put cap (start + t.length)
      let u := (skipSpaces t).rdropWhile (· = space)
      put cap (start + (t.takeWhile (· = space)).length + u.length)
      if u = cstr "*" ∨ u = word then pure true
      else matchBytes cap word ts (start + t.length + 1)

/-- Does the branch match? Only one may, and none where nothing is run. -/
def branchMatches (looking : Bool) (pat word : CStr) : Logged (BlockNote σ) Bool :=
  if looking then matchBytes (shVarNamsz * 2) word (splitBars pat) 0 else pure false

/-- The pattern of a branch. -/
def patternBytes (p : CStr) : Logged (BlockNote σ) (CStr × CStr) := do
  let r ← copyLoop (shVarNamsz * 2) .stop (fun _ => 1) (fun p => p.head? = some parenClose) [] p
  put (shVarNamsz * 2) r.1.length
  look 1 r.2
  -- spaces at the end are written over
  fill (shVarNamsz * 2) r.1.length
  pure (r.1.rdropWhile (· = space), if r.2.head? = some parenClose then r.2.drop 1 else r.2)

/-- The branches of a `case`. -/
def caseLoopBytes (run : Sh σ → CStr → Logged (BlockNote σ) (Sh σ × Int)) (execute : Bool) (word : CStr) :
    Nat → Sh σ → CStr → Bool → Int → Logged (BlockNote σ) (Sh σ × CStr × Int)
  | 0, _, _, _, _ => .lift .timeout
  | _ + 1, s, [], _, lastRet => do
      look 1 []
      pure (s, [], lastRet)
  | fuel + 1, s, c :: q, matched, lastRet => do
      look 1 (c :: q)
      let p ← skipWhile (fun c => isBlank c || c = newline) (c :: q)
      if ← startsThen (cstr "esac") (fun p => p.isEmpty || p.head? = some newline || p.head? = some space) p then
        let rest ← skipLineBytes p
        pure (s, rest, lastRet)
      else
        let pat ← patternBytes p
        let thisMatch ← branchMatches (!matched && execute) pat.1 word
        let body ← textBytes (shLineMax * 4) branchStop pat.2
        if thisMatch && execute then
          let b ← run s body.1
          caseLoopBytes run execute word fuel b.1 body.2 true b.2
        else caseLoopBytes run execute word fuel s body.2 (matched || thisMatch) lastRet

/-! ## The block -/

/-- The body of the loop of `sh_exec_block`, once a line is collected. -/
def execLineBytes (R : Runner σ) (fuel : Nat)
    (block : Sh σ → CStr → Bool → Logged (BlockNote σ) (Sh σ × CStr × Int))
    (next : Sh σ → CStr → Int → Logged (BlockNote σ) (Sh σ × CStr × Int)) (s : Sh σ) (line lineStart p : CStr)
    (execute : Bool) (lastRet : Int) : Logged (BlockNote σ) (Sh σ × CStr × Int) := do
  match ← functionNameBytes line with
  | some name =>
      let body ← textBytes (shLineMax * 8) bodyStop p
      next (if execute then R.funcSet s name body.1 else s) body.2 lastRet
  | none =>
      if line = cstr "if" then
        -- nothing is known of what is there, so a byte more may be written
        fill shLineMax shLineMax
        -- the condition is read from behind the end of the line
        .lift (.panic "cond: read past the end")
      else if startsWith (cstr "if ") line then
        let cond ← ifCondBytes line
        let t ← .lift (R.test execute s cond)
        let b ← block t.1 p (execute && t.2)
        let r ← ifLoopBytes R block execute fuel b.1 b.2.1 t.2
        next r.1 r.2 0
      else
        match terminator line lineStart p with
        | some p => pure (s, p, lastRet)
        | none =>
            if isKeyword (cstr "then") line || isKeyword (cstr "do") line then next s p lastRet
            else if line = cstr "while" then
              fill shLineMax shLineMax
              .lift (.panic "cond: read past the end")
            else if startsWith (cstr "while ") line then
              let cond ← whileCondBytes line
              if execute then
                let r ← whileLoopBytes R block cond p fuel s p lastRet
                next r.1 r.2.1 r.2.2
              else
                let b ← block s p false
                next b.1 b.2.1 lastRet
            else if startsWith (cstr "for ") line then
              let header ← forHeaderBytes line
              Logged.note (.words s header.2)
              let w ← .lift (R.words s header.2)
              if execute then
                let r ← forLoopBytes R block header.1 p w.2 w.1 p lastRet
                next r.1 r.2.1 r.2.2
              else
                let b ← block w.1 p false
                next b.1 b.2.1 lastRet
            else if startsWith (cstr "case ") line then
              let src ← caseWordBytes line
              Logged.note (.word s src)
              let w ← .lift (R.word s src)
              let run := fun s body => do
                let b ← block { s with flow := Flow.none } body true
                pure (b.1, b.2.2)
              let r ← caseLoopBytes run execute w.2 (p.length + 1) w.1 p false lastRet
              next r.1 r.2.1 r.2.2
            else if line = cstr "break" then pure ({ s with flow := .brk }, p, lastRet)
            else if line = cstr "continue" then pure ({ s with flow := .cont }, p, lastRet)
            else if startsWith (cstr "return") line then
              if !execute then next s p lastRet
              else
                let rv := skipSpaces (line.drop 6)
                let val := if rv = [] then lastRet else strtol10 rv
                pure ({ s with flow := .ret, returnVal := val }, p, val)
            else
              match findAndOr line with
              | some (k, isAnd) =>
                  put shLineMax k
                  let r1 ← .lift (if execute then R.exec s (line.take k) else pure (s, 0))
                  let s := { r1.1 with lastStatus := r1.2 }
                  let runRhs := if isAnd then decide (r1.2 = 0) else decide (r1.2 ≠ 0)
                  let r ← .lift (if execute && runRhs then R.exec s (line.drop (k + 4)) else pure (s, r1.2))
                  next { r.1 with lastStatus := r.2 } p r.2
              | none =>
                  if execute then
                    let r ← .lift (R.line s line)
                    next { r.1 with lastStatus := r.2 } p r.2
                  else next s p lastRet

end BlockNote

open BlockNote

/-- `sh_exec_block`. -/
def shExecBlockBytes {σ : Type} (R : Runner σ) :
    Nat → Sh σ → CStr → Bool → Int → Logged (BlockNote σ) (Sh σ × CStr × Int)
  | 0, _, _, _, _ => .lift .timeout
  | fuel + 1, s, p, execute, lastRet => do
      let next := fun s p lastRet => shExecBlockBytes R fuel s p execute lastRet
      look 1 p
      match ← skipWhile isBlank p with
      | [] => pure (s, [], lastRet)
      | c :: q =>
          if c = newline then next s q lastRet
          else if c = hash then
            let rest ← skipWhile (· ≠ newline) q
            next s rest lastRet
          else
            let r ← logicalLineBytes (c :: q)
            if r.1 = [] then next s r.2 lastRet
            else
              Logged.note (.line r.1)
              execLineBytes R fuel (fun s p execute => shExecBlockBytes R fuel s p execute 0) next s r.1 (c :: q)
                r.2 execute lastRet

end VnlKernel
