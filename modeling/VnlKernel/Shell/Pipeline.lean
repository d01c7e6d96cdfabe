import VnlKernel.Shell.Words

/-!
# Commands: `sh_run_simple`, `sh_run_pipeline` and `sh_exec` of `src/shell/sh.c`

A line is expanded, split at its bars, searched for redirections, and each stage goes to
`sh_exec`, which expands it once more, cuts it into words and runs them. The stages of a
pipeline, the names of redirections and the buffers of captured output are static: a command
that runs another pipeline writes over them.

The functions call each other. Each is defined over what it calls, and `shExec` ties the knot
with fuel for the depth of the recursion.
-/

namespace VnlKernel

variable {ε : Type}

def stdinContent : CStr := cstr "STDIN_CONTENT"

/-! ## Simple commands -/

/-- The text that `echo` prints for one argument. -/
def echoText : CStr → CStr
  | [] => []
  | [c] => [c]
  | c :: d :: r =>
      if c = backslash then
        (if d = 0x6E then [newline]
          else if d = 0x74 then [tab]
          else if d = 0x72 then [0x0D]
          else if d = backslash then [backslash]
          else if d = 0x65 ∨ d = 0x45 then []
          else [backslash, d]) ++ echoText r
      else c :: echoText (d :: r)

/-- All that `echo` prints. -/
def echoLine (args : List CStr) : CStr :=
  if args.head? = some (cstr "-n") then joinArgs ((args.drop 1).map echoText)
  else joinArgs (args.map echoText) ++ [newline]

/-- The builtins of `sh_run_simple` that the environment stands for. -/
def ownBuiltins : List CStr :=
  [cstr "printf", cstr "read", cstr "export", cstr "unset", cstr "shift", cstr "alias", cstr "type",
    cstr "which", cstr "env", cstr "test", cstr "["]

/-- Run a function: its arguments are the positional parameters while it runs. -/
def callFunction (run : Command ε) (s : Sh (ShWorld ε)) (body : CStr) (args : List CStr) :
    Outcome (Sh (ShWorld ε) × Int) := do
  let saved := s.world.argv
  let (s, r) ← run { s with world := { s.world with argv := args } } body
  pure ({ s with world := { s.world with argv := saved } }, r)

/-- `sh_run_simple`. -/
def shRunSimple (env : ShEnv ε) (exec run : Command ε) :
    Sh (ShWorld ε) → List CStr → Outcome (Sh (ShWorld ε) × Int)
  | s, [] => .done (s, 0)
  | s, cmd :: args =>
      if cmd = cstr "true" then .done (s, 0)
      else if cmd = cstr "false" then .done (s, 1)
      else if cmd = cstr ":" then .done (s, 0)
      else if cmd = cstr "echo" then .done (s.setKout (s.kout.puts (echoLine args)), 0)
      else if cmd ∈ ownBuiltins then env.own s (cmd :: args)
      else if 0x3D ∈ cmd ∧ cmd.head? ≠ some 0x3D then do
        let name := cmd.takeWhile (· ≠ 0x3D)
        let (s, val) ← expandWord env exec shVarValsz s (cmd.drop (name.length + 1))
        let s := s.setVars (varSet s.world.vars (name.take (shVarNamsz - 1)) val false)
        match args with
        | [] => pure (s, 0)
        | a :: as => shRunSimple env exec run s (a :: as)
      else
        match s.world.funcs.find? fun f => f.1 = cmd with
        | some (_, body) => callFunction run s body args
        | none =>
            match s.world.aliases.find? fun a => a.1 = cmd with
            | some (_, val) => do
                let (s, text) ← expandWord env exec shLineMax s val
                exec s (args.foldl (fun text a => outs shLineMax (outs shLineMax text [space]) a) text)
            | none => env.builtin exec run s (cmd :: args)

/-! ## Pipelines -/

/-- What the splitter remembers of the text before it. -/
structure Split where
  depth : Int
  inSq : Bool
  inDq : Bool
deriving DecidableEq

/-- Does the splitter cut at the bar `c`, with `p` behind it? -/
def Split.cuts (t : Split) (c : UInt8) (p : CStr) : Bool :=
  c = pipeSign && !t.inSq && !t.inDq && t.depth = 0 && p.head? ≠ some pipeSign

def Split.next (t : Split) (c : UInt8) : Split :=
  if c = squote ∧ t.inDq = false then { t with inSq := !t.inSq }
  else if c = dquote ∧ t.inSq = false then { t with inDq := !t.inDq }
  else if t.inSq = false ∧ t.inDq = false then
    if c = parenOpen then { t with depth := t.depth + 1 }
    else if c = parenClose then { t with depth := t.depth - 1 }
    else t
  else t

/-- Split the line, with room for `left` more cuts: the stage that ends first, and the others. What
stands behind the last cut there is room for is dropped. -/
def splitLoop : Nat → Split → CStr → CStr × List CStr
  | _, _, [] => ([], [])
  | left, t, c :: p =>
      if t.cuts c p then
        match left with
        | 0 | 1 => ([], [[]])
        | left + 2 =>
            let (stage, stages) := splitLoop (left + 1) t p
            ([], stage :: stages)
      else
        let (stage, stages) := splitLoop left (t.next c) p
        (c :: stage, stages)

/-- The stages of a line, each as much of it as fits. -/
def splitStages (line : CStr) : List CStr :=
  let (stage, stages) := splitLoop 8 ⟨0, false, false⟩ line
  (stage :: stages).map (List.take (shLineMax - 1))

/-- The redirections of a command. -/
structure Redirs where
  out : Option CStr
  app : Option CStr
  inp : Option CStr
deriving DecidableEq

/-- The name behind a redirection sign. -/
def redirName (p : CStr) : CStr := ((skipSpaces p).takeWhile (· ≠ space)).take 127

/-- The text behind that name. -/
def redirRest (p : CStr) : CStr := (skipSpaces p).drop (redirName p).length

/-- The redirect scanner: what is left of the command, and the last redirection of each kind. Every
turn consumes something. -/
def scanRedirects : Nat → CStr → CStr × Redirs → CStr × Redirs
  | 0, _, acc => acc
  | _ + 1, [], acc => acc
  | fuel + 1, c :: p, (stripped, r) =>
      if startsWith [greater, greater] (c :: p) then
        scanRedirects fuel (redirRest (p.drop 1)) (stripped, { r with app := some (redirName (p.drop 1)) })
      else if startsWith (cstr "2>&1") (c :: p) then scanRedirects fuel (p.drop 3) (stripped, r)
      else if startsWith (cstr "2>") (c :: p) then scanRedirects fuel (redirRest (p.drop 1)) (stripped, r)
      else if c = greater then
        scanRedirects fuel (redirRest p) (stripped, { r with out := some (redirName p) })
      else if c = less then
        scanRedirects fuel (redirRest p) (stripped, { r with inp := some (redirName p) })
      else scanRedirects fuel p (stripped ++ [c], r)

/-- `var_set("STDIN_CONTENT", text, false)`. -/
def setStdin (s : Sh (ShWorld ε)) (text : CStr) : Sh (ShWorld ε) :=
  s.setVars (varSet s.world.vars stdinContent text false)

/-- Read the file of a `<`, if there is one and it can be opened. -/
def redirIn (env : ShEnv ε) (s : Sh (ShWorld ε)) : Option CStr → Sh (ShWorld ε)
  | none => s
  | some name =>
      let (ext, text) := env.slurp s.world.ext name (shPipeBuf - 1)
      let s := { s with world := { s.world with ext := ext } }
      match text with
      | some text => setStdin s text
      | none => s

/-- Run a command and write what it printed to a file. The file's name is looked at afterwards. -/
def redirOut (env : ShEnv ε) (exec : Command ε) (trunc : Bool) (s : Sh (ShWorld ε)) (cmd : CStr) :
    Outcome (Sh (ShWorld ε) × Int) := do
  let (s, r, text) ← capture .redir exec s cmd
  let w := s.world
  let name := if trunc then w.outName else w.appName
  pure ({ s with world := { w with ext := env.spill w.ext name trunc text } }, r)

/-- A line without a bar. -/
def runStage (env : ShEnv ε) (exec : Command ε) (s : Sh (ShWorld ε)) (cmdline : CStr) :
    Outcome (Sh (ShWorld ε) × Int) :=
  -- a copy of that length is not terminated
  if cmdline.length ≥ shLineMax - 1 then .panic "cmdline: never terminated"
  else
    let (stripped, redirs) := scanRedirects (cmdline.length + 1) cmdline ([], ⟨none, none, none⟩)
    let w := s.world
    let s := { s with
      world := { w with outName := redirs.out.getD w.outName, appName := redirs.app.getD w.appName } }
    let s := redirIn env s redirs.inp
    if redirs.out.isSome then redirOut env exec true s stripped
    else if redirs.app.isSome then redirOut env exec false s stripped
    else exec s stripped

/-- The loop over the stages of a pipeline, from stage `i` on, with `left` stages behind it. The
text of a stage is read when its turn comes. -/
def stageLoop (env : ShEnv ε) (exec : Command ε) :
    Nat → Nat → Sh (ShWorld ε) → Outcome (Sh (ShWorld ε) × Int)
  | left, i, s => do
      let (s, cmd) ← expandWord env exec shLineMax s (s.world.stages i)
      let s := if i > 0 then setStdin s (s.kout.bufs .pipe) else s
      match left with
      | 0 => exec s cmd
      | left + 1 =>
          let (s, _, _) ← capture .pipe exec s cmd
          stageLoop env exec left (i + 1) s

/-- `sh_run_pipeline`. -/
def shRunPipeline (env : ShEnv ε) (exec : Command ε) (s : Sh (ShWorld ε)) (line : CStr) :
    Outcome (Sh (ShWorld ε) × Int) :=
  let stages := splitStages line
  let s := { s with world := { s.world with stages := fun i => stages.getD i (s.world.stages i) } }
  match stages with
  | [stage] => runStage env exec s stage
  | _ => stageLoop env exec (stages.length - 1) 0 (s.setKout s.kout.clear)

/-! ## The interpreter -/

/-- The body of `sh_exec`. -/
def shExecOnce (env : ShEnv ε) (simple : Simple ε) (exec run : Command ε) (s : Sh (ShWorld ε))
    (cmdline : CStr) : Outcome (Sh (ShWorld ε) × Int) := do
  let (s, expanded) ← expandWord env exec shLineMax s cmdline
  let (s, argv) ← tokenize env exec (shLineMax * 2) s expanded
  match argv with
  | [] => pure (s, 0)
  | _ => simple exec run s argv

/-- What `sh_exec_block` calls, over `sh_exec`. -/
def shRunner (env : ShEnv ε) (exec : Command ε) : Runner (ShWorld ε) where
  exec := exec
  line s line := do
    let (s, expanded) ← expandWord env exec shLineMax s line
    shRunPipeline env exec s expanded
  words s list := do
    let (s, expanded) ← expandWord env exec shExpandMax s list
    tokenize env exec shLineMax s expanded
  word s src := expandWord env exec shLineMax s src
  varSet s name val := s.setVars (varSet s.world.vars name val false)
  funcSet s name body := { s with world := { s.world with funcs := funcSet s.world.funcs name body } }

/-- `sh_exec`. -/
def shExec (env : ShEnv ε) (simple : Simple ε) : Nat → Command ε
  | 0 => fun _ _ => .timeout
  | fuel + 1 =>
      let exec := shExec env simple fuel
      shExecOnce env simple exec (shRunString (shRunner env exec) fuel)

/-- `sh_run_string`, with what it calls. -/
def shScript (env : ShEnv ε) (simple : Simple ε) (fuel : Nat) : Command ε :=
  shRunString (shRunner env (shExec env simple fuel)) fuel

end VnlKernel
