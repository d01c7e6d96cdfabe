import VnlKernel.Shell.WordsBytes

/-!
# Tokens in their buffer: `tokenize` of `src/shell/sh.c`

The same function with `strbuf` and `argv` as arrays. All tokens go into one buffer, one behind
the other, and `argv` points into it. Characters are dropped where only the NUL has room, but
the NUL is dropped too where a token begins behind the last byte.

`strbuf` is what was written to it, from its start, so that `bi` is its length; a pointer into
it is an index. Besides its accesses a run notes down where each token begins and each call of
`expand_word`.
-/

namespace VnlKernel

variable {ε : Type}

/-- What a run of `tokenize` notes down. -/
inductive TokenNote (ε : Type) where
  | access (a : Access)
  /-- `argv[argc++] = strbuf + bi`. -/
  | token (bi : Nat)
  /-- `expand_word(src, tmp, SH_EXPAND_MAX)`. -/
  | call (s : Sh (ShWorld ε)) (src : CStr)

namespace TokenNote

/-- `while (*p && *p != '\'') { if (bi+1<bufsz) strbuf[bi++]=*p; p++; }`. -/
def squoteCopy (bufsz : Nat) : CStr → CStr → Logged (TokenNote ε) (CStr × CStr)
  | buf, [] => pure (buf, [])
  | buf, c :: p =>
      if c = squote then pure (buf, c :: p)
      else if buf.length + 1 < bufsz then do
        Logged.note (.access (.span (buf.length + 1) bufsz))
        squoteCopy bufsz (buf ++ [c]) p
      else squoteCopy bufsz buf p

/-- `if (bi+tl < bufsz) { memcpy(strbuf+bi, tmp, tl); bi += tl; }`. -/
def append (bufsz : Nat) (buf text : CStr) : Logged (TokenNote ε) CStr :=
  if buf.length + text.length < bufsz then do
    Logged.note (.access (.span (buf.length + text.length) bufsz))
    pure (buf ++ text)
  else pure buf

/-- Copy a piece of the line to an array of `cap` bytes and expand it. -/
def expandPiece (env : ShEnv ε) (exec : Command ε) (cap : Nat) (s : Sh (ShWorld ε)) (p : CStr) (n : Nat) :
    Logged (TokenNote ε) (Sh (ShWorld ε) × CStr) := do
  let piece ← (copyOut cap p (clip cap n)).within .access
  Logged.note (.call s piece)
  .lift (expandWord env exec shExpandMax s piece)

/-- Collect one token. -/
def collect (env : ShEnv ε) (exec : Command ε) (bufsz : Nat) :
    Nat → Sh (ShWorld ε) → CStr → CStr → Logged (TokenNote ε) (Sh (ShWorld ε) × CStr × CStr)
  | 0, _, _, _ => .lift .timeout
  | _ + 1, s, buf, [] => pure (s, buf, [])
  | fuel + 1, s, buf, c :: p =>
      if endsToken c then pure (s, buf, c :: p)
      else if c = squote then do
        let r ← squoteCopy bufsz buf p
        collect env exec bufsz fuel s r.1 (r.2.drop 1)
      else if c = dquote then do
        let n := quotedSpan p
        -- with the quotes
        let r ← expandPiece env exec shLineMax s (c :: p) (n + 2)
        let buf ← append bufsz buf r.2
        collect env exec bufsz fuel r.1 buf (p.drop (n + 1))
      else if c = dollarSign ∨ c = backquote then do
        let n := pieceSpan (c :: p)
        let r ← expandPiece env exec shExpandMax s (c :: p) n
        let buf ← append bufsz buf r.2
        collect env exec bufsz fuel r.1 buf ((c :: p).drop n)
      else if buf.length + 1 < bufsz then do
        Logged.note (.access (.span (buf.length + 1) bufsz))
        collect env exec bufsz fuel s (buf ++ [c]) p
      else collect env exec bufsz fuel s buf p

/-- `if (bi < bufsz) strbuf[bi++] = '\0'`. -/
def terminate (bufsz : Nat) (buf : CStr) : Logged (TokenNote ε) CStr :=
  if buf.length < bufsz then do
    Logged.note (.access (.span (buf.length + 1) bufsz))
    pure (buf ++ [0])
  else pure buf

/-- The loop of `tokenize`, with `argv` as far as it is filled and room for `left` more. -/
def loop (env : ShEnv ε) (exec : Command ε) (maxargs bufsz : Nat) :
    Nat → Sh (ShWorld ε) → CStr → List Nat → CStr → Logged (TokenNote ε) (Sh (ShWorld ε) × CStr × List Nat)
  | 0, s, buf, argv, _ => pure (s, buf, argv)
  | left + 1, s, buf, argv, p =>
      match skipBlanks p with
      | [] => pure (s, buf, argv)
      | c :: q =>
          if c = hash ∨ c = newline ∨ c = semicolon then pure (s, buf, argv)
          else do
            Logged.note (.access (.span (argv.length + 1) maxargs))
            Logged.note (.token buf.length)
            let r ← collect env exec bufsz (q.length + 2) s buf (c :: q)
            let buf' ← terminate bufsz r.2.1
            loop env exec maxargs bufsz left r.1 buf' (argv ++ [buf.length]) r.2.2

end TokenNote

/-- `tokenize(line, argv, maxargs, strbuf, bufsz)`: the interpreter, `strbuf` and `argv` up to the
null pointer at its end. -/
def tokenizeBytes (env : ShEnv ε) (exec : Command ε) (maxargs bufsz : Nat) (s : Sh (ShWorld ε)) (line : CStr) :
    Logged (TokenNote ε) (Sh (ShWorld ε) × CStr × List Nat) := do
  let r ← TokenNote.loop env exec maxargs bufsz (maxargs - 1) s [] [] line
  Logged.note (.access (.span (r.2.2.length + 1) maxargs))
  pure r

end VnlKernel
