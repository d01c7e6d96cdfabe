import VnlKernel.Proof.ShellSplit

/-!
# And-or lists

A line of commands with ` && ` or ` || ` between them. The executor looks for the operator that
comes first, runs what is in front of it and, if it is to be run, all that is behind it: as one
command, for which `sh_exec` does not look for operators. So the operators behind the first one
and the commands behind them become arguments, or are forgotten.

The commands that are executed are the calls of `sh_run_simple`. A `recorder` stands for it: it
writes down the words it is called with, and what it returns is any function of them and of
what was written down before.
-/

namespace VnlKernel

/-! ## What a line means -/

/-- A command, and those behind it, each with the operator in front: true for `&&`. -/
structure AndOr where
  first : CStr
  rest : List (Bool × CStr)

def opText (isAnd : Bool) : CStr := if isAnd then cstr " && " else cstr " || "

def restText : List (Bool × CStr) → CStr
  | [] => []
  | (isAnd, c) :: rest => opText isAnd ++ (c ++ restText rest)

def AndOr.line (l : AndOr) : CStr := l.first ++ restText l.rest

/-- What commands return, given those that were run before. -/
abbrev Statuses : Type := List (List CStr) → List CStr → Int

/-- Simple commands that are only written down. -/
def recorder (status : Statuses) : Simple (List (List CStr)) := fun _ _ s argv =>
  .done ({ s with world := { s.world with ext := s.world.ext ++ [argv] } }, status s.world.ext argv)

/-- Is a command behind this operator to be run? -/
def goesOn (isAnd : Bool) (r : Int) : Bool := if isAnd then decide (r = 0) else decide (r ≠ 0)

/-- Left-associative evaluation, from the status of what is in front: what is written down, and the
status of the command executed last. -/
def evalRest (status : Statuses) : List (Bool × CStr) → List (List CStr) → Int → List (List CStr) × Int
  | [], log, r => (log, r)
  | (isAnd, c) :: rest, log, r =>
      if goesOn isAnd r then evalRest status rest (log ++ [blankWords c]) (status log (blankWords c))
      else evalRest status rest log r

def AndOr.eval (status : Statuses) (log : List (List CStr)) (l : AndOr) : List (List CStr) × Int :=
  evalRest status l.rest (log ++ [blankWords l.first]) (status log (blankWords l.first))

/-- A command of plain words, for which there is room in `argv`. -/
structure PlainCommand (c : CStr) : Prop extends WordsOnly c where
  noEscape : backslash ∉ c
  room : (blankWords c).length < shMaxArgs - 1

/-- All commands are plain, the first word of the line is not a keyword, and the line fits. -/
structure AndOr.Plain (l : AndOr) : Prop where
  first : PlainCommand l.first
  rest : ∀ x ∈ l.rest, PlainCommand x.2
  command : l.first.takeWhile (· ≠ space) ∉ shellKeywords
  fits : l.line.length < shLineMax - 1

/-- Does the executor take the first word for a word? It copies it to a buffer, and three of the
keywords are found in front of anything. -/
structure LeadWord (w : CStr) : Prop where
  short : w.length < shVarNamsz
  noElif : ¬ cstr "elif" <+: w
  noReturn : ¬ cstr "return" <+: w
  noBrace : ¬ cstr "\x7d" <+: w

/-- With the first command nothing else is to be run. -/
def AndOr.StopsAtOnce (status : Statuses) (log : List (List CStr)) (l : AndOr) : Prop :=
  ∀ x ∈ l.rest, goesOn x.1 (status log (blankWords l.first)) = false

/-! ## `sh_exec` of plain words -/

section Exec

variable {ε : Type} {env : ShEnv ε} {simple : Simple ε} {exec : Command ε} {s : Sh (ShWorld ε)}

/-- `sh_exec` runs the words of the text. -/
theorem shExec_words {l : CStr} {fuel : Nat} (hl : PlainText l) (hne : blankWords l ≠ [])
    (hlen : l.length < shLineMax) :
    shExec env simple (fuel + 1) s l
      = simple (shExec env simple fuel) (shRunString (shRunner env (shExec env simple fuel)) fuel) s
          ((blankWords l).take (shMaxArgs - 1)) := by
  have hnil : l ≠ [] := by
    rintro rfl
    exact hne rfl
  rw [shExec, shExecOnce, expandWord_plain (fun c hc => (hl c hc).1) hnil hlen, Outcome.bind_done]
  dsimp only
  rw [tokenize, tokenizeLoop_words _ hl (by omega), Outcome.bind_done]
  dsimp only
  obtain ⟨w, ws, hws⟩ := List.exists_cons_of_ne_nil hne
  rw [hws]
  rfl

end Exec

/-! ## The line -/

section Line

variable {l : AndOr}

theorem PlainCommand.plainText {c : CStr} (h : PlainCommand c) : PlainText c := by
  intro d hd
  have hp := h.plain d hd
  have hb : d ≠ backslash := fun he => h.noEscape (he ▸ hd)
  simp only [specialBytes, List.mem_cons, not_or] at hp
  exact ⟨⟨hb, hp.1, hp.2.1, hp.2.2.1, hp.2.2.2.1⟩, hp.2.2.2.2.2.2.2.2.2.2.2.1, hp.2.2.2.2.2.1,
    hp.2.2.2.2.1⟩

theorem PlainCommand.words_ne_nil {c : CStr} (h : PlainCommand c) : blankWords c ≠ [] := by
  obtain ⟨d, r, rfl, hd⟩ := h.first
  rcases skipBlanks_cases (d :: r) with hs | ⟨w, p, hs, hne, hw, hp⟩
  · rw [skipBlanks, List.dropWhile_cons, hd] at hs
    cases hs
  · have hall : p.head?.all isBlank = true := by
      rcases hp with rfl | ⟨e, p, rfl, he⟩
      · rfl
      · simpa using he
    rw [← blankWords_skipBlanks, hs, blankWords_word hne hw hall]
    exact List.cons_ne_nil _ _

theorem opText_plain (isAnd : Bool) : PlainText (opText isAnd) := by
  cases isAnd
  · unfold opText PlainText
    decide
  · unfold opText PlainText
    decide

theorem restText_plain : ∀ {rest : List (Bool × CStr)}, (∀ x ∈ rest, PlainCommand x.2) →
    PlainText (restText rest)
  | [], _ => fun c hc => absurd hc (by simp [restText])
  | (isAnd, c) :: rest, h => by
      intro d hd
      rw [restText, List.mem_append, List.mem_append] at hd
      rcases hd with hd | hd | hd
      · exact opText_plain isAnd d hd
      · exact (h _ (List.mem_cons_self ..)).plainText d hd
      · exact restText_plain (fun x hx => h x (List.mem_cons_of_mem _ hx)) d hd

theorem AndOr.Plain.plainText (h : l.Plain) : PlainText l.line := by
  intro c hc
  rcases List.mem_append.mp hc with hc | hc
  · exact h.first.plainText c hc
  · exact restText_plain h.rest c hc

theorem restText_not_mem {c : UInt8} (hc : c ∈ specialBytes) (hop : ∀ isAnd, c ∉ opText isAnd) :
    ∀ {rest : List (Bool × CStr)}, (∀ x ∈ rest, PlainCommand x.2) → c ∉ restText rest
  | [], _ => by simp [restText]
  | (isAnd, d) :: rest, h => by
      rw [restText, List.mem_append, List.mem_append, not_or, not_or]
      exact ⟨hop isAnd, (h _ (List.mem_cons_self ..)).not_mem hc,
        restText_not_mem hc hop fun x hx => h x (List.mem_cons_of_mem _ hx)⟩

theorem AndOr.Plain.not_paren (h : l.Plain) : parenOpen ∉ l.line := by
  rw [AndOr.line, List.mem_append, not_or]
  exact ⟨h.first.not_mem (by decide), restText_not_mem (by decide) (by decide) h.rest⟩

/-- A line ends where its last command ends. -/
theorem restText_last : ∀ {rest : List (Bool × CStr)}, (∀ x ∈ rest, PlainCommand x.2) → rest ≠ [] →
    ∃ r c, restText rest = r ++ [c] ∧ isBlank c = false ∧ c ≠ backslash
  | [], _, hne => absurd rfl hne
  | (isAnd, c) :: rest, h, _ => by
      by_cases hr : rest = []
      · obtain ⟨r, d, he, hd⟩ := (h _ (List.mem_cons_self ..)).last
        refine ⟨opText isAnd ++ r, d, ?_, hd⟩
        rw [restText, hr, restText, List.append_nil, List.append_assoc, ← he]
      · obtain ⟨r, d, he, hd⟩ := restText_last (fun x hx => h x (List.mem_cons_of_mem _ hx)) hr
        refine ⟨opText isAnd ++ (c ++ r), d, ?_, hd⟩
        rw [restText, he, List.append_assoc, List.append_assoc]

theorem AndOr.Plain.oneLine (h : l.Plain) : OneLine l.line := by
  refine ⟨fun c hc => (h.plainText c hc).2, ?_, ?_⟩
  · obtain ⟨c, r, he, hc⟩ := h.first.first
    exact ⟨c, r ++ restText l.rest, by rw [AndOr.line, he]; rfl, hc⟩
  · by_cases hr : l.rest = []
    · obtain ⟨r, c, he, hc⟩ := h.first.last
      exact ⟨r, c, by rw [AndOr.line, hr, restText, List.append_nil, he], hc⟩
    · obtain ⟨r, c, he, hc⟩ := restText_last h.rest hr
      exact ⟨l.first ++ r, c, by rw [AndOr.line, he, List.append_assoc], hc⟩

theorem opText_cons (isAnd : Bool) : opText isAnd = space :: (opText isAnd).drop 1 := by
  cases isAnd
  · rfl
  · rfl

/-- The line begins with the first word of its first command. -/
theorem AndOr.firstWord (l : AndOr) : l.line.takeWhile (· ≠ space)
    = l.first.takeWhile (· ≠ space) := by
  have hrest : (restText l.rest).takeWhile (· ≠ space) = [] := by
    cases l.rest with
    | nil => rfl
    | cons x rest =>
        obtain ⟨isAnd, c⟩ := x
        rw [restText, opText_cons, List.cons_append, List.takeWhile_cons, if_neg (by simp)]
  rw [AndOr.line, List.takeWhile_append]
  split
  · next hlen =>
    rw [hrest, List.append_nil, (List.takeWhile_prefix _).eq_of_length hlen]
  · rfl

/-! ## Where the first operator is -/

/-- A text that begins with a blank and has a byte that does not occur is not found before it does.
-/
theorem strstr_behind {x : UInt8} {t p : CStr} : ∀ {a : CStr}, x ∉ a →
    (∀ r c, a = r ++ [c] → c ≠ space) →
    strstr (space :: x :: t) (a ++ p) = (strstr (space :: x :: t) p).map (· + a.length)
  | [], _, _ => by simp
  | c :: a, hx, hlast => by
      have hno : startsWith (space :: x :: t) (c :: a ++ p) = false := by
        rw [← Bool.not_eq_true, startsWith_iff, List.cons_append, List.cons_prefix_cons]
        rintro ⟨hc, hpre⟩
        cases a with
        | nil => exact hlast [] c rfl hc.symm
        | cons d a =>
            rw [List.cons_append, List.cons_prefix_cons] at hpre
            exact hx (by simp [hpre.1])
      have ih := strstr_behind (t := t) (p := p) (a := a) (fun h => hx (List.mem_cons_of_mem _ h))
        (fun r d he => hlast (c :: r) d (by rw [he]; rfl))
      rw [List.cons_append] at hno ⊢
      rw [strstr, hno, if_neg (by decide), ih, Option.map_map, List.length_cons]
      congr 1

/-- The first operator is the one behind the first command. -/
theorem findAndOr_first {c p : CStr} (h : WordsOnly c) (isAnd : Bool) :
    findAndOr (c ++ (opText isAnd ++ p)) = some (c.length, isAnd) := by
  have hlast : ∀ r d, c = r ++ [d] → d ≠ space := by
    rintro r d he rfl
    obtain ⟨r', d', he', hb, _⟩ := h.last
    rw [he] at he'
    obtain ⟨_, hd⟩ := List.append_inj' he' rfl
    cases hd
    exact absurd hb (by decide)
  have hand := strstr_behind (t := cstr "& ") (p := opText isAnd ++ p)
    (h.not_mem (c := 0x26) (by decide)) hlast
  have hor := strstr_behind (t := cstr "| ") (p := opText isAnd ++ p)
    (h.not_mem (c := pipeSign) (by decide)) hlast
  rw [findAndOr, show cstr " && " = space :: 0x26 :: cstr "& " from rfl,
    show cstr " || " = space :: pipeSign :: cstr "| " from rfl, hand, hor]
  cases isAnd with
  | true =>
      have h0 : strstr (space :: 0x26 :: cstr "& ") (opText true ++ p) = some 0 := rfl
      have h1 : strstr (space :: pipeSign :: cstr "| ") (opText true ++ p)
          = (strstr (space :: pipeSign :: cstr "| ") (cstr "&& " ++ p)).map (· + 1) := rfl
      rw [h0, h1]
      cases strstr (space :: pipeSign :: cstr "| ") (cstr "&& " ++ p) with
      | none => simp
      | some k => simp
  | false =>
      have h0 : strstr (space :: pipeSign :: cstr "| ") (opText false ++ p) = some 0 := rfl
      have h1 : strstr (space :: 0x26 :: cstr "& ") (opText false ++ p)
          = (strstr (space :: 0x26 :: cstr "& ") (cstr "|| " ++ p)).map (· + 1) := rfl
      rw [h0, h1]
      cases strstr (space :: 0x26 :: cstr "& ") (cstr "|| " ++ p) with
      | none => simp
      | some k => simp

end Line

/-! ## How the line begins -/

section Begins

variable {ln k : CStr}

theorem takeWhile_space_self (hk : space ∉ k) : k.takeWhile (· ≠ space) = k := by
  rw [List.takeWhile_eq_self_iff]
  intro c hc
  simpa using fun he : c = space => hk (he ▸ hc)

theorem firstWord_of_startsWith (hk : space ∉ k) (h : startsWith (k ++ [space]) ln = true) :
    ln.takeWhile (· ≠ space) = k := by
  obtain ⟨r, rfl⟩ := startsWith_iff.mp h
  rw [List.append_assoc, List.takeWhile_append_of_pos]
  · simp
  · intro c hc
    simpa using fun he : c = space => hk (he ▸ hc)

theorem firstWord_of_isKeyword (hk : space ∉ k) (h : isKeyword k ln = true) :
    ln.takeWhile (· ≠ space) = k := by
  rw [isKeyword, Bool.and_eq_true, Bool.or_eq_true, startsWith_iff] at h
  obtain ⟨⟨r, rfl⟩, h⟩ := h
  rw [List.drop_left] at h
  cases r with
  | nil => rw [List.append_nil, takeWhile_space_self hk]
  | cons c r =>
      have hc : c = space := by simpa using h
      refine firstWord_of_startsWith hk (startsWith_iff.mpr ⟨r, ?_⟩)
      rw [hc, List.append_assoc]
      rfl

/-- A text without blanks in front of the line is in front of its first word. -/
theorem prefix_firstWord (hk : space ∉ k) (h : k <+: ln) : k <+: ln.takeWhile (· ≠ space) := by
  obtain ⟨r, rfl⟩ := h
  rw [List.takeWhile_append_of_pos]
  · exact List.prefix_append _ _
  · intro c hc
    simpa using fun he : c = space => hk (he ▸ hc)

variable (hword : ln.takeWhile (· ≠ space) ∉ shellKeywords)

include hword

theorem startsWith_keyword (hk : k ∈ shellKeywords) (hs : space ∉ k) :
    startsWith (k ++ [space]) ln = false := by
  rw [← Bool.not_eq_true]
  exact fun h => hword (firstWord_of_startsWith hs h ▸ hk)

theorem isKeyword_false (hk : k ∈ shellKeywords) (hs : space ∉ k) : isKeyword k ln = false := by
  rw [← Bool.not_eq_true]
  exact fun h => hword (firstWord_of_isKeyword hs h ▸ hk)

theorem ne_keyword (hk : k ∈ shellKeywords) (hs : space ∉ k) : ln ≠ k := by
  rintro rfl
  rw [takeWhile_space_self hs] at hword
  exact hword hk

end Begins

section Kinds

variable {σ : Type} {R : Runner σ} {fuel : Nat} {block : Sh σ → CStr → Bool → Outcome (Sh σ × CStr × Int)}
  {next : Sh σ → CStr → Int → Outcome (Sh σ × CStr × Int)} {s : Sh σ} {ln lineStart p : CStr} {lastRet : Int}

theorem functionName_lead (hl : OneLine ln) (hparen : parenOpen ∉ ln)
    (hword : ln.takeWhile (· ≠ space) ∉ shellKeywords) :
    functionName ln = if (ln.takeWhile (· ≠ space)).length ≥ shVarNamsz then .panic "fname: write past the end"
      else .done none := by
  have hskip : skipSpaces ln = ln := by
    obtain ⟨c, r, rfl, hc⟩ := hl.first
    have hne : c ≠ space := fun he => by rw [he] at hc; exact absurd hc (by decide)
    rw [skipSpaces, List.dropWhile_cons, if_neg (by simp [hne])]
  have htake : ∀ {l : CStr}, parenOpen ∉ l →
      (l.takeWhile fun c => c ≠ parenOpen && c ≠ space) = l.takeWhile (· ≠ space) := by
    intro l hl
    induction l with
    | nil => rfl
    | cons c l ih =>
        have hc : c ≠ parenOpen := fun he => hl (he ▸ List.mem_cons_self ..)
        rw [List.takeWhile_cons, List.takeWhile_cons, ih fun h => hl (List.mem_cons_of_mem _ h)]
        simp [hc]
  have hrest : startsWith [parenOpen, parenClose]
      (ln.dropWhile fun c => c ≠ parenOpen && c ≠ space) = false := by
    rw [← Bool.not_eq_true, startsWith_iff]
    rintro ⟨r, hr⟩
    have hmem : parenOpen ∈ ln.dropWhile fun c => c ≠ parenOpen && c ≠ space := by
      rw [← hr]
      simp
    exact hparen ((List.dropWhile_sublist _).subset hmem)
  rw [functionName, hskip, show cstr "function " = cstr "function" ++ [space] from rfl,
    startsWith_keyword hword (by decide) (by decide)]
  dsimp only
  rw [if_neg (by decide), htake hparen, hrest]
  simp

/-- A line that begins with a word is looked at for operators. -/
theorem execLine_lead (hl : OneLine ln) (hparen : parenOpen ∉ ln)
    (hword : ln.takeWhile (· ≠ space) ∉ shellKeywords)
    (hlead : LeadWord (ln.takeWhile (· ≠ space))) :
    execLine R fuel block next s ln lineStart p true lastRet = (match findAndOr ln with
      | some (k, isAnd) => do
          let (s, r1) ← R.exec s (ln.take k)
          let s := { s with lastStatus := r1 }
          let (s, lastRet) ← if goesOn isAnd r1 then R.exec s (ln.drop (k + 4)) else pure (s, r1)
          next { s with lastStatus := lastRet } p lastRet
      | none => do
          let (s, r) ← R.line s ln
          next { s with lastStatus := r } p r) := by
  have hkw : ∀ {k : CStr}, k ∈ shellKeywords → space ∉ k → isKeyword k ln = false :=
    isKeyword_false hword
  have hst : ∀ {k : CStr}, k ∈ shellKeywords → space ∉ k → startsWith (k ++ [space]) ln = false :=
    startsWith_keyword hword
  have hne : ∀ {k : CStr}, k ∈ shellKeywords → space ∉ k → ln ≠ k := ne_keyword hword
  have helif : startsWith (cstr "elif") ln = false := by
    rw [← Bool.not_eq_true, startsWith_iff]
    exact fun h => hlead.noElif (prefix_firstWord (by decide) h)
  have hret : startsWith (cstr "return") ln = false := by
    rw [← Bool.not_eq_true, startsWith_iff]
    exact fun h => hlead.noReturn (prefix_firstWord (by decide) h)
  have hbrace : ln.head? ≠ some braceClose := by
    obtain ⟨c, r, he, _⟩ := hl.first
    rw [he, List.head?_cons]
    intro hc
    cases Option.some.inj hc
    exact hlead.noBrace (prefix_firstWord (by decide) (he ▸ ⟨r, rfl⟩))
  have hterm : terminator ln lineStart p = none := by
    rw [terminator, hkw (by decide) (by decide), hkw (by decide) (by decide),
      hkw (by decide) (by decide),
      hkw (by decide) (by decide), helif]
    simp [hbrace]
  have hname := functionName_lead hl hparen hword
  rw [if_neg (by have := hlead.short; omega)] at hname
  rw [execLine, hname, Outcome.bind_done]
  dsimp only
  rw [if_neg (hne (by decide) (by decide)), show cstr "if " = cstr "if" ++ [space] from rfl,
    hst (by decide) (by decide), hterm]
  dsimp only
  rw [hkw (by decide) (by decide), hkw (by decide) (by decide),
    if_neg (hne (by decide) (by decide)),
    show cstr "while " = cstr "while" ++ [space] from rfl, hst (by decide) (by decide),
    show cstr "for " = cstr "for" ++ [space] from rfl, hst (by decide) (by decide),
    show cstr "case " = cstr "case" ++ [space] from rfl, hst (by decide) (by decide),
    if_neg (hne (by decide) (by decide)), if_neg (hne (by decide) (by decide)), hret]
  cases findAndOr ln with
  | none => rfl
  | some x => rfl

/-- A line that begins with anything else runs nothing. -/
theorem execLine_noLead (hl : OneLine ln) (hparen : parenOpen ∉ ln)
    (hword : ln.takeWhile (· ≠ space) ∉ shellKeywords)
    (hlead : ¬ LeadWord (ln.takeWhile (· ≠ space)))
    {s' : Sh σ} {p' : CStr} {r : Int}
    (h : execLine R fuel block next s ln lineStart p true lastRet = .done (s', p', r)) :
    s'.world = s.world := by
  have hname := functionName_lead hl hparen hword
  by_cases hlen : (ln.takeWhile (· ≠ space)).length ≥ shVarNamsz
  · rw [execLine, hname, if_pos hlen] at h
    cases h
  have hst : ∀ {k : CStr}, k ∈ shellKeywords → space ∉ k → startsWith (k ++ [space]) ln = false :=
    startsWith_keyword hword
  have hne : ∀ {k : CStr}, k ∈ shellKeywords → space ∉ k → ln ≠ k := ne_keyword hword
  rw [execLine, hname, if_neg hlen, Outcome.bind_done] at h
  dsimp only at h
  rw [if_neg (hne (by decide) (by decide)), show cstr "if " = cstr "if" ++ [space] from rfl,
    hst (by decide) (by decide), if_neg (by decide)] at h
  cases hterm : terminator ln lineStart p with
  | some q =>
      rw [hterm] at h
      cases h
      rfl
  | none =>
      -- what is left is `return`
      have hret : startsWith (cstr "return") ln = true := by
        rw [terminator, isKeyword_false hword (by decide) (by decide),
          isKeyword_false hword (by decide) (by decide),
            isKeyword_false hword (by decide) (by decide),
          isKeyword_false hword (by decide) (by decide)] at hterm
        have hend : ¬ cstr "\x7d" <+: ln ∧ ¬ cstr "elif" <+: ln := by
          constructor
          · rintro ⟨r, rfl⟩
            exact absurd hterm (by simp [cstr, braceClose])
          · intro hp
            rw [startsWith_iff.mpr hp] at hterm
            split at hterm
            · cases hterm
            · cases hterm
        rw [startsWith_iff]
        by_contra hret
        have hpre : ∀ {k : CStr}, ¬ k <+: ln → ¬ k <+: ln.takeWhile (· ≠ space) :=
          fun hk hp => hk (hp.trans (List.takeWhile_prefix _))
        exact hlead ⟨by omega, hpre hend.2, hpre hret, hpre hend.1⟩
      rw [hterm] at h
      dsimp only at h
      rw [isKeyword_false hword (by decide) (by decide),
        isKeyword_false hword (by decide) (by decide),
        if_neg (hne (by decide) (by decide)), show cstr "while " = cstr "while" ++ [space] from rfl,
        hst (by decide) (by decide), show cstr "for " = cstr "for" ++ [space] from rfl,
        hst (by decide) (by decide), show cstr "case " = cstr "case" ++ [space] from rfl,
        hst (by decide) (by decide), if_neg (hne (by decide) (by decide)),
        if_neg (hne (by decide) (by decide)), hret] at h
      cases h
      rfl

end Kinds

/-! ## The run -/

section Run

variable {status : Statuses} {env : ShEnv (List (List CStr))} {s : Sh (ShWorld (List (List CStr)))}
  {fuel : Nat} {l : AndOr} {text : CStr}

theorem evalRest_extends (status : Statuses) :
    ∀ (rest : List (Bool × CStr)) (log : List (List CStr)) (r : Int),
    log <+: (evalRest status rest log r).1
  | [], log, r => List.prefix_refl _
  | (isAnd, c) :: rest, log, r => by
      rw [evalRest]
      split
      · exact (List.prefix_append _ _).trans (evalRest_extends status rest _ _)
      · exact evalRest_extends status rest log r

theorem evalRest_stops : ∀ {rest : List (Bool × CStr)} {log : List (List CStr)} {r : Int},
    (∀ x ∈ rest, goesOn x.1 r = false) → evalRest status rest log r = (log, r)
  | [], log, r, _ => rfl
  | (isAnd, c) :: rest, log, r, h => by
      have hgo : goesOn isAnd r = false := h (isAnd, c) (List.mem_cons_self ..)
      rw [evalRest, hgo, if_neg (by decide)]
      exact evalRest_stops fun x hx => h x (List.mem_cons_of_mem _ hx)

/-- If nothing was written down, nothing was to be run. -/
theorem stops_of_evalRest : ∀ {rest : List (Bool × CStr)} {log : List (List CStr)} {r : Int},
    (evalRest status rest log r).1 = log → ∀ x ∈ rest, goesOn x.1 r = false
  | [], log, r, _, x, hx => absurd hx (by simp)
  | (isAnd, c) :: rest, log, r, h, x, hx => by
      rw [evalRest] at h
      cases hgo : goesOn isAnd r with
      | true =>
          rw [hgo, if_pos rfl] at h
          have hlen := (evalRest_extends status rest (log ++ [blankWords c])
            (status log (blankWords c))).length_le
          rw [h, List.length_append, List.length_singleton] at hlen
          omega
      | false =>
          rw [hgo, if_neg (by decide)] at h
          rcases List.mem_cons.mp hx with rfl | hx
          · exact hgo
          · exact stops_of_evalRest h x hx

/-- What `sh_exec` does with plain words. -/
theorem shExec_recorder {c : CStr} (hc : PlainText c) (hne : blankWords c ≠ [])
    (hlen : c.length < shLineMax)
    (s : Sh (ShWorld (List (List CStr)))) :
    shExec env (recorder status) (fuel + 1) s c
      = .done ({ s with
          world := { s.world with ext := s.world.ext ++ [(blankWords c).take (shMaxArgs - 1)] } },
          status s.world.ext ((blankWords c).take (shMaxArgs - 1))) := by
  rw [shExec_words hc hne hlen]
  rfl

/-- A plain command alone on a line goes through the pipeline to `sh_exec`. -/
theorem line_recorder (status : Statuses) (env : ShEnv (List (List CStr))) (fuel : Nat) {c : CStr}
    (hc : PlainCommand c) (hlen : c.length < shLineMax - 1)
    (s : Sh (ShWorld (List (List CStr)))) :
    ∃ s', (shRunner env (shExec env (recorder status) (fuel + 1))).line s c
        = .done (s', status s.world.ext (blankWords c))
      ∧ s'.world.ext = s.world.ext ++ [blankWords c] := by
  have hp := hc.plainText
  have hfit : c.length < shLineMax := by omega
  have hredir : ∀ d ∈ c, d ≠ greater ∧ d ≠ less := fun d hd =>
    ⟨fun he => hc.not_mem (c := greater) (by decide) (he ▸ hd),
      fun he => hc.not_mem (c := less) (by decide) (he ▸ hd)⟩
  have huncut : Uncut ⟨0, false, false⟩ c := by
    rintro a d b rfl
    have hd : d ≠ pipeSign := fun he => hc.not_mem (c := pipeSign) (by decide) (by simp [he])
    simp [Split.cuts, hd]
  have htake : (blankWords c).take (shMaxArgs - 1) = blankWords c :=
    List.take_of_length_le hc.room.le
  have hrun : (shRunner env (shExec env (recorder status) (fuel + 1))).line s c
      = shRunPipeline env (shExec env (recorder status) (fuel + 1)) s c := by
    dsimp only [shRunner]
    rw [expandWord_plain (fun d hd => (hp d hd).1) hc.ne_nil hfit, Outcome.bind_done]
  rw [hrun, shRunPipeline, splitStages_uncut huncut hfit]
  dsimp only
  rw [runStage_plain hredir hlen, shExec_recorder hp hc.words_ne_nil hfit, htake]
  exact ⟨_, rfl, rfl⟩

/-- The words behind the first operator, as one command. -/
theorem blankWords_restText {c : CStr} (isAnd : Bool) (rest : List (Bool × CStr)) (d : CStr) :
    blankWords (c ++ restText ((isAnd, d) :: rest))
      = blankWords c ++ (if isAnd then cstr "&&" else cstr "||") :: blankWords
        (d ++ restText rest) := by
  cases isAnd with
  | true =>
      rw [restText, show opText true = space :: (cstr "&&" ++ [space]) from rfl, List.cons_append,
        blankWords_append rfl, List.append_assoc, blankWords_word (by decide) (by decide) rfl,
        List.singleton_append, blankWords_blank rfl]
      rfl
  | false =>
      rw [restText, show opText false = space :: (cstr "||" ++ [space]) from rfl, List.cons_append,
        blankWords_append rfl, List.append_assoc, blankWords_word (by decide) (by decide) rfl,
        List.singleton_append, blankWords_blank rfl]
      rfl

/-- What the executor makes of the line. -/
def AndOr.split (status : Statuses) (log : List (List CStr)) (l : AndOr) : List (List CStr) × Int :=
  let r := status log (blankWords l.first)
  let log := log ++ [blankWords l.first]
  match l.rest with
  | [] => (log, r)
  | (isAnd, c) :: rest =>
      if goesOn isAnd r then
        let argv := (blankWords (c ++ restText rest)).take (shMaxArgs - 1)
        (log ++ [argv], status log argv)
      else (log, r)

theorem AndOr.Plain.execLine_split (status : Statuses) (env : ShEnv (List (List CStr))) (fuel : Nat)
    (s : Sh (ShWorld (List (List CStr)))) (h : l.Plain)
    (hlead : LeadWord (l.first.takeWhile (· ≠ space)))
    (g : Nat) (block : Sh (ShWorld (List (List CStr))) → CStr → Bool →
      Outcome (Sh (ShWorld (List (List CStr))) × CStr × Int))
    (next : Sh (ShWorld (List (List CStr))) → CStr → Int →
      Outcome (Sh (ShWorld (List (List CStr))) × CStr × Int)) (lineStart p : CStr) :
    ∃ s', execLine (shRunner env (shExec env (recorder status) (fuel + 1))) g block next s l.line
      lineStart p
        true 0 = next s' p (l.split status s.world.ext).2
      ∧ s'.world.ext = (l.split status s.world.ext).1 := by
  have hfits := h.fits
  rw [← l.firstWord] at hlead
  have hcommand := h.command
  rw [← l.firstWord] at hcommand
  have htake : (blankWords l.first).take (shMaxArgs - 1) = blankWords l.first :=
    List.take_of_length_le h.first.room.le
  rw [execLine_lead h.oneLine h.not_paren hcommand hlead]
  cases hr : l.rest with
  | nil =>
      have hline : l.line = l.first := by rw [AndOr.line, hr, restText, List.append_nil]
      rw [hline] at hfits ⊢
      -- one command: the line is that command
      obtain ⟨s', hs', hext⟩ := line_recorder status env fuel h.first hfits s
      rw [h.first.findAndOr_none]
      dsimp only
      rw [hs', Outcome.bind_done]
      refine ⟨{ s' with lastStatus := status s.world.ext (blankWords l.first) }, ?_, ?_⟩
      · simp only [AndOr.split, hr]
      · simp only [AndOr.split, hr]
        exact hext
  | cons x rest =>
      obtain ⟨isAnd, c⟩ := x
      have hline : l.line = l.first ++ (opText isAnd ++ (c ++ restText rest)) := by
        rw [AndOr.line, hr, restText]
      have hop : (opText isAnd).length = 4 := by cases isAnd <;> rfl
      have hplain : PlainText (c ++ restText rest) := by
        intro d hd
        refine h.plainText d ?_
        rw [hline]
        exact List.mem_append_right _ (List.mem_append_right _ hd)
      have hne : blankWords (c ++ restText rest) ≠ [] := by
        have hc := (h.rest (isAnd, c) (by rw [hr]; exact List.mem_cons_self ..)).words_ne_nil
        cases rest with
        | nil => rwa [restText, List.append_nil]
        | cons y rest =>
            rw [blankWords_restText]
            exact List.append_ne_nil_of_right_ne_nil _ (List.cons_ne_nil _ _)
      rw [hline, List.length_append, List.length_append] at hfits
      -- the first operator splits the line, and the rest is a line of its own
      rw [hline, findAndOr_first h.first.toWordsOnly]
      dsimp only
      rw [List.take_left, ← List.append_assoc, List.drop_left' (by rw [List.length_append, hop])]
      dsimp only [shRunner]
      rw [shExec_recorder h.first.plainText h.first.words_ne_nil (by omega), htake,
        Outcome.bind_done]
      dsimp only
      -- the rest is run or not by the status of the first command
      by_cases hgo : goesOn isAnd (status s.world.ext (blankWords l.first)) = true
      · rw [if_pos hgo, shExec_recorder hplain hne (by omega), Outcome.bind_done]
        dsimp only
        simp only [AndOr.split, hr, hgo, if_true]
        exact ⟨_, rfl, rfl⟩
      · rw [if_neg hgo, Outcome.pure_eq, Outcome.bind_done]
        dsimp only
        simp only [AndOr.split, hr, if_neg hgo]
        exact ⟨_, rfl, rfl⟩

/-- **When the executor's reading of a line is its meaning.** -/
theorem AndOr.Plain.split_eq_eval (h : l.Plain) (log : List (List CStr)) :
    l.split status log = l.eval status log ↔ l.rest.length ≤ 1 ∨ l.StopsAtOnce status log := by
  rw [AndOr.split, AndOr.eval, AndOr.StopsAtOnce]
  cases hr : l.rest with
  | nil => simp [evalRest]
  | cons x rest =>
      obtain ⟨isAnd, c⟩ := x
      have hc : PlainCommand c := h.rest (isAnd, c) (by rw [hr]; exact List.mem_cons_self ..)
      dsimp only
      rw [evalRest]
      cases hgo : goesOn isAnd (status log (blankWords l.first)) with
      | true =>
          rw [if_pos rfl, if_pos rfl]
          cases rest with
          | nil =>
              rw [restText, List.append_nil, List.take_of_length_le hc.room.le, evalRest]
              simp
          | cons y rest =>
              -- there is room in argv for an operator
              have hlong : (blankWords c).length
                  < ((blankWords (c ++ restText (y :: rest))).take (shMaxArgs - 1)).length := by
                have hroom := hc.room
                rw [blankWords_restText, List.length_take, List.length_append, List.length_cons]
                omega
              constructor
              · intro he
                have hpre := evalRest_extends status (y :: rest)
                  (log ++ [blankWords l.first] ++ [blankWords c])
                    (status (log ++ [blankWords l.first]) (blankWords c))
                rw [← he] at hpre
                have heq := hpre.eq_of_length (by simp)
                have hargv := List.append_cancel_left heq
                simp only [List.cons.injEq, and_true] at hargv
                rw [← hargv] at hlong
                omega
              · rintro (hlen | hstop)
                · simp at hlen
                · have := hstop (isAnd, c) (List.mem_cons_self ..)
                  rw [hgo] at this
                  cases this
      | false =>
          rw [if_neg (by decide), if_neg (by decide)]
          constructor
          · intro he
            refine Or.inr fun x hx => ?_
            rcases List.mem_cons.mp hx with rfl | hx
            · exact hgo
            · exact stops_of_evalRest (by rw [← he]) x hx
          · rintro (hlen | hstop)
            · have hnil : rest = [] := by
                rw [List.length_cons] at hlen
                exact List.length_eq_zero_iff.mp (by omega)
              rw [hnil, evalRest]
            · rw [evalRest_stops fun x hx => hstop x (List.mem_cons_of_mem _ hx)]

/-- The commands that are executed are those that left-associative evaluation prescribes, and the
status is that of the last one. -/
def AndOr.AsMeant (status : Statuses) (env : ShEnv (List (List CStr))) (fuel : Nat)
    (s : Sh (ShWorld (List (List CStr)))) (l : AndOr) (text : CStr) : Prop :=
  ∃ s', shScript env (recorder status) (fuel + 2) s text = .done (s', (l.eval status s.world.ext).2)
    ∧ s'.world.ext = (l.eval status s.world.ext).1

/-- **A line is run as it is meant exactly if it has one operator at most, or stops at its first
command**, and begins with a word that the executor takes for one. -/
theorem asMeant_iff (h : l.Plain) (ht : Text [l.line] text) :
    l.AsMeant status env fuel s text ↔ LeadWord (l.first.takeWhile (· ≠ space))
      ∧ (l.rest.length ≤ 1 ∨ l.StopsAtOnce status s.world.ext) := by
  obtain ⟨b, t, hb, rfl, hnil⟩ := ht.cons_inv
  cases hnil
  have hlen : l.line.length < shLineMax := by have := h.fits; omega
  set R := shRunner env (shExec env (recorder status) (fuel + 2)) with hR
  have hrun : shExecBlock R (fuel + 2) { s with flow := .none } (b ++ (l.line ++ [newline])) true 0
      = execLine R (fuel + 1) (fun s p execute => shExecBlock R (fuel + 1) s p execute 0)
          (fun s p lastRet => shExecBlock R (fuel + 1) s p true lastRet)
            { s with flow := .none } l.line
          (l.line ++ [newline]) [] true 0 := shExecBlock_oneLine R hb h.oneLine hlen _ _ _
  rw [AndOr.AsMeant, shScript, ← hR, shRunString, hrun, ← h.split_eq_eval]
  by_cases hlead : LeadWord (l.first.takeWhile (· ≠ space))
  · obtain ⟨s', hs', hext⟩ := h.execLine_split status env (fuel + 1)
      { s with flow := .none } hlead (fuel + 1)
      (fun s p execute => shExecBlock R (fuel + 1) s p execute 0)
      (fun s p lastRet => shExecBlock R (fuel + 1) s p true lastRet) (l.line ++ [newline]) []
    have hend : ∀ (s : Sh (ShWorld (List (List CStr)))) (r : Int),
        shExecBlock R (fuel + 1) s [] true r = .done (s, [], r) := fun s r => rfl
    rw [hs', hend, Outcome.bind_done]
    constructor
    · rintro ⟨s'', hdone, hlog⟩
      have hpair : (s', (l.split status s.world.ext).2) = (s'', (l.eval status s.world.ext).2) :=
        Outcome.done.inj hdone
      rw [Prod.mk.injEq] at hpair
      refine ⟨hlead, Prod.ext ?_ hpair.2⟩
      rw [← hlog, ← hpair.1]
      exact hext.symm
    · rintro ⟨_, heq⟩
      refine ⟨s', ?_, ?_⟩
      · rw [← heq]
        rfl
      · rw [← heq]
        exact hext
  · constructor
    · rintro ⟨s', hdone, hlog⟩
      obtain ⟨⟨s₁, p, r⟩, hexec, hdone⟩ := Outcome.bind_eq_done hdone
      cases hdone
      have hworld := execLine_noLead h.oneLine h.not_paren (by rw [l.firstWord]; exact h.command)
        (by rw [l.firstWord]; exact hlead) hexec
      rw [hworld] at hlog
      -- at least the first command is written down
      have hpre := evalRest_extends status l.rest (s.world.ext ++ [blankWords l.first])
        (status s.world.ext (blankWords l.first))
      have hlength := hpre.length_le
      rw [AndOr.eval] at hlog
      rw [← hlog, List.length_append, List.length_singleton] at hlength
      dsimp only at hlength
      omega
    · exact fun hcond => absurd hcond.1 hlead

end Run

/-- A machine on which there is nothing but what was written down. -/
def idleEnv : ShEnv (List (List CStr)) where
  arith _ _ := 0
  ticks _ := 0
  slurp ext _ _ := (ext, none)
  spill ext _ _ _ := ext
  own s _ := .done (s, 0)
  builtin _ _ s _ := .done (s, 0)

def idleShell : Sh (ShWorld (List (List CStr))) :=
  ⟨.none, 0, 0, ⟨[], [], [], [], [], Kout.init, fun _ => [], [], [], []⟩⟩

/-- Three commands with the same operator between them. -/
def threeCommands (isAnd : Bool) : AndOr := ⟨cstr "a", [(isAnd, cstr "b"), (isAnd, cstr "c")]⟩

theorem threeCommands_plain (isAnd : Bool) : (threeCommands isAnd).Plain := by
  have hletter : ∀ {c : UInt8}, c ∈ cstr "abcd" → PlainCommand [c] := by
    intro c hc
    have hplain : ∀ c ∈ cstr "abcd", backslash ∉ [c]
      ∧ (blankWords [c]).length < shMaxArgs - 1 := by decide
    exact ⟨(simpleLine_letter hc).toWordsOnly, (hplain c hc).1, (hplain c hc).2⟩
  have hword : (cstr "a").takeWhile (· ≠ space) ∉ shellKeywords := by decide
  refine ⟨hletter (c := 0x61) (by decide), ?_, hword, ?_⟩
  · intro x hx
    simp only [threeCommands, List.mem_cons, List.not_mem_nil, or_false] at hx
    rcases hx with rfl | rfl
    · exact hletter (c := 0x62) (by decide)
    · exact hletter (c := 0x63) (by decide)
  · cases isAnd
    · decide
    · decide

/-- The first command succeeds, and the others are not run. -/
theorem asMeant_iff_or : (threeCommands false).AsMeant (fun _ _ => 0) idleEnv 0 idleShell (cstr "a || b || c\n") := by
  have htext : Text [(threeCommands false).line] (cstr "a || b || c\n") :=
    .cons (b := []) (by decide) .nil
  refine (asMeant_iff (threeCommands_plain false) htext).mpr
    ⟨⟨by decide, by decide, by decide, by decide⟩, Or.inr ?_⟩
  intro x hx
  simp only [threeCommands, List.mem_cons, List.not_mem_nil, or_false] at hx
  rcases hx with rfl | rfl
  · rfl
  · rfl

/-- **All commands succeed**, and two of them are run as one. -/
theorem second_operator_passed_on : ¬ ∀ (l : AndOr) (text : CStr), l.Plain → Text [l.line] text →
    ∀ (status : Statuses) (env : ShEnv (List (List CStr))) (fuel : Nat) (s : Sh (ShWorld (List (List CStr)))),
      l.AsMeant status env fuel s text := by
  intro h
  have hrun : (shScript idleEnv (recorder fun _ _ => 0) 2 idleShell (cstr "a && b && c\n")).get?.map
      (fun x => x.1.world.ext) = some [[cstr "a"],
        [cstr "b", cstr "&&", cstr "c"]] := by decide +kernel
  obtain ⟨⟨s', r⟩, hdone, hext⟩ := Outcome.of_get? hrun
  obtain ⟨s'', hmeant, hlog⟩ := h (threeCommands true) (cstr "a && b && c\n")
    (threeCommands_plain true)
    (.cons (b := []) (by decide) .nil) (fun _ _ => 0) idleEnv 0 idleShell
  rw [hdone] at hmeant
  cases hmeant
  rw [hext] at hlog
  exact absurd hlog (by decide)

end VnlKernel
