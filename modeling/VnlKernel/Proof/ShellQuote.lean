import VnlKernel.Proof.ShellShrink

/-!
# Single quotes

What `echo 'S'` comes to. The line is expanded before it is split, and the expansion takes the
quotes away; whatever looks at the text afterwards does not know that it was quoted. So the
quotes protect a text exactly if it needs no protection.

That a text is taken literally is said for every way to run a simple command, since two calls
of `echo` with different arguments can print the same.
-/

namespace VnlKernel

variable {ε : Type} {env : ShEnv ε} {simple : Simple ε} {exec : Command ε} {s : Sh (ShWorld ε)} {S : CStr}

/-- The line `echo 'S'`. -/
def quotedEcho (S : CStr) : CStr := cstr "echo '" ++ (S ++ [squote])

/-- The line `echo S`, which it is before it is looked at for bars and redirections. -/
def bareEcho (S : CStr) : CStr := cstr "echo " ++ S

/-- How many parentheses are open. -/
def parenDepth : CStr → Int
  | [] => 0
  | c :: p => (if c = parenOpen then 1 else if c = parenClose then -1 else 0) + parenDepth p

/-- The bytes that one of the passes does not just copy. -/
def quoteBreakers : List UInt8 :=
  [space, tab, dollarSign, backquote, dquote, backslash, semicolon, hash, less, greater]

/-- No pass finds anything in the text. -/
structure BareWord (S : CStr) : Prop where
  ne_nil : S ≠ []
  bytes : ∀ c ∈ S, c ∉ quoteBreakers
  bars : ∀ a b, S = a ++ pipeSign :: b → parenDepth a ≠ 0

/-- The state in which the command of the line is run. -/
def echoReady (s : Sh (ShWorld ε)) (S : CStr) : Sh (ShWorld ε) :=
  { s with
    flow := .none
    world := { s.world with stages := fun i => [bareEcho S].getD i (s.world.stages i) } }

/-- Running `echo 'S'` is one call of `echo`, with one argument, and nothing else: whatever a call
of a simple command is, and in every state. -/
def Literal (S : CStr) : Prop :=
  ∀ (ε : Type) (env : ShEnv ε) (simple : Simple ε) (s : Sh (ShWorld ε)) (fuel : Nat),
    shScript env simple (fuel + 2) s (quotedEcho S) = (do
      let exec := shExec env simple (fuel + 1)
      let (s, r) ← simple exec (shRunString (shRunner env exec) (fuel + 1)) (echoReady s S) [cstr "echo", S]
      pure ({ s with lastStatus := r }, r))

/-! ## The line -/

theorem collectLine_fst : ∀ {l : CStr}, newline ∉ l →
    (collectLine l).1 = l.takeWhile fun c => c ≠ semicolon && c ≠ hash
  | [], _ => by rw [collectLine.eq_def, List.takeWhile_nil]
  | c :: l, h => by
      have hc : c ≠ newline := fun he => h (he ▸ List.mem_cons_self ..)
      have hl : newline ∉ l := fun hm => h (List.mem_cons_of_mem _ hm)
      have ih := collectLine_fst hl
      rw [collectLine.eq_def, List.takeWhile_cons]
      dsimp only
      by_cases hsemi : c = semicolon
      · simp [hsemi]
      by_cases hhash : c = hash
      · rw [hhash, if_neg (by decide), if_pos rfl]
        rfl
      rw [if_neg (by simp [hc, hsemi]), if_neg hhash, if_pos (by simp [hsemi, hhash])]
      cases l with
      | nil => simp
      | cons d l =>
          have hd : d ≠ newline := fun he => hl (he ▸ List.mem_cons_self ..)
          dsimp only
          rw [if_neg (by simp [hd]), ← ih]

theorem collectLine_whole : ∀ {l : CStr}, (∀ c ∈ l, c ≠ newline ∧ c ≠ semicolon ∧ c ≠ hash) →
    collectLine l = (l, [])
  | [], _ => by rw [collectLine.eq_def]
  | c :: l, h => by
      obtain ⟨hc, hsemi, hhash⟩ := h c (List.mem_cons_self ..)
      have ih := collectLine_whole fun d hd => h d (List.mem_cons_of_mem _ hd)
      rw [collectLine.eq_def]
      dsimp only
      rw [if_neg (by simp [hc, hsemi]), if_neg hhash]
      cases l with
      | nil => rfl
      | cons d l =>
          have hd : d ≠ newline := (h d (by simp)).1
          dsimp only
          rw [if_neg (by simp [hd]), ih]

section Line

variable {σ : Type} {R : Runner σ} {fuel : Nat} {block : Sh σ → CStr → Bool → Outcome (Sh σ × CStr × Int)}
  {next : Sh σ → CStr → Int → Outcome (Sh σ × CStr × Int)} {s : Sh σ} {t lineStart p : CStr} {lastRet : Int}

/-- A line that begins with `echo` is looked at for `&&` and `||`, and run. -/
theorem execLine_echo (hand : findAndOr (cstr "echo '" ++ t) = none) :
    execLine R fuel block next s (cstr "echo '" ++ t) lineStart p true lastRet = (do
      let (s, r) ← R.line s (cstr "echo '" ++ t)
      next { s with lastStatus := r } p r) := by
  have hname : functionName (cstr "echo '" ++ t) = .done none := rfl
  rw [execLine, hname, Outcome.bind_done]
  dsimp only
  rw [hand]
  rfl

end Line

/-- The script is its first line, and what is behind it. -/
theorem shScript_echo {t p : CStr} (hline : logicalLine (quotedEcho S) = (cstr "echo '" ++ t, p))
    (fuel : Nat) :
    shScript env simple (fuel + 1) s (quotedEcho S) = (do
      let R := shRunner env (shExec env simple (fuel + 1))
      let (s, _, r) ← execLine R fuel (fun s p execute => shExecBlock R fuel s p execute 0)
        (fun s p lastRet => shExecBlock R fuel s p true lastRet) { s with flow := .none }
        (cstr "echo '" ++ t) (quotedEcho S) p true 0
      pure (s, r)) := by
  have hskip : skipBlanks (quotedEcho S) = quotedEcho S := rfl
  rw [shScript, shRunString, shExecBlock]
  dsimp only
  have hcons : quotedEcho S = 0x65 :: (cstr "cho '" ++ (S ++ [squote])) := rfl
  rw [hskip]
  rw [hcons] at hline ⊢
  dsimp only
  rw [if_neg (by decide), if_neg (by decide), hline]
  dsimp only
  rw [if_neg (by simp [cstr])]

/-- The first expansion takes the quotes away. -/
theorem expandWord_quotedEcho {t q : CStr} (ht : squote ∉ t) (hq : q = [] ∨ q = [squote])
    (hlen : t.length + 6 < shLineMax) :
    expandWord env exec shLineMax s (cstr "echo '" ++ (t ++ q)) = .done (s, bareEcho t) := by
  have hplain : ∀ c ∈ cstr "echo ", Ordinary c := by decide
  have hloop : expandLoop env exec ((cstr "echo ").length + (t.length + q.length + 2)) shLineMax
    s []
      (cstr "echo " ++ squote :: (t ++ q)) = .done (s, bareEcho t) := by
    rw [expandLoop_plain hplain (by show 0 + 5 < 1024; decide), List.nil_append,
      expandLoop_squote ht hq (by show 5 + t.length + 1 < shLineMax; omega)]
    rfl
  have hfuel : (cstr "echo '" ++ (t ++ q)).length + 1
      = (cstr "echo ").length + (t.length + q.length + 2) := by
    rw [List.length_append, List.length_append]
    show 6 + (t.length + q.length) + 1 = 5 + (t.length + q.length + 2)
    omega
  have htext : cstr "echo '" ++ (t ++ q) = cstr "echo " ++ squote :: (t ++ q) := rfl
  rw [expandWord, hfuel, htext, hloop, Outcome.bind_done]
  rfl

/-- A line without separators is taken whole. -/
theorem logicalLine_quotedEcho (hnl : newline ∉ S) (hsemi : semicolon ∉ S) (hhash : hash ∉ S)
    (hlen : S.length + 7 < shLineMax) :
    logicalLine (quotedEcho S) = (cstr "echo '" ++ (S ++ [squote]), []) := by
  have hecho : ∀ c ∈ cstr "echo '", c ≠ newline ∧ c ≠ semicolon ∧ c ≠ hash := by decide
  have hcollect : collectLine (quotedEcho S) = (quotedEcho S, []) := by
    apply collectLine_whole
    intro c hc
    rw [quotedEcho, List.mem_append, List.mem_append] at hc
    rcases hc with hc | hc | hc
    · exact hecho c hc
    · exact ⟨fun he => hnl (he ▸ hc), fun he => hsemi (he ▸ hc), fun he => hhash (he ▸ hc)⟩
    · rw [List.mem_singleton.mp hc]
      decide
  have hlength : (quotedEcho S).length = S.length + 7 := by
    rw [quotedEcho, List.length_append, List.length_append]
    show 6 + (S.length + 1) = S.length + 7
    omega
  rw [logicalLine, hcollect]
  dsimp only
  rw [List.take_of_length_le (by omega), quotedEcho, ← List.append_assoc,
    List.rdropWhile_concat_neg _ _ _ (by decide)]
  rfl

/-! ## Nothing finds anything -/

namespace BareWord

theorem not_mem (h : BareWord S) {c : UInt8} (hc : c ∈ quoteBreakers) : c ∉ S :=
  fun hs => h.bytes c hs hc

theorem findAndOr_none (h : BareWord S) : findAndOr (quotedEcho S) = none := by
  -- there is one blank in the line, and a quote behind it
  have hnone : ∀ c : UInt8, c ≠ squote → strstr (space :: c :: c :: [space]) (quotedEcho S)
      = none := by
    intro c hc
    cases hf : strstr (space :: c :: c :: [space]) (quotedEcho S) with
    | none => rfl
    | some k =>
        obtain ⟨a, b, he⟩ := strstr_some hf
        have hcount := congrArg (List.count space) he
        have hS : List.count space S = 0 := List.count_eq_zero.mpr (h.not_mem (by decide))
        have hecho : List.count space (cstr "echo '") = 1 := by decide
        have hquote : List.count space [squote] = 0 := by decide
        rw [quotedEcho, List.count_append, List.count_append, hS, hecho, hquote, List.count_append,
          List.count_append, List.count_cons_self, List.count_cons, List.count_cons,
            List.count_cons_self] at hcount
        omega
  have hand : strstr (cstr " && ") (quotedEcho S) = none := hnone 0x26 (by decide)
  have hor : strstr (cstr " || ") (quotedEcho S) = none := hnone pipeSign (by decide)
  rw [findAndOr, hand, hor]

theorem ordinary (h : BareWord S) (hq : squote ∉ S) {c : UInt8} (hc : c ∈ bareEcho S) :
    Ordinary c := by
  have hecho : ∀ c ∈ cstr "echo ", Ordinary c := by decide
  rcases List.mem_append.mp hc with hc | hc
  · exact hecho c hc
  · exact ⟨fun he => h.not_mem (by decide) (he ▸ hc), fun he => hq (he ▸ hc),
      fun he => h.not_mem (by decide) (he ▸ hc), fun he => h.not_mem (by decide) (he ▸ hc),
      fun he => h.not_mem (by decide) (he ▸ hc)⟩

end BareWord

/-- Without quotes the splitter only counts parentheses. -/
theorem Split.after_unquoted : ∀ {l : CStr}, squote ∉ l → dquote ∉ l → ∀ d : Int,
    Split.after ⟨d, false, false⟩ l = ⟨d + parenDepth l, false, false⟩
  | [], _, _, d => by rw [parenDepth, Int.add_zero]; rfl
  | c :: l, hs, hd, d => by
      have hcs : c ≠ squote := fun he => hs (he ▸ List.mem_cons_self ..)
      have hcd : c ≠ dquote := fun he => hd (he ▸ List.mem_cons_self ..)
      have ih := Split.after_unquoted (fun hm => hs (List.mem_cons_of_mem _ hm))
        (fun hm => hd (List.mem_cons_of_mem _ hm))
          (d + if c = parenOpen then 1 else if c = parenClose then -1 else 0)
      have hnext : Split.next ⟨d, false, false⟩ c
          = ⟨d + if c = parenOpen then 1 else if c = parenClose then -1 else 0, false, false⟩ := by
        rw [Split.next, if_neg (by simp [hcs]), if_neg (by simp [hcd]), if_pos ⟨rfl, rfl⟩]
        split
        · rfl
        · split
          · rfl
          · rw [Int.add_zero]
      rw [Split.after, List.foldl_cons, hnext, parenDepth, ← Int.add_assoc]
      exact ih

/-- A bar behind `echo` is in the text. -/
theorem bar_behind_echo {t a b : CStr} (he : bareEcho t = a ++ pipeSign :: b) :
    ∃ a', a = bareEcho a' ∧ t = a' ++ pipeSign :: b := by
  rcases List.append_eq_append_iff.mp he with ⟨a', ha, hb⟩ | ⟨c', hc', hb⟩
  · exact ⟨a', ha, hb⟩
  · cases c' with
    | nil => exact ⟨[], by rw [bareEcho, hc', List.append_nil, List.append_nil], by rw [hb]; rfl⟩
    | cons d c' =>
        rw [List.cons_append, List.cons.injEq] at hb
        have hmem : pipeSign ∈ cstr "echo " := by rw [hc', hb.1]; simp
        exact absurd hmem (by decide)

theorem Split.after_echo {a : CStr} (hs : squote ∉ a) (hd : dquote ∉ a) :
    Split.after ⟨0, false, false⟩ (bareEcho a) = ⟨parenDepth a, false, false⟩ := by
  have hecho : ∀ q, q ∉ cstr "echo " → q ∉ a → q ∉ bareEcho a := by
    intro q hq ha
    rw [bareEcho, List.mem_append, not_or]
    exact ⟨hq, ha⟩
  have hdepth : 0 + parenDepth (bareEcho a) = parenDepth a := by
    show 0 + (0 + (0 + (0 + (0 + (0 + parenDepth a))))) = parenDepth a
    omega
  rw [Split.after_unquoted (hecho _ (by decide) hs) (hecho _ (by decide) hd), hdepth]

namespace BareWord

theorem splitStages_whole (h : BareWord S) (hq : squote ∉ S) (hlen : S.length + 7 < shLineMax) :
    splitStages (bareEcho S) = [bareEcho S] := by
  have hlength : (bareEcho S).length = 5 + S.length := List.length_append
  refine splitStages_uncut ?_ (by omega)
  intro a c b he
  by_cases hc : c = pipeSign
  · -- the bar is in the text, and so are the parentheses before it
    rw [hc] at he ⊢
    obtain ⟨a', rfl, he'⟩ := bar_behind_echo he
    have hqa : squote ∉ a' := fun hm => hq (by rw [he']; exact List.mem_append_left _ hm)
    have hda : dquote ∉ a' := fun hm => h.not_mem (c := dquote) (by decide)
      (by rw [he']; exact List.mem_append_left _ hm)
    rw [Split.after_echo hqa hda]
    simp [Split.cuts, h.bars a' b he']
  · simp [Split.cuts, hc]

/-- The command line is cut into the command and its argument. -/
theorem tokenize_two (h : BareWord S) (hq : squote ∉ S) (hnl : newline ∉ S)
    (hlen : S.length + 7 < shLineMax) :
    tokenize env exec (shLineMax * 2) s (bareEcho S) = .done (s, [cstr "echo", S]) := by
  have hbytes : ∀ c ∈ S, TokenByte c := by
    intro c hc
    have hne : ∀ d ∈ quoteBreakers, c ≠ d := fun d hd he => h.not_mem hd (he ▸ hc)
    refine ⟨?_, fun he => hq (he ▸ hc), hne _ (by decide), hne _ (by decide), hne _ (by decide)⟩
    have hcnl : c ≠ newline := fun he => hnl (he ▸ hc)
    simp [endsToken, isBlank, hne space (by decide), hne tab (by decide), hne semicolon (by decide),
      hne hash (by decide), hcnl]
  have htext : bareEcho S = cstr "echo" ++ space :: S := rfl
  have hroom : 0 + (cstr "echo").length + 1 + S.length < shLineMax * 2 := by
    show 0 + 4 + 1 + S.length < 1024 * 2
    unfold shLineMax at hlen
    omega
  have hsecond : tokenizeLoop env exec (shLineMax * 2) 62 s (S ++ []) (0 + (cstr "echo").length + 1)
      = .done (s, [S]) := by
    rw [tokenizeLoop_token h.ne_nil hbytes hroom rfl, tokenizeLoop_nil, Outcome.bind_done]
    rfl
  rw [List.append_nil] at hsecond
  rw [tokenize, htext, show shMaxArgs - 1 = 62 + 1 from rfl,
    tokenizeLoop_token (by decide) (by decide) (by omega) rfl, tokenizeLoop_blank rfl, hsecond,
    Outcome.bind_done]
  rfl

end BareWord

/-- **A text in which no pass finds anything is passed on as it stands.** -/
theorem BareWord.literal (h : BareWord S) (hq : squote ∉ S) (hnl : newline ∉ S)
    (hlen : S.length + 7 < shLineMax) : Literal S := by
  intro ε env simple s fuel
  have hbare : (bareEcho S).length = 5 + S.length := List.length_append
  have hredir : ∀ c ∈ bareEcho S, c ≠ greater ∧ c ≠ less := by
    have hecho : ∀ c ∈ cstr "echo ", c ≠ greater ∧ c ≠ less := by decide
    intro c hc
    rcases List.mem_append.mp hc with hc | hc
    · exact hecho c hc
    · exact ⟨fun he => h.not_mem (by decide) (he ▸ hc), fun he => h.not_mem (by decide) (he ▸ hc)⟩
  have hline := logicalLine_quotedEcho hnl (h.not_mem (by decide)) (h.not_mem (by decide)) hlen
  rw [shScript_echo hline]
  dsimp only
  rw [execLine_echo h.findAndOr_none]
  dsimp only [shRunner]
  rw [expandWord_quotedEcho hq (Or.inr rfl) (by omega), Outcome.bind_done]
  dsimp only
  rw [shRunPipeline, h.splitStages_whole hq hlen]
  dsimp only
  rw [runStage_plain hredir (by omega), shExec, shExecOnce,
    expandWord_plain (fun c hc => h.ordinary hq hc) (by simp [bareEcho, cstr]) (by omega),
    Outcome.bind_done]
  dsimp only
  rw [h.tokenize_two hq hnl hlen, Outcome.bind_done]
  dsimp only
  rw [Outcome.bind_assoc]
  refine Outcome.bind_congr ?_
  rintro ⟨s', r⟩ _
  rfl

/-! ## Something is found

Run in a shell where texts only shrink, and watched for `echo` with the argument `S`, the line
must keep every byte to be seen. -/

/-- The call ends without having come to the command looked for, and does not return. -/
def Misses {α : Type} (x : Outcome α) : Prop := x ≠ .panic "seen" ∧ ∀ a, x ≠ .done a

namespace Misses

variable {α β : Type}

theorem timeout : Misses (.timeout : Outcome α) := ⟨by simp, by simp⟩

theorem bind {x : Outcome α} (h : Misses x) (f : α → Outcome β) : Misses (x >>= f) := by
  cases x with
  | done a => exact absurd rfl (h.2 a)
  | panic msg => exact ⟨by simpa using h.1, by simp⟩
  | timeout => exact timeout

theorem of_quiet {P : α → Prop} {x : Outcome (Sh (ShWorld Unit) × α)}
    {f : Sh (ShWorld Unit) × α → Outcome β}
    (hx : Quiet P x) (hf : ∀ s a, Barren s → P a → Misses (f (s, a))) : Misses (x >>= f) := by
  cases x with
  | done p =>
      obtain ⟨hs, ha⟩ := hx.2 p.1 p.2 rfl
      exact hf p.1 p.2 hs ha
  | panic msg => exact ⟨by simpa using hx.1, by simp⟩
  | timeout => exact timeout

end Misses

/-- With `&&` or `||` in the line, what stands in front of it is run first. -/
theorem execLine_echo_andOr {σ : Type} {R : Runner σ} {fuel : Nat}
    {block : Sh σ → CStr → Bool → Outcome (Sh σ × CStr × Int)}
    {next : Sh σ → CStr → Int → Outcome (Sh σ × CStr × Int)} {s : Sh σ} {t lineStart p : CStr}
    {lastRet : Int}
    {k : Nat} {isAnd : Bool} (hand : findAndOr (cstr "echo '" ++ t) = some (k, isAnd))
    (h : Misses (R.exec s ((cstr "echo '" ++ t).take k))) :
    Misses (execLine R fuel block next s (cstr "echo '" ++ t) lineStart p true lastRet) := by
  have hname : functionName (cstr "echo '" ++ t) = .done none := rfl
  rw [execLine, hname, Outcome.bind_done]
  dsimp only
  rw [hand]
  exact h.bind _

section Found

variable {fuel : Nat} {s : Sh (ShWorld Unit)} {t : CStr}

/-- `sh_exec`, watched. -/
def watched (S : CStr) (fuel : Nat) : Command Unit := shExec barrenEnv (watcher [cstr "echo", S]) fuel

theorem watched_quiet (S : CStr) (fuel : Nat) : QuietBelow (S.length + 5) (watched S fuel) := by
  have h := shExec_quiet [cstr "echo", S] fuel
  have hsize : tokensSize [cstr "echo", S] - 1 = S.length + 5 := by
    show 5 + (S.length + 1 + 0) - 1 = S.length + 5
    omega
  rw [hsize] at h
  exact h

theorem expandWord_echo (hs : Barren s) (ht : t.length ≤ S.length) :
    Quiet (Shrunk (cstr "echo ") t) (expandWord barrenEnv (watched S fuel) shLineMax s
      (bareEcho t)) := by
  have hplain : ∀ c ∈ cstr "echo ", Ordinary c := by decide
  have hloop : expandLoop barrenEnv (watched S fuel) ((bareEcho t).length + 1) shLineMax s []
    (bareEcho t)
      = expandLoop barrenEnv (watched S fuel) (t.length + 1) shLineMax s (cstr "echo ") t := by
    have hlen : (bareEcho t).length + 1 = (cstr "echo ").length + (t.length + 1) := by
      rw [bareEcho, List.length_append]
      omega
    rw [hlen, bareEcho, expandLoop_plain hplain (by show 0 + 5 < 1024; decide), List.nil_append]
  rw [expandWord, hloop]
  refine Quiet.bind (expandLoop_shrunk (watched_quiet S fuel) _ _ s _ t hs (by omega)) ?_
  intro s' out hs' hout
  dsimp only
  split
  · exact Quiet.panic (by decide)
  · exact Quiet.done hs' hout

/-- The tokens of a text without quotes are made of its bytes, without blanks. -/
theorem tokenLoop_ordinary {exec : Command Unit} {bufsz bi : Nat} :
    ∀ {fuel : Nat} {s s' : Sh (ShWorld Unit)}
    {tok p tok' rest : CStr}, (∀ c ∈ p, Ordinary c) → (∀ c ∈ tok, isBlank c = false) →
    tokenLoop barrenEnv exec bufsz bi fuel s tok p = .done (s', tok', rest) →
    (∀ c ∈ tok', isBlank c = false) ∧ ∀ c ∈ rest, Ordinary c
  | 0, s, s', tok, p, tok', rest, _, _, h => by
      rw [tokenLoop] at h
      cases h
  | fuel + 1, s, s', tok, [], tok', rest, hp, htok, h => by
      rw [tokenLoop] at h
      cases h
      exact ⟨htok, hp⟩
  | fuel + 1, s, s', tok, c :: p, tok', rest, hp, htok, h => by
      obtain ⟨_, hsq, hdq, hdo, hba⟩ := hp c (List.mem_cons_self ..)
      rw [tokenLoop] at h
      split at h
      · cases h
        exact ⟨htok, hp⟩
      · next hends =>
        rw [if_neg (by simp [hdo, hba])] at h
        refine tokenLoop_ordinary (fun d hd => hp d (List.mem_cons_of_mem _ hd)) ?_ h
        intro d hd
        split at hd
        · rcases List.mem_append.mp hd with hd | hd
          · exact htok d hd
          · rw [List.mem_singleton.mp hd]
            simp only [endsToken, Bool.or_eq_true, not_or] at hends
            simpa using hends.1.1.1
        · exact htok d hd

theorem tokenizeLoop_ordinary {exec : Command Unit} {bufsz : Nat} :
    ∀ {left bi : Nat} {s s' : Sh (ShWorld Unit)}
    {p : CStr} {toks : List CStr}, (∀ c ∈ p, Ordinary c) →
    tokenizeLoop barrenEnv exec bufsz left s p bi = .done (s', toks) →
    ∀ tok ∈ toks, ∀ c ∈ tok, isBlank c = false
  | 0, bi, s, s', p, toks, _, h => by
      rw [tokenizeLoop] at h
      cases h
      simp
  | left + 1, bi, s, s', p, toks, hp, h => by
      rw [tokenizeLoop] at h
      have hskip : ∀ c ∈ skipBlanks p, Ordinary c :=
        fun c hc => hp c ((List.dropWhile_sublist _).subset hc)
      cases hq : skipBlanks p with
      | nil =>
          rw [hq] at h
          cases h
          simp
      | cons c q =>
          rw [hq] at h hskip
          dsimp only at h
          split at h
          · cases h
            simp
          split at h
          · cases h
          · obtain ⟨⟨s1, tok, rest⟩, htok, h⟩ := Outcome.bind_eq_done h
            obtain ⟨⟨s2, toks'⟩, htoks, h⟩ := Outcome.bind_eq_done h
            cases h
            obtain ⟨hblank, hrest⟩ := tokenLoop_ordinary hskip (by simp) htok
            have ih := tokenizeLoop_ordinary hrest htoks
            intro tok' hmem
            rcases List.mem_cons.mp hmem with rfl | hmem
            · exact hblank
            · exact ih tok' hmem

/-- A command line that is too short, or has blanks or quotes, is missed. -/
theorem watched_misses (hs : Barren s)
    (h : t.length < S.length ∨ t = S ∧ (S = [] ∨ ∃ c ∈ S, ¬ Ordinary c ∨ isBlank c = true))
    (fuel : Nat) :
    Misses (watched S fuel s (bareEcho t)) := by
  cases fuel with
  | zero => exact Misses.timeout
  | succ fuel =>
      have hle : t.length ≤ S.length := by
        rcases h with h | ⟨rfl, _⟩
        · omega
        · exact Nat.le_refl _
      rw [watched, shExec, shExecOnce]
      refine Misses.of_quiet (expandWord_echo hs hle) ?_
      intro s' out hs' hout
      obtain ⟨⟨u, rfl⟩, hshort⟩ := hout
      rw [List.length_append] at hshort
      dsimp only
      rw [tokenize, show cstr "echo " ++ u = cstr "echo" ++ space :: u from rfl,
        show shMaxArgs - 1 = 62 + 1 from rfl,
        tokenizeLoop_token (by decide) (by decide) (by show 0 + 4 < 1024 * 2; decide) rfl,
          Outcome.bind_assoc]
      have hulen : u.length ≤ t.length := by
        rcases hshort with hlt | ⟨he, _⟩
        · omega
        · rw [List.append_cancel_left he]
      -- the tokens behind `echo` take no more room than the text they come from
      have hquiet := tokenizeLoop_shrunk (watched_quiet S fuel) (shLineMax * 2) 62 s' (space :: u)
        (0 + (cstr "echo").length + 1) hs' (by rw [List.length_cons]; omega)
      have hargs : ∀ s'' toks, tokenizeLoop barrenEnv (watched S fuel)
        (shLineMax * 2) 62 s' (space :: u)
          (0 + (cstr "echo").length + 1) = .done (s'', toks) → toks ≠ [S] := by
        intro s'' toks hdone he
        have hsize := (hquiet.2 s'' toks hdone).2.2 rfl
        rw [he, List.length_cons] at hsize
        have hS : tokensSize [S] = S.length + 1 := rfl
        -- so they are one token as long as `S` only if nothing was expanded
        have hut : u = t ∧ ∀ c ∈ t, Ordinary c := by
          rcases hshort with hlt | ⟨he, hord⟩
          · omega
          · exact ⟨List.append_cancel_left he, hord⟩
        obtain ⟨rfl, hord⟩ := hut
        rcases h with hlt | ⟨rfl, rfl | ⟨c, hc, hbad⟩⟩
        · omega
        · rw [tokenizeLoop_blank rfl, tokenizeLoop_nil] at hdone
          cases hdone
          cases he
        · rcases hbad with hbad | hbad
          · exact hbad (hord c hc)
          · -- a token of ordinary text has no blank in it
            have hsp : ∀ d ∈ space :: u, Ordinary d := by
              intro d hd
              rcases List.mem_cons.mp hd with rfl | hd
              · decide
              · exact hord d hd
            have := tokenizeLoop_ordinary hsp hdone u
              (by rw [he]; exact List.mem_singleton_self u) c hc
            rw [hbad] at this
            cases this
      change Misses (tokenizeLoop barrenEnv (watched S fuel) (shLineMax * 2) 62 s' (space :: u)
        (0 + (cstr "echo").length + 1) >>= _)
      cases hx : tokenizeLoop barrenEnv (watched S fuel) (shLineMax * 2) 62 s' (space :: u)
          (0 + (cstr "echo").length + 1) with
      | done p =>
          obtain ⟨s'', toks⟩ := p
          have hne : cstr "echo" :: toks ≠ [cstr "echo", S] :=
            fun he => hargs s'' toks hx (List.cons.inj he).2
          rw [Outcome.bind_done]
          show Misses (if cstr "echo" :: toks = [cstr "echo", S] then _ else .timeout)
          rw [if_neg hne]
          exact Misses.timeout
      | panic msg =>
          rw [hx] at hquiet
          exact ⟨by simpa using hquiet.1, by simp⟩
      | timeout => exact Misses.timeout

/-- The splitter takes the whole text, or everything in front of a bar. -/
theorem splitLoop_first : ∀ (l : CStr) (split : Split) (left : Nat),
    splitLoop left split l = (l, []) ∧ Uncut split l
      ∨ ∃ stage b st sts, splitLoop left split l = (stage, st :: sts) ∧ l = stage ++ pipeSign :: b
  | [], split, left => by
      refine Or.inl ⟨by rw [splitLoop.eq_def], ?_⟩
      intro a c b he
      exact absurd he (by simp)
  | c :: l, split, left => by
      rw [splitLoop.eq_def]
      dsimp only
      by_cases hcut : split.cuts c l = true
      · have hc : c = pipeSign := by
          simp only [Split.cuts, Bool.and_eq_true, decide_eq_true_eq] at hcut
          exact hcut.1.1.1.1
        rw [if_pos hcut, hc]
        refine Or.inr ?_
        rcases left with _ | _ | left
        · exact ⟨[], l, _, _, rfl, rfl⟩
        · exact ⟨[], l, _, _, rfl, rfl⟩
        · exact ⟨[], l, _, _, rfl, rfl⟩
      · rw [if_neg hcut]
        rcases splitLoop_first l (split.next c) left with ⟨he, huncut⟩ | ⟨stage, b, st, sts, he, hl⟩
        · rw [he]
          refine Or.inl ⟨rfl, ?_⟩
          intro a d b hab
          cases a with
          | nil =>
              cases hab
              show split.cuts c l = false
              simpa using hcut
          | cons x a =>
              cases hab
              exact huncut a d b rfl
        · rw [he]
          exact Or.inr ⟨c :: stage, b, st, sts, rfl, by rw [hl]; rfl⟩

/-- The redirect scanner leaves the text as it is, or takes something away. -/
theorem scanRedirects_shrunk : ∀ (fuel : Nat) (l : CStr) (acc : CStr × Redirs), l.length < fuel →
    acc.1 <+: (scanRedirects fuel l acc).1
      ∧ ((scanRedirects fuel l acc).1.length < acc.1.length + l.length
        ∨ scanRedirects fuel l acc = (acc.1 ++ l, acc.2) ∧ ∀ c ∈ l, c ≠ greater ∧ c ≠ less)
  | 0, l, acc, h => absurd h (Nat.not_lt_zero _)
  | fuel + 1, [], acc, _ => by
      rw [scanRedirects]
      exact ⟨List.prefix_refl _, Or.inr ⟨by simp, by simp⟩⟩
  | fuel + 1, c :: p, (stripped, r), h => by
      rw [List.length_cons] at h
      have hrest : ∀ q : CStr, (redirRest q).length ≤ q.length := by
        intro q
        rw [redirRest, List.length_drop]
        have := (List.dropWhile_sublist (fun c => decide (c = space)) (l := q)).length_le
        exact Nat.le_trans (Nat.sub_le _ _) this
      -- a turn that takes something away
      have hstep : ∀ (q : CStr) (r' : Redirs), q.length ≤ p.length →
          stripped <+: (scanRedirects fuel q (stripped, r')).1
            ∧ (scanRedirects fuel q (stripped, r')).1.length
                < stripped.length + (p.length + 1) := by
        intro q r' hq
        obtain ⟨hpre, hlen⟩ := scanRedirects_shrunk fuel q (stripped, r') (by omega)
        refine ⟨hpre, ?_⟩
        rcases hlen with hlen | ⟨he, _⟩
        · dsimp only at hlen
          omega
        · rw [he, List.length_append]
          dsimp only
          omega
      rw [List.length_cons, scanRedirects]
      have hdrop : ∀ k, (p.drop k).length ≤ p.length := fun k => by rw [List.length_drop]; omega
      split
      · obtain ⟨h1, h2⟩ := hstep _ _ (Nat.le_trans (hrest (p.drop 1)) (hdrop 1))
        exact ⟨h1, Or.inl h2⟩
      split
      · obtain ⟨h1, h2⟩ := hstep _ r (hdrop 3)
        exact ⟨h1, Or.inl h2⟩
      split
      · obtain ⟨h1, h2⟩ := hstep _ r (Nat.le_trans (hrest (p.drop 1)) (hdrop 1))
        exact ⟨h1, Or.inl h2⟩
      split
      · obtain ⟨h1, h2⟩ := hstep _ _ (hrest p)
        exact ⟨h1, Or.inl h2⟩
      split
      · obtain ⟨h1, h2⟩ := hstep _ _ (hrest p)
        exact ⟨h1, Or.inl h2⟩
      · next hgreater hless =>
        obtain ⟨hpre, hlen⟩ := scanRedirects_shrunk fuel p (stripped ++ [c], r) (by omega)
        refine ⟨(List.prefix_append _ _).trans hpre, ?_⟩
        rcases hlen with hlen | ⟨he, hall⟩
        · rw [List.length_append, List.length_singleton] at hlen
          exact Or.inl (by dsimp only; omega)
        · refine Or.inr ⟨by rw [he, List.append_assoc, List.singleton_append], ?_⟩
          intro d hd
          rcases List.mem_cons.mp hd with rfl | hd
          · exact ⟨hgreater, hless⟩
          · exact hall d hd

/-- Where nothing is cut, every bar is in parentheses: the last of several in a row would be. -/
theorem Uncut.bars (h : Uncut ⟨0, false, false⟩ (bareEcho S)) (hsq : squote ∉ S)
    (hdq : dquote ∉ S) :
    ∀ b a : CStr, S = a ++ pipeSign :: b → parenDepth a ≠ 0 := by
  have hcut : ∀ a b : CStr, S = a ++ pipeSign :: b → parenDepth a = 0
      → b.head? = some pipeSign := by
    intro a b he hdepth
    have hno := h (bareEcho a) pipeSign b (by rw [he, bareEcho, bareEcho, List.append_assoc])
    rw [Split.after_echo (fun hm => hsq (by rw [he]; exact List.mem_append_left _ hm))
      (fun hm => hdq (by rw [he]; exact List.mem_append_left _ hm)), hdepth] at hno
    simpa [Split.cuts] using hno
  intro b
  induction b with
  | nil =>
      intro a he hdepth
      cases hcut a [] he hdepth
  | cons c b ih =>
      intro a he hdepth
      have hc : c = pipeSign := Option.some.inj (hcut a (c :: b) he hdepth)
      have hnext : parenDepth (a ++ [pipeSign]) = 0 := by
        have happ : ∀ l : CStr, parenDepth (l ++ [pipeSign]) = parenDepth l := by
          intro l
          induction l with
          | nil => rfl
          | cons d l ih => rw [List.cons_append, parenDepth, parenDepth, ih]
        rw [happ, hdepth]
      exact ih (a ++ [pipeSign]) (by rw [he, hc, List.append_assoc]; rfl) hnext

/-- What makes a line fail that is not cut and not redirected. -/
theorem not_bareWord (h : ¬ BareWord S) (huncut : Uncut ⟨0, false, false⟩ (bareEcho S))
    (hsq : squote ∉ S)
    (hsemi : semicolon ∉ S) (hhash : hash ∉ S) (hredir : ∀ c ∈ S, c ≠ greater ∧ c ≠ less) :
    S = [] ∨ ∃ c ∈ S, ¬ Ordinary c ∨ isBlank c = true := by
  by_contra hno
  rw [not_or] at hno
  have hord : ∀ c ∈ S, Ordinary c ∧ isBlank c = false := by
    intro c hc
    by_contra hbad
    refine hno.2 ⟨c, hc, ?_⟩
    rw [not_and_or, Bool.not_eq_false] at hbad
    exact hbad
  refine h ⟨hno.1, ?_, fun a b => huncut.bars hsq (fun hm => (hord _ hm).1.2.2.1 rfl) b a⟩
  intro c hc hbreak
  obtain ⟨⟨hb, _, hd, hdo, hba⟩, hblank⟩ := hord c hc
  simp only [isBlank, Bool.or_eq_false_iff, decide_eq_false_iff_not] at hblank
  have hcs : c ≠ semicolon := fun he => hsemi (he ▸ hc)
  have hch : c ≠ hash := fun he => hhash (he ▸ hc)
  simp [quoteBreakers, hblank, hdo, hba, hd, hb, hcs, hch, hredir c hc] at hbreak

theorem redirIn_barren (hs : Barren s) (inp : Option CStr) : Barren (redirIn barrenEnv s inp) := by
  cases inp with
  | none => exact hs
  | some name => exact ⟨hs.vars, hs.argv, hs.scriptName, hs.lastStatus, hs.bufs⟩

theorem redirOut_misses {exec : Command Unit} {cmd : CStr} (trunc : Bool) (hs : Barren s)
    (h : ∀ s, Barren s → Misses (exec s cmd)) : Misses (redirOut barrenEnv exec trunc s cmd) := by
  rw [redirOut, capture]
  refine Misses.bind (Misses.bind (h _ ?_) _) _
  exact hs.setKout hs.bufs

/-- **What is cut off, redirected, split or expanded is missed.** -/
theorem shRunPipeline_misses (hs : Barren s) (ht : t.length + 7 < shLineMax) (hsq : squote ∉ S)
    (h : t.length < S.length ∨ t = S ∧ ¬ BareWord S ∧ semicolon ∉ S ∧ hash ∉ S) (fuel : Nat) :
    Misses (shRunPipeline barrenEnv (watched S fuel) s (bareEcho t)) := by
  have hle : t.length ≤ S.length := by
    rcases h with h | ⟨rfl, _⟩
    · omega
    · exact Nat.le_refl _
  have hbare : (bareEcho t).length = 5 + t.length := List.length_append
  rw [shRunPipeline]
  rcases splitLoop_first (bareEcho t) ⟨0, false, false⟩ 8
    with ⟨_, huncut⟩ | ⟨stage, b, st, sts, hsplit, hstage⟩
  · -- one stage
    rw [splitStages_uncut huncut (by omega)]
    dsimp only
    rw [runStage, if_neg (by omega)]
    -- the word behind `echo` loses its redirections, and nothing else gets longer
    have hscan := scanRedirects_shrunk (t.length + 1) t (cstr "echo ", ⟨none, none, none⟩)
      (by omega)
    have hecho := scanRedirects_plain (by decide : ∀ c ∈ cstr "echo ", c ≠ greater ∧ c ≠ less)
      (t.length + 1) t
      ([], ⟨none, none, none⟩) (fun _ => by decide)
    have hfuel : (bareEcho t).length + 1 = (cstr "echo ").length + (t.length + 1) := by
      rw [bareEcho, List.length_append]
      omega
    rw [hfuel, bareEcho, hecho, List.nil_append]
    generalize scanRedirects (t.length + 1) t (cstr "echo ", ⟨none, none, none⟩) = res at hscan
    obtain ⟨stripped, redirs⟩ := res
    obtain ⟨⟨w, rfl⟩, hw⟩ := hscan
    dsimp only at hw ⊢
    -- whatever is left is not the word that is watched for, or is shorter
    have hmiss : ∀ s, Barren s → Misses (watched S fuel s (cstr "echo " ++ w)) := by
      intro s hs
      refine watched_misses (t := w) hs ?_ fuel
      rw [List.length_append] at hw
      rcases hw with hw | ⟨hw, hredir⟩
      · exact Or.inl (by omega)
      · obtain rfl : w = t := List.append_cancel_left (Prod.mk.inj hw).1
        rcases h with h | ⟨rfl, hun, hsemi, hhash⟩
        · exact Or.inl h
        · exact Or.inr ⟨rfl, not_bareWord hun huncut hsq hsemi hhash hredir⟩
    -- an input redirected leaves the shell with nothing in its variables
    generalize hst : redirIn barrenEnv _ redirs.inp = s₁
    have hs₁ : Barren s₁ := by
      rw [← hst]
      refine redirIn_barren ?_ _
      exact ⟨hs.vars, hs.argv, hs.scriptName, hs.lastStatus, hs.bufs⟩
    split
    · exact redirOut_misses true hs₁ hmiss
    split
    · exact redirOut_misses false hs₁ hmiss
    · exact hmiss _ hs₁
  · -- several, of which the first is run first
    obtain ⟨t', rfl, ht'⟩ := bar_behind_echo hstage
    have hlen : t'.length < t.length := by
      rw [ht', List.length_append, List.length_cons]
      omega
    have hfirst : (bareEcho t').take (shLineMax - 1) = bareEcho t' := by
      have : (bareEcho t').length = 5 + t'.length := List.length_append
      exact List.take_of_length_le (by omega)
    have hstages : splitStages (bareEcho t)
        = bareEcho t' :: List.take (shLineMax - 1) st :: sts.map (List.take (shLineMax - 1)) := by
      rw [splitStages, hsplit]
      dsimp only
      rw [List.map_cons, List.map_cons, hfirst]
    rw [hstages]
    dsimp only
    rw [List.length_cons, Nat.add_sub_cancel, List.length_cons, stageLoop]
    -- the first stage is expanded, and what comes of it is shorter still
    refine Misses.of_quiet (expandWord_echo (t := t') ?_ (by omega)) ?_
    · refine ⟨hs.vars, hs.argv, hs.scriptName, hs.lastStatus, ?_⟩
      intro b'
      show (if b' = OutBuf.pipe then [] else s.world.kout.bufs b') = []
      split
      · rfl
      · exact hs.bufs b'
    · intro s' out hs' hout
      obtain ⟨⟨u, rfl⟩, hu⟩ := hout
      have hulen : u.length ≤ t'.length := by
        rw [List.length_append] at hu
        rcases hu with hu | ⟨hu, _⟩
        · omega
        · rw [List.append_cancel_left hu]
      dsimp only
      rw [if_neg (by decide)]
      refine Misses.bind (Misses.bind (watched_misses (t := u) ?_ (Or.inl (by omega)) fuel) _) _
      exact hs'.setKout hs'.bufs

/-- Something taken off the end of a line leaves what stands in front of it. -/
theorem rdropWhile_behind {a u : CStr} {c : UInt8} (hc : isBlank c = false) :
    (a ++ c :: u).rdropWhile isBlank = a ++ c :: u.rdropWhile isBlank := by
  induction u using List.reverseRecOn with
  | nil => rw [List.rdropWhile_concat_neg _ _ _ (by simp [hc]), List.rdropWhile_nil]
  | append_singleton u d ih =>
      by_cases hd : isBlank d = true
      · rw [List.rdropWhile_concat_pos _ _ _ hd, ← ih, ← List.cons_append, ← List.append_assoc,
          List.rdropWhile_concat_pos _ _ _ hd]
      · rw [List.rdropWhile_concat_neg _ _ _ hd, ← List.cons_append, ← List.append_assoc,
          List.rdropWhile_concat_neg _ _ _ hd]

/-- With a separator in the text, the line ends there. -/
theorem logicalLine_cut (hsq : squote ∉ S) (hnl : newline ∉ S) (hlen : S.length + 7 < shLineMax)
    (hcut : semicolon ∈ S ∨ hash ∈ S) :
    ∃ t p, logicalLine (quotedEcho S) = (cstr "echo '" ++ (t ++ []), p) ∧ squote ∉ t
      ∧ t.length < S.length := by
  obtain ⟨d, hd, hsep⟩ : ∃ d ∈ S, ¬ (decide (d ≠ semicolon) && decide (d ≠ hash)) = true := by
    rcases hcut with h | h
    · exact ⟨_, h, by decide⟩
    · exact ⟨_, h, by decide⟩
  have hshort : (S.takeWhile fun c => c ≠ semicolon && c ≠ hash).length < S.length := by
    refine lt_of_le_of_ne (List.takeWhile_sublist _).length_le ?_
    intro he
    have hall := (List.takeWhile_sublist _).eq_of_length he
    rw [List.takeWhile_eq_self_iff] at hall
    exact hsep (hall d hd)
  have hfst : (collectLine (quotedEcho S)).1
      = cstr "echo '" ++ S.takeWhile fun c => c ≠ semicolon && c ≠ hash := by
    rw [collectLine_fst, quotedEcho, List.takeWhile_append_of_pos (by decide),
      List.takeWhile_append,
      if_neg (by omega)]
    rw [quotedEcho, List.mem_append, List.mem_append, not_or, not_or]
    exact ⟨by decide, hnl, by decide⟩
  generalize hu : (S.takeWhile fun c => c ≠ semicolon && c ≠ hash) = u at hshort hfst
  rcases hcollect : collectLine (quotedEcho S) with ⟨line, rest⟩
  rw [hcollect] at hfst
  subst hfst
  refine ⟨u.rdropWhile isBlank, rest.drop 1, ?_, ?_, ?_⟩
  · have htake : (cstr "echo '" ++ u).take (shLineMax - 1) = cstr "echo " ++ squote :: u := by
      rw [List.take_of_length_le]
      · rfl
      · rw [List.length_append]
        show 6 + u.length ≤ shLineMax - 1
        omega
    rw [logicalLine, hcollect]
    dsimp only
    rw [htake, rdropWhile_behind (by decide), List.append_nil]
    rfl
  · intro hm
    have hmem := (List.rdropWhile_prefix isBlank u).subset hm
    rw [← hu] at hmem
    exact hsq ((List.takeWhile_sublist _).subset hmem)
  · exact Nat.lt_of_le_of_lt (List.rdropWhile_prefix isBlank u).length_le hshort

theorem strstr_bound {s : CStr} : ∀ {p : CStr} {k : Nat}, strstr s p = some k
    → k + s.length ≤ p.length
  | [], k, h => by
      rw [strstr] at h
      split at h
      · next hs =>
        cases h
        rw [hs]
        exact Nat.le_refl _
      · cases h
  | c :: p, k, h => by
      rw [strstr] at h
      split at h
      · next hs =>
        cases h
        rw [Nat.zero_add]
        exact (startsWith_iff.mp hs).length_le
      · obtain ⟨j, hj, rfl⟩ := Option.map_eq_some_iff.mp h
        have := strstr_bound hj
        rw [List.length_cons]
        omega

/-- `&&` and `||` stand behind the quote. -/
theorem findAndOr_echo {k : Nat} {isAnd : Bool}
    (h : findAndOr (cstr "echo '" ++ t) = some (k, isAnd)) :
    ∃ j, k = j + 6 ∧ j + 4 ≤ t.length := by
  have hshift : ∀ s ∈ [cstr " && ", cstr " || "], strstr s (cstr "echo '" ++ t) = some k →
      ∃ j, k = j + 6 ∧ j + 4 ≤ t.length := by
    intro s hs hk
    have hmap : strstr s (cstr "echo '" ++ t) = (strstr s t).map (· + 6) := by
      rw [List.mem_cons, List.mem_singleton] at hs
      rcases hs with rfl | rfl
      · show ((((((strstr _ t).map (· + 1)).map (· + 1)).map (· + 1)).map (· + 1)).map (· + 1)).map
          (· + 1) = _
        simp [Option.map_map, Function.comp_def]
      · show ((((((strstr _ t).map (· + 1)).map (· + 1)).map (· + 1)).map (· + 1)).map (· + 1)).map
          (· + 1) = _
        simp [Option.map_map, Function.comp_def]
    rw [hmap] at hk
    obtain ⟨j, hj, rfl⟩ := Option.map_eq_some_iff.mp hk
    refine ⟨j, rfl, ?_⟩
    have hbound := strstr_bound hj
    have hlen : ∀ s ∈ [cstr " && ", cstr " || "], s.length = 4 := by decide
    rw [hlen s hs] at hbound
    exact hbound
  rw [findAndOr] at h
  split at h
  · next a o ha ho =>
    split at h
    · cases h
      exact hshift _ (by simp) ha
    · cases h
      exact hshift _ (by simp) ho
  · next a ha _ =>
    cases h
    exact hshift _ (by simp) ha
  · next o _ ho =>
    cases h
    exact hshift _ (by simp) ho
  · cases h

/-- A line that is touched is missed, whichever way it is run. -/
theorem shScript_line_misses {q p : CStr} (hs : Barren s)
    (hline : logicalLine (quotedEcho S) = (cstr "echo '" ++ (t ++ q), p))
    (hq : q = [] ∨ q = [squote])
    (htq : squote ∉ t) (ht : t.length + 7 < shLineMax) (hsq : squote ∉ S)
    (h : t.length < S.length ∨ t = S ∧ ¬ BareWord S ∧ semicolon ∉ S ∧ hash ∉ S) (fuel : Nat) :
    Misses (shScript barrenEnv (watcher [cstr "echo", S]) (fuel + 1) s (quotedEcho S)) := by
  have hs' : Barren { s with flow := .none } :=
    ⟨hs.vars, hs.argv, hs.scriptName, hs.lastStatus, hs.bufs⟩
  have hle : t.length ≤ S.length := by
    rcases h with h | ⟨rfl, _⟩
    · omega
    · exact Nat.le_refl _
  have hqlen : q.length ≤ 1 := by
    rcases hq with rfl | rfl
    · decide
    · decide
  rw [shScript_echo hline]
  refine Misses.bind ?_ _
  cases hand : findAndOr (cstr "echo '" ++ (t ++ q)) with
  | none =>
      rw [execLine_echo hand]
      refine Misses.bind ?_ _
      show Misses (expandWord barrenEnv (watched S (fuel + 1)) shLineMax _ _ >>= _)
      rw [expandWord_quotedEcho htq hq (by omega), Outcome.bind_done]
      exact shRunPipeline_misses hs' ht hsq h (fuel + 1)
  | some found =>
      obtain ⟨k, isAnd⟩ := found
      obtain ⟨j, rfl, hj⟩ := findAndOr_echo hand
      rw [List.length_append] at hj
      refine execLine_echo_andOr hand ?_
      -- what is run begins with the quote
      have hfront : (cstr "echo '" ++ (t ++ q)).take (j + 6)
        = bareEcho (squote :: (t ++ q).take j) := rfl
      rw [hfront]
      refine watched_misses (S := S) hs' (Or.inl ?_) (fuel + 1)
      rw [List.length_cons, List.length_take, List.length_append]
      omega

end Found

/-- A shell with nothing in it. -/
def barrenShell : Sh (ShWorld Unit) :=
  ⟨.none, 0, 0, ⟨[], [], [], [], [], Kout.init, fun _ => [], [], [], ()⟩⟩

theorem barrenShell_barren : Barren barrenShell :=
  ⟨by simp [barrenShell], rfl, rfl, rfl, fun _ => rfl⟩

/-- A text that is taken literally is one in which nothing is found. -/
theorem Literal.bareWord (h : Literal S) (hq : squote ∉ S) (hnl : newline ∉ S)
    (hlen : S.length + 7 < shLineMax) :
    BareWord S := by
  by_contra hun
  have hseen : shScript barrenEnv (watcher [cstr "echo", S]) 2 barrenShell (quotedEcho S)
      = .panic "seen" := by
    rw [h Unit barrenEnv (watcher [cstr "echo", S]) barrenShell 0]
    dsimp only [watcher]
    rw [if_pos rfl, Outcome.bind_panic]
  refine (?_ : Misses _).1 hseen
  by_cases hcut : semicolon ∈ S ∨ hash ∈ S
  · obtain ⟨t, p, hline, ht, hshort⟩ := logicalLine_cut hq hnl hlen hcut
    exact shScript_line_misses barrenShell_barren hline (Or.inl rfl) ht (by omega) hq
      (Or.inl hshort) 1
  · rw [not_or] at hcut
    exact shScript_line_misses barrenShell_barren (logicalLine_quotedEcho hnl hcut.1 hcut.2 hlen)
      (Or.inr rfl) hq
      hlen hq (Or.inr ⟨rfl, hun, hcut.1, hcut.2⟩) 1

/-- **Which texts single quotes protect.** The line `echo 'S'` is a call of `echo` with the one
argument `S` if and only if none of the passes would find anything in `S` without the quotes. -/
theorem literal_iff_bareWord (hq : squote ∉ S) (hnl : newline ∉ S) (hlen : S.length + 7 < shLineMax) :
    Literal S ↔ BareWord S :=
  ⟨fun h => h.bareWord hq hnl hlen, fun h => h.literal hq hnl hlen⟩

/-- A bar in parentheses is one of them. -/
theorem literal_iff_bareWord_bar : Literal (cstr "x&(a|b)=1") := by
  refine (literal_iff_bareWord (by decide) (by decide) (by decide)).mpr ⟨by decide, by decide, ?_⟩
  intro a b he
  have hat : (cstr "x&(a|b)=1").take a.length = a := by rw [he, List.take_left]
  have hbar : (cstr "x&(a|b)=1")[a.length]?
    = some pipeSign := by rw [he, List.getElem?_append_right (Nat.le_refl _)]; simp
  have hlt : a.length < 9 := by
    have := congrArg List.length he
    rw [List.length_append, List.length_cons] at this
    have hlen : (cstr "x&(a|b)=1").length = 9 := by decide
    omega
  have hall : ∀ n < 9, (cstr "x&(a|b)=1")[n]? = some pipeSign
      → parenDepth ((cstr "x&(a|b)=1").take n) ≠ 0 := by
    decide
  rw [← hat]
  exact hall _ hlt hbar

/-- Two blanks in quotes come out as one: they separate two arguments. -/
theorem quoted_blanks_split : ¬ Literal (cstr "a  b")
    ∧ (shScript barrenEnv (shRunSimple barrenEnv) 2 barrenShell (quotedEcho (cstr "a  b"))).get?.map
        (fun x => x.1.world.kout.screen) = some (cstr "a b\n") := by
  refine ⟨fun h => ?_, by decide +kernel⟩
  have hun := h.bareWord (by decide) (by decide) (by decide)
  exact hun.not_mem (c := space) (by decide) (by decide)

end VnlKernel
