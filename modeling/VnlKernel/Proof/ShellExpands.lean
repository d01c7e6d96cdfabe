import VnlKernel.Proof.ShellRuns

/-!
# What expanding and cutting a line may change

Expanding a word and cutting a line into words do nothing to the state but to run commands and
keep what they print. What holds of that holds of them.
-/

namespace VnlKernel

variable {ε : Type}

/-- A relation between states that substitutions respect. -/
structure Expands (Rel : Sh (ShWorld ε) → Sh (ShWorld ε) → Prop) (exec : Command ε) : Prop where
  chained : Chained Rel
  substitute : ∀ b s cmd, Within Rel s (substitute b exec s cmd)

section Words

variable {env : ShEnv ε} {exec : Command ε} {Rel : Sh (ShWorld ε) → Sh (ShWorld ε) → Prop}
  (h : Expands Rel exec)

include h

theorem expandDollar_within {expand : Sh (ShWorld ε) → CStr → Outcome (Sh (ShWorld ε) × CStr)}
    (hexpand : ∀ s src, Within Rel s (expand s src)) (s : Sh (ShWorld ε)) (p : CStr) :
    Within Rel s (expandDollar env exec expand s p) := by
  have hdone : ∀ (text rest : CStr), Within Rel s (.done (s, text, rest)) :=
    fun text rest => Within.done (h.chained.refl _) _
  rw [expandDollar.eq_def]
  dsimp only
  refine Within.ite (hdone _ _) ?_
  cases p with
  | nil => exact hdone _ _
  | cons c q =>
      dsimp only
      refine Within.ite ?_ ?_
      · refine Within.bind h.chained (h.substitute _ _ _) ?_
        intro s' text
        exact Within.done (h.chained.refl _) _
      refine Within.ite ?_ ?_
      · rw [expandBrace]
        dsimp only
        refine Within.ite (hdone _ _) (Within.ite ?_ (hdone _ _))
        split
        · exact hdone _ _
        · refine Within.bind h.chained (hexpand _ _) ?_
          intro s' text
          exact Within.ite (Within.panic _) (Within.done (h.chained.refl _) _)
      repeat' refine Within.ite (hdone _ _) ?_
      exact hdone _ _

theorem expandLoop_within (fuel dstsz : Nat) (s : Sh (ShWorld ε)) (dst src : CStr) :
    Within Rel s (expandLoop env exec fuel dstsz s dst src) := by
  induction fuel generalizing dstsz s dst src with
  | zero =>
      rw [expandLoop]
      exact Within.timeout
  | succ fuel ih =>
      have hspecial : ∀ (dst src : CStr), Within Rel s (expandSpecial env exec
          (fun s src => expandLoop env exec fuel shVarValsz s [] src)
            (expandLoop env exec fuel dstsz) dstsz s dst
          src) := by
        intro dst src
        cases src with
        | nil => exact ih _ _ _ _
        | cons c p =>
            rw [expandSpecial]
            refine Within.ite ?_ (Within.ite ?_ (ih _ _ _ _))
            · refine Within.bind h.chained
                (expandDollar_within h (fun s src => ih _ s [] src) _ _) ?_
              intro s' a
              exact ih _ _ _ _
            · refine Within.bind h.chained (h.substitute _ _ _) ?_
              intro s' text
              exact ih _ _ _ _
      cases src with
      | nil =>
          rw [expandLoop]
          exact Within.done (h.chained.refl _) _
      | cons c p =>
          rw [expandLoop]
          dsimp only
          refine Within.ite (Within.done (h.chained.refl _) _) ?_
          refine Within.ite (ih _ _ _ _) ?_
          refine Within.ite (Within.ite Within.timeout (ih _ _ _ _)) ?_
          refine Within.ite ?_ (hspecial _ _)
          split
          · exact ih _ _ _ _
          · exact hspecial _ _
          · exact Within.timeout

theorem expandWord_within (dstsz : Nat) (s : Sh (ShWorld ε)) (src : CStr) :
    Within Rel s (expandWord env exec dstsz s src) := by
  refine Within.bind h.chained (expandLoop_within h _ _ _ _ _) ?_
  intro s' dst
  exact Within.ite (Within.panic _) (Within.done (h.chained.refl _) _)

theorem tokenLoop_within (bufsz bi fuel : Nat) (s : Sh (ShWorld ε)) (tok p : CStr) :
    Within Rel s (tokenLoop env exec bufsz bi fuel s tok p) := by
  induction fuel generalizing s tok p with
  | zero =>
      rw [tokenLoop]
      exact Within.timeout
  | succ fuel ih =>
      cases p with
      | nil =>
          rw [tokenLoop]
          exact Within.done (h.chained.refl _) _
      | cons c p =>
          rw [tokenLoop]
          refine Within.ite (Within.done (h.chained.refl _) _) ?_
          refine Within.ite (ih _ _ _) ?_
          refine Within.ite ?_ (Within.ite ?_ (ih _ _ _))
          · refine Within.bind h.chained (expandWord_within h _ _ _) ?_
            intro s' text
            exact ih _ _ _
          · refine Within.bind h.chained (expandWord_within h _ _ _) ?_
            intro s' text
            exact ih _ _ _

theorem tokenizeLoop_within (bufsz left : Nat) (s : Sh (ShWorld ε)) (p : CStr) (bi : Nat) :
    Within Rel s (tokenizeLoop env exec bufsz left s p bi) := by
  induction left generalizing s p bi with
  | zero =>
      rw [tokenizeLoop]
      exact Within.done (h.chained.refl _) _
  | succ left ih =>
      rw [tokenizeLoop]
      cases skipBlanks p with
      | nil => exact Within.done (h.chained.refl _) _
      | cons c q =>
          dsimp only
          refine Within.ite (Within.done (h.chained.refl _) _) (Within.ite (Within.panic _) ?_)
          refine Within.bind h.chained (tokenLoop_within h _ _ _ _ _ _) ?_
          intro s' a
          refine Within.bind h.chained (ih _ _ _) ?_
          intro s'' toks
          exact Within.done (h.chained.refl _) _

theorem tokenize_within (bufsz : Nat) (s : Sh (ShWorld ε)) (line : CStr) :
    Within Rel s (tokenize env exec bufsz s line) := tokenizeLoop_within h _ _ _ _ _

end Words

/-! ## A small shell -/

/-- Files as a list of what was written to them. -/
def fileEnv : ShEnv (List (CStr × CStr)) where
  arith _ _ := 0
  ticks _ := 0
  slurp ext _ _ := (ext, none)
  spill ext name _ text := ext ++ [(name, text)]
  own s _ := .done (s, 0)
  builtin _ _ s _ := .done (s, 0)

def fileShell : Sh (ShWorld (List (CStr × CStr))) :=
  ⟨.none, 0, 0, ⟨[], [], [], [], [], Kout.init, fun _ => [], [], [], []⟩⟩

end VnlKernel
