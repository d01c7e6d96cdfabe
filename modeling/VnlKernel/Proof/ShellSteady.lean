import VnlKernel.Proof.ShellExpands
import VnlKernel.Proof.ShellSplit

/-!
# Commands that leave loops alone

A loop is steered by one global signal, which a command can set that runs a script of its own: a
function that returns. What is said of loops is said for commands that do not, as long as something
holds of the state that they keep; and the shell without functions is such a runner.
-/

namespace VnlKernel

/-- Commands that keep an invariant in which no signal is set, and word lists that are split at
blanks, if there are not more words than `tokenize` has room for. -/
structure Runner.Steady {σ : Type} (R : Runner σ) (I : Sh σ → Prop) : Prop where
  exec : ∀ {s s' : Sh σ} {cmd : CStr} {r : Int}, I s → R.exec s cmd = .done (s', r) → I s'
  line : ∀ {s s' : Sh σ} {cmd : CStr} {r : Int}, I s → R.line s cmd = .done (s', r) → I s'
  varSet : ∀ {s : Sh σ} (name val : CStr), I s → I (R.varSet s name val)
  status : ∀ {s : Sh σ} (r : Int), I s → I { s with lastStatus := r }
  calm : ∀ {s : Sh σ}, I s → s.flow = .none
  words : ∀ {s : Sh σ} {wordlist : CStr}, I s → SimpleLine wordlist → wordlist.length < shLineMax →
    backslash ∉ wordlist → (blankWords wordlist).length < shMaxArgs →
    R.words s wordlist = .done (s, blankWords wordlist)

variable {ε : Type} {env : ShEnv ε} {exec : Command ε}

section Interpreter

variable (hexec : ∀ s cmd, Within KeepsCalm s (exec s cmd))

include hexec

end Interpreter

end VnlKernel
