import VnlKernel.Shell.Pipeline

/-!
# What commands may change, scripts may change

A relation between the states before and after, reflexive and transitive, that every command
respects, is respected by whatever is made of commands: a word that is expanded, a line, a
block with its loops, and the interpreter that ties them together. Only what writes to the
state itself has to be looked at for the relation in question: the captures, the variables,
and the statics of a pipeline.
-/

namespace VnlKernel

/-- Whatever the call returns with is related to the state it began in. -/
def Within {σ α : Type} (Rel : Sh σ → Sh σ → Prop) (s : Sh σ) (x : Outcome (Sh σ × α)) : Prop :=
  ∀ s' a, x = .done (s', a) → Rel s s'

/-- Nothing, or one thing after another. -/
structure Chained {τ : Type} (Rel : τ → τ → Prop) : Prop where
  refl : ∀ w, Rel w w
  trans : ∀ {u v w}, Rel u v → Rel v w → Rel u w

/-- A relation that looks at nothing of the executor's own. -/
abbrev OnWorld {σ : Type} (Rel : σ → σ → Prop) : Sh σ → Sh σ → Prop := fun s s' => Rel s.world s'.world

/-- All that the executor calls respects the relation. -/
structure Runner.Respects {σ : Type} (Rel : σ → σ → Prop) (R : Runner σ) : Prop where
  exec : ∀ s cmd, Within (OnWorld Rel) s (R.exec s cmd)
  line : ∀ s line, Within (OnWorld Rel) s (R.line s line)
  words : ∀ s list, Within (OnWorld Rel) s (R.words s list)
  word : ∀ s src, Within (OnWorld Rel) s (R.word s src)
  varSet : ∀ s name val, Rel s.world (R.varSet s name val).world
  funcSet : ∀ s name body, Rel s.world (R.funcSet s name body).world

section Calls

variable {σ α β : Type} {Rel : Sh σ → Sh σ → Prop} {s : Sh σ}

theorem Within.timeout : Within Rel s (.timeout : Outcome (Sh σ × α)) := by
  intro s' a h
  cases h

theorem Within.panic (msg : String) : Within Rel s (.panic msg : Outcome (Sh σ × α)) := by
  intro s' a h
  cases h

theorem Within.done {s' : Sh σ} (h : Rel s s') (a : α) :
    Within Rel s (.done (s', a)) := by
  intro s'' a' he
  cases he
  exact h

theorem Within.bind (hrel : Chained Rel) {x : Outcome (Sh σ × α)}
    {f : Sh σ × α → Outcome (Sh σ × β)}
    (hx : Within Rel s x) (hf : ∀ s' a, Within Rel s' (f (s', a))) : Within Rel s (x >>= f) := by
  intro s'' b h
  obtain ⟨⟨s', a⟩, ha, hb⟩ := Outcome.bind_eq_done h
  exact hrel.trans (hx s' a ha) (hf s' a s'' b hb)

theorem Within.ite {c : Prop} [Decidable c] {x y : Outcome (Sh σ × α)} (hx : Within Rel s x)
    (hy : Within Rel s y) :
    Within Rel s (if c then x else y) := by
  split
  · exact hx
  · exact hy

/-- Something is done to the state first. -/
theorem Within.from (hrel : Chained Rel) {s₁ : Sh σ} {x : Outcome (Sh σ × α)}
    (h : Rel s s₁)
    (hx : Within Rel s₁ x) : Within Rel s x :=
  fun s' a he => hrel.trans h (hx s' a he)

end Calls

section Block

variable {σ : Type} {Rel : σ → σ → Prop}

theorem afterBody_rel (hrel : Chained (OnWorld Rel)) (s : Sh σ) (loopStart p : CStr) :
    OnWorld Rel s (afterBody s loopStart p).1 := by
  have h : (afterBody s loopStart p).1.world = s.world := by
    rw [afterBody]
    cases s.flow <;> rfl
  have hrefl : Rel s.world s.world := hrel.refl s
  rw [OnWorld, h]
  exact hrefl

variable {R : Runner σ} (hrel : Chained (OnWorld Rel)) (hR : R.Respects Rel)

include hrel hR

theorem test_within (execute : Bool) (s : Sh σ) (cond : CStr) :
    Within (OnWorld Rel) s (R.test execute s cond) := by
  rw [Runner.test]
  split
  · refine Within.bind hrel (hR.exec s cond) ?_
    intro s' r
    exact Within.done (hrel.refl _) _
  · exact Within.done (hrel.refl _) _

section Loops

variable {block : Sh σ → CStr → Bool → Outcome (Sh σ × CStr × Int)}
  (hblock : ∀ s p execute, Within (OnWorld Rel) s (block s p execute))

include hblock

theorem ifLoop_within (execute : Bool) (fuel : Nat) (s : Sh σ) (p : CStr) (condTrue : Bool) :
    Within (OnWorld Rel) s (ifLoop R block execute fuel s p condTrue) := by
  induction fuel generalizing s p condTrue with
  | zero =>
      rw [ifLoop]
      exact Within.timeout
  | succ fuel ih =>
      cases p with
      | nil =>
          rw [ifLoop]
          exact Within.done (hrel.refl _) _
      | cons c q =>
          rw [ifLoop]
          dsimp only
          split
          · split
            · exact Within.timeout
            · refine Within.bind hrel (test_within hrel hR _ _ _) ?_
              intro s' elifTrue
              refine Within.bind hrel (hblock _ _ _) ?_
              intro s'' a
              exact ih _ _ _
          split
          · refine Within.bind hrel (hblock _ _ _) ?_
            intro s' a
            exact ih _ _ _
          split
          · exact Within.done (hrel.refl _) _
          · exact Within.done (hrel.refl _) _

theorem whileLoop_within (cond loopStart : CStr) (fuel : Nat) (s : Sh σ) (p : CStr)
    (lastRet : Int) :
    Within (OnWorld Rel) s (whileLoop R block cond loopStart fuel s p lastRet) := by
  induction fuel generalizing s p lastRet with
  | zero =>
      rw [whileLoop]
      exact Within.timeout
  | succ fuel ih =>
      rw [whileLoop]
      refine Within.bind hrel (hR.exec _ _) ?_
      intro s' r
      dsimp only
      split
      · exact Within.done (hrel.refl _) _
      · refine Within.bind hrel (hblock _ _ _) ?_
        rintro s'' ⟨lp, lastRet'⟩
        refine Within.from hrel (afterBody_rel hrel s'' loopStart lp) ?_
        dsimp only
        split
        · exact ih _ _ _
        · exact Within.done (hrel.refl _) _

theorem forLoop_within (var loopStart : CStr) (words : List CStr) (s : Sh σ) (p : CStr)
    (lastRet : Int) :
    Within (OnWorld Rel) s (forLoop R block var loopStart words s p lastRet) := by
  induction words generalizing s p lastRet with
  | nil =>
      rw [forLoop]
      exact Within.done (hrel.refl _) _
  | cons w ws ih =>
      rw [forLoop]
      refine Within.from hrel (hR.varSet s var w) ?_
      refine Within.bind hrel (hblock _ _ _) ?_
      rintro s' ⟨lp, lastRet'⟩
      refine Within.from hrel (afterBody_rel hrel s' loopStart lp) ?_
      dsimp only
      split
      · exact ih _ _ _
      · exact Within.done (hrel.refl _) _

omit hR hblock in
theorem caseLoop_within {run : Sh σ → CStr → Outcome (Sh σ × Int)}
    (hrun : ∀ s body, Within (OnWorld Rel) s (run s body))
    (execute : Bool) (word : CStr) (fuel : Nat) (s : Sh σ) (p : CStr) (matched : Bool)
    (lastRet : Int) :
    Within (OnWorld Rel) s (caseLoop run execute word fuel s p matched lastRet) := by
  induction fuel generalizing s p matched lastRet with
  | zero =>
      rw [caseLoop]
      exact Within.timeout
  | succ fuel ih =>
      cases p with
      | nil =>
          rw [caseLoop]
          exact Within.done (hrel.refl _) _
      | cons c q =>
          rw [caseLoop]
          dsimp only
          split
          · exact Within.done (hrel.refl _) _
          split
          · refine Within.bind hrel (hrun _ _) ?_
            intro s' r
            exact ih _ _ _ _
          · exact ih _ _ _ _

/-- One line: what is run, and what follows it. -/
theorem execLine_within {next : Sh σ → CStr → Int → Outcome (Sh σ × CStr × Int)}
    (hnext : ∀ s p lastRet, Within (OnWorld Rel) s (next s p lastRet)) (fuel : Nat) (s : Sh σ)
    (line lineStart p : CStr)
    (execute : Bool) (lastRet : Int) :
    Within (OnWorld Rel) s (execLine R fuel block next s line lineStart p execute lastRet) := by
  rw [execLine]
  cases functionName line with
  | timeout => exact Within.timeout
  | panic msg => exact Within.panic msg
  | done name =>
  rw [Outcome.bind_done]
  cases name with
  | some name =>
      dsimp only
      refine Within.from hrel ?_ (hnext _ _ _)
      split
      · exact hR.funcSet _ _ _
      · exact hrel.refl _
  | none =>
  dsimp only
  refine Within.ite ?_ ?_
  · exact Within.panic _
  refine Within.ite ?_ ?_
  · -- `if`
    refine Within.bind hrel (test_within hrel hR _ _ _) ?_
    intro s₁ condTrue
    refine Within.bind hrel (hblock _ _ _) ?_
    intro s₂ a
    refine Within.bind hrel (ifLoop_within hrel hR hblock _ _ _ _ _) ?_
    intro s₃ p'
    exact hnext _ _ _
  cases terminator line lineStart p with
  | some p => exact Within.done (hrel.refl _) _
  | none =>
  dsimp only
  refine Within.ite ?_ ?_
  · exact hnext _ _ _
  refine Within.ite ?_ ?_
  · exact Within.panic _
  refine Within.ite ?_ ?_
  · -- `while`
    refine Within.ite ?_ ?_
    · refine Within.bind hrel (whileLoop_within hrel hR hblock _ _ _ _ _ _) ?_
      intro s₁ a
      exact hnext _ _ _
    · refine Within.bind hrel (hblock _ _ _) ?_
      intro s₁ a
      exact hnext _ _ _
  refine Within.ite ?_ ?_
  · -- `for`
    refine Within.ite ?_ ?_
    · exact Within.timeout
    · refine Within.bind hrel (hR.words _ _) ?_
      intro s₁ words
      dsimp only
      refine Within.ite ?_ ?_
      · refine Within.bind hrel (forLoop_within hrel hR hblock _ _ _ _ _ _) ?_
        intro s₂ a
        exact hnext _ _ _
      · refine Within.bind hrel (hblock _ _ _) ?_
        intro s₂ a
        exact hnext _ _ _
  refine Within.ite ?_ ?_
  · -- `case`
    refine Within.bind hrel (hR.word _ _) ?_
    intro s₁ word
    refine Within.bind hrel (caseLoop_within hrel (fun s body => ?_) _ _ _ _ _ _ _) ?_
    · refine Within.bind hrel (hblock { s with flow := Flow.none } _ _) ?_
      intro s₂ a
      exact Within.done (hrel.refl _) _
    · intro s₂ a
      exact hnext _ _ _
  refine Within.ite ?_ ?_
  · exact Within.done (hrel.refl _) _
  refine Within.ite ?_ ?_
  · exact Within.done (hrel.refl _) _
  refine Within.ite ?_ ?_
  · split
    · exact hnext _ _ _
    · exact Within.done (hrel.refl _) _
  cases findAndOr line with
  | some found =>
      dsimp only
      -- either half is run or not
      refine Within.ite (Within.bind hrel (hR.exec _ _) ?_)
        (Within.bind hrel (Within.done (hrel.refl _) _) ?_)
      all_goals
        intro s₁ r
        refine Within.ite (Within.bind hrel (hR.exec { s₁ with lastStatus := r } _) ?_)
          (Within.bind hrel (Within.done (hrel.refl _) _) ?_)
        all_goals
          intro s₂ r'
          exact hnext { s₂ with lastStatus := r' } _ _
  | none =>
      dsimp only
      refine Within.ite ?_ ?_
      · refine Within.bind hrel (hR.line _ _) ?_
        intro s₁ r
        exact hnext { s₁ with lastStatus := r } _ _
      · exact hnext _ _ _

end Loops

theorem shExecBlock_within (fuel : Nat) (s : Sh σ) (p : CStr) (execute : Bool) (lastRet : Int) :
    Within (OnWorld Rel) s (shExecBlock R fuel s p execute lastRet) := by
  induction fuel generalizing s p execute lastRet with
  | zero =>
      rw [shExecBlock]
      exact Within.timeout
  | succ fuel ih =>
      rw [shExecBlock]
      dsimp only
      cases skipBlanks p with
      | nil => exact Within.done (hrel.refl _) _
      | cons c q =>
          dsimp only
          split
          · exact ih _ _ _ _
          split
          · exact ih _ _ _ _
          split
          · exact ih _ _ _ _
          · exact execLine_within hrel hR (fun s p execute => ih s p execute 0)
              (fun s p lastRet => ih s p execute lastRet) _ _ _ _ _ _ _

theorem shRunString_within (fuel : Nat) (s : Sh σ) (script : CStr) :
    Within (OnWorld Rel) s (shRunString R fuel s script) := by
  refine Within.bind hrel (shExecBlock_within hrel hR fuel { s with flow := .none } script
    true 0) ?_
  intro s' a
  exact Within.done (hrel.refl _) _

end Block

end VnlKernel
