import VnlKernel.Proof.ShellText

/-!
# Conditionals

A script of simple commands and conditionals has a syntax tree, and the tree a meaning.
`sh_exec_block` agrees with it on some trees and not on others. The text of a branch is
walked by a call of its own, which returns behind an `else` and behind a `fi`, but at the
start of an `elif`; then the caller looks at what comes next. So a branch behind `else`
is taken for a continuation of the block the `if` stands in, and an `if` that ends a
branch takes the closing line of that branch for one of its own.

What is proved here is that the executor is right about every tree without the two, and
also about those whose `if`s end branches only where nothing is left to be run.
-/

namespace VnlKernel

variable {σ : Type}

/-! ## Trees -/

mutual

/-- A sequence of commands and conditionals. -/
inductive Script where
  | nil
  | cmd (line : CStr) (next : Script)
  | cond (test : CStr) (body : Script) (orelse : Branch) (next : Script)

/-- What follows a branch: nothing more, a branch for when all tests failed, or another test. -/
inductive Branch where
  | fi
  | els (body : Script)
  | elif (test : CStr) (body : Script) (orelse : Branch)

end

mutual

/-- The lines of a script, with every keyword on a line of its own. -/
def Script.lines : Script → List CStr
  | .nil => []
  | .cmd line next => line :: next.lines
  | .cond test body orelse next =>
      (cstr "if " ++ test) :: cstr "then" :: (body.lines ++ (orelse.lines ++ next.lines))

def Branch.lines : Branch → List CStr
  | .fi => [cstr "fi"]
  | .els body => cstr "else" :: (body.lines ++ [cstr "fi"])
  | .elif test body orelse => (cstr "elif " ++ test) :: cstr "then" :: (body.lines ++ orelse.lines)

end

mutual

/-- Commands are simple, and lines fit. -/
def Script.Simple : Script → Prop
  | .nil => True
  | .cmd line next => (SimpleLine line ∧ line.length < shLineMax) ∧ next.Simple
  | .cond test body orelse next => (SimpleLine test ∧ (cstr "if " ++ test).length < shLineMax)
      ∧ body.Simple ∧ orelse.Simple ∧ next.Simple

def Branch.Simple : Branch → Prop
  | .fi => True
  | .els body => body.Simple
  | .elif test body orelse => (SimpleLine test ∧ (cstr "elif " ++ test).length < shLineMax)
      ∧ body.Simple ∧ orelse.Simple

end

/-- A command line, and `$?`. -/
def Runner.runLine (R : Runner σ) (s : Sh σ) (line : CStr) : Outcome (Sh σ) := do
  let (s, r) ← R.line s line
  return { s with lastStatus := r }

mutual

/-- **What a script means.** Tests are tried in order until one returns zero; then its branch is
run, and after that what follows the conditional. -/
def Script.run (R : Runner σ) : Script → Sh σ → Outcome (Sh σ)
  | .nil, s => .done s
  | .cmd line next, s => do
      let s ← R.runLine s line
      next.run R s
  | .cond test body orelse next, s => do
      let (s, r) ← R.exec s test
      (if r = 0 then body.run R s else orelse.run R s) >>= next.run R

def Branch.run (R : Runner σ) : Branch → Sh σ → Outcome (Sh σ)
  | .fi, s => .done s
  | .els body, s => body.run R s
  | .elif test body orelse, s => do
      let (s, r) ← R.exec s test
      if r = 0 then body.run R s else orelse.run R s

end

/-! ## The trees that are run as they mean -/

def Script.isNil : Script → Bool
  | .nil => true
  | _ => false

/-- Is the last statement a conditional? -/
def Script.endsInIf : Script → Bool
  | .nil => false
  | .cmd _ next => next.endsInIf
  | .cond _ _ _ next => next.isNil || next.endsInIf

/-- The executor copies the first word of a line into a buffer of this size. -/
def ShortWord (line : CStr) : Prop := (line.takeWhile (· ≠ space)).length < shVarNamsz

/-- Does the conditional end here, with nothing to be run when all tests failed? -/
def Branch.closes : Branch → Bool
  | .fi => true
  | .els body => body.isNil
  | .elif _ _ _ => false

mutual

/-- No branch ends in a conditional, and there is nothing behind an `else`. -/
def Script.Tidy : Script → Prop
  | .nil => True
  | .cmd line next => ShortWord line ∧ next.Tidy
  | .cond _ body orelse next => (body.Tidy ∧ body.endsInIf = false) ∧ orelse.Tidy ∧ next.Tidy

def Branch.Tidy : Branch → Prop
  | .fi => True
  | .els body => body = .nil
  | .elif _ body orelse => (body.Tidy ∧ body.endsInIf = false) ∧ orelse.Tidy

end

mutual

/-- The same, except that the branch the script ends with may end in a conditional, and so on. -/
def Script.TidyEnd : Script → Prop
  | .nil => True
  | .cmd line next => ShortWord line ∧ next.TidyEnd
  | .cond _ body orelse next =>
      if next.isNil then
        if orelse.closes then body.TidyEnd else (body.Tidy ∧ body.endsInIf = false) ∧ orelse.TidyEnd
      else (body.Tidy ∧ body.endsInIf = false) ∧ orelse.Tidy ∧ next.TidyEnd

def Branch.TidyEnd : Branch → Prop
  | .fi => True
  | .els body => body = .nil
  | .elif _ body orelse =>
      if orelse.closes then body.TidyEnd else (body.Tidy ∧ body.endsInIf = false) ∧ orelse.TidyEnd

end

/-! ## The walk

The executor walks the branches that it does not run as well, so what it does is first
compared with a walk over the whole tree that carries the `execute` flag along. -/

mutual

def Script.walk (R : Runner σ) : Script → Bool → Sh σ → Int → Outcome (Sh σ × Int)
  | .nil, _, s, r => .done (s, r)
  | .cmd line next, execute, s, r =>
      if execute then do
        let (s, r) ← R.line s line
        next.walk R execute { s with lastStatus := r } r
      else next.walk R execute s r
  | .cond test body orelse next, execute, s, _ => do
      let (s, condTrue) ← R.test execute s test
      let (s, _) ← body.walk R (execute && condTrue) s 0
      let s ← orelse.walk R execute condTrue s
      next.walk R execute s 0

def Branch.walk (R : Runner σ) : Branch → Bool → Bool → Sh σ → Outcome (Sh σ)
  | .fi, _, _, s => .done s
  | .els body, execute, condTrue, s => do
      let (s, _) ← body.walk R (execute && !condTrue) s 0
      return s
  | .elif test body orelse, execute, condTrue, s => do
      let (s, elifTrue) ← R.test (execute && !condTrue) s test
      let (s, _) ← body.walk R (execute && !condTrue && elifTrue) s 0
      orelse.walk R execute (elifTrue || condTrue) s

end

section Walk

variable {R : Runner σ}

mutual

/-- A walk without running does nothing. -/
theorem Script.walk_skip : ∀ (ss : Script) (s : Sh σ) (r : Int), ∃ r',
    ss.walk R false s r = .done (s, r')
  | .nil, s, r => ⟨r, rfl⟩
  | .cmd line next, s, r => by
      obtain ⟨r', h⟩ := next.walk_skip s r
      exact ⟨r', by rw [Script.walk]; exact h⟩
  | .cond test body orelse next, s, r => by
      obtain ⟨r₁, h1⟩ := body.walk_skip s 0
      have h2 := orelse.walk_skip false s
      obtain ⟨r', h3⟩ := next.walk_skip s 0
      refine ⟨r', ?_⟩
      rw [Script.walk]
      simp only [Runner.test, Bool.false_and, Outcome.pure_eq, Outcome.bind_done,
        if_neg (Bool.false_ne_true), h1, h2, h3]

theorem Branch.walk_skip : ∀ (o : Branch) (condTrue : Bool) (s : Sh σ),
    o.walk R false condTrue s = .done s
  | .fi, _, s => rfl
  | .els body, condTrue, s => by
      obtain ⟨r, h⟩ := body.walk_skip s 0
      rw [Branch.walk, Bool.false_and, h]
      rfl
  | .elif test body orelse, condTrue, s => by
      obtain ⟨r, h⟩ := body.walk_skip s 0
      have h2 := orelse.walk_skip (false || condTrue) s
      rw [Branch.walk]
      simp only [Runner.test, Bool.false_and, Outcome.pure_eq, Outcome.bind_done,
        if_neg (Bool.false_ne_true), h, h2]

end

/-- Once a test has succeeded, no branch is run any more. -/
theorem Branch.walk_found : ∀ (o : Branch) (s : Sh σ), o.walk R true true s = .done s
  | .fi, s => rfl
  | .els body, s => by
      obtain ⟨r, h⟩ := Script.walk_skip (R := R) body s 0
      rw [Branch.walk, show (true && !true) = false from rfl, h]
      rfl
  | .elif test body orelse, s => by
      obtain ⟨r, h⟩ := Script.walk_skip (R := R) body s 0
      have h2 := Branch.walk_found orelse s
      rw [Branch.walk]
      simp only [Runner.test, Bool.not_true, Bool.and_false, Bool.false_and, Bool.or_true,
        Outcome.pure_eq,
        Outcome.bind_done, if_neg (Bool.false_ne_true), h, h2]

mutual

/-- **The walk is the meaning**, but for the status that comes along. -/
theorem Script.walk_run : ∀ (ss : Script) (s : Sh σ) (r : Int),
    (ss.walk R true s r >>= fun x => .done x.1) = ss.run R s
  | .nil, s, r => rfl
  | .cmd line next, s, r => by
      rw [Script.walk, if_pos rfl, Script.run, Runner.runLine, Outcome.bind_assoc,
        Outcome.bind_assoc]
      refine congrArg _ (funext fun x => ?_)
      exact next.walk_run _ _
  | .cond test body orelse next, s, r => by
      rw [Script.walk, Script.run, Runner.test, if_pos rfl, Outcome.bind_assoc, Outcome.bind_assoc]
      refine congrArg _ (funext fun x => ?_)
      obtain ⟨s₁, r₁⟩ := x
      dsimp only
      rw [Outcome.pure_eq, Outcome.bind_done]
      dsimp only
      by_cases h0 : r₁ = 0
      · rw [decide_eq_true h0, Bool.and_true, if_pos h0, ← body.walk_run s₁ 0, Outcome.bind_assoc,
          Outcome.bind_assoc]
        refine congrArg _ (funext fun y => ?_)
        rw [orelse.walk_found, Outcome.bind_done, Outcome.bind_done]
        exact next.walk_run _ _
      · obtain ⟨r₂, hskip⟩ := Script.walk_skip (R := R) body s₁ 0
        rw [decide_eq_false h0, Bool.and_false, if_neg h0, hskip, Outcome.bind_done]
        dsimp only
        rw [orelse.walk_run s₁, Outcome.bind_assoc]
        refine congrArg _ (funext fun y => ?_)
        exact next.walk_run _ _

theorem Branch.walk_run : ∀ (o : Branch) (s : Sh σ), o.walk R true false s = o.run R s
  | .fi, s => rfl
  | .els body, s => by
      rw [Branch.walk, Branch.run, ← body.walk_run s 0]
      rfl
  | .elif test body orelse, s => by
      rw [Branch.walk, Branch.run, show (true && !false) = true from rfl, Runner.test, if_pos rfl,
        Outcome.bind_assoc]
      refine congrArg _ (funext fun x => ?_)
      obtain ⟨s₁, r₁⟩ := x
      dsimp only
      rw [Outcome.pure_eq, Outcome.bind_done]
      dsimp only
      by_cases h0 : r₁ = 0
      · rw [decide_eq_true h0, if_pos h0, ← body.walk_run s₁ 0]
        refine congrArg _ (funext fun y => ?_)
        exact orelse.walk_found _
      · obtain ⟨r₂, hskip⟩ := Script.walk_skip (R := R) body s₁ 0
        rw [decide_eq_false h0, if_neg h0, Bool.and_false, hskip, Outcome.bind_done]
        exact orelse.walk_run s₁

end

end Walk

/-! ## The executor walks the tree -/

theorem Text.cons_inv {l t : CStr} {ls : List CStr} (h : Text (l :: ls) t) :
    ∃ b t', (∀ c ∈ b, isBlank c = true) ∧ t = b ++ (l ++ newline :: t') ∧ Text ls t' := by
  cases h with
  | cons hb h => exact ⟨_, _, hb, rfl, h⟩

/-- The lines that follow a conditional in its block are none, or begin with another statement. -/
def Opens (ls : List CStr) : Prop :=
  ls = [] ∨ ∃ l ls', ls = l :: ls' ∧ WordsOnly l ∧ ((∃ c, l = cstr "if " ++ c) ∨ SimpleLine l)

theorem Script.opens : ∀ {ss : Script}, ss.Simple → ss.isNil = false → ∀ ls, Opens (ss.lines ++ ls)
  | .nil, _, hn, _ => absurd hn (by simp [Script.isNil])
  | .cmd line next, h, _, ls => Or.inr ⟨line, _, rfl, h.1.1.toWordsOnly, Or.inr h.1.1⟩
  | .cond test body orelse next, h, _, ls =>
      Or.inr ⟨_, _, rfl, wordsOnly_if h.1.1.toWordsOnly, Or.inl ⟨_, rfl⟩⟩

section Specs

variable (R : Runner σ)

/-- The call for a nested block. -/
def nested (fuel : Nat) (s : Sh σ) (p : CStr) (execute : Bool) : Outcome (Sh σ × CStr × Int) :=
  shExecBlock R fuel s p execute 0

/-- The executor walks a sequence and then goes on behind it, if behind it is not the end of a
branch that a conditional at its end would take for its own. -/
def BlockSpec (ss : Script) : Prop :=
  ∀ (fuel : Nat) (t : CStr) (ls : List CStr), Text (ss.lines ++ ls) t → t.length < fuel →
    (ss.endsInIf = true → Opens ls) →
    ∃ fuel' t', Text ls t' ∧ t'.length < fuel' ∧ t'.length ≤ t.length ∧ ∀ execute s r,
      shExecBlock R fuel s t execute r
        = ss.walk R execute s r >>= fun x => shExecBlock R fuel' x.1 t' execute x.2

/-- A branch and all that follows it, up to `fi`. With the lines `ls` behind it the text that is
left satisfies `post`. -/
def BranchSpec (ls : List CStr) (post : CStr → Prop) (body : Script) (orelse : Branch) : Prop :=
  ∀ (fuel g : Nat) (t : CStr), Text (cstr "then" :: (body.lines ++ (orelse.lines ++ ls))) t →
    t.length < fuel → t.length < g →
    ∃ t', post t' ∧ t'.length < t.length ∧ ∀ execute s flag condTrue,
      (nested R fuel s t flag >>= fun x => ifLoop R (nested R fuel) execute g x.1 x.2.1 condTrue)
        = body.walk R flag s 0 >>= fun x => orelse.walk R execute condTrue x.1 >>= fun s => .done (s, t')

variable {R}

/-- A line that says nothing is passed over. -/
theorem shExecBlock_then {fuel : Nat} {t : CStr} {ls : List CStr} (h : Text (cstr "then" :: ls) t)
    (hf : t.length < fuel) : ∃ fuel' t', Text ls t' ∧ t'.length < fuel' ∧ t'.length < t.length
      ∧ fuel' ≤ fuel ∧ ∀ s execute r, shExecBlock R fuel s t execute r
        = shExecBlock R fuel' s t' execute r := by
  obtain ⟨b, t', hb, rfl, hrest⟩ := h.cons_inv
  have hlt := Text.length_lt (b := b) (l := cstr "then") (t := t')
  obtain ⟨f, rfl⟩ : ∃ f, fuel = f + 1 := ⟨fuel - 1, by omega⟩
  refine ⟨f, t', hrest, by omega, hlt, by omega, fun s execute r => ?_⟩
  rw [shExecBlock_line R hb wordsOnly_then (by decide)]
  exact execLine_then (Or.inl rfl)

/-- `fi` and `else` end a block, behind the line. -/
theorem shExecBlock_end {fuel : Nat} {l t : CStr} {ls : List CStr}
    (hl : l = cstr "fi" ∨ l = cstr "else")
    (h : Text (l :: ls) t) (hf : t.length < fuel) : ∃ t', Text ls t' ∧ t'.length < t.length
      ∧ ∀ s execute r, shExecBlock R fuel s t execute r = .done (s, t', r) := by
  obtain ⟨b, t', hb, rfl, hrest⟩ := h.cons_inv
  have hlt := Text.length_lt (b := b) (l := l) (t := t')
  obtain ⟨f, rfl⟩ : ∃ f, fuel = f + 1 := ⟨fuel - 1, by omega⟩
  refine ⟨t', hrest, hlt, fun s execute r => ?_⟩
  rcases hl with rfl | rfl
  · rw [shExecBlock_line R hb wordsOnly_fi (by decide)]
    exact execLine_end (Or.inl rfl)
  · rw [shExecBlock_line R hb wordsOnly_else (by decide)]
    exact execLine_end (Or.inr (Or.inl rfl))

/-- `elif` ends a block, at the start of the line. -/
theorem shExecBlock_elif {fuel : Nat} {c t : CStr} {ls : List CStr} (hc : SimpleLine c)
    (hlen : (cstr "elif " ++ c).length < shLineMax) (h : Text ((cstr "elif " ++ c) :: ls) t)
    (hf : t.length < fuel) : ∃ t', Text ls t' ∧ t'.length < t.length ∧ ∀ s execute r,
      shExecBlock R fuel s t execute r = .done (s, (cstr "elif " ++ c) ++ newline :: t', r) := by
  obtain ⟨b, t', hb, rfl, hrest⟩ := h.cons_inv
  have hlt := Text.length_lt (b := b) (l := cstr "elif " ++ c) (t := t')
  obtain ⟨f, rfl⟩ : ∃ f, fuel = f + 1 := ⟨fuel - 1, by omega⟩
  refine ⟨t', hrest, hlt, fun s execute r => ?_⟩
  rw [shExecBlock_line R hb (wordsOnly_elif hc.toWordsOnly) hlen]
  exact execLine_elif hc.toWordsOnly

/-- Behind a conditional that is followed by another statement, or by nothing, nothing is looked
for. -/
theorem ifLoop_opens {g : Nat} {t : CStr} {ls : List CStr} (h : Text ls t) (ho : Opens ls)
    (hg : 0 < g)
    (block : Sh σ → CStr → Bool → Outcome (Sh σ × CStr × Int)) :
    ∃ t', Text ls t' ∧ t'.length ≤ t.length ∧ ∀ s execute condTrue,
      ifLoop R block execute g s t condTrue = .done (s, t') := by
  obtain ⟨g, rfl⟩ : ∃ f, g = f + 1 := ⟨g - 1, by omega⟩
  rcases ho with rfl | ⟨l, ls', rfl, hl, hkind⟩
  · cases h
    exact ⟨[], .nil, Nat.le_refl _, fun s execute condTrue => rfl⟩
  · obtain ⟨b, t', hb, rfl, hrest⟩ := h.cons_inv
    refine ⟨l ++ newline :: t', .cons (b := [])
      (fun c hc => absurd hc (by simp)) hrest, by simp, ?_⟩
    intro s execute condTrue
    exact ifLoop_other hb hl hkind

/-- What `BlockSpec` says of the body of a branch, with the line that ends the branch behind it. -/
theorem nested_body {body : Script} (hb : BlockSpec R body) (hend : body.endsInIf = false)
    {fuel : Nat}
    {t : CStr} {ls : List CStr} (h : Text (cstr "then" :: (body.lines ++ ls)) t)
    (hf : t.length < fuel) :
    ∃ fuel' t', Text ls t' ∧ t'.length < fuel' ∧ t'.length < t.length ∧ ∀ s flag,
      nested R fuel s t flag = body.walk R flag s 0 >>= fun x =>
        shExecBlock R fuel' x.1 t' flag x.2 := by
  obtain ⟨f₁, t₁, h₁, hf₁, hlt₁, _, heq₁⟩ := shExecBlock_then (R := R) h hf
  obtain ⟨f₂, t₂, h₂, hf₂, hle₂, heq₂⟩ := hb f₁ t₁ ls h₁ hf₁ (fun hc => absurd hc (by simp [hend]))
  refine ⟨f₂, t₂, h₂, hf₂, by omega, fun s flag => ?_⟩
  rw [nested, heq₁, heq₂]

/-- With nothing more to come, up to `fi`. -/
theorem branchSpec_fi {body : Script} (hb : BlockSpec R body) (hend : body.endsInIf = false)
    {ls : List CStr} (ho : Opens ls) : BranchSpec R ls (Text ls) body .fi := by
  intro fuel g t h hf hg
  obtain ⟨f₁, t₁, h₁, hf₁, hlt₁, heq₁⟩ := nested_body hb hend h hf
  obtain ⟨t₂, h₂, hlt₂, heq₂⟩ := shExecBlock_end (R := R) (Or.inl rfl) h₁ hf₁
  obtain ⟨t₃, h₃, hle₃, heq₃⟩ := ifLoop_opens (R := R) h₂ ho (by omega : 0 < g) (nested R fuel)
  refine ⟨t₃, h₃, by omega, fun execute s flag condTrue => ?_⟩
  rw [heq₁, Outcome.bind_assoc]
  refine congrArg _ (funext fun x => ?_)
  rw [heq₂, Outcome.bind_done, Branch.walk, Outcome.bind_done]
  exact heq₃ x.1 execute condTrue

/-- With nothing behind `else`, up to `fi`. -/
theorem branchSpec_els {body : Script} (hb : BlockSpec R body) (hend : body.endsInIf = false)
    {ls : List CStr} : BranchSpec R ls (Text ls) body (.els .nil) := by
  intro fuel g t h hf hg
  obtain ⟨f₁, t₁, h₁, hf₁, hlt₁, heq₁⟩ := nested_body hb hend h hf
  obtain ⟨t₂, h₂, hlt₂, heq₂⟩ := shExecBlock_end (R := R) (Or.inr rfl) h₁ hf₁
  obtain ⟨b, t₃, hblank, rfl, h₃⟩ := h₂.cons_inv
  have hlt₃ := Text.length_lt (b := b) (l := cstr "fi") (t := t₃)
  obtain ⟨g, rfl⟩ : ∃ f, g = f + 1 := ⟨g - 1, by omega⟩
  refine ⟨t₃, h₃, by omega, fun execute s flag condTrue => ?_⟩
  rw [heq₁, Outcome.bind_assoc]
  refine congrArg _ (funext fun x => ?_)
  rw [heq₂, Outcome.bind_done]
  exact ifLoop_fi hblank

/-- Another test. -/
theorem branchSpec_elif {body body' : Script} {orelse : Branch} {test : CStr} {ls : List CStr}
    {post : CStr → Prop} (hb : BlockSpec R body) (hend : body.endsInIf = false)
    (ht : SimpleLine test)
    (hlen : (cstr "elif " ++ test).length < shLineMax) (ho' : BranchSpec R ls post body' orelse) :
    BranchSpec R ls post body (.elif test body' orelse) := by
  intro fuel g t h hf hg
  obtain ⟨f₁, t₁, h₁, hf₁, hlt₁, heq₁⟩ := nested_body hb hend h hf
  rw [Branch.lines, List.cons_append, List.cons_append, List.append_assoc] at h₁
  obtain ⟨t₂, h₂, hlt₂, heq₂⟩ := shExecBlock_elif (R := R) ht hlen h₁ hf₁
  obtain ⟨g, rfl⟩ : ∃ f, g = f + 1 := ⟨g - 1, by omega⟩
  obtain ⟨t₃, h₃, hlt₃, heq₃⟩ := ho' fuel g t₂ h₂ (by omega) (by omega)
  refine ⟨t₃, h₃, by omega, fun execute s flag condTrue => ?_⟩
  rw [heq₁, Outcome.bind_assoc]
  refine congrArg _ (funext fun x => ?_)
  rw [heq₂, Outcome.bind_done, Branch.walk, Outcome.bind_assoc]
  rw [← List.nil_append ((cstr "elif " ++ test) ++ newline :: t₂),
    ifLoop_elif (fun c hc => absurd hc (by simp)) ht hlen]
  refine congrArg _ (funext fun y => ?_)
  have hbranch := heq₃ execute y.1 (execute && !condTrue && y.2) (y.2 || condTrue)
  rw [Outcome.bind_assoc]
  exact hbranch

/-- A command in front. -/
theorem blockSpec_cmd {line : CStr} {next : Script} (hl : SimpleLine line)
    (hlen : line.length < shLineMax)
    (hw : ShortWord line) (hn : BlockSpec R next) : BlockSpec R (.cmd line next) := by
  intro fuel t ls h hf hends
  obtain ⟨b, t₁, hb, rfl, h₁⟩ := h.cons_inv
  have hlt := Text.length_lt (b := b) (l := line) (t := t₁)
  obtain ⟨f, rfl⟩ : ∃ f, fuel = f + 1 := ⟨fuel - 1, by omega⟩
  obtain ⟨f₂, t₂, h₂, hf₂, hle₂, heq₂⟩ := hn f t₁ ls h₁ (by omega) hends
  refine ⟨f₂, t₂, h₂, hf₂, by omega, fun execute s r => ?_⟩
  rw [shExecBlock_line R hb hl.toWordsOnly hlen, execLine_simple hl hw, Script.walk]
  cases execute with
  | false => exact heq₂ false s r
  | true =>
      rw [if_pos rfl, if_pos rfl, Outcome.bind_assoc]
      refine congrArg _ (funext fun x => ?_)
      exact heq₂ true _ _

/-- A conditional in front, if something is known of its branches. -/
theorem shExecBlock_cond {test : CStr} {body next : Script} {orelse : Branch} (ht : SimpleLine test)
    (hlen : (cstr "if " ++ test).length < shLineMax) {ls : List CStr} {post : CStr → Prop}
    (ho : BranchSpec R (next.lines ++ ls) post body orelse) {fuel : Nat} {t : CStr}
    (h : Text ((Script.cond test body orelse next).lines ++ ls) t) (hf : t.length < fuel) :
    ∃ fuel' t', post t' ∧ t'.length < fuel' ∧ t'.length < t.length ∧ ∀ execute s r,
      shExecBlock R fuel s t execute r = R.test execute s test >>= fun x =>
        body.walk R (execute && x.2) x.1 0 >>= fun y => orelse.walk R execute x.2 y.1 >>= fun s =>
          shExecBlock R fuel' s t' execute 0 := by
  rw [Script.lines, List.cons_append, List.cons_append, List.append_assoc, List.append_assoc] at h
  obtain ⟨b, t₁, hb, rfl, h₁⟩ := h.cons_inv
  have hlt := Text.length_lt (b := b) (l := cstr "if " ++ test) (t := t₁)
  obtain ⟨f, rfl⟩ : ∃ f, fuel = f + 1 := ⟨fuel - 1, by omega⟩
  obtain ⟨t₂, h₂, hlt₂, heq₂⟩ := ho f f t₁ h₁ (by omega) (by omega)
  refine ⟨f, t₂, h₂, by omega, by omega, fun execute s r => ?_⟩
  rw [shExecBlock_line R hb (wordsOnly_if ht.toWordsOnly) hlen, execLine_if ht]
  refine congrArg _ (funext fun x => ?_)
  have hbranch := congrArg (· >>= fun y => shExecBlock R f y.1 y.2 execute 0)
    (heq₂ execute x.1 (execute && x.2) x.2)
  simp only [Outcome.bind_assoc, Outcome.bind_done] at hbranch
  exact hbranch

theorem blockSpec_cond {test : CStr} {body next : Script} {orelse : Branch} (ht : SimpleLine test)
    (hlen : (cstr "if " ++ test).length < shLineMax)
    (ho : ∀ ls, Opens ls → BranchSpec R ls (Text ls) body orelse)
    (hsimple : next.Simple) (hn : BlockSpec R next) :
    BlockSpec R (.cond test body orelse next) := by
  intro fuel t ls h hf hends
  -- behind the conditional comes another statement, or whatever comes behind the sequence
  have hopens : Opens (next.lines ++ ls) := by
    cases hnil : next.isNil with
    | false => exact Script.opens hsimple hnil ls
    | true =>
        cases next with
        | nil => exact hends rfl
        | cmd line next => cases hnil
        | cond test body orelse next => cases hnil
  obtain ⟨f₂, t₂, h₂, hf₂, hlt₂, heq₂⟩ := shExecBlock_cond ht hlen (ho _ hopens) h hf
  obtain ⟨f₃, t₃, h₃, hf₃, hle₃, heq₃⟩ :=
    hn f₂ t₂ ls h₂ hf₂ fun he => hends (by simp [Script.endsInIf, he])
  refine ⟨f₃, t₃, h₃, hf₃, by omega, fun execute s r => ?_⟩
  rw [heq₂, Script.walk]
  simp only [Outcome.bind_assoc, heq₃]

mutual

/-- **Tidy scripts are walked.** -/
theorem Script.blockSpec : ∀ (ss : Script), ss.Simple → ss.Tidy → BlockSpec R ss
  | .nil, _, _ => fun fuel t _ h hf _ => ⟨fuel, t, h, hf, Nat.le_refl _, fun _ _ _ => rfl⟩
  | .cmd _ next, hs, ht => blockSpec_cmd hs.1.1 hs.1.2 ht.1 (next.blockSpec hs.2 ht.2)
  | .cond _ body orelse next, hs, ht =>
      blockSpec_cond hs.1.1 hs.1.2
        (fun _ => orelse.branchSpec hs.2.2.1 ht.2.1 body (body.blockSpec hs.2.1 ht.1.1) ht.1.2)
          hs.2.2.2
        (next.blockSpec hs.2.2.2 ht.2.2)

theorem Branch.branchSpec : ∀ (o : Branch), o.Simple → o.Tidy → ∀ body, BlockSpec R body →
    body.endsInIf = false → ∀ {ls : List CStr}, Opens ls → BranchSpec R ls (Text ls) body o
  | .fi, _, _, _, hb, hend, _, ho => branchSpec_fi hb hend ho
  | .els e, _, ht, _, hb, hend, _, _ => by
      rw [show e = .nil from ht]
      exact branchSpec_els hb hend
  | .elif _ body' orelse, hs, ht, _, hb, hend, _, ho =>
      branchSpec_elif hb hend hs.1.1 hs.1.2
        (orelse.branchSpec hs.2.2 ht.2 body' (body'.blockSpec hs.2.1 ht.1.1) ht.1.2 ho)

end

/-! ## The end of the script

Where nothing is left but the lines that close conditionals, it does not matter which
conditional consumes which. -/

/-- Only `fi` and `else` are left. -/
def AtEnd (t : CStr) : Prop :=
  ∃ ls, Text ls t ∧ ∀ l ∈ ls, l = cstr "fi" ∨ l = cstr "else"

theorem shExecBlock_atEnd {fuel : Nat} {t : CStr} (h : AtEnd t) (hf : t.length < fuel) :
    ∃ t', AtEnd t' ∧ t'.length ≤ t.length
      ∧ ∀ s execute r, shExecBlock R fuel s t execute r = .done (s, t', r) := by
  obtain ⟨ls, ht, hls⟩ := h
  cases ls with
  | nil =>
      cases ht
      obtain ⟨f, rfl⟩ : ∃ f, fuel = f + 1 := ⟨fuel - 1, by omega⟩
      exact ⟨[], ⟨[], .nil, hls⟩, Nat.le_refl _, fun s execute r => rfl⟩
  | cons l ls =>
      obtain ⟨t', ht', hlt, heq⟩ := shExecBlock_end (R := R) (hls l (List.mem_cons_self ..)) ht hf
      exact ⟨t', ⟨ls, ht', fun x hx => hls x (List.mem_cons_of_mem _ hx)⟩, by omega, heq⟩

theorem ifLoop_atEnd (fuel : Nat) : ∀ (g : Nat) {t : CStr}, AtEnd t → t.length < fuel
    → t.length < g →
    ∃ t', AtEnd t' ∧ t'.length ≤ t.length ∧ ∀ s execute condTrue,
      ifLoop R (nested R fuel) execute g s t condTrue = .done (s, t')
  | 0, t, _, _, hg => absurd hg (by omega)
  | g + 1, t, ⟨ls, ht, hls⟩, hf, hg => by
      cases ls with
      | nil =>
          cases ht
          exact ⟨[], ⟨[], .nil, hls⟩, Nat.le_refl _, fun s execute condTrue => rfl⟩
      | cons l ls =>
          have hrest : ∀ x ∈ ls, x = cstr "fi" ∨ x = cstr "else" :=
            fun x hx => hls x (List.mem_cons_of_mem _ hx)
          obtain ⟨b, t₁, hb, rfl, h₁⟩ := ht.cons_inv
          have hlt := Text.length_lt (b := b) (l := l) (t := t₁)
          rcases hls l (List.mem_cons_self ..) with rfl | rfl
          · exact ⟨t₁, ⟨ls, h₁, hrest⟩, by omega, fun s execute condTrue => ifLoop_fi hb⟩
          · obtain ⟨t₂, h₂, hle₂, heq₂⟩ :=
              shExecBlock_atEnd (R := R) ⟨ls, h₁, hrest⟩ (by omega : t₁.length < fuel)
            obtain ⟨t₃, h₃, hle₃, heq₃⟩ := ifLoop_atEnd fuel g h₂ (by omega) (by omega)
            refine ⟨t₃, h₃, by omega, fun s execute condTrue => ?_⟩
            rw [ifLoop_else hb, nested, heq₂, Outcome.bind_done]
            exact heq₃ s execute condTrue

/-- The executor walks a sequence, and then nothing is left to be run. -/
def EndSpec (R : Runner σ) (ss : Script) : Prop :=
  ∀ (fuel : Nat) (t : CStr) (ls : List CStr), Text (ss.lines ++ ls) t →
    (∀ l ∈ ls, l = cstr "fi" ∨ l = cstr "else") → t.length < fuel →
    ∃ t', AtEnd t' ∧ t'.length ≤ t.length ∧ ∀ execute s r,
      shExecBlock R fuel s t execute r = ss.walk R execute s r >>= fun x => .done (x.1, t', x.2)

theorem Branch.closes_lines {o : Branch} (h : o.closes = true) :
    (∀ l ∈ o.lines, l = cstr "fi" ∨ l = cstr "else")
      ∧ ∀ execute condTrue (s : Sh σ), o.walk R execute condTrue s = .done s := by
  cases o with
  | fi => exact ⟨by simp [Branch.lines], fun _ _ _ => rfl⟩
  | els body =>
      cases body with
      | nil => exact ⟨by simp [Branch.lines, Script.lines], fun _ _ _ => rfl⟩
      | cmd line next => cases h
      | cond test body orelse next => cases h
  | elif test body orelse => cases h

/-- The last branch of the last conditional. -/
theorem branchSpec_closes {body : Script} {o : Branch} (hb : EndSpec R body) (ho : o.closes = true)
    {ls : List CStr} (hls : ∀ l ∈ ls, l = cstr "fi" ∨ l = cstr "else") :
    BranchSpec R ls AtEnd body o := by
  intro fuel g t h hf hg
  obtain ⟨hlines, hwalk⟩ := Branch.closes_lines (R := R) ho
  obtain ⟨f₁, t₁, h₁, hf₁, hlt₁, _, heq₁⟩ := shExecBlock_then (R := R) h hf
  have hclosers : ∀ l ∈ o.lines ++ ls, l = cstr "fi" ∨ l = cstr "else" := by
    intro l hl
    rcases List.mem_append.mp hl with hl | hl
    · exact hlines l hl
    · exact hls l hl
  obtain ⟨t₂, h₂, hle₂, heq₂⟩ := hb f₁ t₁ _ h₁ hclosers hf₁
  obtain ⟨t₃, h₃, hle₃, heq₃⟩ := ifLoop_atEnd (R := R) fuel g h₂ (by omega) (by omega)
  refine ⟨t₃, h₃, by omega, fun execute s flag condTrue => ?_⟩
  rw [nested, heq₁, heq₂, Outcome.bind_assoc]
  refine congrArg _ (funext fun x => ?_)
  rw [Outcome.bind_done, hwalk, Outcome.bind_done]
  exact heq₃ x.1 execute condTrue

/-- A conditional with which the script ends. -/
theorem endSpec_cond {test : CStr} {body next : Script} {orelse : Branch} (ht : SimpleLine test)
    (hlen : (cstr "if " ++ test).length < shLineMax)
    (ho : ∀ ls, (∀ l ∈ ls, l = cstr "fi" ∨ l = cstr "else") → BranchSpec R ls AtEnd body orelse)
    (hnil : next.isNil = true) : EndSpec R (.cond test body orelse next) := by
  intro fuel t ls h hls hf
  cases next with
  | nil =>
      obtain ⟨f₂, t₂, h₂, hf₂, hlt₂, heq₂⟩ := shExecBlock_cond ht hlen (ho _ hls) h hf
      obtain ⟨t₃, h₃, hle₃, heq₃⟩ := shExecBlock_atEnd (R := R) h₂ hf₂
      refine ⟨t₃, h₃, by omega, fun execute s r => ?_⟩
      rw [heq₂, Script.walk]
      simp only [Outcome.bind_assoc, heq₃, Script.walk, Outcome.bind_done]
  | cmd line next => cases hnil
  | cond test body orelse next => cases hnil

/-- What comes before the end of the script. -/
theorem BlockSpec.endSpec_cond {test : CStr} {body next : Script} {orelse : Branch}
    (ht : SimpleLine test)
    (hlen : (cstr "if " ++ test).length < shLineMax)
    (ho : ∀ ls, Opens ls → BranchSpec R ls (Text ls) body orelse)
    (hsimple : next.Simple) (hnil : next.isNil = false) (hn : EndSpec R next) :
    EndSpec R (.cond test body orelse next) := by
  intro fuel t ls h hls hf
  obtain ⟨f₂, t₂, h₂, hf₂, hlt₂, heq₂⟩ :=
    shExecBlock_cond ht hlen (ho _ (Script.opens hsimple hnil ls)) h hf
  obtain ⟨t₃, h₃, hle₃, heq₃⟩ := hn f₂ t₂ ls h₂ hls hf₂
  refine ⟨t₃, h₃, by omega, fun execute s r => ?_⟩
  rw [heq₂, Script.walk]
  simp only [Outcome.bind_assoc, heq₃]

theorem endSpec_cmd {line : CStr} {next : Script} (hl : SimpleLine line)
    (hlen : line.length < shLineMax)
    (hw : ShortWord line) (hn : EndSpec R next) : EndSpec R (.cmd line next) := by
  intro fuel t ls h hls hf
  obtain ⟨b, t₁, hb, rfl, h₁⟩ := h.cons_inv
  have hlt := Text.length_lt (b := b) (l := line) (t := t₁)
  obtain ⟨f, rfl⟩ : ∃ f, fuel = f + 1 := ⟨fuel - 1, by omega⟩
  obtain ⟨t₂, h₂, hle₂, heq₂⟩ := hn f t₁ ls h₁ hls (by omega)
  refine ⟨t₂, h₂, by omega, fun execute s r => ?_⟩
  rw [shExecBlock_line R hb hl.toWordsOnly hlen, execLine_simple hl hw, Script.walk]
  cases execute with
  | false => exact heq₂ false s r
  | true =>
      rw [if_pos rfl, if_pos rfl, Outcome.bind_assoc]
      refine congrArg _ (funext fun x => ?_)
      exact heq₂ true _ _

mutual

/-- **Scripts that are tidy to the end are walked.** -/
theorem Script.endSpec : ∀ (ss : Script), ss.Simple → ss.TidyEnd → EndSpec R ss
  | .nil, _, _ => fun fuel t ls h hls hf => by
      obtain ⟨t', h', hle, heq⟩ := shExecBlock_atEnd (R := R) ⟨ls, h, hls⟩ hf
      exact ⟨t', h', hle, fun execute s r => heq s execute r⟩
  | .cmd _ next, hs, ht => endSpec_cmd hs.1.1 hs.1.2 ht.1 (next.endSpec hs.2 ht.2)
  | .cond _ body orelse next, hs, ht => by
      rw [Script.TidyEnd] at ht
      split at ht
      · next hnil =>
        split at ht
        · next hclose =>
          exact endSpec_cond hs.1.1 hs.1.2
            (fun ls hls => branchSpec_closes (body.endSpec hs.2.1 ht) hclose hls) hnil
        · exact endSpec_cond hs.1.1 hs.1.2 (fun ls hls => orelse.endSpec hs.2.2.1 ht.2 body
            (body.blockSpec hs.2.1 ht.1.1) ht.1.2 (by assumption) hls) hnil
      · next hnil =>
        exact BlockSpec.endSpec_cond hs.1.1 hs.1.2
          (fun ls => orelse.branchSpec hs.2.2.1 ht.2.1 body (body.blockSpec hs.2.1 ht.1.1) ht.1.2)
          hs.2.2.2 (by simpa using hnil) (next.endSpec hs.2.2.2 ht.2.2)

theorem Branch.endSpec : ∀ (o : Branch), o.Simple → o.TidyEnd → ∀ body, BlockSpec R body →
    body.endsInIf = false → ¬ o.closes = true → ∀ {ls : List CStr},
    (∀ l ∈ ls, l = cstr "fi" ∨ l = cstr "else") → BranchSpec R ls AtEnd body o
  | .fi, _, _, _, _, _, hc, _, _ => absurd rfl hc
  | .els e, _, ht, _, _, _, hc, _, _ => absurd (by rw [show e = .nil from ht]; rfl) hc
  | .elif _ body' orelse, hs, ht, _, hb, hend, _, _, hls => by
      rw [Branch.TidyEnd] at ht
      refine branchSpec_elif hb hend hs.1.1 hs.1.2 ?_
      split at ht
      · next hclose => exact branchSpec_closes (body'.endSpec hs.2.1 ht) hclose hls
      · next hclose =>
        exact orelse.endSpec hs.2.2 ht.2 body' (body'.blockSpec hs.2.1 ht.1.1) ht.1.2 hclose hls

end

/-- **Conditionals are run as they mean.** In a tidy script tests and commands run exactly as the
tree says, whatever they do and return; the text is fuel enough. -/
theorem tidy_conditionals (ss : Script) (hs : ss.Simple) (ht : ss.TidyEnd) {text : CStr}
    (h : Text ss.lines text) (R : Runner σ) (fuel : Nat) (hf : text.length < fuel) (s : Sh σ) :
    (shRunString R fuel s text >>= fun x => .done x.1) = ss.run R { s with flow := .none } := by
  obtain ⟨t', _, _, heq⟩ := ss.endSpec hs ht fuel text [] (by rw [List.append_nil]; exact h)
    (fun l hl => absurd hl (by simp)) hf (R := R)
  rw [shRunString, Outcome.bind_assoc, heq, Outcome.bind_assoc, ← Script.walk_run ss _ 0]
  rfl

end Specs

/-! ## A script that is tidy, and one that is not -/

/-- The words of a list. -/
def blankWords (wordlist : CStr) : List CStr := (wordlist.splitOnP isBlank).filter (· ≠ [])

/-- Commands that are written down; `status` is what they return. -/
def scribe (status : CStr → Int) : Runner (List CStr) where
  exec s cmd := .done ({ s with world := s.world ++ [cmd] }, status cmd)
  line s cmd := .done ({ s with world := s.world ++ [cmd] }, status cmd)
  words s wordlist := .done (s, blankWords wordlist)
  word s word := .done (s, word)
  varSet s name val := { s with world := s.world ++ [name ++ cstr "=" ++ val] }
  funcSet s name _ := { s with world := s.world ++ [name] }

theorem simpleLine_letter {c : UInt8} (h : c ∈ cstr "abcd") : SimpleLine [c] := by
  have hc : c ∉ specialBytes ∧ isBlank c = false ∧ c ≠ backslash ∧ ∀ k ∈ shellKeywords,
      ¬ k <+: [c] := by
    revert c
    decide
  refine ⟨⟨by simpa using hc.1, ⟨c, [], rfl, hc.2.1⟩, ⟨[], c, rfl, hc.2.1, hc.2.2.1⟩⟩, ?_⟩
  intro i hi _
  rw [List.length_singleton, Nat.lt_one_iff] at hi
  rw [hi]
  exact hc.2.2.2

/-- An `if` that ends a branch, at the end of the script. -/
def nestedIfs : Script :=
  .cond (cstr "a") (.cond (cstr "b") (.cmd (cstr "c") .nil) .fi .nil) .fi .nil

theorem tidy_conditionals_nested :
    shRunString (scribe fun _ => 0) 100 ⟨.none, 0, 0, []⟩
        (cstr "if a\nthen\n  if b\n  then\n    c\n  fi\nfi\n") >>= (fun x => .done x.1)
      = nestedIfs.run (scribe fun _ => 0) ⟨.none, 0, 0, []⟩ := by
  refine tidy_conditionals nestedIfs ?_ ?_ ?_ _ 100 (by decide) _
  · exact ⟨⟨simpleLine_letter (by decide), by decide⟩,
      ⟨⟨simpleLine_letter (by decide), by decide⟩,
        ⟨⟨simpleLine_letter (by decide), by decide⟩, trivial⟩,
        trivial, trivial⟩, trivial, trivial⟩
  · simp only [nestedIfs, Script.TidyEnd, Script.isNil, Branch.closes, ShortWord, if_true]
    decide
  · exact .cons (b := []) (by decide) (.cons (b := []) (by decide)
      (.cons (b := cstr "  ") (by decide)
      (.cons (b := cstr "  ") (by decide) (.cons (b := cstr "    ") (by decide)
        (.cons (b := cstr "  ") (by decide) (.cons (b := []) (by decide) .nil))))))

/-- **A branch behind `else`.** With both commands after it the script is cut short. -/
theorem else_branch_always_runs : ¬ ∀ (ss : Script) (text : CStr), ss.Simple → Text ss.lines text →
    ∀ (R : Runner (List CStr)) (fuel : Nat) (s : Sh (List CStr)), text.length < fuel →
      (shRunString R fuel s text >>= fun x => .done x.1) = ss.run R { s with flow := .none } := by
  intro h
  have hrun := h (.cond (cstr "a") (.cmd (cstr "b") .nil) (.els (.cmd (cstr "c") .nil))
    (.cmd (cstr "d") .nil))
    (cstr "if a\nthen\nb\nelse\nc\nfi\nd\n")
    ⟨⟨simpleLine_letter (by decide), by decide⟩,
      ⟨⟨simpleLine_letter (by decide), by decide⟩, trivial⟩,
      ⟨⟨simpleLine_letter (by decide), by decide⟩, trivial⟩,
      ⟨⟨simpleLine_letter (by decide), by decide⟩, trivial⟩⟩
    (.cons (b := []) (by decide) (.cons (b := []) (by decide) (.cons (b := []) (by decide)
      (.cons (b := []) (by decide) (.cons (b := []) (by decide) (.cons (b := []) (by decide)
        (.cons (b := []) (by decide) .nil)))))))
    (scribe fun _ => 0) 100 ⟨.none, 0, 0, []⟩ (by decide)
  exact absurd hrun (by decide +kernel)

end VnlKernel
