import VnlKernel.Proof.ShellBuffers

/-!
# Skipped code

A block that is not to be run is walked through all the same. That it runs no command is told
by a walk that cannot run any: the command that never returns stands for all commands. What the
walk comes to without them it comes to with any.

The walk is quiet exactly if each line that it meets is. Five kinds of lines are not: `for` and
`case` headers whose words, when expanded, run a command or do not return; `break` and
`continue`, which leave their signal behind and leave the block; a `&&` or `||`, which sets the
last status; headers that do not fit their arrays; and `if` or `while` alone on its line.
-/

namespace VnlKernel

variable {ε : Type}

/-- The command that never returns. -/
def never : Command ε := fun _ _ => .timeout

/-! ## Words that run no command -/

section Silent

variable {α β : Type} {s : Sh (ShWorld ε)}

/-- The call runs a command; or it comes to the same whatever commands do, and leaves the state as
it is. -/
def Silent (s : Sh (ShWorld ε)) (x : Command ε → Outcome (Sh (ShWorld ε) × α)) : Prop :=
  x never = .timeout ∨ (∀ exec, x exec = x never) ∧ ∀ r, x never = .done r → r.1 = s

theorem Silent.timeout : Silent s (fun _ => (.timeout : Outcome (Sh (ShWorld ε) × α))) := .inl rfl

theorem Silent.panic (msg : String) : Silent s
    (fun _ => (.panic msg : Outcome (Sh (ShWorld ε) × α))) :=
  .inr ⟨fun _ => rfl, fun _ h => by cases h⟩

theorem Silent.done (a : α) : Silent s (fun _ => .done (s, a)) :=
  .inr ⟨fun _ => rfl, fun _ h => by cases h; rfl⟩

theorem Silent.bind {x : Command ε → Outcome (Sh (ShWorld ε) × α)}
    {f : Command ε → Sh (ShWorld ε) × α → Outcome (Sh (ShWorld ε) × β)} (hx : Silent s x)
    (hf : ∀ a, Silent s fun exec => f exec (s, a)) : Silent s fun exec => x exec >>= f exec := by
  rcases hx with hx | ⟨hsame, hs⟩
  · refine .inl ?_
    show (x never >>= f never) = .timeout
    rw [hx]
    rfl
  · cases hn : x never with
    | done r =>
        obtain ⟨s', a⟩ := r
        cases hs _ hn
        have hfun : (fun exec => x exec >>= f exec) = fun exec => f exec (s', a) := by
          funext exec
          rw [hsame, hn]
          rfl
        rw [hfun]
        exact hf a
    | panic msg =>
        refine .inr ⟨fun exec => ?_, fun r h => ?_⟩
        · show (x exec >>= f exec) = (x never >>= f never)
          rw [hsame, hn]
          rfl
        · change (x never >>= f never) = _ at h
          rw [hn] at h
          cases h
    | timeout =>
        refine .inl ?_
        show (x never >>= f never) = .timeout
        rw [hn]
        rfl

theorem Silent.ite {c : Prop} [Decidable c] {x y : Command ε → Outcome (Sh (ShWorld ε) × α)}
    (hx : Silent s x)
    (hy : Silent s y) : Silent s fun exec => if c then x exec else y exec := by
  by_cases h : c
  · simp only [if_pos h]
    exact hx
  · simp only [if_neg h]
    exact hy

variable {env : ShEnv ε}

theorem substitute_silent (b : OutBuf) (cmd : CStr) :
    Silent s fun exec => substitute b exec s cmd := .inl rfl

theorem expandDollar_silent {expand : Command ε → Sh (ShWorld ε) → CStr
    → Outcome (Sh (ShWorld ε) × CStr)}
    (hexpand : ∀ src, Silent s fun exec => expand exec s src) (p : CStr) :
    Silent s fun exec => expandDollar env exec (expand exec) s p := by
  simp only [expandDollar.eq_def]
  refine .ite (.done _) ?_
  cases p with
  | nil => exact .done _
  | cons c q =>
      dsimp only
      refine .ite ?_ ?_
      · exact (substitute_silent _ _).bind fun _ => .done _
      refine .ite ?_ ?_
      · simp only [expandBrace]
        refine .ite (.done _) (.ite ?_ (.done _))
        split
        · exact .done _
        · exact (hexpand _).bind fun _ => .ite (.panic _) (.done _)
      repeat' refine .ite (.done _) ?_
      exact .done _

theorem expandLoop_silent (fuel : Nat) : ∀ (dstsz : Nat) (dst src : CStr),
    Silent s fun exec => expandLoop env exec fuel dstsz s dst src := by
  induction fuel with
  | zero => exact fun _ _ _ => .timeout
  | succ fuel ih =>
      intro dstsz dst src
      have hspecial : ∀ dst src : CStr, Silent s fun exec => expandSpecial env exec
          (fun s src => expandLoop env exec fuel shVarValsz s [] src)
            (expandLoop env exec fuel dstsz) dstsz s dst
          src := by
        intro dst src
        cases src with
        | nil => exact ih _ _ _
        | cons c p =>
            simp only [expandSpecial]
            refine .ite ?_ (.ite ?_ (ih _ _ _))
            · exact (expandDollar_silent (fun src => ih _ [] src) _).bind fun _ => ih _ _ _
            · exact (substitute_silent _ _).bind fun _ => ih _ _ _
      cases src with
      | nil => exact .done _
      | cons c p =>
          simp only [expandLoop]
          refine .ite (.done _) (.ite (ih _ _ _)
            (.ite (.ite .timeout (ih _ _ _)) (.ite ?_ (hspecial _ _))))
          split
          · exact ih _ _ _
          · exact hspecial _ _
          · exact .timeout

theorem expandWord_silent (dstsz : Nat) (src : CStr) :
    Silent s fun exec => expandWord env exec dstsz s src :=
  (expandLoop_silent _ _ _ _).bind fun _ => .ite (.panic _) (.done _)

theorem tokenLoop_silent (bufsz bi fuel : Nat) : ∀ tok p : CStr,
    Silent s fun exec => tokenLoop env exec bufsz bi fuel s tok p := by
  induction fuel with
  | zero => exact fun _ _ => .timeout
  | succ fuel ih =>
      intro tok p
      cases p with
      | nil => exact .done _
      | cons c p =>
          simp only [tokenLoop]
          refine .ite (.done _) (.ite (ih _ _) (.ite ?_ (.ite ?_ (ih _ _))))
          · exact (expandWord_silent _ _).bind fun _ => ih _ _
          · exact (expandWord_silent _ _).bind fun _ => ih _ _

theorem tokenizeLoop_silent (bufsz left : Nat) : ∀ (p : CStr) (bi : Nat),
    Silent s fun exec => tokenizeLoop env exec bufsz left s p bi := by
  induction left with
  | zero => exact fun _ _ => .done _
  | succ left ih =>
      intro p bi
      simp only [tokenizeLoop]
      cases skipBlanks p with
      | nil => exact .done _
      | cons c q =>
          dsimp only
          refine .ite (.done _) (.ite (.panic _) ?_)
          exact (tokenLoop_silent _ _ _ _ _).bind fun _ => (ih _ _).bind fun _ => .done _

/-- The words of a `for` header. -/
theorem words_silent (list : CStr) : Silent s fun exec => (shRunner env exec).words s list :=
  (expandWord_silent _ _).bind fun _ => tokenizeLoop_silent _ _ _ _

/-- The word of a `case` header. -/
theorem word_silent (src : CStr) : Silent s fun exec => (shRunner env exec).word s src :=
  expandWord_silent _ _

/-- What returns without a command returns with any. -/
theorem Silent.returns {x : Command ε → Outcome (Sh (ShWorld ε) × α)} (h : Silent s x)
    {r : Sh (ShWorld ε) × α}
    (hr : x never = .done r) : r.1 = s ∧ ∀ exec, x exec = .done r := by
  rcases h with h | ⟨hsame, hs⟩
  · rw [h] at hr
    cases hr
  · exact ⟨hs r hr, fun exec => (hsame exec).trans hr⟩

/-- What follows a quiet call returns only where it would with any commands. -/
theorem Silent.under {x : Command ε → Outcome (Sh (ShWorld ε) × α)} (hx : Silent s x)
    (exec : Command ε)
    {f g : Sh (ShWorld ε) × α → Outcome β} (hf : ∀ r, f r = g r ∨ f r = .timeout) :
    (x never >>= f) = (x exec >>= g) ∨ (x never >>= f) = .timeout := by
  rcases hx with hx | ⟨hsame, _⟩
  · rw [hx]
    exact .inr rfl
  · rw [hsame exec]
    cases x never with
    | done r => exact hf r
    | panic msg => exact .inl rfl
    | timeout => exact .inr rfl

theorem runPipeline_under (exec : Command ε) (s : Sh (ShWorld ε)) (line : CStr) :
    shRunPipeline env never s line = shRunPipeline env exec s line
      ∨ shRunPipeline env never s line = .timeout := by
  have hloop : ∀ (left i : Nat) (s : Sh (ShWorld ε)),
      stageLoop env never left i s = stageLoop env exec left i s
          ∨ stageLoop env never left i s = .timeout := by
    intro left i s
    rw [stageLoop.eq_def, stageLoop.eq_def]
    dsimp only
    refine (expandWord_silent _ _).under exec fun r => .inr ?_
    cases left with
    | zero => rfl
    | succ left => rfl
  rw [shRunPipeline, shRunPipeline]
  dsimp only
  split
  · rw [runStage, runStage]
    split
    · exact .inl rfl
    · refine .inr ?_
      dsimp only
      split_ifs
      · rfl
      · rfl
      · rfl
  · exact hloop _ _ _

end Silent

/-! ## More fuel, and commands that return -/

/-- Where a call of `R` returns, the call of `R'` comes to the same. -/
structure Runner.Under {σ : Type} (R R' : Runner σ) : Prop where
  exec : ∀ s cmd, R.exec s cmd = R'.exec s cmd ∨ R.exec s cmd = .timeout
  line : ∀ s line, R.line s line = R'.line s line ∨ R.line s line = .timeout
  words : ∀ s list, R.words s list = R'.words s list ∨ R.words s list = .timeout
  word : ∀ s src, R.word s src = R'.word s src ∨ R.word s src = .timeout
  varSet : R.varSet = R'.varSet
  funcSet : R.funcSet = R'.funcSet

namespace BlockNote

section Below

open Logged (Below)

variable {σ : Type} {R R' : Runner σ} (hR : R.Under R')

include hR

theorem test_under (execute : Bool) (s : Sh σ) (cond : CStr) :
    R.test execute s cond = R'.test execute s cond ∨ R.test execute s cond = .timeout := by
  rw [Runner.test, Runner.test]
  cases execute with
  | false => exact .inl rfl
  | true =>
      rcases hR.exec s cond with h | h
      · exact .inl (by rw [h])
      · exact .inr (by rw [h]; rfl)

theorem exec_under (execute : Bool) (s : Sh σ) (cmd : CStr) (x : Outcome (Sh σ × Int)) :
    (if execute = true then R.exec s cmd else x) = (if execute = true then R'.exec s cmd else x) ∨
      (if execute = true then R.exec s cmd else x) = .timeout := by
  cases execute with
  | false => exact .inl rfl
  | true => exact hR.exec s cmd

section Loops

variable {block block' : Sh σ → CStr → Bool → Logged (BlockNote σ) (Sh σ × CStr × Int)}
  (hblock : ∀ s p execute, Below (block s p execute) (block' s p execute))

include hblock

theorem ifLoop_below (execute : Bool) (n : Nat) :
    ∀ {m : Nat}, n ≤ m → ∀ (s : Sh σ) (p : CStr) (condTrue : Bool),
    Below (ifLoopBytes R block execute n s p condTrue)
    (ifLoopBytes R' block' execute m s p condTrue) := by
  induction n with
  | zero => exact fun _ _ _ _ => .timeout _
  | succ n ih =>
      intro m hnm s p condTrue
      obtain ⟨m, rfl⟩ := Nat.exists_eq_add_of_lt (Nat.lt_of_succ_le hnm)
      have hle : n ≤ n + m := Nat.le_add_right _ _
      cases p with
      | nil => exact .refl _
      | cons c q =>
          rw [ifLoopBytes, ifLoopBytes]
          refine .bind (.refl _) fun _ => .bind (.refl _) fun p => .bind (.refl _) fun _ =>
            .ite ?_ ?_
          · refine .bind (.refl _) fun _ => .bind (.refl _) fun r => .bind (.refl _) fun rest => ?_
            exact .bind (.lift (test_under hR _ _ _)) fun t => .bind (hblock _ _ _) fun b =>
              ih hle _ _ _
          refine .bind (.refl _) fun _ => .ite ?_ (.refl _)
          exact .bind (.refl _) fun rest => .bind (hblock _ _ _) fun b => ih hle _ _ _

theorem whileLoop_below (cond loopStart : CStr) (n : Nat) : ∀ {m : Nat}, n ≤ m →
    ∀ (s : Sh σ) (p : CStr) (lastRet : Int),
    Below (whileLoopBytes R block cond loopStart n s p lastRet)
      (whileLoopBytes R' block' cond loopStart m s p lastRet) := by
  induction n with
  | zero => exact fun _ _ _ _ => .timeout _
  | succ n ih =>
      intro m hnm s p lastRet
      obtain ⟨m, rfl⟩ := Nat.exists_eq_add_of_lt (Nat.lt_of_succ_le hnm)
      rw [whileLoopBytes, whileLoopBytes]
      refine .bind (.lift (hR.exec _ _)) fun t => .ite (.refl _) (.bind (hblock _ _ _) fun b => ?_)
      exact .ite (ih (Nat.le_add_right _ _) _ _ _) (.refl _)

theorem forLoop_below (var loopStart : CStr) :
    ∀ (words : List CStr) (s : Sh σ) (p : CStr) (lastRet : Int),
    Below (forLoopBytes R block var loopStart words s p lastRet)
      (forLoopBytes R' block' var loopStart words s p lastRet)
  | [], _, _, _ => .refl _
  | w :: ws, s, p, lastRet => by
      rw [forLoopBytes, forLoopBytes, hR.varSet]
      exact .bind (hblock _ _ _) fun b => .ite (forLoop_below var loopStart ws _ _ _) (.refl _)

omit hR hblock in
theorem caseLoop_below {run run' : Sh σ → CStr → Logged (BlockNote σ) (Sh σ × Int)}
    (hrun : ∀ s body, Below (run s body) (run' s body)) (execute : Bool) (word : CStr)
    (fuel : Nat) :
    ∀ (s : Sh σ) (p : CStr) (matched : Bool) (lastRet : Int),
    Below (caseLoopBytes run execute word fuel s p matched lastRet)
      (caseLoopBytes run' execute word fuel s p matched lastRet) := by
  induction fuel with
  | zero => exact fun _ _ _ _ => .refl _
  | succ fuel ih =>
      intro s p matched lastRet
      cases p with
      | nil => exact .refl _
      | cons c q =>
          rw [caseLoopBytes, caseLoopBytes]
          refine .bind (.refl _) fun _ => .bind (.refl _) fun p => .bind (.refl _) fun _ =>
            .ite (.refl _) ?_
          refine .bind (.refl _) fun pat => .bind (.refl _) fun thisMatch =>
            .bind (.refl _) fun body => ?_
          exact .ite (.bind (hrun _ _) fun b => ih _ _ _ _) (ih _ _ _ _)

theorem execLine_below {n m : Nat} (hnm : n ≤ m)
    {next next' : Sh σ → CStr → Int → Logged (BlockNote σ) (Sh σ × CStr × Int)}
    (hnext : ∀ s p r, Below (next s p r) (next' s p r)) (s : Sh σ) (line lineStart p : CStr)
    (execute : Bool)
    (lastRet : Int) :
    Below (execLineBytes R n block next s line lineStart p execute lastRet)
      (execLineBytes R' m block' next' s line lineStart p execute lastRet) := by
  rw [execLineBytes, execLineBytes, hR.funcSet]
  refine .bind (.refl _) fun name => ?_
  cases name with
  | some name => exact .bind (.refl _) fun body => hnext _ _ _
  | none =>
      dsimp only
      refine .ite (.refl _) (.ite ?_ ?_)
      · exact .bind (.refl _) fun cond => .bind (.lift (test_under hR _ _ _)) fun t =>
            .bind (hblock _ _ _) fun b =>
          .bind (ifLoop_below hR hblock _ _ hnm _ _ _) fun r => hnext _ _ _
      cases terminator line lineStart p with
      | some p => exact .refl _
      | none =>
          dsimp only
          refine .ite (hnext _ _ _) (.ite (.refl _)
            (.ite ?_ (.ite ?_ (.ite ?_ (.ite (.refl _) (.ite (.refl _)
            (.ite ?_ ?_)))))))
          · exact .bind (.refl _) fun cond =>
              .ite (.bind (whileLoop_below hR hblock _ _ _ hnm _ _ _) fun r => hnext _ _ _)
                (.bind (hblock _ _ _) fun b => hnext _ _ _)
          · exact .bind (.refl _) fun header => .bind (.refl _) fun _ =>
                .bind (.lift (hR.words _ _)) fun w =>
              .ite (.bind (forLoop_below hR hblock _ _ _ _ _ _) fun r => hnext _ _ _)
                (.bind (hblock _ _ _) fun b => hnext _ _ _)
          · refine .bind (.refl _) fun src => .bind (.refl _) fun _ =>
              .bind (.lift (hR.word _ _)) fun w => ?_
            exact .bind (caseLoop_below (fun s body => .bind (hblock _ _ _) fun b =>
                .refl _) _ _ _ _ _ _ _) fun r =>
              hnext _ _ _
          · exact .ite (hnext _ _ _) (.refl _)
          · cases findAndOr line with
            | some op =>
                exact .bind (.refl _) fun _ => .bind (.lift (exec_under hR _ _ _ _)) fun r1 =>
                  .bind (.lift (exec_under hR _ _ _ _)) fun r => hnext _ _ _
            | none => exact .ite (.bind (.lift (hR.line _ _)) fun r => hnext _ _ _) (hnext _ _ _)

end Loops

/-- **More fuel, and commands that return, add to what the walk comes to.** By induction on the
fuel. -/
theorem shExecBlock_below (n : Nat) : ∀ {m : Nat},
    n ≤ m → ∀ (s : Sh σ) (p : CStr) (execute : Bool) (lastRet : Int),
    Below (shExecBlockBytes R n s p execute lastRet)
    (shExecBlockBytes R' m s p execute lastRet) := by
  induction n with
  | zero => exact fun _ _ _ _ _ => .timeout _
  | succ n ih =>
      intro m hnm s p execute lastRet
      obtain ⟨m, rfl⟩ := Nat.exists_eq_add_of_lt (Nat.lt_of_succ_le hnm)
      have hle : n ≤ n + m := Nat.le_add_right _ _
      rw [shExecBlockBytes, shExecBlockBytes]
      refine .bind (.refl _) fun _ => .bind (.refl _) fun p => ?_
      cases p with
      | nil => exact .refl _
      | cons c q =>
          dsimp only
          refine .ite (ih hle _ _ _ _) (.ite (.bind (.refl _) fun rest => ih hle _ _ _ _) ?_)
          refine .bind (.refl _) fun r => .ite (ih hle _ _ _ _) (.bind (.refl _) fun _ => ?_)
          exact execLine_below hR (fun _ _ _ => ih hle _ _ _ _) hle
            (fun _ _ _ => ih hle _ _ _ _) _ _ _ _ _ _

end Below

end BlockNote

theorem Runner.Under.refl {σ : Type} (R : Runner σ) : R.Under R :=
  ⟨fun _ _ => .inl rfl, fun _ _ => .inl rfl, fun _ _ => .inl rfl, fun _ _ => .inl rfl, rfl, rfl⟩

theorem never_under (env : ShEnv ε) (exec : Command ε) : (shRunner env never).Under
    (shRunner env exec) where
  exec := fun _ _ => .inr rfl
  line := fun _ _ => (expandWord_silent _ _).under exec fun _ => runPipeline_under exec _ _
  words := fun _ list => (words_silent list).elim .inr fun h => .inl (h.1 exec).symm
  word := fun _ src => (word_silent src).elim .inr fun h => .inl (h.1 exec).symm
  varSet := rfl
  funcSet := rfl

/-! ## What a skipped line does -/

namespace BlockNote

/-- Does the line begin with something that is looked for before ` && ` and ` || `? -/
def begins (line : CStr) : Bool :=
  line = cstr "if" || startsWith (cstr "if ") line || (terminator line [] []).isSome
    || isKeyword (cstr "then") line || isKeyword (cstr "do") line || line = cstr "while"
    || startsWith (cstr "while ") line || startsWith (cstr "for ") line || startsWith (cstr "case ") line
    || line = cstr "break" || line = cstr "continue" || startsWith (cstr "return") line

/-- Is the line taken for two commands with ` && ` or ` || ` between them? -/
def isAndOr (line : CStr) : Bool := functionName line = .done none && !begins line && (findAndOr line).isSome

/-- What skipping a line does to the state. -/
def act {σ : Type} (s : Sh σ) : BlockNote σ → Sh σ
  | .line l =>
      if l = cstr "break" then { s with flow := .brk }
      else if l = cstr "continue" then { s with flow := .cont }
      else if isAndOr l then { s with lastStatus := 0 }
      else s
  | _ => s

/-- What skipping several does. -/
def after {σ : Type} (notes : List (BlockNote σ)) (s : Sh σ) : Sh σ := notes.foldl act s

/-- Skipping what was noted down comes to an end and runs no command: lines and conditions fit, and
words expand to something without a command. -/
def Skippable (env : ShEnv ε) : BlockNote (ShWorld ε) → Prop
  | .access _ => True
  | .line l => NameFits l ∧ l ≠ cstr "if" ∧ l ≠ cstr "while" ∧
      (startsWith (cstr "for ") l = true → (forHeader l).1.length < shVarNamsz)
  | .elif cond => cond.length < shLineMax
  | .words s list => ∃ ws, ∀ exec, (shRunner env exec).words s list = .done (s, ws)
  | .word s src => ∃ w, ∀ exec, (shRunner env exec).word s src = .done (s, w)

section Skips

variable {env : ShEnv ε} {α β : Type} {s : Sh (ShWorld ε)}

/-- The call returns exactly if what it notes down is skippable; the state is then what the notes
make of it. -/
def Skips (env : ShEnv ε) (s : Sh (ShWorld ε)) (R : Sh (ShWorld ε) → α → Prop)
    (x : Logged (BlockNote (ShWorld ε)) α) : Prop :=
  x.Settles (fun _ => True) (Skippable env) True fun notes a => R (after notes s) a

variable {Q Q' : Sh (ShWorld ε) → α → Prop} {R : Sh (ShWorld ε) → β → Prop}

theorem Skips.pure {a : α} (h : Q s a) : Skips env s Q (pure a) := Logged.Settles.pure h

theorem Skips.bind {x : Logged (BlockNote (ShWorld ε)) α} {f : α → Logged (BlockNote (ShWorld ε)) β}
    (hx : Skips env s Q x) (hf : ∀ s' a, Q s' a → Skips env s' R (f a)) :
    Skips env s R (x >>= f) := by
  refine Logged.Settles.bind hx fun l a ha => Logged.Settles.mono (hf _ a ha)
    (fun _ h => h) id fun l' b hb => ?_
  rw [after, List.foldl_append]
  exact hb

theorem Skips.mono {x : Logged (BlockNote (ShWorld ε)) α} (hx : Skips env s Q x)
    (hq : ∀ s' a, Q s' a → Q' s' a) :
    Skips env s Q' x :=
  Logged.Settles.mono hx (fun _ h => h) id fun _ a ha => hq _ a ha

theorem Bounded.skippable {e : BlockNote (ShWorld ε)} (h : e.Bounded) : e.Skippable env := by
  cases e with
  | access a => trivial
  | line l => exact h.elim
  | elif c => exact h.elim
  | words s l => exact h.elim
  | word s w => exact h.elim

theorem after_bounded {notes : List (BlockNote (ShWorld ε))} (h : ∀ e ∈ notes, e.Bounded) :
    after notes s = s := by
  induction notes with
  | nil => rfl
  | cons e notes ih =>
      rw [List.forall_mem_cons] at h
      rw [after, List.foldl_cons]
      cases e with
      | access a => exact ih h.2
      | line l => exact h.1.elim
      | elif c => exact h.1.elim
      | words s l => exact h.1.elim
      | word s w => exact h.1.elim

theorem Skips.after {x : Logged (BlockNote (ShWorld ε)) α} {a : α}
    {f : α → Logged (BlockNote (ShWorld ε)) β}
    (hx : x.Comes Bounded a) (hf : Skips env s R (f a)) : Skips env s R (x >>= f) := by
  refine Logged.Settles.after (hx.mono fun _ h => ⟨trivial, h.skippable⟩)
    (Logged.Settles.mono hf (fun _ h => h) id fun l b hb => ?_)
  rw [BlockNote.after, List.foldl_append]
  change R (BlockNote.after l (BlockNote.after x.log s)) b
  rw [after_bounded hx.1]
  exact hb

/-- What is skippable is noted down. -/
theorem Skips.noted {e : BlockNote (ShWorld ε)} {f : Unit → Logged (BlockNote (ShWorld ε)) β}
    (he : e.Skippable env)
    (hf : Skips env (act s e) R (f ())) : Skips env s R (Logged.note e >>= f) :=
  Logged.Settles.after (.note ⟨trivial, he⟩) hf

/-- What is not is noted down, and nothing is returned. -/
theorem Skips.stuck {e : BlockNote (ShWorld ε)} {f : Unit → Logged (BlockNote (ShWorld ε)) β}
    (he : ¬ e.Skippable env)
    (hf : ∀ b, (f ()).out ≠ .done b) : Skips env s R (Logged.note e >>= f) := by
  refine ⟨fun _ _ => trivial, fun b hb => ?_, fun _ hall => ?_⟩
  · rw [Logged.bind_out, Logged.note_out, Outcome.bind_done] at hb
    exact absurd hb (hf b)
  · exact absurd (hall e (Logged.mem_bind.mpr (.inl (List.mem_singleton_self e)))) he

/-- The call leaves the state that the notes tell, and the cursor in the text. -/
def Ends (p : CStr) (s : Sh (ShWorld ε)) (b : Sh (ShWorld ε) × CStr × Int) : Prop := b.1 = s ∧ b.2.1 <:+ p

theorem Skips.behind {p t : CStr} {x : Logged (BlockNote (ShWorld ε)) (Sh (ShWorld ε) × CStr × Int)}
    (h : Skips env s (Ends p) x) (hp : p <:+ t) : Skips env s (Ends t) x :=
  h.mono fun _ _ hb => ⟨hb.1, hb.2.trans hp⟩

/-! ## Where the cursor goes -/

theorem skipBlanks_suffix (p : CStr) : skipBlanks p <:+ p := List.dropWhile_suffix _

theorem skipLine_suffix (p : CStr) : skipLine p <:+ p :=
  (List.drop_suffix _ _).trans (List.dropWhile_suffix _)

theorem skipLine_lt {p : CStr} (h : p ≠ []) : (skipLine p).length < p.length := by
  rw [skipLine, List.length_drop]
  have hle := (List.dropWhile_suffix (· ≠ newline) (l := p)).length_le
  have hpos := List.length_pos_of_ne_nil h
  omega

theorem collectLine_rest : ∀ p : CStr, (collectLine p).2 <:+ p
  | [] => List.suffix_rfl
  | [c] => by
      rw [collectLine.eq_def]
      dsimp only
      split_ifs
      · exact List.suffix_rfl
      · exact (List.dropWhile_suffix _).trans (List.suffix_cons _ _)
      · exact List.nil_suffix
  | c :: d :: q => by
      rw [collectLine.eq_def]
      dsimp only
      split_ifs
      · exact List.suffix_rfl
      · exact (List.dropWhile_suffix _).trans (List.suffix_cons _ _)
      · exact (collectLine_rest q).trans ((List.suffix_cons _ _).trans (List.suffix_cons _ _))
      · exact (collectLine_rest (d :: q)).trans (List.suffix_cons _ _)

/-- A line takes at least the byte that it begins with. -/
theorem logicalLine_rest (c : UInt8) (q : CStr) : (logicalLine (c :: q)).2 <:+ q := by
  change (collectLine (c :: q)).2.drop 1 <:+ q
  obtain ⟨t, ht⟩ := collectLine_rest (c :: q)
  cases t with
  | nil =>
      rw [List.nil_append] at ht
      rw [ht]
      exact List.suffix_rfl
  | cons d t =>
      obtain ⟨_, ht⟩ := List.cons.inj ht
      exact (List.drop_suffix _ _).trans ⟨t, ht⟩

theorem linesOf_rest {stop : CStr → Option CStr} (hstop : ∀ p r, stop p = some r → r <:+ p)
    (fuel : Nat) :
    ∀ p, (linesOf stop fuel p).2 <:+ p := by
  induction fuel with
  | zero => exact fun _ => List.suffix_rfl
  | succ fuel ih =>
      intro p
      cases p with
      | nil => exact List.suffix_rfl
      | cons c q =>
          rw [linesOf.eq_def]
          dsimp only
          have hskip := skipBlanks_suffix (c :: q)
          generalize skipBlanks (c :: q) = p at *
          cases hs : stop p with
          | some rest => exact (hstop p rest hs).trans hskip
          | none => exact (ih _).trans ((skipLine_suffix p).trans hskip)

theorem functionBody_rest (fuel : Nat) (p : CStr) : (functionBody fuel p).2 <:+ p := by
  rw [functionBody_eq]
  refine linesOf_rest (fun p r h => ?_) fuel p
  rw [bodyEnd] at h
  split at h
  · cases h
    exact skipLine_suffix p
  · cases h

theorem caseBody_rest (fuel : Nat) (p : CStr) : (caseBody fuel p).2 <:+ p := by
  rw [caseBody_eq]
  refine linesOf_rest (fun p r h => ?_) fuel p
  rw [branchEnd] at h
  split_ifs at h
  · cases h
    exact (skipLine_suffix _).trans (List.drop_suffix _ _)
  · cases h
    exact List.suffix_rfl

/-- A branch takes something from the text, if only the parenthesis behind its pattern. -/
theorem patternRest_suffix (p : CStr) :
    (if (p.drop ((p.takeWhile (· ≠ parenClose)).take (shVarNamsz * 2 - 1)).length).head? = some parenClose then
      (p.drop ((p.takeWhile (· ≠ parenClose)).take (shVarNamsz * 2 - 1)).length).drop 1
      else p.drop ((p.takeWhile (· ≠ parenClose)).take (shVarNamsz * 2 - 1)).length) <:+ p ∧
    (p ≠ [] → (if (p.drop ((p.takeWhile (· ≠ parenClose)).take (shVarNamsz * 2 - 1)).length).head? = some parenClose then
      (p.drop ((p.takeWhile (· ≠ parenClose)).take (shVarNamsz * 2 - 1)).length).drop 1
      else p.drop ((p.takeWhile (· ≠ parenClose)).take (shVarNamsz * 2 - 1)).length).length
        < p.length) := by
  constructor
  · split
    · exact (List.drop_suffix _ _).trans (List.drop_suffix _ _)
    · exact List.drop_suffix _ _
  · intro hp
    have hpos := List.length_pos_of_ne_nil hp
    split
    · rw [List.length_drop, List.length_drop]
      omega
    · next hhead =>
      cases p with
      | nil => exact absurd rfl hp
      | cons d p =>
          have hd : d ≠ parenClose := by
            rintro rfl
            exact hhead rfl
          rw [List.takeWhile_cons_of_pos (by simp [hd]), show shVarNamsz * 2 - 1 = 126 + 1 from rfl,
            List.take_succ_cons,
            List.length_cons, List.drop_succ_cons, List.length_drop, List.length_cons]
          exact Nat.lt_succ_of_le (Nat.sub_le _ _)

/-! ## The walk -/

section Walk

variable {block : Sh (ShWorld ε) → CStr → Bool → Logged (BlockNote (ShWorld ε)) (Sh (ShWorld ε) × CStr × Int)}
  {fuel : Nat} (hblock : ∀ s p, p.length < fuel → Skips env s (Ends p) (block s p false))

include hblock

theorem ifLoop_skips (turns : Nat) : ∀ (s : Sh (ShWorld ε)) (p : CStr) (condTrue : Bool),
    p.length < turns →
    p.length ≤ fuel → Skips env s (fun s' b => b.1 = s' ∧ b.2 <:+ p)
      (ifLoopBytes (shRunner env never) block false turns s p condTrue) := by
  induction turns with
  | zero => exact fun _ _ _ h => absurd h (Nat.not_lt_zero _)
  | succ turns ih =>
      intro s p condTrue hturns hfuel
      cases p with
      | nil => exact .after (look_comes (Nat.le_add_left _ _)) (.pure ⟨rfl, List.suffix_rfl⟩)
      | cons c q =>
          have hskip : (skipWhile (σ := ShWorld ε) isBlank (c :: q)).Comes Bounded
              (skipBlanks (c :: q)) :=
            skipWhile_comes _ _
          have hsuffix := skipBlanks_suffix (c :: q)
          rw [ifLoopBytes]
          refine .after (look_comes (Nat.le_add_left _ _))
            (.after hskip (.after (starts_comes _ _) ?_))
          generalize skipBlanks (c :: q) = p at *
          have hlen := hsuffix.length_le
          -- a nested block is behind the line, and the rest of the loop behind the block
          have hrest : p ≠ [] → ∀ (s : Sh (ShWorld ε)) (condTrue : Bool) {x : Bool}, x = false →
              Skips env s (fun s' b => b.1 = s' ∧ b.2 <:+ c :: q) (do
                let b ← block s (skipLine p) x
                ifLoopBytes (shRunner env never) block false turns b.1 b.2.1 condTrue) := by
            intro hp s condTrue x hx
            subst hx
            have hline := skipLine_lt hp
            refine (hblock s (skipLine p) (by omega)).bind fun s' b hb => ?_
            have hb' := hb.2.length_le
            rw [hb.1]
            refine (ih s' b.2.1 condTrue (by omega) (by omega)).mono fun s'' r hr => ?_
            exact ⟨hr.1, hr.2.trans (hb.2.trans ((skipLine_suffix p).trans hsuffix))⟩
          by_cases helif : startsWith (cstr "elif ") p = true
          · rw [if_pos helif]
            have hp : p ≠ [] := by
              rintro rfl
              cases helif
            have hline : skipLine (fromEnd elifEnds (p.drop 5)) = skipLine p :=
              (skipLine_elif _).trans (skipLine_drop helif (by decide))
            by_cases hshort : (elifCond (p.drop 5)).length < shLineMax
            · refine .noted hshort (.after (elifCondBytes_comes hshort)
                (.after (skipLineBytes_comes _) ?_))
              rw [hline]
              exact hrest hp s _ (Bool.false_and _)
            · refine .stuck hshort fun b hb => ?_
              rw [Logged.bind_timeout (elifCondBytes_stuck hshort).2] at hb
              cases hb
          rw [if_neg helif]
          refine .after (startsThen_comes _ _ _) ?_
          by_cases helse : (startsWith (cstr "else") p && endsWord false
            (p.drop (cstr "else").length)) = true
          · rw [if_pos helse]
            have hp : p ≠ [] := by
              rintro rfl
              cases helse
            exact .after (skipLineBytes_comes _) (hrest hp s _ (Bool.false_and _))
          rw [if_neg helse]
          refine .after (startsThen_comes _ _ _) ?_
          split
          · exact .after (skipLineBytes_comes _) (.pure ⟨rfl, (skipLine_suffix p).trans hsuffix⟩)
          · exact .pure ⟨rfl, hsuffix⟩

omit hblock in
theorem caseLoop_skips {run : Sh (ShWorld ε) → CStr → Logged (BlockNote (ShWorld ε))
    (Sh (ShWorld ε) × Int)}
    (word : CStr) (turns : Nat) : ∀ (s : Sh (ShWorld ε)) (p : CStr) (matched : Bool)
    (lastRet : Int), p.length < turns →
    Skips env s (Ends p) (caseLoopBytes run false word turns s p matched lastRet) := by
  induction turns with
  | zero => exact fun _ _ _ _ h => absurd h (Nat.not_lt_zero _)
  | succ turns ih =>
      intro s p matched lastRet hturns
      cases p with
      | nil => exact .after (look_comes (Nat.le_add_left _ _)) (.pure ⟨rfl, List.suffix_rfl⟩)
      | cons c q =>
          rw [caseLoopBytes]
          refine .after (look_comes (Nat.le_add_left _ _))
            (.after (skipWhile_comes _ _) (.after (startsThen_comes _ _ _) ?_))
          have hsuffix := List.dropWhile_suffix (fun c => isBlank c || decide (c = newline))
            (l := c :: q)
          generalize (c :: q).dropWhile (fun c => isBlank c || decide (c = newline)) = p at *
          split
          · exact .after (skipLineBytes_comes _) (.pure ⟨rfl, (skipLine_suffix p).trans hsuffix⟩)
          refine .after (patternBytes_comes _) ?_
          dsimp only
          have hpat : (((p.takeWhile (· ≠ parenClose)).take (shVarNamsz * 2 - 1)).rdropWhile
            (· = space)).length
              < shVarNamsz * 2 := pattern_lt p
          obtain ⟨hrest, hlt⟩ := patternRest_suffix p
          generalize (if (p.drop ((p.takeWhile (· ≠ parenClose)).take (shVarNamsz * 2 - 1)).length).head? =
            some parenClose then (p.drop
              ((p.takeWhile (· ≠ parenClose)).take (shVarNamsz * 2 - 1)).length).drop 1
            else p.drop ((p.takeWhile (· ≠ parenClose)).take (shVarNamsz * 2 - 1)).length)
              = rest at *
          have hbody := caseBody_rest rest.length rest
          have hlen : (caseBody rest.length rest).2.length < turns := by
            have h1 := hbody.length_le
            have h2 := hrest.length_le
            have h3 := hsuffix.length_le
            rw [List.length_cons] at h3 hturns
            cases p with
            | nil =>
                rw [List.length_nil] at h2
                omega
            | cons d p =>
                have h4 := hlt (List.cons_ne_nil d p)
                omega
          refine .after (branchMatches_comes _ word hpat) ?_
          refine .after (caseBytes_comes rest) ?_
          rw [Bool.and_false, if_neg Bool.false_ne_true]
          exact (ih s _ _ lastRet hlen).behind (hbody.trans (hrest.trans hsuffix))

omit hblock in
/-- Words are expanded, quietly or not. -/
theorem Skips.expanded {x : Command ε → Outcome (Sh (ShWorld ε) × α)} (hx : Silent s x)
    {e : BlockNote (ShWorld ε)}
    (he : e.Skippable env ↔ ∃ a, ∀ exec, x exec = .done (s, a)) (hact : act s e = s)
    {R : Sh (ShWorld ε) → β → Prop}
    {f : Sh (ShWorld ε) × α → Logged (BlockNote (ShWorld ε)) β}
    (hf : ∀ a, Skips env s R (f (s, a))) :
    Skips env s R (Logged.note e >>= fun _ => Logged.lift (x never) >>= f) := by
  by_cases hr : ∃ r, x never = .done r
  · obtain ⟨⟨s', a⟩, hr⟩ := hr
    obtain ⟨hs, hall⟩ := hx.returns hr
    cases hs
    refine .noted (he.mpr ⟨a, hall⟩) ?_
    rw [hact, hr]
    exact .after ⟨by simp, rfl⟩ (hf a)
  · refine .stuck (fun hgood => ?_) fun b hb => ?_
    · obtain ⟨a, ha⟩ := he.mp hgood
      exact hr ⟨_, ha never⟩
    · obtain ⟨a, ha, _⟩ := Outcome.bind_eq_done ((Logged.bind_out _ _).symm.trans hb)
      exact hr ⟨a, ha⟩

omit hblock in
theorem act_eq {l : CStr} (h : functionName l ≠ .done none ∨ begins l = true)
    (hb : l ≠ cstr "break")
    (hc : l ≠ cstr "continue") : act s (.line l) = s := by
  have hop : isAndOr l = false := by
    rw [isAndOr]
    rcases h with h | h
    · rw [decide_eq_false h, Bool.false_and, Bool.false_and]
    · rw [h, Bool.not_true, Bool.and_false, Bool.false_and]
  rw [act, if_neg hb, if_neg hc, hop, if_neg Bool.false_ne_true]

omit hblock in
theorem terminator_cases {line a b q : CStr} (h : terminator line a b = some q) :
    (q = b ∨ q = a) ∧ (terminator line [] []).isSome = true := by
  rw [terminator] at h ⊢
  split_ifs at h ⊢ with h1 h2
  · cases h
    exact ⟨.inl rfl, rfl⟩
  · cases h
    exact ⟨.inr rfl, rfl⟩

/-- **A line that is skippable.** -/
theorem execLine_skips {next : Sh (ShWorld ε) → CStr → Int → Logged (BlockNote (ShWorld ε))
    (Sh (ShWorld ε) × CStr × Int)}
    (hnext : ∀ s p r, p.length < fuel → Skips env s (Ends p) (next s p r)) {l : CStr}
    (hline : l.length < shLineMax)
    (hgood : Skippable env (.line l)) {lineStart p t : CStr} (hstart : lineStart <:+ t)
    (hp : p <:+ t)
    (hlen : p.length < fuel) (r : Int) :
    Skips env (act s (.line l)) (Ends t)
    (execLineBytes (shRunner env never) fuel block next s l lineStart p false r) := by
  obtain ⟨hfits, hnif, hnwhile, hfor⟩ := hgood
  have hbehind : ∀ {q : CStr} (r : Int), q <:+ p → Skips env s (Ends t) (next s q r) := fun r hq =>
    (hnext s _ r (Nat.lt_of_le_of_lt hq.length_le hlen)).behind (hq.trans hp)
  -- a nested block, and what is behind it
  have hnested : ∀ r, Skips env s (Ends t) (block s p false >>= fun b => next b.1 b.2.1 r) :=
      fun r => by
    refine (hblock s p hlen).bind fun s' b hb => ?_
    rw [hb.1]
    exact (hnext s' b.2.1 r (Nat.lt_of_le_of_lt hb.2.length_le hlen)).behind (hb.2.trans hp)
  obtain ⟨a, ha⟩ := functionName_fits hfits
  rw [execLineBytes]
  refine .after (functionNameBytes_comes ha) ?_
  cases a with
  -- a definition: only its body is passed over
  | some name =>
      have hact : act s (.line l) = s := by
        refine act_eq (.inl fun h => ?_) ?_ ?_
        · rw [ha] at h
          cases h
        · rintro rfl
          cases ha
        · rintro rfl
          cases ha
      rw [hact]
      exact .after (functionBytes_comes p) (hbehind r (functionBody_rest _ _))
  | none =>
      dsimp only
      rw [if_neg hnif]
      by_cases hifs : startsWith (cstr "if ") l = true
      · rw [if_pos hifs, act_eq (.inr (by simp [begins, hifs]))
          (by rintro rfl; exact absurd hifs (by decide))
          (by rintro rfl; exact absurd hifs (by decide))]
        -- the block behind the condition, and the rest up to `fi`
        refine .after (ifCondBytes_comes l) ((hblock s p hlen).bind fun s' b hb => ?_)
        rw [hb.1]
        have hle := hb.2.length_le
        refine (ifLoop_skips hblock fuel s' b.2.1 false (Nat.lt_of_le_of_lt hle hlen)
          (Nat.le_of_lt (Nat.lt_of_le_of_lt hle hlen))).bind fun s'' r hr => ?_
        rw [hr.1]
        exact (hnext s'' r.2 0 (Nat.lt_of_le_of_lt (hr.2.trans hb.2).length_le hlen)).behind
          ((hr.2.trans hb.2).trans hp)
      rw [if_neg hifs]
      cases hend : terminator l lineStart p with
      -- the end of the block the line stands in
      | some q =>
          obtain ⟨hq, hbegins⟩ := terminator_cases hend
          rw [act_eq (.inr (by simp [begins, hbegins])) (by rintro rfl; cases hend)
            (by rintro rfl; cases hend)]
          refine .pure ⟨rfl, ?_⟩
          rcases hq with rfl | rfl
          · exact hp
          · exact hstart
      | none =>
          have hnoend : (terminator l [] []).isSome = false := by
            rw [terminator] at hend ⊢
            split_ifs at hend ⊢
            rfl
          dsimp only
          by_cases hthen : (isKeyword (cstr "then") l || isKeyword (cstr "do") l) = true
          · rw [if_pos hthen, act_eq (.inr ?_) (by rintro rfl; exact absurd hthen (by decide))
              (by rintro rfl; exact absurd hthen (by decide))]
            · exact hbehind r List.suffix_rfl
            · rcases Bool.or_eq_true_iff.mp hthen with h | h
              · simp [begins, h]
              · simp [begins, h]
          rw [if_neg hthen, if_neg hnwhile]
          by_cases hwhiles : startsWith (cstr "while ") l = true
          · rw [if_pos hwhiles, act_eq (.inr (by simp [begins, hwhiles]))
              (by rintro rfl; exact absurd hwhiles (by decide))
              (by rintro rfl; exact absurd hwhiles (by decide))]
            -- the body is passed over once
            exact .after (whileCondBytes_comes hline) (hnested r)
          rw [if_neg hwhiles]
          by_cases hfors : startsWith (cstr "for ") l = true
          · have hact : act s (.line l) = s := act_eq (.inr (by simp [begins, hfors]))
              (by rintro rfl; exact absurd hfors (by decide))
                (by rintro rfl; exact absurd hfors (by decide))
            rw [if_pos hfors, hact]
            refine .after (forHeaderBytes_comes hline (hfor hfors)) ?_
            -- the words of the loop are expanded all the same
            exact .expanded (words_silent _) Iff.rfl rfl fun ws => hnested r
          rw [if_neg hfors]
          by_cases hcases : startsWith (cstr "case ") l = true
          · have hact : act s (.line l) = s := act_eq (.inr (by simp [begins, hcases]))
              (by rintro rfl; exact absurd hcases (by decide))
                (by rintro rfl; exact absurd hcases (by decide))
            rw [if_pos hcases, hact]
            refine .after (caseWordBytes_comes hline)
              (.expanded (word_silent _) Iff.rfl rfl fun w => ?_)
            refine (caseLoop_skips w (p.length + 1) s p false r (Nat.lt_succ_self _)).bind
              fun s' b hb => ?_
            rw [hb.1]
            exact (hnext s' b.2.1 b.2.2 (Nat.lt_of_le_of_lt hb.2.length_le hlen)).behind
              (hb.2.trans hp)
          rw [if_neg hcases]
          by_cases hbreak : l = cstr "break"
          · rw [if_pos hbreak, act, if_pos hbreak]
            exact .pure ⟨rfl, hp⟩
          rw [if_neg hbreak]
          by_cases hcont : l = cstr "continue"
          · rw [if_pos hcont, act, if_neg hbreak, if_pos hcont]
            exact .pure ⟨rfl, hp⟩
          rw [if_neg hcont]
          by_cases hret : startsWith (cstr "return") l = true
          · rw [if_pos hret, act_eq (.inr (by simp [begins, hret])) hbreak hcont]
            exact hbehind r List.suffix_rfl
          rw [if_neg hret]
          -- a line that begins nothing is a command, or two
          have hplain : isAndOr l = (findAndOr l).isSome := by
            have hbegins : begins l = false := by
              rw [Bool.or_eq_true, not_or] at hthen
              simp [begins, hnif, hifs, hnoend, hthen.1, hthen.2, hnwhile, hwhiles, hfors, hcases,
                hbreak, hcont, hret]
            rw [isAndOr, ha, hbegins]
            rfl
          rw [act, if_neg hbreak, if_neg hcont, hplain]
          cases hop : findAndOr l with
          | some op => exact .after (put_comes (Nat.lt_of_le_of_lt (findAndOr_le hop) hline)) (hnext _ p 0 hlen |>.behind hp)
          | none => exact hbehind r List.suffix_rfl

omit hblock in
/-- **A line that is not.** -/
theorem execLine_stuck {next : Sh (ShWorld ε) → CStr → Int → Logged (BlockNote (ShWorld ε))
    (Sh (ShWorld ε) × CStr × Int)}
    {l : CStr} (hbad : ¬ Skippable env (.line l)) (lineStart p : CStr) (r : Int)
    (b : Sh (ShWorld ε) × CStr × Int) :
    (execLineBytes (shRunner env never) fuel block next s l lineStart p false r).out ≠ .done b := by
  intro hb
  by_cases hfits : NameFits l
  · obtain ⟨a, ha⟩ := functionName_fits hfits
    rw [execLineBytes, Logged.bind_out, (functionNameBytes_comes ha).2, Outcome.bind_done] at hb
    by_cases hif : l = cstr "if"
    · subst hif
      cases ha
      cases hb
    by_cases hwhile : l = cstr "while"
    · subst hwhile
      cases ha
      cases hb
    by_cases hfor : startsWith (cstr "for ") l = true
    · obtain ⟨t, rfl⟩ := startsWith_iff.mp hfor
      have hlong : ¬ (forHeader (cstr "for " ++ t)).1.length < shVarNamsz := fun h =>
        hbad ⟨hfits, hif, hwhile, fun _ => h⟩
      have hname : functionName (cstr "for " ++ t) = .done none := rfl
      rw [hname] at ha
      cases ha
      have hout : (forHeaderBytes (σ := ShWorld ε) (cstr "for " ++ t)).out = .timeout :=
        (forHeaderBytes_stuck hlong).2
      have hhead : ∀ f : CStr × CStr → Logged (BlockNote (ShWorld ε)) (Sh (ShWorld ε) × CStr × Int),
          (forHeaderBytes (cstr "for " ++ t) >>= f).out ≠ .done b := by
        intro f h
        rw [Logged.bind_timeout hout] at h
        cases h
      exact hhead _ hb
    · exact hbad ⟨hfits, hif, hwhile, fun h => absurd h hfor⟩
  · obtain ⟨hout, _⟩ := functionNameBytes_overruns (σ := ShWorld ε) hfits
    obtain ⟨hfun, hlong⟩ := not_or.mp hfits
    rw [execLineBytes, Logged.bind_out, hout, functionName] at hb
    dsimp only at hb
    rw [if_neg hfun, if_pos (Nat.le_of_not_lt hlong)] at hb
    cases hb

end Walk

/-- **The walk over skipped code**, by induction on the fuel, of which there is more than text. -/
theorem shExecBlock_skips (fuel : Nat) : ∀ (s : Sh (ShWorld ε)) (p : CStr) (r : Int),
    p.length < fuel →
    Skips env s (Ends p) (shExecBlockBytes (shRunner env never) fuel s p false r) := by
  induction fuel with
  | zero => exact fun _ _ _ h => absurd h (Nat.not_lt_zero _)
  | succ fuel ih =>
      intro s p r hfuel
      have hskip : (skipWhile (σ := ShWorld ε) isBlank p).Comes Bounded (skipBlanks p) :=
        skipWhile_comes _ _
      have hsuffix := skipBlanks_suffix p
      rw [shExecBlockBytes]
      refine .after (look_comes (Nat.le_add_left _ _)) (.after hskip ?_)
      cases hp : skipBlanks p with
      | nil => exact .pure ⟨rfl, List.nil_suffix⟩
      | cons c q =>
          rw [hp] at hsuffix
          have hlen := hsuffix.length_le
          rw [List.length_cons] at hlen
          have hq : q <:+ p := (List.suffix_cons c q).trans hsuffix
          -- what is behind has less text, and fuel enough
          have hbehind : ∀ {t : CStr}, t <:+ q → Skips env s (Ends p)
              (shExecBlockBytes (shRunner env never) fuel s t false r) := fun {t} ht => by
            have := ht.length_le
            exact (ih s t r (by omega)).behind (ht.trans hq)
          dsimp only
          by_cases hc : c = newline
          · rw [if_pos hc]
            exact hbehind List.suffix_rfl
          rw [if_neg hc]
          by_cases hhash : c = hash
          · rw [if_pos hhash]
            exact .after (skipWhile_comes _ _) (hbehind (List.dropWhile_suffix _))
          rw [if_neg hhash]
          refine .after (logicalLineBytes_comes _) ?_
          have hline := logicalLine_lt (c :: q)
          have hrest := logicalLine_rest c q
          generalize logicalLine (c :: q) = line at *
          by_cases hnil : line.1 = []
          · rw [if_pos hnil]
            exact hbehind hrest
          rw [if_neg hnil]
          -- a line that can be skipped, or one that the walk does not get past
          by_cases hgood : Skippable env (.line line.1)
          · have := hrest.length_le
            exact .noted hgood (execLine_skips (fun s p h => ih s p 0 h)
              (fun s p r h => ih s p r h) hline hgood
              hsuffix (hrest.trans hq) (by omega) r)
          · exact .stuck hgood fun b => execLine_stuck hgood _ _ _ b

end Skips

/-! ## What several lines do -/

section After

variable {σ : Type} {s : Sh σ}

/-- The signal that a line leaves behind. -/
def signal? : BlockNote σ → Option Flow
  | .line l => if l = cstr "break" then some .brk else if l = cstr "continue" then some .cont else none
  | _ => none

/-- The last signal that is left behind. -/
def lastSignal (notes : List (BlockNote σ)) : Option Flow := (notes.filterMap signal?).getLast?

theorem act_flow (s : Sh σ) (e : BlockNote σ) : (act s e).flow = (signal? e).getD s.flow := by
  cases e with
  | line l =>
      rw [act, signal?]
      split_ifs <;> rfl
  | _ => rfl

theorem after_flow (notes : List (BlockNote σ)) : ∀ s :
    Sh σ, (after notes s).flow = (lastSignal notes).getD s.flow := by
  induction notes with
  | nil => exact fun _ => rfl
  | cons e notes ih =>
      intro s
      change (after notes (act s e)).flow = _
      rw [ih, act_flow, lastSignal, lastSignal, List.filterMap_cons]
      cases signal? e with
      | none => rfl
      | some f =>
          dsimp only
          rw [List.getLast?_cons]
          rfl

theorem after_same (notes : List (BlockNote σ)) : ∀ s : Sh σ,
    (after notes s).world = s.world ∧ (after notes s).returnVal = s.returnVal := by
  induction notes with
  | nil => exact fun _ => ⟨rfl, rfl⟩
  | cons e notes ih =>
      intro s
      obtain ⟨h1, h2⟩ := ih (act s e)
      have hact : (act s e).world = s.world ∧ (act s e).returnVal = s.returnVal := by
        cases e with
        | line l =>
            rw [act]
            split_ifs <;> exact ⟨rfl, rfl⟩
        | _ => exact ⟨rfl, rfl⟩
      exact ⟨h1.trans hact.1, h2.trans hact.2⟩

/-- Does the line set the last status? -/
def setsStatus : BlockNote σ → Bool
  | .line l => isAndOr l
  | _ => false

theorem act_status (s : Sh σ) (e : BlockNote σ) :
    (act s e).lastStatus = if setsStatus e then 0 else s.lastStatus := by
  cases e with
  | line l =>
      have hbreak : isAndOr (cstr "break") = false := by decide
      have hcont : isAndOr (cstr "continue") = false := by decide
      rw [act, setsStatus]
      by_cases h1 : l = cstr "break"
      · rw [if_pos h1, h1, hbreak]
        rfl
      by_cases h2 : l = cstr "continue"
      · rw [if_neg h1, if_pos h2, h2, hcont]
        rfl
      rw [if_neg h1, if_neg h2]
      split <;> rfl
  | _ => rfl

theorem after_status (notes : List (BlockNote σ)) : ∀ s : Sh σ,
    (after notes s).lastStatus = if notes.any setsStatus then 0 else s.lastStatus := by
  induction notes with
  | nil => exact fun _ => rfl
  | cons e notes ih =>
      intro s
      change (after notes (act s e)).lastStatus = _
      rw [ih, act_status, List.any_cons]
      cases setsStatus e with
      | true => simp
      | false => rfl

/-- The notes leave the state as it is. -/
theorem after_eq_iff {notes : List (BlockNote σ)} : after notes s = s ↔
    (∀ l, .line l ∈ notes → isAndOr l = true → s.lastStatus = 0) ∧ ∀ f, lastSignal notes = some f
      → f = s.flow := by
  obtain ⟨hworld, hval⟩ := after_same notes s
  have hflow := after_flow notes s
  have hstatus := after_status notes s
  constructor
  · intro h
    rw [h] at hflow hstatus
    constructor
    · intro l hl hop
      -- a line that is run or not sets the status to zero
      have hany : notes.any setsStatus = true := List.any_eq_true.mpr ⟨.line l, hl, hop⟩
      rw [hany, if_pos rfl] at hstatus
      exact hstatus
    · intro f hf
      rw [hf] at hflow
      exact hflow.symm
  · intro h
    obtain ⟨hop, hsignal⟩ := h
    have hflow' : (after notes s).flow = s.flow := by
      rw [hflow]
      cases hlast : lastSignal notes with
      | none => rfl
      | some f => exact hsignal f hlast
    have hstatus' : (after notes s).lastStatus = s.lastStatus := by
      rw [hstatus]
      split
      · next hany =>
        obtain ⟨e, he, hsets⟩ := List.any_eq_true.mp hany
        cases e with
        | line l => exact (hop l he hsets).symm
        | _ => cases hsets
      · rfl
    cases hs : after notes s with
    -- the state has no other fields
    | mk flow val status world =>
        rw [hs] at hflow' hstatus' hworld hval
        cases s
        cases hflow'
        cases hstatus'
        cases hworld
        cases hval
        rfl

end After

end BlockNote

open BlockNote

section Main

variable {env : ShEnv ε} {s : Sh (ShWorld ε)} {p : CStr}

/-- Skipping the text comes to an end with the cursor in the text, and leaves the state as it is,
whatever commands would do. -/
def SkipsQuietly (env : ShEnv ε) (s : Sh (ShWorld ε)) (p : CStr) : Prop :=
  ∃ (fuel : Nat) (p' : CStr) (r : Int), p' <:+ p ∧
    ∀ exec, shExecBlock (shRunner env exec) fuel s p false 0 = .done (s, p', r)

/-- What the walk over skipped code notes down. -/
def skipNotes (env : ShEnv ε) (s : Sh (ShWorld ε)) (p : CStr) : List (BlockNote (ShWorld ε)) :=
  (shExecBlockBytes (shRunner env never) (p.length + 1) s p false 0).log

/-- **Skipped code has no effect exactly if everything in it is skippable, there is no ` && ` or `
|| ` (but where the last status is zero), and no signal is left behind (but the one there was).** -/
theorem skips_quietly_iff (env : ShEnv ε) (s : Sh (ShWorld ε)) (p : CStr) : SkipsQuietly env s p ↔
    (∀ e ∈ skipNotes env s p, e.Skippable env) ∧
      (∀ l, .line l ∈ skipNotes env s p → isAndOr l = true → s.lastStatus = 0) ∧
      ∀ f, lastSignal (skipNotes env s p) = some f → f = s.flow := by
  rw [← after_eq_iff]
  have hskips : ∀ n, p.length < n → Skips env s (Ends p)
      (shExecBlockBytes (shRunner env never) n s p false 0) :=
    fun n hn => shExecBlock_skips n s p 0 hn
  constructor
  · intro h
    obtain ⟨fuel, p', r, _, hrun⟩ := h
    -- the same run, with fuel that is surely enough
    have hout := (shExecBlock_mirrors (R := shRunner env never) fuel s p false 0).out.trans
      (hrun never)
    have hmore := (shExecBlock_below (Runner.Under.refl (shRunner env never)) fuel
      (Nat.le_max_left fuel (p.length + 1)) s p false 0).done hout
    rw [hmore] at hout
    obtain ⟨hend, hgood⟩ := (hskips (max fuel (p.length + 1)) (Nat.le_max_right _ _)).done _ hout
    -- and with just enough
    have hbelow := shExecBlock_below (Runner.Under.refl (shRunner env never)) (p.length + 1)
      (Nat.le_max_right fuel (p.length + 1)) s p false 0
    rcases hbelow with heq | ⟨htimeout, hbegin⟩
    · rw [skipNotes, heq]
      exact ⟨hgood, hend.1.symm⟩
    · have hnotes : ∀ e ∈ (shExecBlockBytes (shRunner env never) (p.length + 1) s p false 0).log,
          e.Skippable env :=
        fun e he => hgood e (hbegin.subset he)
      obtain ⟨a, ha⟩ := (hskips (p.length + 1) (Nat.lt_succ_self _)).returns trivial hnotes
      rw [htimeout] at ha
      cases ha
  · intro h
    obtain ⟨hgood, hafter⟩ := h
    have hwalk := hskips (p.length + 1) (Nat.lt_succ_self _)
    obtain ⟨⟨s', p', r⟩, hout⟩ := hwalk.returns trivial hgood
    obtain ⟨hend, _⟩ := hwalk.done _ hout
    obtain ⟨hs, hp⟩ := hend
    change s' = after (skipNotes env s p) s at hs
    rw [hafter] at hs
    subst hs
    refine ⟨p.length + 1, p', r, hp, fun exec => ?_⟩
    have hsame := (shExecBlock_below (never_under env exec) (p.length + 1)
      (Nat.le_refl _) s' p false 0).done hout
    rw [hsame] at hout
    exact (shExecBlock_mirrors _ _ _ _ _).out.symm.trans hout

end Main

/-- A `break` in a branch that is not taken. -/
theorem skipped_break_signals : ¬ SkipsQuietly stillEnv stillShell (cstr "break\nfi\n") := by
  intro h
  have hlast : lastSignal (skipNotes stillEnv stillShell (cstr "break\nfi\n"))
    = some .brk := by decide +kernel
  exact absurd (((skips_quietly_iff _ _ _).mp h).2.2 _ hlast) (by decide)

end VnlKernel
