import VnlKernel.Proof.ShellRedirect
import VnlKernel.Proof.ShellQuote

/-!
# Pipelines

The stages of a pipeline are run one after another, and what one printed is handed to the next
as the variable `STDIN_CONTENT`. The texts of the stages and the buffer are static, and the
variable is shorter than the buffer. What a pipeline is for is said by `Piped`; the loop over
the stages comes to it if the stages are gentle: they leave the statics of pipelines alone, and
print no more than the variable holds.
-/

namespace VnlKernel

variable {ε : Type} {env : ShEnv ε} {exec : Command ε}

/-- The state in which a pipeline begins. -/
def pipelineStart (s : Sh (ShWorld ε)) (line : CStr) : Sh (ShWorld ε) :=
  let s := { s with world := { s.world with stages := fun i => (splitStages line).getD i (s.world.stages i) } }
  s.setKout s.kout.clear

/-- The state behind a capture. -/
def released (s : Sh (ShWorld ε)) (b : OutBuf) : Sh (ShWorld ε) :=
  s.setKout { s.kout.reset with yields := s.kout.yields ++ [s.kout.bufs b] }

/-- The input of a stage: nothing for the first, for the others the value of the variable. -/
def Handed (input : Option CStr) (s s' : Sh (ShWorld ε)) : Prop :=
  match input with
  | none => s' = s
  | some text => varGet s'.world.vars stdinContent = some text ∧ ∃ vars, s' = s.setVars vars

/-- A pipeline as it should be: the commands are run in order, each with what the one before it
printed as its input, as much of it as fits into the buffer. -/
inductive Piped (env : ShEnv ε) (exec : Command ε) :
    List CStr → Option CStr → Sh (ShWorld ε) → Sh (ShWorld ε) × Int → Prop
  | last {c cmd : CStr} {input : Option CStr} {s s₁ s₂ : Sh (ShWorld ε)} {res : Sh (ShWorld ε) × Int}
      (hexpand : expandWord env exec shLineMax s c = .done (s₁, cmd)) (hinput : Handed input s₁ s₂)
      (hrun : exec s₂ cmd = .done res) : Piped env exec [c] input s res
  | stage {c cmd : CStr} {cs : List CStr} {input : Option CStr} {s s₁ s₂ s₃ : Sh (ShWorld ε)} {r : Int} {n : Nest}
      {res : Sh (ShWorld ε) × Int} (hexpand : expandWord env exec shLineMax s c = .done (s₁, cmd))
      (hinput : Handed input s₁ s₂) (hrun : exec (s₂.setKout (s₂.kout.redirect .pipe)) cmd = .done (s₃, r))
      (hprint : s₃.kout = n.play (s₂.kout.redirect .pipe))
      (hrest : Piped env exec cs (some (n.own.take (shPipeBuf - 1))) (released s₃ .pipe) res) :
      Piped env exec (c :: cs) input s res

/-- The variable exists, or can be made. -/
def StdinRoom (vars : List ShVar) : Prop := vars.any (·.name = stdinContent) = true ∨ vars.length < shMaxVars

/-- The state in which a stage is run. -/
def stageReady (i : Nat) (s : Sh (ShWorld ε)) : Sh (ShWorld ε) :=
  if i > 0 then setStdin s (s.kout.bufs .pipe) else s

/-- From stage `i` on, expanding a stage leaves the statics alone and the variable can be set, and
every stage but the last is captured soundly and prints no more than the variable holds. -/
def Gentle (env : ShEnv ε) (exec : Command ε) : Nat → Nat → Sh (ShWorld ε) → Prop
  | left, i, s => ∀ s₁ cmd, expandWord env exec shLineMax s (s.world.stages i) = .done (s₁, cmd) →
      (∀ m : Nest, s₁.kout = m.play s.kout → m.Avoids .pipe) ∧ (0 < i → StdinRoom s₁.world.vars) ∧
      match left with
      | 0 => True
      | left + 1 => ∀ s₃ r,
          exec ((stageReady i s₁).setKout ((stageReady i s₁).kout.redirect .pipe)) cmd = .done (s₃, r) →
          (∀ n : Nest, s₃.kout = n.play ((stageReady i s₁).kout.redirect .pipe) →
            Nest.Sound .pipe n ((stageReady i s₁).kout.bufs .pipe) ∧ n.own.length < shVarValsz)
          ∧ Gentle env exec left (i + 1) (released s₃ .pipe)

/-! ## The variable -/

theorem varGet_varUpdate {name val : CStr} {exported : Bool} : ∀ {vars : List ShVar},
    vars.any (·.name = name) = true → varGet (varUpdate name val exported vars) name = some val
  | [], h => by cases h
  | v :: vs, h => by
      rw [varUpdate]
      by_cases hv : v.name = name
      · rw [if_pos hv, varGet, List.find?_cons_of_pos (by simpa using hv)]
        rfl
      · have hrest : vs.any (·.name = name) = true := by
          simpa [hv] using h
        have ih : varGet (varUpdate name val exported vs) name = some val := varGet_varUpdate hrest
        rw [if_neg hv, varGet, List.find?_cons_of_neg (by simpa using hv)]
        exact ih

/-- A short text is handed over. -/
theorem varGet_setStdin {s : Sh (ShWorld ε)} {text : CStr} (hroom : StdinRoom s.world.vars)
    (hlen : text.length < shVarValsz) : varGet (setStdin s text).world.vars stdinContent
      = some text := by
  show varGet (varSet s.world.vars stdinContent text false) stdinContent = some text
  rw [varSet, List.take_of_length_le (by omega)]
  by_cases hany : s.world.vars.any (·.name = stdinContent) = true
  · rw [if_pos hany]
    exact varGet_varUpdate hany
  · have hfull := hroom.resolve_left hany
    rw [if_neg hany, if_neg (by omega), varGet, List.find?_append]
    have hnone : s.world.vars.find? (fun v => v.name = stdinContent) = none := by
      rw [List.find?_eq_none]
      intro v hv hname
      exact hany (List.any_eq_true.mpr ⟨v, hv, hname⟩)
    rw [hnone]
    rfl

/-! ## The split -/

/-- The stages and the bars between them are the line, if there are not too many. -/
theorem splitLoop_join : ∀ (l : CStr) (left : Nat) (t : Split),
    (splitLoop left t l).2.length < left →
    [pipeSign].intercalate ((splitLoop left t l).1 :: (splitLoop left t l).2) = l
  | [], left, t, _ => by rw [splitLoop.eq_def]; rfl
  | c :: l, left, t, h => by
      rw [splitLoop.eq_def] at h ⊢
      dsimp only at h ⊢
      by_cases hcut : t.cuts c l = true
      · have hc : c = pipeSign := by
          simp only [Split.cuts, Bool.and_eq_true, decide_eq_true_eq] at hcut
          exact hcut.1.1.1.1
        rw [if_pos hcut] at h ⊢
        rcases left with _ | _ | left
        · exact absurd h (by simp)
        · exact absurd h (by simp)
        · dsimp only at h ⊢
          have ih := splitLoop_join l (left + 1) t (by simpa using h)
          rw [hc, List.intercalate_cons_cons, ih]
          rfl
      · rw [if_neg hcut] at h ⊢
        dsimp only at h ⊢
        have ih := splitLoop_join l left (t.next c) h
        rw [List.intercalate_cons_cons_left, ih]

/-- A line that is short enough is in its stages. -/
theorem splitStages_eq {line : CStr} (hline : line.length < shLineMax) :
    splitStages line = (splitLoop 8 ⟨0, false, false⟩ line).1 ::
      (splitLoop 8 ⟨0, false, false⟩ line).2 := by
  have hshort : ∀ (l : CStr) (left : Nat) (t : Split),
    ∀ st ∈ (splitLoop left t l).1 :: (splitLoop left t l).2,
      st.length ≤ l.length := by
    intro l left t
    fun_induction splitLoop left t l with
    | case1 => simp
    | case2 => simp
    | case3 => simp
    | case4 t c p hcut left stage stages heq ih =>
        intro st hst
        rw [heq] at ih
        rcases List.mem_cons.mp hst with rfl | hst
        · simp
        · have := ih st hst
          rw [List.length_cons]
          omega
    | case5 left t c p hcut stage stages heq ih =>
        intro st hst
        rw [heq] at ih
        rcases List.mem_cons.mp hst with rfl | hst
        · have := ih stage (List.mem_cons_self ..)
          rw [List.length_cons, List.length_cons]
          omega
        · have := ih st (List.mem_cons_of_mem _ hst)
          rw [List.length_cons]
          omega
  rw [splitStages]
  refine (List.map_congr_left fun st hst => List.take_of_length_le ?_).trans (List.map_id _)
  have := hshort line 8 ⟨0, false, false⟩ st hst
  omega

theorem splitStages_join {line : CStr} (hline : line.length < shLineMax)
    (hlen : (splitStages line).length ≤ 8) :
    [pipeSign].intercalate (splitStages line) = line := by
  rw [splitStages_eq hline] at hlen ⊢
  exact splitLoop_join line 8 _ (by rw [List.length_cons] at hlen; omega)

/-! ## Where the line is cut -/

/-- The quote that is open behind a text. -/
def openQuote : Option UInt8 → CStr → Option UInt8
  | q, [] => q
  | none, c :: p => openQuote (if c = squote ∨ c = dquote then some c else none) p
  | some q, c :: p => openQuote (if c = q then none else some q) p

/-- What of a text is outside of quotes. -/
def unquoted : Option UInt8 → CStr → CStr
  | _, [] => []
  | none, c :: p => if c = squote ∨ c = dquote then unquoted (some c) p else c :: unquoted none p
  | some q, c :: p => unquoted (if c = q then none else some q) p

/-- A bar between two texts separates commands: no quote is open before it, parentheses outside of
quotes are even, and it is not the first of two bars. -/
structure Separates (a b : CStr) : Prop where
  closed : openQuote none a = none
  even : parenDepth (unquoted none a) = 0
  single : b.head? ≠ some pipeSign

/-- The texts are what is before and what is behind a bar between two stages. -/
def Between (stages : List CStr) (a b : CStr) : Prop :=
  ∃ xs ys, xs ≠ [] ∧ ys ≠ [] ∧ stages = xs ++ ys ∧ a = [pipeSign].intercalate xs
    ∧ b = [pipeSign].intercalate ys

/-- The quote that the splitter remembers. -/
def Split.quote (t : Split) : Option UInt8 :=
  if t.inSq then some squote else if t.inDq then some dquote else none

/-- One byte: the quote and the depth go on, and one kind of quote is open at a time. -/
theorem Split.next_quote {t : Split} (ht : (t.inSq && t.inDq) = false) (c : UInt8) (l : CStr) :
    ((t.next c).inSq && (t.next c).inDq) = false
      ∧ openQuote t.quote (c :: l) = openQuote (t.next c).quote l
      ∧ t.depth + parenDepth (unquoted t.quote (c :: l))
          = (t.next c).depth + parenDepth (unquoted (t.next c).quote l) := by
  obtain ⟨d, sq, dq⟩ := t
  rcases sq with _ | _ <;> rcases dq with _ | _
  · -- outside of quotes
    have hquote : Split.quote ⟨d, false, false⟩ = none := rfl
    by_cases hs : c = squote
    · subst hs
      exact ⟨rfl, rfl, rfl⟩
    by_cases hd : c = dquote
    · subst hd
      exact ⟨rfl, rfl, rfl⟩
    have hcut : ¬ (c = squote ∨ c = dquote) := by simp [hs, hd]
    have hnext : Split.next ⟨d, false, false⟩ c
        = ⟨d + if c = parenOpen then 1 else if c = parenClose then -1 else 0, false, false⟩ := by
      rw [Split.next, if_neg (by simp [hs]), if_neg (by simp [hd]), if_pos ⟨rfl, rfl⟩]
      split
      · rfl
      · split
        · rfl
        · rw [Int.add_zero]
    rw [hnext, hquote, openQuote, unquoted, if_neg hcut, if_neg hcut, parenDepth, ← Int.add_assoc]
    exact ⟨rfl, rfl, rfl⟩
  · have hquote : Split.quote ⟨d, false, true⟩ = some dquote := rfl
    have hnext : Split.next ⟨d, false, true⟩ c
        = ⟨d, false, if c = dquote then false else true⟩ := by
      rw [Split.next, if_neg (by simp)]
      split <;> simp_all
    rw [hnext, hquote, openQuote, unquoted]
    split
    · exact ⟨rfl, rfl, rfl⟩
    · exact ⟨rfl, rfl, rfl⟩
  · have hquote : Split.quote ⟨d, true, false⟩ = some squote := rfl
    have hnext : Split.next ⟨d, true, false⟩ c
        = ⟨d, if c = squote then false else true, false⟩ := by
      rw [Split.next]
      split <;> simp_all
    rw [hnext, hquote, openQuote, unquoted]
    split
    · exact ⟨rfl, rfl, rfl⟩
    · exact ⟨rfl, rfl, rfl⟩
  · cases ht

/-- What the splitter remembers is the open quote, and how deep it is outside of quotes. -/
theorem Split.after_quote : ∀ (l : CStr) {t : Split}, (t.inSq && t.inDq) = false →
    ((t.after l).inSq && (t.after l).inDq) = false ∧ (t.after l).quote = openQuote t.quote l
      ∧ (t.after l).depth = t.depth + parenDepth (unquoted t.quote l)
  | [], t, ht => by
      have hnil : openQuote t.quote [] = t.quote ∧ unquoted t.quote [] = [] := by
        cases t.quote <;> exact ⟨rfl, rfl⟩
      rw [hnil.1, hnil.2, parenDepth, Int.add_zero]
      exact ⟨ht, rfl, rfl⟩
  | c :: l, t, ht => by
      obtain ⟨hone, hopen, hdepth⟩ := Split.next_quote ht c l
      rw [hopen, hdepth]
      exact Split.after_quote l hone

/-- The splitter cuts at the bars that separate. -/
theorem cuts_iff_separates {a b : CStr} :
    (Split.after ⟨0, false, false⟩ a).cuts pipeSign b = true ↔ Separates a b := by
  obtain ⟨hone, hquote, hdepth⟩ := Split.after_quote a (t := ⟨0, false, false⟩) rfl
  have hstart : Split.quote ⟨0, false, false⟩ = none := rfl
  rw [hstart, Int.zero_add] at hdepth
  rw [hstart] at hquote
  generalize Split.after ⟨0, false, false⟩ a = t at hone hquote hdepth ⊢
  have hopen : t.quote = none ↔ t.inSq = false ∧ t.inDq = false := by
    rw [Split.quote]
    cases t.inSq <;> cases t.inDq <;> simp
  have hcuts : t.cuts pipeSign b = true
      ↔ (t.inSq = false ∧ t.inDq = false) ∧ t.depth = 0 ∧ b.head? ≠ some pipeSign := by
    simp [Split.cuts, and_assoc]
  rw [hcuts, ← hopen, hquote, hdepth]
  exact ⟨fun h => ⟨h.1, h.2.1, h.2.2⟩, fun h => ⟨h.closed, h.even, h.single⟩⟩

theorem between_nil_cons {stages : List CStr} (hs : stages ≠ []) {a b : CStr} :
    Between ([] :: stages) a b ↔ (a = [] ∧ b = [pipeSign].intercalate stages)
      ∨ ∃ a', a = pipeSign :: a' ∧ Between stages a' b := by
  constructor
  · rintro ⟨xs, ys, hx, hy, he, ha, hb⟩
    cases xs with
    | nil => exact absurd rfl hx
    | cons x xs =>
        obtain ⟨rfl, htail⟩ := List.cons.inj he
        cases xs with
        | nil => exact Or.inl ⟨by simpa using ha, by rw [hb, htail]; rfl⟩
        | cons x xs =>
            rw [List.intercalate_cons_cons] at ha
            exact Or.inr ⟨_, ha, _, ys, List.cons_ne_nil _ _, hy, htail, rfl, hb⟩
  · rintro (⟨rfl, rfl⟩ | ⟨a', rfl, xs, ys, hx, hy, rfl, rfl, rfl⟩)
    · exact ⟨[[]], stages, List.cons_ne_nil _ _, hs, rfl, by simp, rfl⟩
    · refine ⟨[] :: xs, ys, List.cons_ne_nil _ _, hy, rfl, ?_, rfl⟩
      cases xs with
      | nil => exact absurd rfl hx
      | cons x xs => rw [List.intercalate_cons_cons]; rfl

theorem between_cons_cons {st : CStr} {stages : List CStr} {c : UInt8} {a b : CStr} :
    Between ((c :: st) :: stages) a b ↔ ∃ a', a = c :: a' ∧ Between (st :: stages) a' b := by
  constructor
  · rintro ⟨xs, ys, hx, hy, he, ha, hb⟩
    cases xs with
    | nil => exact absurd rfl hx
    | cons x xs =>
        obtain ⟨rfl, rfl⟩ := List.cons.inj he
        rw [List.intercalate_cons_cons_left] at ha
        exact ⟨_, ha, st :: xs, ys, List.cons_ne_nil _ _, hy, rfl, rfl, hb⟩
  · rintro ⟨a', rfl, xs, ys, hx, hy, he, rfl, rfl⟩
    cases xs with
    | nil => exact absurd rfl hx
    | cons x xs =>
        obtain ⟨rfl, rfl⟩ := List.cons.inj he
        exact ⟨(c :: st) :: xs, ys, List.cons_ne_nil _ _, hy,
          rfl, by rw [List.intercalate_cons_cons_left], rfl⟩

/-- The stages meet where the splitter cuts. -/
theorem splitLoop_between {l : CStr} {left : Nat} {t : Split} {a b : CStr}
    (h : (splitLoop left t l).2.length < left) (he : l = a ++ pipeSign :: b) :
    Between ((splitLoop left t l).1 :: (splitLoop left t l).2) a b
      ↔ (t.after a).cuts pipeSign b = true := by
  induction l generalizing left t a b with
  | nil => exact absurd he (by simp)
  | cons c l ih =>
      rw [splitLoop.eq_def] at h ⊢
      dsimp only at h ⊢
      by_cases hcut : t.cuts c l = true
      · have hc : c = pipeSign := by
          simp only [Split.cuts, Bool.and_eq_true, decide_eq_true_eq] at hcut
          exact hcut.1.1.1.1
        subst hc
        rw [if_pos hcut] at h ⊢
        rcases left with _ | _ | left
        · exact absurd h (by simp)
        · exact absurd h (by simp)
        · dsimp only at h ⊢
          have hfew : (splitLoop (left + 1) t l).2.length < left + 1 := by simpa using h
          rw [between_nil_cons (List.cons_ne_nil _ _), splitLoop_join l (left + 1) t hfew]
          cases a with
          | nil =>
              obtain rfl : l = b := (List.cons.inj he).2
              exact ⟨fun _ => hcut, fun _ => Or.inl ⟨rfl, rfl⟩⟩
          | cons d a =>
              obtain ⟨rfl, rfl⟩ := List.cons.inj he
              -- a bar changes nothing of what is remembered
              have hnext : t.next pipeSign
                = t := by simp [Split.next, pipeSign, squote, dquote, parenOpen, parenClose]
              rw [Split.after, List.foldl_cons, hnext]
              refine Iff.trans ⟨?_, fun h => Or.inr ⟨_, rfl, h⟩⟩ (ih hfew rfl)
              rintro (⟨ha, -⟩ | ⟨a', ha, h⟩)
              · cases ha
              · obtain rfl := (List.cons.inj ha).2
                exact h
      · rw [if_neg hcut] at h ⊢
        dsimp only at h ⊢
        rw [between_cons_cons]
        cases a with
        | nil =>
            obtain ⟨rfl, rfl⟩ := List.cons.inj he
            refine ⟨?_, fun h => absurd h hcut⟩
            rintro ⟨_, ha, _⟩
            exact absurd ha.symm (List.cons_ne_nil _ _)
        | cons d a =>
            obtain ⟨rfl, rfl⟩ := List.cons.inj he
            rw [Split.after, List.foldl_cons]
            refine Iff.trans ⟨?_, fun h => ⟨_, rfl, h⟩⟩ (ih h rfl)
            rintro ⟨a', ha, h⟩
            obtain rfl := (List.cons.inj ha).2
            exact h

/-- **A line is cut at the bars that separate its commands, and nowhere else.** -/
theorem splitStages_between {line a b : CStr} (hline : line.length < shLineMax)
    (hlen : (splitStages line).length ≤ 8) (he : line = a ++ pipeSign :: b) :
    Between (splitStages line) a b ↔ Separates a b := by
  rw [splitStages_eq hline] at hlen ⊢
  rw [List.length_cons] at hlen
  exact (splitLoop_between (by omega) he).trans cuts_iff_separates

example : splitStages (cstr "echo '|'|(a|b)|c") = [cstr "echo '|'", cstr "(a|b)", cstr "c"] := by decide +kernel

/-! ## The loop -/

/-- What the loop holds on to between two stages: behind the first, nothing is captured, and the
buffer is the input of the stage to come. -/
def StageInput (i : Nat) (s : Sh (ShWorld ε)) (input : Option CStr) : Prop :=
  (i = 0 → input = none) ∧
  (0 < i → s.kout.buf = none ∧ input = some (s.kout.bufs .pipe) ∧ (s.kout.bufs .pipe).length < shVarValsz)

/-- The stage is run with its input. -/
theorem StageInput.handed {i : Nat} {s s₁ : Sh (ShWorld ε)} {input : Option CStr} {m : Nest}
    (h : StageInput i s input) (hm : m.Leads s.world s₁.world) (hav : m.Avoids .pipe)
    (hroom : 0 < i → StdinRoom s₁.world.vars) : Handed input s₁ (stageReady i s₁) := by
  rw [stageReady]
  rcases Nat.eq_zero_or_pos i with rfl | hi
  · rw [h.1 rfl]
    rfl
  · obtain ⟨hbuf, rfl, hlen⟩ := h.2 hi
    have hkeep : s₁.kout.bufs .pipe = s.kout.bufs .pipe := by
      have hplay := Nest.play_bufs (k := s.kout) hav (by rw [hbuf]; exact fun he => by cases he)
      rw [← hplay]
      exact congrArg (fun k : Kout => k.bufs .pipe) hm.kout
    rw [if_pos hi, hkeep]
    exact ⟨varGet_setStdin (hroom hi) hlen, _, rfl⟩

/-- **Gentle stages are piped.** From stage `i` on, with the input of the stage in the buffer. -/
theorem stageLoop_piped (hexec : exec.Nests) :
    ∀ (left i : Nat) (s : Sh (ShWorld ε)) (cs : List CStr)
    (input : Option CStr) (res : Sh (ShWorld ε) × Int), Gentle env exec left i s →
    cs.length = left + 1 → (∀ j, j < cs.length → cs[j]? = some (s.world.stages (i + j))) →
    StageInput i s input → stageLoop env exec left i s = .done res
      → Piped env exec cs input s res := by
  intro left
  induction left with
  | zero =>
      intro i s cs input res hg hcs htexts hinput h
      obtain ⟨c, rfl⟩ := List.length_eq_one_iff.mp hcs
      have hc : c = s.world.stages i := Option.some.inj (htexts 0 (by simp))
      rw [stageLoop] at h
      obtain ⟨⟨s₁, cmd⟩, hexpand, hrun⟩ := Outcome.bind_eq_done h
      obtain ⟨m, hm⟩ := expandWord_within (nested_expands hexec) _ _ _ _ _ hexpand
      rw [Gentle] at hg
      obtain ⟨hav, hroom, _⟩ := hg s₁ cmd hexpand
      -- the last stage runs with the output that the pipeline was given
      exact .last (hc ▸ hexpand) (hinput.handed hm (hav m hm.kout) hroom) hrun
  | succ left ih =>
      intro i s cs input res hg hcs htexts hinput h
      obtain ⟨c, cs, rfl⟩ : ∃ c cs', cs = c :: cs' := by
        cases cs with
        | nil => cases hcs
        | cons c cs => exact ⟨c, cs, rfl⟩
      have hc : c = s.world.stages i := Option.some.inj (htexts 0 (by simp))
      rw [stageLoop] at h
      obtain ⟨⟨s₁, cmd⟩, hexpand, h⟩ := Outcome.bind_eq_done h
      obtain ⟨m, hm⟩ := expandWord_within (nested_expands hexec) _ _ _ _ _ hexpand
      rw [Gentle] at hg
      obtain ⟨hav, hroom, hstage⟩ := hg s₁ cmd hexpand
      have havm := hav m hm.kout
      have hhanded := hinput.handed hm havm hroom
      -- what the stage prints goes into the buffer, and is the input of the next
      change (capture .pipe exec (stageReady i s₁) cmd >>= fun x =>
        stageLoop env exec left (i + 1) x.1) = _ at h
      obtain ⟨⟨s₄, r₄, text⟩, hcap, h⟩ := Outcome.bind_eq_done h
      obtain ⟨⟨s₃, r₃⟩, hrun, hres⟩ := Outcome.bind_eq_done hcap
      cases hres
      obtain ⟨n, hn⟩ := hexec _ _ s₃ _ hrun
      obtain ⟨hsound, hgentle⟩ := hstage s₃ _ hrun
      obtain ⟨hsound, hlen⟩ := hsound n hn.kout
      -- the buffer holds what was printed, cut to its size
      have htext : s₃.kout.bufs .pipe = n.own.take (shPipeBuf - 1) := by
        rw [← hsound.yields]
        exact congrArg (fun k : Kout => k.bufs .pipe) hn.kout
      refine .stage (hc ▸ hexpand) hhanded hrun hn.kout
        (ih (i + 1) (released s₃ .pipe) cs _ res hgentle ?_ ?_ ?_ h)
      · simpa using hcs
      · -- neither the expansion nor the command wrote over the stages to come
        intro j hj
        have hready : (stageReady i s₁).world.stages = s₁.world.stages := by
          rw [stageReady]
          split <;> rfl
        have h₁ : s₁.world.stages (i + (j + 1)) = s.world.stages (i + (j + 1)) :=
          hm.stages havm _ (by omega)
        have h₃ : s₃.world.stages (i + (j + 1)) = (stageReady i s₁).world.stages (i + (j + 1)) :=
          hn.stages hsound.avoids _ (by omega)
        have hnext := htexts (j + 1) (by rw [List.length_cons]; omega)
        show cs[j]? = some (s₃.world.stages (i + 1 + j))
        rw [show i + 1 + j = i + (j + 1) by omega, h₃, hready, h₁]
        exact hnext
      · refine ⟨fun hz => absurd hz (by omega), fun _ => ⟨rfl, ?_, ?_⟩⟩
        · rw [← htext]
          rfl
        · show (s₃.kout.bufs .pipe).length < shVarValsz
          rw [htext, List.length_take]
          omega

/-- **Pipelines pass on what gentle stages print.** The stages are the line, cut at the bars that
are outside of quotes and parentheses; they are run in order, and each finds what the one before it
printed. -/
theorem gentle_pipelines {env : ShEnv ε} (henv : env.Nests) (fuel : Nat) {s s' : Sh (ShWorld ε)} {line : CStr}
    {r : Int} (hline : line.length < shLineMax) (hmany : 1 < (splitStages line).length)
    (hfew : (splitStages line).length ≤ 8)
    (hgentle : Gentle env (shExec env (shRunSimple env) fuel) ((splitStages line).length - 1) 0 (pipelineStart s line))
    (h : shRunPipeline env (shExec env (shRunSimple env) fuel) s line = .done (s', r)) :
    [pipeSign].intercalate (splitStages line) = line
      ∧ (∀ a b, line = a ++ pipeSign :: b → (Between (splitStages line) a b ↔ Separates a b))
      ∧ Piped env (shExec env (shRunSimple env) fuel) (splitStages line) none (pipelineStart s line) (s', r) := by
  refine ⟨splitStages_join hline hfew, fun a b he => splitStages_between hline hfew he, ?_⟩
  refine stageLoop_piped (shExec_nests henv fuel) _ 0 _ _ _ _ hgentle (by omega) ?_
    ⟨fun _ => rfl, fun h => absurd h (by omega)⟩ ?_
  · intro j hj
    show (splitStages line)[j]? = some ((splitStages line).getD (0 + j) (s.world.stages (0 + j)))
    rw [Nat.zero_add, List.getD_eq_getElem?_getD, List.getElem?_eq_getElem hj]
    rfl
  · rw [shRunPipeline] at h
    dsimp only at h
    split at h
    · next stage hst =>
      rw [hst] at hmany
      exact absurd hmany (by simp)
    · exact h

/-- A plain `echo` prints its argument. -/
theorem shExec_bareEcho {S : CStr} (h : BareWord S) (hq : squote ∉ S) (hnl : newline ∉ S)
    (hlen : S.length + 7 < shLineMax) (fuel : Nat) (s : Sh (ShWorld ε)) :
    shExec env (shRunSimple env) (fuel + 1) s (bareEcho S)
      = .done (s.setKout (s.kout.puts (echoLine [S])), 0) := by
  have hbare : (bareEcho S).length = 5 + S.length := List.length_append
  rw [shExec, shExecOnce, expandWord_plain (fun c hc => h.ordinary hq hc) (by simp [bareEcho, cstr])
    (by omega),
    Outcome.bind_done]
  dsimp only
  rw [h.tokenize_two hq hnl hlen, Outcome.bind_done]
  rfl

/-- One line of text, handed over. -/
theorem gentle_pipelines_echo : ∃ (s' : Sh (ShWorld (List (CStr × CStr)))) (r : Int),
    shRunPipeline fileEnv (shExec fileEnv (shRunSimple fileEnv) 2) fileShell (cstr "echo a|true") = .done (s', r)
      ∧ varGet s'.world.vars stdinContent = some (cstr "a\n")
      ∧ Piped fileEnv (shExec fileEnv (shRunSimple fileEnv) 2) [cstr "echo a", cstr "true"] none
          (pipelineStart fileShell (cstr "echo a|true")) (s', r)
      ∧ Separates (cstr "echo a") (cstr "true") := by
  have hrun : (shRunPipeline fileEnv (shExec fileEnv (shRunSimple fileEnv) 2) fileShell
      (cstr "echo a|true")).get?.map (fun x => varGet x.1.world.vars stdinContent)
      = some (some (cstr "a\n")) := by decide +kernel
  have hsplit : splitStages (cstr "echo a|true") = [cstr "echo a", cstr "true"] := by decide +kernel
  have hstages : ∀ i, (pipelineStart fileShell (cstr "echo a|true")).world.stages i
      = [cstr "echo a", cstr "true"].getD i [] := by
    intro i
    show (splitStages (cstr "echo a|true")).getD i [] = _
    rw [hsplit]
  have hbare : BareWord (cstr "a") := by
    refine ⟨by decide, by decide, ?_⟩
    intro a b he
    have hmem : pipeSign ∈ cstr "a" := by rw [he]; simp
    exact absurd hmem (by decide)
  obtain ⟨⟨s', r⟩, hdone, hvar⟩ := Outcome.of_get? hrun
  have hgentle : Gentle fileEnv (shExec fileEnv (shRunSimple fileEnv) 2)
      ((splitStages (cstr "echo a|true")).length - 1) 0
          (pipelineStart fileShell (cstr "echo a|true")) := by
    -- what an expansion that copies does to the hook is nothing
    have hnil : ∀ (k : Kout) (m : Nest), k = m.play k → m.Avoids .pipe := by
      intro k m hm
      rw [← Nest.play_inj (n := .nil) (m := m) hm]
      trivial
    rw [hsplit]
    show Gentle fileEnv _ 1 0 _
    rw [Gentle]
    intro s₁ cmd hexpand
    rw [hstages, List.getD_cons_zero, expandWord_plain (by decide) (by decide) (by decide)]
      at hexpand
    cases hexpand
    refine ⟨hnil _, fun h => absurd h (by decide), ?_⟩
    intro s₃ r₃ hexec
    rw [show cstr "echo a" = bareEcho (cstr "a") from rfl,
      shExec_bareEcho hbare (by decide) (by decide) (by decide)] at hexec
    cases hexec
    refine ⟨?_, ?_⟩
    · intro n hn
      have hputs : n = .put 0x61 (.put newline .nil) :=
        (Nest.play_inj (k := Kout.redirect _ .pipe) (hn.symm.trans rfl))
      rw [hputs]
      exact ⟨⟨trivial, trivial, fun h => by cases h⟩, by decide⟩
    · rw [Gentle]
      intro s₄ cmd' hexpand'
      change expandWord fileEnv _ shLineMax _
        ((pipelineStart fileShell (cstr "echo a|true")).world.stages 1) = _
        at hexpand'
      rw [hstages, List.getD_cons_succ, List.getD_cons_zero,
        expandWord_plain (by decide) (by decide) (by decide)] at hexpand'
      cases hexpand'
      exact ⟨hnil _, fun _ => Or.inr (by decide : 0 < shMaxVars), trivial⟩
  refine ⟨s', r, hdone, hvar, ?_⟩
  have hpiped := (gentle_pipelines fileEnv_nests 2 (by decide) (by rw [hsplit]; decide)
    (by rw [hsplit]; decide)
    hgentle hdone).2
  rw [hsplit] at hpiped
  exact ⟨hpiped.2, (hpiped.1 _ _ rfl).mp ⟨[cstr "echo a"],
    [cstr "true"], by decide, by decide, rfl, rfl, rfl⟩⟩

/-- The stage behind a function that has a pipeline of its own is not run: its text is written over.
-/
theorem stage_behind_function_lost :
    (shScript fileEnv (shRunSimple fileEnv) 6 fileShell (cstr "g() \x7b\necho x | true\n\x7d\ng | echo b\n")).get?.map
        (fun x => (x.1.kout.screen, x.1.world.stages 1)) = some ([], cstr " true") := by
  decide +kernel

end VnlKernel
