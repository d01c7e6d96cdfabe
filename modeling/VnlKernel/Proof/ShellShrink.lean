import VnlKernel.Proof.ShellWords

/-!
# A shell in which every text shrinks

With no variables, no arguments and no output, whatever `expand_word` replaces gets shorter:
it copies a text, or what it writes is shorter than what it read. So does `tokenize`, counting
a separator with each token. To see which simple command a line comes to first, they are run
by a watcher that stops at the first one and says whether it is the one looked for.
-/

namespace VnlKernel

/-- Stop at the first simple command: is it the one looked for? -/
def watcher (argv : List CStr) : Simple Unit :=
  fun _ _ _ argv' => if argv' = argv then .panic "seen" else .timeout

/-- Nothing is known, nothing happens. -/
def barrenEnv : ShEnv Unit where
  arith _ _ := 0
  ticks _ := 0
  slurp ext _ _ := (ext, none)
  spill ext _ _ _ := ext
  own _ _ := .timeout
  builtin _ _ _ _ := .timeout

structure Barren (s : Sh (ShWorld Unit)) : Prop where
  vars : ∀ v ∈ s.world.vars, v.val = []
  argv : s.world.argv = []
  scriptName : s.world.scriptName = []
  lastStatus : s.lastStatus = 0
  bufs : ∀ b, s.world.kout.bufs b = []

/-! ## Calls in which the command is not seen -/

/-- The call does not come to the command looked for, and what it returns is in order. -/
def Quiet {α : Type} (P : α → Prop) (x : Outcome (Sh (ShWorld Unit) × α)) : Prop :=
  x ≠ .panic "seen" ∧ ∀ s a, x = .done (s, a) → Barren s ∧ P a

namespace Quiet

variable {α β : Type} {P : α → Prop} {Q : β → Prop} {s : Sh (ShWorld Unit)} {a : α}

theorem timeout : Quiet P .timeout := by
  refine ⟨by simp, ?_⟩
  intro s a h
  cases h

theorem panic {msg : String} (h : msg ≠ "seen") : Quiet P (.panic msg) := by
  refine ⟨by simpa using h, ?_⟩
  intro s a h
  cases h

theorem done (hs : Barren s) (ha : P a) : Quiet P (.done (s, a)) := by
  refine ⟨by simp, ?_⟩
  intro s' a' h
  cases h
  exact ⟨hs, ha⟩

theorem bind {x : Outcome (Sh (ShWorld Unit) × α)}
    {f : Sh (ShWorld Unit) × α → Outcome (Sh (ShWorld Unit) × β)}
    (hx : Quiet P x) (hf : ∀ s a, Barren s → P a → Quiet Q (f (s, a))) : Quiet Q (x >>= f) := by
  cases x with
  | done p =>
      obtain ⟨hs, ha⟩ := hx.2 p.1 p.2 rfl
      exact hf p.1 p.2 hs ha
  | panic msg => exact panic (by simpa using hx.1)
  | timeout => exact timeout

theorem mono {P' : α → Prop} {x : Outcome (Sh (ShWorld Unit) × α)} (hx : Quiet P x)
    (h : ∀ a, P a → P' a) :
    Quiet P' x :=
  ⟨hx.1, fun s a he => ⟨(hx.2 s a he).1, h a (hx.2 s a he).2⟩⟩

end Quiet

/-- Command lines shorter than `n` are not the command looked for. -/
def QuietBelow (n : Nat) (exec : Command Unit) : Prop :=
  ∀ s cmd, Barren s → cmd.length < n → Quiet (fun _ => True) (exec s cmd)

section Shrink

variable {n : Nat} {exec : Command Unit} {s : Sh (ShWorld Unit)}

theorem Barren.setKout (h : Barren s) {k : Kout} (hk : ∀ b, k.bufs b = []) : Barren (s.setKout k) :=
  ⟨h.vars, h.argv, h.scriptName, h.lastStatus, hk⟩

theorem Barren.varGet (h : Barren s) (name : CStr) : (VnlKernel.varGet s.world.vars name).getD []
    = [] := by
  rw [VnlKernel.varGet]
  cases hf : s.world.vars.find? fun v => v.name = name with
  | none => rfl
  | some v => exact h.vars v (List.mem_of_find?_eq_some hf)

/-- A capture comes to nothing. -/
theorem capture_quiet (hexec : QuietBelow n exec) (hs : Barren s) (b : OutBuf) {cmd : CStr}
    (hcmd : cmd.length < n) :
    Quiet (fun a => a.2 = []) (capture b exec s cmd) := by
  refine Quiet.bind (hexec _ cmd (hs.setKout hs.bufs) hcmd) ?_
  intro s' r hs' _
  exact Quiet.done (hs'.setKout hs'.bufs) (hs'.bufs b)

theorem substitute_quiet (hexec : QuietBelow n exec) (hs : Barren s) (b : OutBuf) {cmd : CStr}
    (hcmd : cmd.length < n) : Quiet (fun text => text = []) (substitute b exec s cmd) := by
  refine Quiet.bind (capture_quiet hexec hs b hcmd) ?_
  intro s' a hs' _
  have hstrip : ∀ b', (s'.kout.strip b).bufs b' = [] := by
    intro b'
    show (if b' = b then Kout.stripNewlines (s'.world.kout.bufs b) else s'.world.kout.bufs b') = []
    split
    · rw [hs'.bufs b]
      rfl
    · exact hs'.bufs b'
  exact Quiet.done (hs'.setKout hstrip) (hstrip b)

/-! ## What follows a dollar -/

theorem commandText_length (p : CStr) : (commandText p).length ≤ p.length := by
  rw [commandText, List.length_take, List.length_take, List.length_take]
  omega

theorem skipBrace_length (p : CStr) : (skipBrace p).length ≤ p.length - 1 := by
  rw [skipBrace, List.length_drop]
  have := (List.dropWhile_sublist (fun c => decide (c ≠ braceClose)) (l := p)).length_le
  omega

theorem decimal_zero : (decimal 0).length = 1 := by decide

/-- A default, a length or nothing: not longer than what stands there. -/
theorem expandBrace_quiet (hs : Barren s)
    {expand : Sh (ShWorld Unit) → CStr → Outcome (Sh (ShWorld Unit) × CStr)}
    {p : CStr}
    (hexpand : ∀ src : CStr, src.length ≤ p.length → Quiet (fun out => out.length ≤ src.length)
    (expand s src)) :
    Quiet (fun a => a.1.length + a.2.length ≤ p.length) (expandBrace expand s p) := by
  rw [expandBrace]
  dsimp only
  generalize hv : (p.takeWhile fun c => !endsBraceName c).take (shVarNamsz - 1) = vname
  have hget := hs.varGet vname
  have hdrop : (p.drop vname.length).length ≤ p.length := by
    rw [List.length_drop]
    omega
  generalize p.drop vname.length = q at hdrop
  split
  · -- `${#name}` and the like: a length of zero
    next hq =>
    have hlen : ((VnlKernel.varGet s.world.vars vname).map List.length).getD 0 = 0 := by
      cases hg : VnlKernel.varGet s.world.vars vname with
      | none => rfl
      | some v =>
          rw [hg] at hget
          have hv0 : v = [] := hget
          rw [hv0]
          rfl
    refine Quiet.done hs ?_
    dsimp only
    rw [hlen, Int.ofNat_zero, decimal_zero]
    have hpos : 0 < q.length := by
      cases q with
      | nil => cases hq
      | cons c q => exact Nat.succ_pos _
    have := skipBrace_length q
    omega
  · split
    · next hq =>
      -- no variable has a value, so the default is taken
      have hnone : ∀ c t, VnlKernel.varGet s.world.vars vname ≠ some (c :: t) := by
        intro c t hg
        rw [hg] at hget
        cases hget
      split
      · next c t hg => exact absurd hg (hnone c t)
      · obtain ⟨r, hr⟩ := startsWith_iff.mp hq
        -- it stands between the sign and the brace that closes it
        have hdflt : (((q.drop 2).takeWhile fun c => decide (c ≠ braceClose)).take
          (shVarValsz - 1)).length
            + (skipBrace q).length ≤ q.length := by
          rw [List.length_take, skipBrace, ← hr]
          show min _ ((r.takeWhile fun c => decide (c ≠ braceClose)).length)
            + ((r.dropWhile fun c => decide (c ≠ braceClose)).drop 1).length ≤ r.length + 2
          have := congrArg List.length (List.takeWhile_append_dropWhile
            (p := fun c => decide (c ≠ braceClose)) (l := r))
          rw [List.length_append] at this
          rw [List.length_drop]
          omega
        refine Quiet.bind (hexpand _ (by omega)) ?_
        intro s' text hs' htext
        dsimp only
        split
        · exact Quiet.panic (by decide)
        · refine Quiet.done hs' ?_
          dsimp only
          omega
    · -- a name alone
      refine Quiet.done hs ?_
      dsimp only
      rw [hget, List.length_nil]
      split
      · rw [List.length_drop]
        omega
      · omega

theorem expandDollar_quiet (hexec : QuietBelow n exec) (hs : Barren s) {p : CStr}
    (hp : p.length ≤ n)
    {expand : Sh (ShWorld Unit) → CStr → Outcome (Sh (ShWorld Unit) × CStr)}
    (hexpand : ∀ src : CStr, src.length ≤ p.length → Quiet (fun out => out.length ≤ src.length)
    (expand s src)) :
    Quiet (fun a => a.1.length + a.2.length ≤ p.length)
    (expandDollar barrenEnv exec expand s p) := by
  rw [expandDollar.eq_def]
  dsimp only
  split
  · -- `$((`: a value of zero is shorter than what it stands for
    next harith =>
    obtain ⟨r, hr⟩ := startsWith_iff.mp harith
    refine Quiet.done hs ?_
    show (decimal 0).length + ((p.drop 2).drop _).length ≤ p.length
    rw [decimal_zero, List.length_drop, List.length_drop, ← hr]
    simp only [List.length_append, List.length_cons]
    omega
  cases p with
  | nil =>
      refine Quiet.done hs ?_
      dsimp only
      rw [hs.varGet, List.length_nil]
  | cons c q =>
      rw [List.length_cons] at hp
      dsimp only
      rw [List.length_cons]
      split
      · -- a command
        refine Quiet.bind (substitute_quiet hexec hs .dollar
          (Nat.lt_of_le_of_lt (commandText_length q) (by omega))) ?_
        intro s' text hs' htext
        refine Quiet.done hs' ?_
        dsimp only
        rw [htext, List.length_nil, List.length_drop]
        omega
      split
      · -- `${`
        refine (expandBrace_quiet hs fun src hsrc => hexpand src ?_).mono fun a ha => by omega
        rw [List.length_cons]
        omega
      split
      · refine Quiet.done hs ?_
        dsimp only
        -- `$?`: the last status is zero
        rw [hs.lastStatus, decimal_zero]
        omega
      split
      · refine Quiet.done hs ?_
        dsimp only
        -- `$#`: there are no arguments
        rw [hs.argv, List.length_nil, Int.ofNat_zero, decimal_zero]
        omega
      split
      · refine Quiet.done hs ?_
        -- `$$`: one digit
        show 1 + q.length ≤ q.length + 1
        omega
      split
      · refine Quiet.done hs ?_
        dsimp only
        rw [hs.argv]
        -- `$@` and `$*`: nothing
        show 0 + q.length ≤ q.length + 1
        omega
      split
      · refine Quiet.done hs ?_
        dsimp only
        -- `$0`: a shell with no script
        rw [hs.scriptName, List.length_nil]
        omega
      split
      · refine Quiet.done hs ?_
        dsimp only
        -- `$1` to `$9`: nothing
        rw [hs.argv, List.getD_nil, List.length_nil]
        omega
      split
      · -- `$RANDOM`
        next hrandom =>
        obtain ⟨r, hr⟩ := startsWith_iff.mp hrandom
        have hlen := congrArg List.length hr
        rw [List.length_append, List.length_cons] at hlen
        refine Quiet.done hs ?_
        show (decimal 0).length + ((c :: q).drop 6).length ≤ q.length + 1
        rw [decimal_zero, List.length_drop, List.length_cons]
        have : (cstr "RANDOM").length = 6 := by decide
        omega
      · refine Quiet.done hs ?_
        dsimp only
        -- any other name has no value
        rw [hs.varGet, List.length_nil, List.length_drop, List.length_cons]
        omega

/-! ## `expand_word` -/

/-- What is written behind `dst` for `src`: less than it, or it. -/
def Shrunk (dst src out : CStr) : Prop :=
  dst <+: out ∧ (out.length < dst.length + src.length ∨ out = dst ++ src ∧ ∀ c ∈ src, Ordinary c)

theorem Shrunk.length_le {dst src out : CStr} (h : Shrunk dst src out) :
    out.length ≤ dst.length + src.length := by
  rcases h.2 with h | ⟨rfl, _⟩
  · omega
  · rw [List.length_append]

/-- A turn that writes less than it reads. -/
theorem Shrunk.of_shorter {dst src dst' src' out : CStr} (h : Shrunk dst' src' out)
    (hdst : dst <+: dst')
    (hlen : dst'.length + src'.length < dst.length + src.length) : Shrunk dst src out :=
  ⟨hdst.trans h.1, Or.inl (by have := h.length_le; omega)⟩

/-- A dollar or a backquote writes less than it reads. -/
theorem expandSpecial_quiet (hexec : QuietBelow n exec) (hs : Barren s) {c : UInt8} {p : CStr}
    (hc : c = dollarSign ∨ c = backquote) (hp : p.length < n)
    {expand : Sh (ShWorld Unit) → CStr → Outcome (Sh (ShWorld Unit) × CStr)}
    {next : Sh (ShWorld Unit) → CStr → CStr → Outcome (Sh (ShWorld Unit) × CStr)} {dstsz : Nat}
    {dst : CStr}
    (hexpand : ∀ src : CStr, src.length ≤ p.length → Quiet (fun out => out.length ≤ src.length)
    (expand s src))
    (hnext : ∀ (s : Sh (ShWorld Unit)) (dst src : CStr), Barren s → src.length ≤ p.length →
      Quiet (Shrunk dst src) (next s dst src)) :
    Quiet (Shrunk dst (c :: p)) (expandSpecial barrenEnv exec expand next dstsz s dst
      (c :: p)) := by
  rw [expandSpecial]
  split
  · refine Quiet.bind (expandDollar_quiet hexec hs (by omega) hexpand) ?_
    rintro s' ⟨text, rest⟩ hs' hlen
    dsimp only at hlen ⊢
    refine (hnext s' _ rest hs' (by omega)).mono fun out hout =>
      hout.of_shorter (outs_starts _ _ _) ?_
    have := outs_length dstsz dst text
    rw [List.length_cons]
    omega
  · next hdollar =>
    rw [if_pos (hc.resolve_left hdollar)]
    have hcmd : ((p.takeWhile fun c => decide (c ≠ backquote)).take (shLineMax - 1)).length
        ≤ p.length := by
      rw [List.length_take]
      have := (List.takeWhile_sublist (fun c => decide (c ≠ backquote)) (l := p)).length_le
      omega
    refine Quiet.bind (substitute_quiet hexec hs .tick (Nat.lt_of_le_of_lt hcmd hp)) ?_
    intro s' text hs' htext
    dsimp only
    refine (hnext s' _ _ hs' ?_).mono fun out hout => hout.of_shorter (outs_starts _ _ _) ?_
    · rw [List.length_drop]
      omega
    · rw [htext, outs, List.take_nil, List.append_nil, List.length_drop, List.length_cons]
      omega

theorem expandLoop_shrunk (hexec : QuietBelow n exec) :
    ∀ (fuel dstsz : Nat) (s : Sh (ShWorld Unit)) (dst src : CStr),
    Barren s → src.length ≤ n → Quiet (Shrunk dst src)
    (expandLoop barrenEnv exec fuel dstsz s dst src) := by
  intro fuel
  induction fuel with
  | zero =>
      intro dstsz s dst src _ _
      rw [expandLoop]
      exact Quiet.timeout
  | succ fuel ih =>
      intro dstsz s dst src hs hsrc
      cases src with
      | nil =>
          rw [expandLoop]
          exact Quiet.done hs ⟨List.prefix_refl _, Or.inr ⟨by simp, by simp⟩⟩
      | cons c p =>
          rw [List.length_cons] at hsrc
          -- the default of a parameter is expanded by the same loop
          have hexpand : ∀ src : CStr, src.length ≤ p.length
            → Quiet (fun out => out.length ≤ src.length)
              (expandLoop barrenEnv exec fuel shVarValsz s [] src) := by
            intro src hlen
            refine (ih shVarValsz s [] src hs (by omega)).mono fun out hout => ?_
            simpa using hout.length_le
          have hnext : ∀ (s : Sh (ShWorld Unit)) (dst src : CStr), Barren s
            → src.length ≤ p.length →
              Quiet (Shrunk dst src) (expandLoop barrenEnv exec fuel dstsz s dst src) :=
            fun s dst src hs hlen => ih dstsz s dst src hs (by omega)
          rw [expandLoop]
          dsimp only
          split
          · exact Quiet.done hs ⟨List.prefix_refl _, Or.inl (by simp)⟩
          split
          · -- an escape: one character for two
            refine (hnext s _ _ hs (by rw [List.length_drop]; omega)).mono fun out hout =>
              hout.of_shorter (List.prefix_append _ _) ?_
            simp only [List.length_append, List.length_take, List.length_drop, List.length_cons]
            omega
          split
          · split
            · exact Quiet.timeout
            · refine (hnext s _ _ hs (by rw [List.length_drop]; omega)).mono fun out hout =>
                hout.of_shorter (List.prefix_append _ _) ?_
              -- the text between the quotes, without them
              have := (List.takeWhile_sublist (fun c => decide (c ≠ squote)) (l := p)).length_le
              simp only [List.length_append, List.length_drop, List.length_cons]
              omega
          split
          · -- a text in double quotes, to its end or to a dollar sign
            have hfits := expandQuoted_fits dstsz dst p
            split
            · next dst' rest hq =>
              rw [hq] at hfits
              have hlen := hfits.1.length_le
              have := hfits.2
              refine (hnext s _ _ hs (by omega)).mono fun out hout => hout.of_shorter hfits.1 ?_
              rw [List.length_cons]
              omega
            · next dst' rest hq =>
              rw [hq] at hfits
              obtain ⟨hdst, hle, d, q, rfl, hd⟩ := hfits
              have hlen := hdst.length_le
              rw [List.length_cons] at hle
              refine (expandSpecial_quiet hexec hs hd (by omega)
                (fun src h => hexpand src (by omega))
                (fun s dst src hs h => hnext s dst src hs (by omega))).mono fun out hout =>
                  hout.of_shorter hdst ?_
              rw [List.length_cons, List.length_cons]
              omega
            · exact Quiet.timeout
          · next hroom hback hsq hdq =>
            -- an ordinary character is copied
            by_cases hc : c = dollarSign ∨ c = backquote
            · exact expandSpecial_quiet hexec hs hc (by omega) hexpand hnext
            · rw [not_or] at hc
              rw [expandSpecial, if_neg hc.1, if_neg hc.2, outs_room (by omega)]
              refine (hnext s _ p hs (Nat.le_refl _)).mono fun out hout =>
                ⟨(List.prefix_append _ _).trans hout.1, ?_⟩
              rcases hout.2 with hlt | ⟨he, hord⟩
              · rw [List.length_append, List.length_singleton] at hlt
                rw [List.length_cons]
                exact Or.inl (by omega)
              · refine Or.inr ⟨by rw [he, List.append_assoc, List.singleton_append], ?_⟩
                intro d hd
                rcases List.mem_cons.mp hd with rfl | hd
                · exact ⟨hback, hsq, hdq, hc.1, hc.2⟩
                · exact hord d hd

/-- `expand_word` copies the text, or writes less. -/
theorem expandWord_shrunk (hexec : QuietBelow n exec) (dstsz : Nat) (hs : Barren s) {src : CStr}
    (hsrc : src.length ≤ n) : Quiet (Shrunk [] src) (expandWord barrenEnv exec dstsz s src) := by
  refine Quiet.bind (expandLoop_shrunk hexec _ dstsz s [] src hs hsrc) ?_
  intro s' out hs' hout
  dsimp only
  split
  · exact Quiet.panic (by decide)
  · exact Quiet.done hs' hout

/-! ## `tokenize` -/

theorem tokenLoop_shrunk (hexec : QuietBelow n exec) (bufsz bi : Nat) :
    ∀ (fuel : Nat) (s : Sh (ShWorld Unit)) (tok p : CStr), Barren s → p.length ≤ n →
      Quiet (fun a => a.1.length + a.2.length ≤ tok.length + p.length
        ∧ a.2.head?.all endsToken = true)
        (tokenLoop barrenEnv exec bufsz bi fuel s tok p) := by
  intro fuel
  induction fuel with
  | zero =>
      intro s tok p _ _
      rw [tokenLoop]
      exact Quiet.timeout
  | succ fuel ih =>
      intro s tok p hs hp
      -- a turn that adds no more than it reads
      have hstep : ∀ (s : Sh (ShWorld Unit)) (tok' rest : CStr), Barren s → rest.length ≤ n →
          tok'.length + rest.length ≤ tok.length + p.length →
          Quiet (fun a => a.1.length + a.2.length ≤ tok.length + p.length
            ∧ a.2.head?.all endsToken = true)
            (tokenLoop barrenEnv exec bufsz bi fuel s tok' rest) :=
        fun s tok' rest hs hrest hlen => (ih s tok' rest hs hrest).mono fun a ha => ⟨by omega, ha.2⟩
      have hexpanded : ∀ (src rest : CStr), src.length ≤ n → rest.length ≤ n
        → src.length + rest.length ≤ p.length →
          Quiet (fun a => a.1.length + a.2.length ≤ tok.length + p.length
            ∧ a.2.head?.all endsToken = true)
            (expandWord barrenEnv exec shExpandMax s src >>= fun a =>
              tokenLoop barrenEnv exec bufsz bi fuel a.1
                (if bi + tok.length + a.2.length < bufsz then tok ++ a.2 else tok) rest) := by
        intro src rest hsrc hrest hlen
        refine Quiet.bind (expandWord_shrunk hexec shExpandMax hs hsrc) ?_
        intro s' text hs' htext
        have htext' : text.length ≤ src.length := by simpa using htext.length_le
        refine hstep s' _ rest hs' hrest ?_
        dsimp only
        split
        · rw [List.length_append]
          omega
        · omega
      cases p with
      | nil =>
          rw [tokenLoop]
          exact Quiet.done hs ⟨Nat.le_refl _, rfl⟩
      | cons c p =>
          rw [List.length_cons] at hp
          rw [tokenLoop]
          split
          · next hc => exact Quiet.done hs ⟨Nat.le_refl _, by simpa using hc⟩
          split
          · have := (List.takeWhile_sublist (fun c => decide (c ≠ squote)) (l := p)).length_le
            refine hstep s _ _ hs (by rw [List.length_drop]; omega) ?_
            simp only [List.length_append, List.length_take, List.length_drop, List.length_cons]
            omega
          split
          · refine hexpanded _ _ ?_ ?_ ?_
            · simp only [List.length_take, List.length_cons]
              omega
            · rw [List.length_drop]
              omega
            · simp only [List.length_take, List.length_cons, List.length_drop]
              omega
          split
          · refine hexpanded _ _ ?_ ?_ ?_
            · simp only [List.length_take, List.length_cons]
              omega
            · rw [List.length_drop, List.length_cons]
              omega
            · simp only [List.length_take, List.length_cons, List.length_drop]
              omega
          · refine hstep s _ _ hs (by omega) ?_
            split
            · simp only [List.length_append, List.length_cons, List.length_nil]
              omega
            · rw [List.length_cons]
              omega

/-- The bytes of the tokens, each with a separator. -/
def tokensSize (toks : List CStr) : Nat := (toks.map fun tok => tok.length + 1).sum

/-- The text of a list of tokens is at least as long as they are; a separator in front is one more.
-/
theorem tokenizeLoop_shrunk (hexec : QuietBelow n exec) (bufsz : Nat) :
    ∀ (left : Nat) (s : Sh (ShWorld Unit)) (p : CStr) (bi : Nat), Barren s → p.length ≤ n →
      Quiet (fun toks => tokensSize toks ≤ p.length + 1
          ∧ (p.head?.all endsToken = true → tokensSize toks ≤ p.length))
        (tokenizeLoop barrenEnv exec bufsz left s p bi) := by
  intro left
  induction left with
  | zero =>
      intro s p bi hs _
      rw [tokenizeLoop]
      exact Quiet.done hs ⟨Nat.zero_le _, fun _ => Nat.zero_le _⟩
  | succ left ih =>
      intro s p bi hs hp
      rw [tokenizeLoop]
      cases hskip : skipBlanks p with
      | nil => exact Quiet.done hs ⟨Nat.zero_le _, fun _ => Nat.zero_le _⟩
      | cons c q =>
          have hle : (c :: q).length ≤ p.length := by
            rw [← hskip]
            exact (List.dropWhile_sublist _).length_le
          rw [List.length_cons] at hle
          dsimp only
          split
          · exact Quiet.done hs ⟨Nat.zero_le _, fun _ => Nat.zero_le _⟩
          split
          · exact Quiet.panic (by decide)
          · next hstop _ =>
            -- blanks in front of the token are not part of it
            have hfront : p.head?.all endsToken = true → q.length + 1 < p.length := by
              intro hhead
              cases p with
              | nil => cases hskip
              | cons d p =>
                  rw [skipBlanks, List.dropWhile_cons] at hskip
                  split at hskip
                  · have := (List.dropWhile_sublist isBlank (l := p)).length_le
                    rw [hskip, List.length_cons] at this
                    rw [List.length_cons]
                    omega
                  · next hblank =>
                    cases hskip
                    simp only [not_or] at hstop
                    simp [endsToken, hblank, hstop] at hhead
            refine Quiet.bind (tokenLoop_shrunk hexec bufsz bi _ s []
              (c :: q) hs (by rw [List.length_cons]; omega)) ?_
            rintro s' ⟨tok, rest⟩ hs' ⟨hlen, hrest⟩
            rw [List.length_nil, List.length_cons] at hlen
            dsimp only at hlen hrest ⊢
            refine Quiet.bind (ih s' rest _ hs' (by omega)) ?_
            intro s'' toks hs'' htoks
            have htoks' := htoks.2 hrest
            have hcons : tokensSize (tok :: toks) = tok.length + 1 + tokensSize toks := by
              rw [tokensSize, List.map_cons, List.sum_cons]
              rfl
            refine Quiet.done hs'' ⟨?_, fun hhead => ?_⟩
            · rw [hcons]
              omega
            · have := hfront hhead
              rw [hcons]
              omega

/-! ## Commands -/

theorem shExec_quiet (argv : List CStr) (fuel : Nat) :
    QuietBelow (tokensSize argv - 1) (shExec barrenEnv (watcher argv) fuel) := by
  induction fuel with
  | zero =>
      intro s cmd _ _
      exact Quiet.timeout
  | succ fuel ih =>
      intro s cmd hs hcmd
      rw [shExec, shExecOnce]
      refine Quiet.bind (expandWord_shrunk ih shLineMax hs (by omega)) ?_
      intro s' out hs' hout
      have hout' : out.length ≤ cmd.length := by simpa using hout.length_le
      dsimp only
      refine Quiet.bind (tokenizeLoop_shrunk ih _ _ s' out 0 hs' (by omega)) ?_
      intro s'' toks hs'' htoks
      cases toks with
      | nil => exact Quiet.done hs'' trivial
      | cons tok toks =>
          have hne : tok :: toks ≠ argv := by
            intro he
            have := htoks.1
            rw [he] at this
            omega
          dsimp only [watcher]
          rw [if_neg hne]
          exact Quiet.timeout

end Shrink

end VnlKernel
