import VnlKernel.Proof.ShellWords

/-!
# Parameter expansion

`$V`, `${V}`, `${V:-d}` and `${#V}` in a plain text. Of the four forms the last is never seen
as what it is: the name behind `${` ends at a `#`, so what is measured is the variable with the
empty name. And a text that comes to nothing leaves the destination as it was, not even
terminated; the default of a variable is expanded into such a destination as well.
-/

namespace VnlKernel

variable {ε : Type} {env : ShEnv ε} {exec : Command ε} {s : Sh (ShWorld ε)}

/-! ## The four forms -/

inductive ParamForm where
  | bare
  | braced
  | withDefault (d : CStr)
  | size

def ParamForm.text (V : CStr) : ParamForm → CStr
  | .bare => dollarSign :: V
  | .braced => dollarSign :: braceOpen :: (V ++ [braceClose])
  | .withDefault d => dollarSign :: braceOpen :: (V ++ (colon :: 0x2D :: (d ++ [braceClose])))
  | .size => dollarSign :: braceOpen :: hash :: (V ++ [braceClose])

/-- The length of a variable's value, zero if it is not set. -/
def valueSize (vars : List ShVar) (V : CStr) : Nat := ((varGet vars V).map List.length).getD 0

/-- What the form stands for. -/
def ParamForm.meaning (vars : List ShVar) (V : CStr) : ParamForm → CStr
  | .bare => (varGet vars V).getD []
  | .braced => (varGet vars V).getD []
  | .withDefault d => if (varGet vars V).getD [] = [] then d else (varGet vars V).getD []
  | .size => decimal (valueSize vars V : Nat)

structure VarName (V : CStr) : Prop where
  ne_nil : V ≠ []
  chars : ∀ c ∈ V, isNameChar c = true
  noDigit : ∀ c, V.head? = some c → ¬ (0x30 ≤ c ∧ c ≤ 0x39)
  short : V.length < shVarNamsz
  noRandom : ¬ cstr "RANDOM" <+: V

/-- The form does not run into the text behind it, and its default is plain and fits. -/
def ParamForm.Plain (post : CStr) : ParamForm → Prop
  | .bare => ∀ c, post.head? = some c → isNameChar c = false
  | .braced => True
  | .withDefault d => (∀ c ∈ d, Ordinary c) ∧ braceClose ∉ d ∧ d.length < shVarValsz
  | .size => True

/-- A form in a plain text, in a state where all values fit. There is room for the text and for the
digits of a length. -/
structure ParamText (dstsz : Nat) (vars : List ShVar) (V : CStr) (form : ParamForm) (pre post : CStr) : Prop where
  name : VarName V
  front : ∀ c ∈ pre, Ordinary c
  back : ∀ c ∈ post, Ordinary c
  shape : form.Plain post
  values : ∀ v ∈ vars, v.val.length < shVarValsz
  room : pre.length + (form.meaning vars V).length + post.length + 4 < dstsz

/-- Does the code find what the form stands for? -/
def ParamForm.Found (vars : List ShVar) (V : CStr) : ParamForm → Prop
  | .bare => True
  | .braced => True
  | .withDefault d => (varGet vars V).getD [] = [] → d ≠ []
  | .size => valueSize vars [] = valueSize vars V

/-! ## Decimal digits -/

/-- The value of a digit string. -/
def digitsValue (l : CStr) : Nat := l.foldl (fun v c => v * 10 + (c.toNat - 0x30)) 0

theorem digitsValue_digitsAux : ∀ {fuel n : Nat}, n < 10 ^ fuel → digitsValue (digitsAux fuel n) = n
  | 0, n, h => by
      rw [pow_zero, Nat.lt_one_iff] at h
      rw [h]
      rfl
  | fuel + 1, n, h => by
      have hdigit : (UInt8.ofNat (0x30 + n % 10)).toNat = 0x30 + n % 10 := by
        rw [UInt8.toNat_ofNat']
        omega
      rw [digitsAux, digitsValue, List.foldl_append]
      simp only [List.foldl_cons, List.foldl_nil, hdigit]
      split
      · simp only [List.foldl_nil]
        omega
      · have ih : digitsValue (digitsAux fuel (n / 10)) = n / 10 :=
          digitsValue_digitsAux (by rw [pow_succ] at h; omega)
        rw [digitsValue] at ih
        rw [ih]
        omega

theorem decimal_inj {m n : Nat} (hm : m < 10 ^ 20) (hn : n < 10 ^ 20) (h : decimal m = decimal n) :
    m = n := by
  have hnat : ∀ k : Nat, decimal k = digitsAux 20 k := by
    intro k
    rw [decimal, if_neg (by omega), Int.natAbs_natCast]
  rw [hnat, hnat] at h
  rw [← digitsValue_digitsAux hm, h, digitsValue_digitsAux hn]

theorem digitsAux_length : ∀ {fuel n k : Nat}, n < 10 ^ k → 0 < k → (digitsAux fuel n).length ≤ k
  | 0, n, k, _, _ => by simp [digitsAux]
  | fuel + 1, n, k, h, hk => by
      rw [digitsAux, List.length_append, List.length_singleton]
      split
      · rw [List.length_nil]
        omega
      · next hn =>
        obtain ⟨k, rfl⟩ := Nat.exists_eq_succ_of_ne_zero hk.ne'
        have hk0 : 0 < k := by
          rcases Nat.eq_zero_or_pos k with rfl | hk0
          · rw [Nat.succ_eq_add_one, Nat.zero_add, pow_one] at h
            omega
          · exact hk0
        have ih : (digitsAux fuel (n / 10)).length ≤ k :=
          digitsAux_length (by rw [Nat.succ_eq_add_one, pow_succ] at h; omega) hk0
        omega

/-! ## Names -/

theorem isNameChar_ne {c d : UInt8} (hc : isNameChar c = true) (hd : isNameChar d = false) :
    c ≠ d := by
  rintro rfl
  rw [hc] at hd
  cases hd

namespace VarName

variable {V : CStr}

theorem takeWhile_name (h : VarName V) {post : CStr}
    (hp : ∀ c, post.head? = some c → isNameChar c = false) :
    ((V ++ post).takeWhile isNameChar).take (shVarNamsz - 1) = V := by
  have hnil : post.takeWhile isNameChar = [] := by
    cases post with
    | nil => rfl
    | cons c post => rw [List.takeWhile_cons, hp c rfl]; rfl
  have hlen := h.short
  rw [List.takeWhile_append_of_pos h.chars, hnil, List.append_nil,
    List.take_of_length_le (by omega)]

theorem takeWhile_brace (h : VarName V) {c : UInt8} (hc : endsBraceName c = true) (p : CStr) :
    ((V ++ c :: p).takeWhile fun c => !endsBraceName c).take (shVarNamsz - 1) = V := by
  have hV : ∀ d ∈ V, (!endsBraceName d) = true := by
    intro d hd
    have hne : ∀ e, isNameChar e = false → d ≠ e := fun e he => isNameChar_ne (h.chars d hd) he
    simp [endsBraceName, hne braceClose (by decide), hne colon (by decide), hne hash (by decide)]
  have hlen := h.short
  rw [List.takeWhile_append_of_pos hV, List.takeWhile_cons, hc,
    List.take_of_length_le (by simp; omega)]
  simp

theorem noRandom_append (h : VarName V) {post : CStr}
    (hp : ∀ c, post.head? = some c → isNameChar c = false) :
    startsWith (cstr "RANDOM") (V ++ post) = false := by
  rw [← Bool.not_eq_true, startsWith_iff]
  intro hpre
  rcases List.prefix_or_prefix_of_prefix hpre (List.prefix_append V post) with hle | hle
  · exact h.noRandom hle
  · obtain ⟨r, hr⟩ := hle
    cases r with
    | nil =>
        rw [List.append_nil] at hr
        exact h.noRandom (hr ▸ List.prefix_refl _)
    | cons c r =>
        -- the byte behind the name is a letter of the word
        have hc : isNameChar c = true := by
          have hall : ∀ d ∈ cstr "RANDOM", isNameChar d = true := by decide
          exact hall c (by rw [← hr]; simp)
        rw [← hr, List.prefix_append_right_inj] at hpre
        obtain ⟨q, rfl⟩ := hpre
        rw [hp c rfl] at hc
        cases hc

end VarName

theorem varGet_mem {vars : List ShVar} {V v : CStr} (h : varGet vars V = some v) :
    ∃ x ∈ vars, x.val = v := by
  obtain ⟨x, hx, hv⟩ := Option.map_eq_some_iff.mp h
  exact ⟨x, List.mem_of_find?_eq_some hx, hv⟩

theorem valueSize_lt {vars : List ShVar} (h : ∀ v ∈ vars, v.val.length < shVarValsz) (V : CStr) :
    valueSize vars V < shVarValsz := by
  rw [valueSize]
  cases hv : varGet vars V with
  | none => simp [shVarValsz]
  | some v =>
      obtain ⟨x, hx, rfl⟩ := varGet_mem hv
      simpa using h x hx

/-! ## One form -/

/-- A text that ends at the brace. -/
theorem skipBrace_behind {a post : CStr} (ha : braceClose ∉ a) :
    skipBrace (a ++ braceClose :: post) = post := by
  have hdrop : a.dropWhile (· ≠ braceClose) = [] := by
    rw [List.dropWhile_eq_nil_iff]
    intro c hc
    simpa using fun he : c = braceClose => ha (he ▸ hc)
  rw [skipBrace, List.dropWhile_append, hdrop]
  simp

theorem VarName.not_brace {V : CStr} (h : VarName V) : braceClose ∉ V := fun hm =>
  absurd (h.chars braceClose hm) (by decide)

/-- What the code makes of a form. -/
def ParamForm.output (vars : List ShVar) (V : CStr) : ParamForm → CStr
  | .size => decimal (valueSize vars [] : Nat)
  | form => form.meaning vars V

section Forms

variable {V post : CStr} {expand : Sh (ShWorld ε) → CStr → Outcome (Sh (ShWorld ε) × CStr)}

theorem expandDollar_bare (h : VarName V) (hp : ∀ c, post.head? = some c → isNameChar c = false) :
    expandDollar env exec expand s (V ++ post)
      = .done (s, (varGet s.world.vars V).getD [], post) := by
  have hname := h.takeWhile_name hp
  have hrandom := h.noRandom_append hp
  obtain ⟨c, r, rfl⟩ := List.exists_cons_of_ne_nil h.ne_nil
  have hdigit := h.noDigit c rfl
  have hne : ∀ d, isNameChar d = false → c ≠ d := fun d hd => isNameChar_ne (h.chars c (by simp)) hd
  have hstart : startsWith [parenOpen, parenOpen] (c :: r ++ post) = false := by
    rw [← Bool.not_eq_true, startsWith_iff, List.cons_append, List.cons_prefix_cons]
    exact fun hpre => hne parenOpen (by decide) hpre.1.symm
  have hone : (0x30 : UInt8) ≤ 0x31 := by decide
  rw [expandDollar.eq_def]
  dsimp only
  rw [hstart, if_neg (by decide)]
  rw [List.cons_append] at hname hrandom ⊢
  dsimp only
  rw [if_neg (hne _ (by decide)), if_neg (hne _ (by decide)), if_neg (hne _ (by decide)),
    if_neg (hne _ (by decide)), if_neg (hne _ (by decide)),
    if_neg (by simp [hne 0x2A (by decide), hne 0x40 (by decide)]),
    if_neg (fun he => hdigit (by rw [he]; decide)),
      if_neg (fun hd => hdigit ⟨UInt8.le_trans hone hd.1, hd.2⟩),
    hrandom, if_neg (by decide), hname, ← List.cons_append, List.drop_left]

theorem expandDollar_brace (p : CStr) :
    expandDollar env exec expand s (braceOpen :: p) = expandBrace expand s p := rfl

theorem expandBrace_braced (h : VarName V) :
    expandBrace expand s (V ++ braceClose :: post)
      = .done (s, (varGet s.world.vars V).getD [], post) := by
  rw [expandBrace]
  dsimp only
  rw [h.takeWhile_brace rfl, List.drop_left, if_neg (by rw [List.head?_cons]; decide)]
  rfl

theorem expandBrace_default (h : VarName V) {d : CStr} (hd : braceClose ∉ d)
    (hlen : d.length < shVarValsz) :
    expandBrace expand s (V ++ (colon :: 0x2D :: (d ++ braceClose :: post)))
      = if (varGet s.world.vars V).getD [] = [] then (do
          let (s, text) ← expand s d
          if text = [] then .panic "expdef: never written" else pure (s, text, post))
        else .done (s, (varGet s.world.vars V).getD [], post) := by
  have hdflt : (d ++ braceClose :: post).takeWhile (· ≠ braceClose) = d := by
    rw [List.takeWhile_append_of_pos]
    · simp
    · intro c hc
      simpa using fun he : c = braceClose => hd (he ▸ hc)
  have hskip : skipBrace (colon :: 0x2D :: (d ++ braceClose :: post)) = post := by
    have hmem : braceClose ∉ colon :: 0x2D :: d := by
      simp only [List.mem_cons, not_or]
      exact ⟨by decide, by decide, hd⟩
    exact skipBrace_behind (a := colon :: 0x2D :: d) hmem
  have hstart : startsWith [colon, 0x2D] (colon :: 0x2D :: (d ++ braceClose :: post)) = true :=
    startsWith_append [colon, 0x2D] _
  rw [expandBrace]
  dsimp only
  rw [h.takeWhile_brace rfl, List.drop_left, if_neg (by rw [List.head?_cons]; decide),
    if_pos hstart, hskip, List.drop_succ_cons,
    List.drop_succ_cons, List.drop_zero, hdflt, List.take_of_length_le (by omega)]
  cases varGet s.world.vars V with
  | none => rfl
  | some v =>
      cases v with
      | nil => rfl
      | cons c v => rfl

theorem expandBrace_size (h : VarName V) :
    expandBrace expand s (hash :: (V ++ braceClose :: post))
      = .done (s, decimal (valueSize s.world.vars [] : Nat), post) := by
  have hskip : skipBrace (hash :: (V ++ braceClose :: post)) = post := by
    have hmem : braceClose ∉ hash :: V := by
      simp only [List.mem_cons, not_or]
      exact ⟨by decide, h.not_brace⟩
    exact skipBrace_behind (a := hash :: V) hmem
  have hname : ((hash :: (V ++ braceClose :: post)).takeWhile fun c => !endsBraceName c).take
      (shVarNamsz - 1) = [] :=
    rfl
  rw [expandBrace]
  dsimp only
  rw [hname, List.length_nil, List.drop_zero, if_pos (List.head?_cons ..), hskip]
  rfl

/-- Is the default read before it was written? -/
def ParamForm.emptyDefault (vars : List ShVar) (V : CStr) : ParamForm → Bool
  | .withDefault d => d = [] && (varGet vars V).getD [] = []
  | _ => false

theorem expandLoop_dollar {fuel dstsz : Nat} {dst p : CStr} (hroom : dst.length + 1 < dstsz) :
    expandLoop env exec (fuel + 1) dstsz s dst (dollarSign :: p) = (do
      let (s, text, rest) ← expandDollar env exec
        (fun s src => expandLoop env exec fuel shVarValsz s [] src) s p
      expandLoop env exec fuel dstsz s (outs dstsz dst text) rest) := by
  rw [expandLoop]
  dsimp only
  rw [if_neg (by omega), if_neg (by decide), if_neg (by decide), if_neg (by decide), expandSpecial,
    if_pos rfl]

/-- The form is taken for one, in whatever stands behind it. -/
theorem expandDollar_form {form : ParamForm} {fuel : Nat} (h : VarName V) (hform : form.Plain post)
    (hfuel : (form.text V).length ≤ fuel + 1) :
    expandDollar env exec (fun s src => expandLoop env exec fuel shVarValsz s [] src) s
        ((form.text V).drop 1 ++ post)
      = if form.emptyDefault s.world.vars V then .panic "expdef: never written"
        else .done (s, form.output s.world.vars V, post) := by
  cases form with
  | bare => exact expandDollar_bare h hform
  | braced =>
      simp only [ParamForm.text, List.drop_succ_cons, List.drop_zero, List.cons_append,
        List.append_assoc,
        List.nil_append]
      rw [expandDollar_brace, expandBrace_braced h]
      rfl
  | size =>
      simp only [ParamForm.text, List.drop_succ_cons, List.drop_zero, List.cons_append,
        List.append_assoc,
        List.nil_append]
      rw [expandDollar_brace, expandBrace_size h]
      rfl
  | withDefault d =>
      obtain ⟨hd, hbrace, hlen⟩ := hform
      simp only [ParamForm.text, List.length_cons, List.length_append, List.length_nil] at hfuel
      obtain ⟨g, rfl⟩ := Nat.exists_eq_add_of_le (show d.length + 1 ≤ fuel by omega)
      have hdflt : expandLoop env exec (d.length + (1 + g)) shVarValsz s [] (d ++ [])
          = .done (s, [] ++ d) := by
        rw [expandLoop_plain hd (by simpa using hlen), Nat.add_comm 1 g, expandLoop]
      rw [List.append_nil, List.nil_append, ← Nat.add_assoc] at hdflt
      simp only [ParamForm.text, List.drop_succ_cons, List.drop_zero, List.cons_append,
        List.append_assoc,
        List.nil_append]
      rw [expandDollar_brace, expandBrace_default h hbrace hlen, hdflt, Outcome.bind_done]
      dsimp only
      by_cases hv : (varGet s.world.vars V).getD [] = []
      · rw [if_pos hv]
        by_cases hnil : d = []
        · simp [ParamForm.emptyDefault, hnil, hv]
        · simp [ParamForm.emptyDefault, ParamForm.output, ParamForm.meaning, hnil, hv]
      · rw [if_neg hv]
        simp [ParamForm.emptyDefault, ParamForm.output, ParamForm.meaning, hv]

end Forms

/-! ## The whole text -/

section Text

variable {dstsz : Nat} {V pre post : CStr} {form : ParamForm}

theorem ParamText.output_room (h : ParamText dstsz s.world.vars V form pre post) :
    pre.length + (form.output s.world.vars V).length + post.length + 1 < dstsz := by
  have hroom := h.room
  cases form with
  | bare =>
      simp only [ParamForm.output]
      omega
  | braced =>
      simp only [ParamForm.output]
      omega
  | withDefault d =>
      simp only [ParamForm.output]
      omega
  | size =>
      have hsize := valueSize_lt h.values []
      have hdigits : (decimal (valueSize s.world.vars [] : Nat)).length ≤ 3 := by
        rw [decimal, if_neg (by omega), Int.natAbs_natCast]
        refine digitsAux_length (lt_trans hsize ?_) (by decide)
        decide
      rw [ParamForm.output]
      omega

/-- What `expand_word` makes of the text. -/
theorem expandWord_form (h : ParamText dstsz s.world.vars V form pre post) :
    expandWord env exec dstsz s (pre ++ (form.text V ++ post))
      = if form.emptyDefault s.world.vars V then .panic "expdef: never written"
        else if pre ++ (form.output s.world.vars V ++ post) = [] then .panic "dst: never written"
        else .done (s, pre ++ (form.output s.world.vars V ++ post)) := by
  have hroom := h.output_room
  have hcons : form.text V = dollarSign :: (form.text V).drop 1 := by cases form <;> rfl
  have hlen : (form.text V).length = ((form.text V).drop 1).length + 1 := by
    rw [List.length_drop]
    have : (form.text V).length ≠ 0 := by rw [hcons]; simp
    omega
  have hstep : expandLoop env exec (pre.length +
    (((form.text V).drop 1).length + post.length + 1 + 1)) dstsz s []
        (pre ++ (form.text V ++ post))
      = if form.emptyDefault s.world.vars V then .panic "expdef: never written"
        else .done (s, pre ++ (form.output s.world.vars V ++ post)) := by
    rw [expandLoop_plain h.front (by simp only [List.length_nil]; omega), List.nil_append, hcons,
      List.cons_append, List.drop_succ_cons, List.drop_zero, expandLoop_dollar (by omega),
      expandDollar_form h.name h.shape (by omega)]
    split
    · rfl
    · have houts : outs dstsz pre (form.output s.world.vars V)
          = pre ++ form.output s.world.vars V := by
        rw [outs, List.take_of_length_le (by omega)]
      have hpost : expandLoop env exec (post.length + (((form.text V).drop 1).length + 1)) dstsz s
          (pre ++ form.output s.world.vars V) (post ++ [])
          = .done (s, (pre ++ form.output s.world.vars V) ++ post) := by
        rw [expandLoop_plain h.back (by rw [List.length_append]; omega), expandLoop]
      rw [List.append_nil] at hpost
      rw [Outcome.bind_done]
      dsimp only
      rw [houts, show ((form.text V).drop 1).length + post.length + 1
        = post.length + (((form.text V).drop 1).length + 1) by omega, hpost, List.append_assoc]
  have hfuel : (pre ++ (form.text V ++ post)).length + 1
      = pre.length + (((form.text V).drop 1).length + post.length + 1 + 1) := by
    rw [List.length_append, List.length_append, hlen]
    omega
  rw [expandWord, hfuel, hstep]
  split
  · rfl
  · rw [Outcome.bind_done]
    rfl

theorem ParamText.output_eq_meaning (h : ParamText dstsz s.world.vars V form pre post) :
    (form.emptyDefault s.world.vars V = false
      ∧ form.output s.world.vars V = form.meaning s.world.vars V)
      ↔ form.Found s.world.vars V := by
  cases form with
  | bare => simp [ParamForm.emptyDefault, ParamForm.output, ParamForm.Found]
  | braced => simp [ParamForm.emptyDefault, ParamForm.output, ParamForm.Found]
  | withDefault d =>
      simp only [ParamForm.emptyDefault, ParamForm.output, ParamForm.Found, and_true,
        Bool.and_eq_false_iff,
        decide_eq_false_iff_not]
      by_cases hv : (varGet s.world.vars V).getD [] = []
      · simp [hv]
      · simp [hv]
  | size =>
      have hsmall : ∀ U, valueSize s.world.vars U < 10 ^ 20 := fun U =>
        lt_trans (valueSize_lt h.values U) (by decide)
      simp only [ParamForm.emptyDefault, ParamForm.output, ParamForm.meaning, ParamForm.Found,
        true_and]
      exact ⟨decimal_inj (hsmall _) (hsmall _), fun he => by rw [he]⟩

/-- **The form is replaced by what it stands for exactly if something is left of the text, and the
code looks where the value is.** -/
theorem expandWord_form_iff (h : ParamText dstsz s.world.vars V form pre post) :
    expandWord env exec dstsz s (pre ++ (form.text V ++ post))
        = .done (s, pre ++ (form.meaning s.world.vars V ++ post))
      ↔ pre ++ (form.meaning s.world.vars V ++ post) ≠ [] ∧ form.Found s.world.vars V := by
  rw [expandWord_form h, ← h.output_eq_meaning]
  cases hdef : form.emptyDefault s.world.vars V with
  | true => simp
  | false =>
      rw [if_neg (by decide)]
      by_cases hnil : pre ++ (form.output s.world.vars V ++ post) = []
      · rw [if_pos hnil]
        constructor
        · intro hpanic
          cases hpanic
        · rintro ⟨hne, _, he⟩
          rw [he] at hnil
          exact absurd hnil hne
      · rw [if_neg hnil]
        constructor
        · intro hdone
          have htext := (Prod.mk.inj (Outcome.done.inj hdone)).2
          have hout : form.output s.world.vars V = form.meaning s.world.vars V :=
            List.append_cancel_right (List.append_cancel_left htext)
          exact ⟨hout ▸ hnil, rfl, hout⟩
        · rintro ⟨_, _, he⟩
          rw [he]

end Text

def paramShell (vars : List ShVar) : Sh (ShWorld Unit) :=
  ⟨.none, 0, 0, ⟨vars, [], [], [], [], Kout.init, fun _ => [], [], [], ()⟩⟩

def paramEnv : ShEnv Unit where
  arith _ _ := 0
  ticks _ := 0
  slurp ext _ _ := (ext, none)
  spill ext _ _ _ := ext
  own s _ := .done (s, 0)
  builtin _ _ s _ := .done (s, 0)

theorem varName_letter : VarName (cstr "V") where
  ne_nil := by decide
  chars := by decide
  noDigit := by
    intro c hc
    cases hc
    decide
  short := by decide
  noRandom := by decide

theorem expandWord_form_iff_default :
    expandWord paramEnv (fun s _ => .done (s, 0)) 64 (paramShell [⟨cstr "V", [], false⟩]) (cstr "a$\x7bV:-b\x7dc")
      = .done (paramShell [⟨cstr "V", [], false⟩], cstr "abc") := by
  have htext : ParamText 64 (paramShell [⟨cstr "V", [], false⟩]).world.vars (cstr "V")
    (.withDefault (cstr "b"))
      (cstr "a") (cstr "c") :=
    ⟨varName_letter, by decide, by decide,
      ⟨by decide, by decide, by decide⟩, by decide, by decide⟩
  exact (expandWord_form_iff htext).mpr ⟨by decide, fun _ => by decide⟩

/-- **The length of `abc` is zero.** -/
theorem size_of_empty_name : ¬ ∀ (dstsz : Nat) (s : Sh (ShWorld Unit)) (V : CStr) (form : ParamForm) (pre post : CStr),
    ParamText dstsz s.world.vars V form pre post →
    expandWord paramEnv (fun s _ => .done (s, 0)) dstsz s (pre ++ (form.text V ++ post))
      = .done (s, pre ++ (form.meaning s.world.vars V ++ post)) := by
  intro h
  have hrun : (expandWord paramEnv (fun s _ => .done (s, 0)) 64
    (paramShell [⟨cstr "V", cstr "abc", false⟩])
      (cstr "$\x7b#V\x7d")).get?.map (·.2) = some (cstr "0") := by decide +kernel
  obtain ⟨⟨s', text⟩, hdone, htext⟩ := Outcome.of_get? hrun
  have hthree := h 64 (paramShell [⟨cstr "V", cstr "abc", false⟩]) (cstr "V") .size [] []
    ⟨varName_letter, by decide, by decide, trivial, by decide, by decide⟩
  rw [show [] ++ (ParamForm.size.text (cstr "V") ++ []) = cstr "$\x7b#V\x7d" from rfl,
    hdone] at hthree
  have hsize : text = decimal 3 := (Prod.mk.inj (Outcome.done.inj hthree)).2
  dsimp only at htext
  rw [hsize] at htext
  exact absurd htext (by decide)

end VnlKernel
