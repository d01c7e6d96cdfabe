import VnlKernel.Shell.Block

/-!
# What the executor sees of a line

A script here is a list of lines, each behind some blanks. For a line that is nothing but
what it seems, without quotes, comments or separators, `shExecBlock` finds the line, decides
by how it begins, and goes on behind it: one lemma for each kind of line.
-/

namespace VnlKernel

variable {σ : Type}

/-! ## Lines -/

/-- The bytes that make a line more than a list of words. -/
def specialBytes : List UInt8 :=
  [0x27, 0x22, 0x24, 0x60, hash, semicolon, pipeSign, 0x26, 0x3C, 0x3E, parenOpen, newline]

/-- The words that `sh_exec_block` looks for. -/
def shellKeywords : List CStr :=
  [cstr "function", cstr "if", cstr "then", cstr "elif", cstr "else", cstr "fi", cstr "while", cstr "for",
    cstr "do", cstr "done", cstr "case", cstr "esac", cstr "break", cstr "continue", cstr "return", cstr "\x7d"]

/-- Words and blanks, from the first word to the last, and no continuation. -/
structure WordsOnly (l : CStr) : Prop where
  plain : ∀ c ∈ l, c ∉ specialBytes
  first : ∃ c r, l = c :: r ∧ isBlank c = false
  last : ∃ r c, l = r ++ [c] ∧ isBlank c = false ∧ c ≠ backslash

/-- What the executor collects as one line and does not change. -/
structure OneLine (l : CStr) : Prop where
  plain : ∀ c ∈ l, c ≠ newline ∧ c ≠ semicolon ∧ c ≠ hash
  first : ∃ c r, l = c :: r ∧ isBlank c = false
  last : ∃ r c, l = r ++ [c] ∧ isBlank c = false ∧ c ≠ backslash

theorem WordsOnly.oneLine {l : CStr} (h : WordsOnly l) : OneLine l := by
  refine ⟨fun c hc => ?_, h.first, h.last⟩
  have := h.plain c hc
  simp only [specialBytes, List.mem_cons, not_or] at this
  simp [this]

/-- A simple command: no word of it begins with a keyword. -/
structure SimpleLine (l : CStr) : Prop extends WordsOnly l where
  words : ∀ i, i < l.length → (i = 0 ∨ (l.drop (i - 1)).head?.any isBlank = true) →
    ∀ k ∈ shellKeywords, ¬ k <+: l.drop i

/-- Lines, each behind blanks and before a newline. -/
inductive Text : List CStr → CStr → Prop
  | nil : Text [] []
  | cons {b l t : CStr} {ls : List CStr} (hb : ∀ c ∈ b, isBlank c = true) (h : Text ls t) :
      Text (l :: ls) (b ++ (l ++ newline :: t))

theorem Text.length_lt {b l t : CStr} : t.length < (b ++ (l ++ newline :: t)).length := by
  simp only [List.length_append, List.length_cons]
  omega

section Scan

variable {b l t : CStr}

theorem WordsOnly.ne_nil (h : WordsOnly l) : l ≠ [] := by
  obtain ⟨c, r, rfl, _⟩ := h.first
  simp

theorem WordsOnly.not_mem (h : WordsOnly l) {c : UInt8} (hc : c ∈ specialBytes) : c ∉ l :=
  fun hl => h.plain c hl hc

theorem dropWhile_blanks (hb : ∀ c ∈ b, isBlank c = true) (t : CStr) :
    (b ++ t).dropWhile isBlank = t.dropWhile isBlank := by
  rw [List.dropWhile_append, List.dropWhile_eq_nil_iff.mpr hb]
  rfl

/-- Blanks in front of a line are skipped, and nothing else. -/
theorem skipBlanks_line (hb : ∀ c ∈ b, isBlank c = true) (hl : OneLine l) :
    skipBlanks (b ++ (l ++ t)) = l ++ t := by
  obtain ⟨c, r, rfl, hc⟩ := hl.first
  rw [skipBlanks, dropWhile_blanks hb, List.cons_append, List.dropWhile_cons, hc]
  rfl

theorem skipLine_line (hl : WordsOnly l) : skipLine (l ++ newline :: t) = t := by
  have hdrop : l.dropWhile (· ≠ newline) = [] := by
    rw [List.dropWhile_eq_nil_iff]
    intro c hc
    have := hl.plain c hc
    simp only [specialBytes, List.mem_cons, not_or] at this
    simp [this]
  rw [skipLine, List.dropWhile_append, hdrop]
  simp

theorem collectLine_line : ∀ {l : CStr}, (∀ c ∈ l, c ≠ newline ∧ c ≠ semicolon ∧ c ≠ hash) →
    (∀ r c, l = r ++ [c] → c ≠ backslash) → ∀ t, collectLine (l ++ newline :: t) = (l, newline :: t)
  | [], _, _, t => by
      rw [List.nil_append, collectLine.eq_def]
      simp
  | c :: l, hp, hl, t => by
      have hc := hp c (List.mem_cons_self ..)
      have ih := collectLine_line (l := l) (fun d hd => hp d (List.mem_cons_of_mem _ hd))
        (fun r d he => hl (c :: r) d (by rw [he]; rfl)) t
      rw [List.cons_append, collectLine.eq_def]
      dsimp only
      rw [if_neg (by simp [hc]), if_neg hc.2.2]
      cases l with
      | nil =>
          have hback : c ≠ backslash := hl [] c rfl
          rw [List.nil_append] at ih ⊢
          dsimp only
          rw [if_neg (by simp [hback]), ih]
      | cons d l =>
          have hd : d ≠ newline := (hp d (by simp)).1
          rw [List.cons_append] at ih ⊢
          dsimp only
          rw [if_neg (by simp [hd]), ih]

/-- The executor takes the line as it stands. -/
theorem logicalLine_line (hl : OneLine l) (hlen : l.length < shLineMax) :
    logicalLine (l ++ newline :: t) = (l, t) := by
  obtain ⟨r, c, he, hblank, hback⟩ := hl.last
  have hcollect : collectLine (l ++ newline :: t) = (l, newline :: t) := by
    refine collectLine_line hl.plain (fun r' c' he' => ?_) t
    rw [he] at he'
    obtain ⟨_, hcc⟩ := List.append_inj' he' rfl
    cases hcc
    exact hback
  rw [logicalLine, hcollect]
  dsimp only
  rw [List.take_of_length_le (by unfold shLineMax at hlen ⊢; omega), he,
    List.rdropWhile_concat_neg _ _ _ (by simp [hblank])]
  rfl

end Scan

/-- What a line with a byte behind it begins with, the line begins with, if the byte is not in it.
-/
theorem prefix_of_prefix_cut {d : UInt8} : ∀ {w p t : CStr}, (∀ x ∈ w, x ≠ d) →
    w <+: p ++ d :: t → w <+: p
  | [], p, t, _, _ => List.nil_prefix
  | x :: w, [], t, hw, h => absurd (List.cons_prefix_cons.mp h).1 (hw x (List.mem_cons_self ..))
  | x :: w, y :: p, t, hw, h => by
      rw [List.cons_append, List.cons_prefix_cons] at h
      exact List.cons_prefix_cons.mpr ⟨h.1,
        prefix_of_prefix_cut (fun z hz => hw z (List.mem_cons_of_mem _ hz)) h.2⟩

/-! ## Keywords on a line of their own -/

theorem wordsOnly_then : WordsOnly (cstr "then") :=
  ⟨by decide, ⟨_, _, rfl, by decide⟩, ⟨cstr "the", 0x6E, rfl, by decide, by decide⟩⟩

theorem wordsOnly_else : WordsOnly (cstr "else") :=
  ⟨by decide, ⟨_, _, rfl, by decide⟩, ⟨cstr "els", 0x65, rfl, by decide, by decide⟩⟩

theorem wordsOnly_fi : WordsOnly (cstr "fi") :=
  ⟨by decide, ⟨_, _, rfl, by decide⟩, ⟨cstr "f", 0x69, rfl, by decide, by decide⟩⟩

/-! ## How a line begins -/

section Begins

variable {l : CStr}

theorem startsWith_iff {s p : CStr} : startsWith s p = true ↔ s <+: p := List.isPrefixOf_iff_prefix

theorem startsWith_append (s p : CStr) : startsWith s (s ++ p) = true :=
  startsWith_iff.mpr (List.prefix_append s p)

/-- The line does not begin with a keyword. -/
def Unkeyed (l : CStr) : Prop := ∀ k ∈ shellKeywords, ¬ k <+: l

theorem SimpleLine.unkeyed (h : SimpleLine l) : Unkeyed l :=
  fun k hk => h.words 0 (List.length_pos_iff.mpr h.ne_nil) (Or.inl rfl) k hk

theorem Unkeyed.startsWith_false (h : Unkeyed l) {k s : CStr} (hk : k ∈ shellKeywords)
    (hs : k <+: s) :
    startsWith s l = false := by
  rw [← Bool.not_eq_true, startsWith_iff]
  exact fun hp => h k hk (hs.trans hp)

theorem Unkeyed.ne (h : Unkeyed l) {k : CStr} (hk : k ∈ shellKeywords) : l ≠ k :=
  fun he => h k hk (he ▸ List.prefix_refl _)

theorem Unkeyed.isKeyword_false (h : Unkeyed l) {k : CStr} (hk : k ∈ shellKeywords) :
    isKeyword k l = false := by
  rw [isKeyword, h.startsWith_false hk (List.prefix_refl _)]
  rfl

theorem strstr_some {s : CStr} : ∀ {p : CStr} {k : Nat}, strstr s p = some k → ∃ a b,
    p = a ++ (s ++ b)
  | [], k, h => by
      rw [strstr] at h
      split at h
      · next hs => exact ⟨[], [], by simp [hs]⟩
      · cases h
  | c :: p, k, h => by
      rw [strstr] at h
      split at h
      · next hs =>
        obtain ⟨b, hb⟩ := startsWith_iff.mp hs
        exact ⟨[], b, hb.symm⟩
      · obtain ⟨j, hj, _⟩ := Option.map_eq_some_iff.mp h
        obtain ⟨a, b, hab⟩ := strstr_some hj
        exact ⟨c :: a, b, by rw [hab]; rfl⟩

/-- A keyword is found nowhere in a simple command. -/
theorem SimpleLine.strstr_none (h : SimpleLine l) {k : CStr} (hk : k ∈ shellKeywords) :
    strstr (space :: k) l = none := by
  cases hf : strstr (space :: k) l with
  | none => rfl
  | some j =>
      obtain ⟨a, b, he⟩ := strstr_some hf
      -- the word starts behind the blank
      have hword : l.drop (a.length + 1) = k ++ b := by rw [he]; simp
      have hblank : l.drop (a.length + 1 - 1) = space :: (k ++ b) := by rw [he]; simp
      have hlt : a.length + 1 < l.length := by
        have hne : k ≠ [] := by
          intro hk0
          rw [hk0] at hk
          exact absurd hk (by decide)
        rw [he]
        simp only [List.length_append, List.length_cons]
        have := List.length_pos_iff.mpr hne
        omega
      refine absurd ?_ (h.words (a.length + 1) hlt (Or.inr (by rw [hblank]; rfl)) k hk)
      rw [hword]
      exact List.prefix_append k b

/-- Without ampersands and bars there is nothing to combine. -/
theorem findAndOr_words (hamp : 0x26 ∉ l) (hbar : pipeSign ∉ l) : findAndOr l = none := by
  have hnone : ∀ {s : CStr} {c : UInt8}, c ∈ s → c ∉ l → strstr s l = none := by
    intro s c hcs hc
    cases hf : strstr s l with
    | none => rfl
    | some j =>
        obtain ⟨a, b, he⟩ := strstr_some hf
        exact absurd (he ▸ (by simp [hcs])) hc
  have hand : strstr (cstr " && ") l = none := hnone (c := 0x26) (by decide) hamp
  have hor : strstr (cstr " || ") l = none := hnone (c := pipeSign) (by decide) hbar
  rw [findAndOr, hand, hor]

theorem WordsOnly.findAndOr_none (h : WordsOnly l) : findAndOr l = none :=
  findAndOr_words (h.not_mem (by decide)) (h.not_mem (by decide))

/-- A line with a first word of bearable length does not define a function. -/
theorem functionName_words (hfirst : ∃ c r, l = c :: r ∧ isBlank c = false) (hparen : parenOpen ∉ l)
    (hf : startsWith (cstr "function ") l = false)
    (hw : (l.takeWhile (· ≠ space)).length < shVarNamsz) : functionName l = .done none := by
  have hskip : skipSpaces l = l := by
    obtain ⟨c, r, rfl, hc⟩ := hfirst
    have hne : c ≠ space := fun he => by rw [he] at hc; exact absurd hc (by decide)
    rw [skipSpaces, List.dropWhile_cons, if_neg (by simp [hne])]
  have hlen : (l.takeWhile fun c => c ≠ parenOpen && c ≠ space).length
      ≤ (l.takeWhile (· ≠ space)).length := by
    have htake := List.takeWhile_takeWhile (· ≠ parenOpen) (fun c => decide (c ≠ space)) l
    simp only [Bool.decide_and, Bool.decide_eq_true] at htake
    rw [← htake]
    exact (List.takeWhile_sublist _).length_le
  have hrest : startsWith [parenOpen, parenClose]
      (l.dropWhile fun c => c ≠ parenOpen && c ≠ space) = false := by
    rw [← Bool.not_eq_true, startsWith_iff]
    rintro ⟨r, hr⟩
    refine hparen ?_
    have hmem : parenOpen ∈ l.dropWhile fun c => c ≠ parenOpen && c ≠ space := by
      rw [← hr]
      simp
    exact (List.dropWhile_sublist _).subset hmem
  rw [functionName, hskip, hf]
  dsimp only
  rw [if_neg (by decide), if_neg (by omega), hrest]
  rfl

theorem WordsOnly.functionName_none (h : WordsOnly l) (hf : startsWith (cstr "function ") l = false)
    (hw : (l.takeWhile (· ≠ space)).length < shVarNamsz) : functionName l = .done none :=
  functionName_words h.first (h.not_mem (by decide)) hf hw

end Begins

/-! ## One turn of the executor -/

/-- The line is found, and looked at. -/
theorem shExecBlock_oneLine (R : Runner σ) {fuel : Nat} {b l t : CStr}
    (hb : ∀ c ∈ b, isBlank c = true)
    (hl : OneLine l) (hlen : l.length < shLineMax) (s : Sh σ) (execute : Bool) (lastRet : Int) :
    shExecBlock R (fuel + 1) s (b ++ (l ++ newline :: t)) execute lastRet
      = execLine R fuel (fun s p execute => shExecBlock R fuel s p execute 0)
          (fun s p lastRet => shExecBlock R fuel s p execute lastRet) s l
            (l ++ newline :: t) t execute
          lastRet := by
  have hskip := skipBlanks_line (t := newline :: t) hb hl
  have hline := logicalLine_line (t := t) hl hlen
  obtain ⟨c, r, he, _⟩ := hl.first
  have hc := hl.plain c (by rw [he]; exact List.mem_cons_self ..)
  rw [shExecBlock]
  dsimp only
  rw [hskip]
  subst he
  rw [List.cons_append] at hline ⊢
  dsimp only
  rw [if_neg hc.1, if_neg hc.2.2, hline]
  dsimp only
  rw [if_neg (List.cons_ne_nil _ _)]

theorem shExecBlock_line (R : Runner σ) {fuel : Nat} {b l t : CStr} (hb : ∀ c ∈ b, isBlank c = true)
    (hl : WordsOnly l) (hlen : l.length < shLineMax) (s : Sh σ) (execute : Bool) (lastRet : Int) :
    shExecBlock R (fuel + 1) s (b ++ (l ++ newline :: t)) execute lastRet
      = execLine R fuel (fun s p execute => shExecBlock R fuel s p execute 0)
          (fun s p lastRet => shExecBlock R fuel s p execute lastRet) s l
            (l ++ newline :: t) t execute
          lastRet :=
  shExecBlock_oneLine R hb hl.oneLine hlen s execute lastRet

section Kinds

variable {R : Runner σ} {fuel : Nat} {block : Sh σ → CStr → Bool → Outcome (Sh σ × CStr × Int)}
  {next : Sh σ → CStr → Int → Outcome (Sh σ × CStr × Int)} {s : Sh σ} {l lineStart p : CStr}
  {execute : Bool} {lastRet : Int}

/-- What is nothing else is a command, and is run if anything is. -/
theorem execLine_command (h : Unkeyed l) (hname : functionName l = .done none)
    (hand : findAndOr l = none) :
    execLine R fuel block next s l lineStart p execute lastRet
      = if execute then do
          let (s, r) ← R.line s l
          next { s with lastStatus := r } p r
        else next s p lastRet := by
  have hterm : terminator l lineStart p = none := by
    have hbrace : l.head? ≠ some braceClose := by
      intro hc
      obtain ⟨r, he⟩ := List.head?_eq_some_iff.mp hc
      exact h (cstr "\x7d") (by decide) (he ▸ ⟨r, rfl⟩)
    rw [terminator, h.isKeyword_false (by decide), h.isKeyword_false (by decide),
      h.isKeyword_false (by decide), h.isKeyword_false (by decide),
      h.startsWith_false (k := cstr "elif") (by decide) (by decide)]
    simp [hbrace]
  rw [execLine, hname, Outcome.bind_done]
  dsimp only
  rw [if_neg (h.ne (by decide)), h.startsWith_false (k := cstr "if") (by decide) (by decide), hterm]
  dsimp only
  rw [h.isKeyword_false (by decide), h.isKeyword_false (by decide), if_neg (h.ne (by decide)),
    h.startsWith_false (k := cstr "while") (by decide) (by decide),
    h.startsWith_false (k := cstr "for") (by decide) (by decide),
    h.startsWith_false (k := cstr "case") (by decide) (by decide), if_neg (h.ne (by decide)),
    if_neg (h.ne (by decide)), h.startsWith_false (k := cstr "return") (by decide) (by decide),
      hand]
  rfl

theorem execLine_simple (h : SimpleLine l) (hw : (l.takeWhile (· ≠ space)).length < shVarNamsz) :
    execLine R fuel block next s l lineStart p execute lastRet
      = if execute then do
          let (s, r) ← R.line s l
          next { s with lastStatus := r } p r
        else next s p lastRet :=
  execLine_command h.unkeyed
    (h.functionName_none (h.unkeyed.startsWith_false (k := cstr "function") (by decide)
      (by decide)) hw)
    h.findAndOr_none

/-- A word in front of a command is another line of words. -/
theorem WordsOnly.behind {k c : CStr} (hp : ∀ d ∈ k, d ∉ specialBytes)
    (hf : ∃ d r, k = d :: r ∧ isBlank d = false) (hc : WordsOnly c) : WordsOnly (k ++ c) := by
  refine ⟨?_, ?_, ?_⟩
  · intro d hd
    rcases List.mem_append.mp hd with hd | hd
    · exact hp d hd
    · exact hc.plain d hd
  · obtain ⟨d, r, rfl, hd⟩ := hf
    exact ⟨d, r ++ c, rfl, hd⟩
  · obtain ⟨r, d, rfl, hd⟩ := hc.last
    exact ⟨k ++ r, d, by simp, hd⟩

theorem wordsOnly_if {c : CStr} (h : WordsOnly c) : WordsOnly (cstr "if " ++ c) :=
  h.behind (by decide) ⟨_, _, rfl, by decide⟩

theorem wordsOnly_elif {c : CStr} (h : WordsOnly c) : WordsOnly (cstr "elif " ++ c) :=
  h.behind (by decide) ⟨_, _, rfl, by decide⟩

theorem functionName_if {c : CStr} (h : WordsOnly c) :
    functionName (cstr "if " ++ c) = .done none :=
  (wordsOnly_if h).functionName_none rfl (by show 2 < 64; decide)

theorem functionName_elif {c : CStr} (h : WordsOnly c) :
    functionName (cstr "elif " ++ c) = .done none :=
  (wordsOnly_elif h).functionName_none rfl (by show 4 < 64; decide)

theorem ifCond_if {c : CStr} (h : SimpleLine c) : ifCond (cstr "if " ++ c) = c := by
  have hthen : startsWith (cstr "then") c = false :=
    h.unkeyed.startsWith_false (by decide) (List.prefix_refl _)
  have hnone : strstr (cstr " then") (cstr "if " ++ c) = none := by
    have hc := h.strstr_none (k := cstr "then") (by decide)
    show ((if startsWith (cstr "then") c then some 0 else (strstr (space :: cstr "then") c).map
      (· + 1)).map
      (· + 1)).map (· + 1) = none
    rw [hthen, hc]
    rfl
  rw [ifCond, hnone]
  rfl

/-- An `if` line: the condition, the block, and what follows the block. -/
theorem execLine_if {c : CStr} (h : SimpleLine c) :
    execLine R fuel block next s (cstr "if " ++ c) lineStart p execute lastRet = (do
      let (s, condTrue) ← R.test execute s c
      let (s, p, _) ← block s p (execute && condTrue)
      let (s, p) ← ifLoop R block execute fuel s p condTrue
      next s p 0) := by
  rw [execLine, functionName_if h.toWordsOnly, Outcome.bind_done]
  dsimp only
  rw [if_neg (by rintro ⟨⟩), startsWith_append, if_pos rfl, ifCond_if h]

theorem execLine_elif {c : CStr} (h : WordsOnly c) :
    execLine R fuel block next s (cstr "elif " ++ c) lineStart p execute lastRet
      = .done (s, lineStart, lastRet) := by
  rw [execLine, functionName_elif h, Outcome.bind_done]
  rfl

/-- The lines that end a block. -/
theorem execLine_end (h : l = cstr "fi" ∨ l = cstr "else" ∨ l = cstr "done") :
    execLine R fuel block next s l lineStart p execute lastRet = .done (s, p, lastRet) := by
  rcases h with rfl | rfl | rfl <;> rfl

/-- The lines that say nothing. -/
theorem execLine_then (h : l = cstr "then" ∨ l = cstr "do") :
    execLine R fuel block next s l lineStart p execute lastRet = next s p lastRet := by
  rcases h with rfl | rfl <;> rfl

end Kinds

/-! ## Behind a branch -/

section Behind

variable {R : Runner σ} {block : Sh σ → CStr → Bool → Outcome (Sh σ × CStr × Int)} {execute : Bool}
  {fuel : Nat} {s : Sh σ} {b l t : CStr} {condTrue : Bool}

theorem ifLoop_line (hb : ∀ c ∈ b, isBlank c = true) (hl : WordsOnly l) :
    ifLoop R block execute (fuel + 1) s (b ++ (l ++ newline :: t)) condTrue
      = ifLoop R block execute (fuel + 1) s (l ++ newline :: t) condTrue := by
  have hskip := skipBlanks_line (t := newline :: t) hb hl.oneLine
  have hself := skipBlanks_line (b := []) (t := newline :: t)
    (fun c hc => absurd hc (by simp)) hl.oneLine
  rw [List.nil_append] at hself
  have hne : b ++ (l ++ newline :: t) ≠ [] := by simp
  have hne' : l ++ newline :: t ≠ [] := by simp
  generalize b ++ (l ++ newline :: t) = p at hskip hne
  generalize l ++ newline :: t = q at hskip hself hne'
  cases p with
  | nil => exact absurd rfl hne
  | cons c p =>
      cases q with
      | nil => exact absurd rfl hne'
      | cons d q =>
          rw [ifLoop, ifLoop]
          dsimp only
          rw [hskip, hself]

theorem ifLoop_fi (hb : ∀ c ∈ b, isBlank c = true) :
    ifLoop R block execute (fuel + 1) s (b ++ (cstr "fi" ++ newline :: t)) condTrue
      = .done (s, t) := by
  rw [ifLoop_line hb wordsOnly_fi]
  rfl

theorem ifLoop_else (hb : ∀ c ∈ b, isBlank c = true) :
    ifLoop R block execute (fuel + 1) s (b ++ (cstr "else" ++ newline :: t)) condTrue = (do
      let (s, p, _) ← block s t (execute && !condTrue)
      ifLoop R block execute fuel s p condTrue) := by
  rw [ifLoop_line hb wordsOnly_else]
  rfl

/-- The condition behind `elif` is the rest of its line. -/
theorem elifCond_line : ∀ {c : CStr}, (∀ d ∈ c, d ∉ specialBytes) → strstr (cstr " then") c = none
    → ∀ t,
    elifCond (c ++ newline :: t) = c
  | [], _, _, t => by
      rw [List.nil_append, elifCond, if_pos (Or.inl rfl)]
  | d :: c, hp, hs, t => by
      have hd : d ≠ newline := by
        have := hp d (List.mem_cons_self ..)
        simp only [specialBytes, List.mem_cons, not_or] at this
        simp [this]
      rw [strstr] at hs
      split at hs
      · cases hs
      · next hno =>
        -- ` then` would have to end within the line
        have hno' : ¬ startsWith (cstr " then") (d :: (c ++ newline :: t)) = true := by
          rw [startsWith_iff] at hno ⊢
          intro hpre
          apply hno
          have hline : ∀ x ∈ cstr " then", x ≠ newline := by decide
          exact prefix_of_prefix_cut (p := d :: c) hline hpre
        rw [List.cons_append, elifCond, if_neg (by simp only [not_or]; exact ⟨hd, hno'⟩),
          elifCond_line (fun x hx => hp x (List.mem_cons_of_mem _ hx)) (by simpa using hs) t]

theorem ifLoop_elif (hb : ∀ c ∈ b, isBlank c = true) {c : CStr} (hc : SimpleLine c)
    (hlen : (cstr "elif " ++ c).length < shLineMax) :
    ifLoop R block execute (fuel + 1) s (b ++ ((cstr "elif " ++ c) ++ newline :: t)) condTrue = (do
      let (s, elifTrue) ← R.test (execute && !condTrue) s c
      let (s, p, _) ← block s t (execute && !condTrue && elifTrue)
      ifLoop R block execute fuel s p (elifTrue || condTrue)) := by
  have hself := skipBlanks_line (b := []) (t := newline :: t) (fun c hc => absurd hc (by simp))
    (wordsOnly_elif hc.toWordsOnly).oneLine
  have hskip := skipLine_line (t := t) (wordsOnly_elif hc.toWordsOnly)
  have hcond : elifCond (((cstr "elif " ++ c) ++ newline :: t).drop 5) = c :=
    elifCond_line hc.plain (hc.strstr_none (k := cstr "then") (by decide)) t
  have hstart : startsWith (cstr "elif ") ((cstr "elif " ++ c) ++ newline :: t) = true := by
    rw [List.append_assoc]
    exact startsWith_append _ _
  have hclen : ¬ c.length ≥ shLineMax := by
    rw [List.length_append] at hlen
    omega
  have hne : (cstr "elif " ++ c) ++ newline :: t ≠ [] := by simp
  rw [ifLoop_line hb (wordsOnly_elif hc.toWordsOnly)]
  rw [List.nil_append] at hself
  generalize (cstr "elif " ++ c) ++ newline :: t = p at *
  cases p with
  | nil => exact absurd rfl hne
  | cons d p =>
      rw [ifLoop]
      dsimp only
      rw [hself, hstart, hcond, if_pos rfl, if_neg hclen, hskip]

/-- Anything else is left alone. -/
theorem ifLoop_other (hb : ∀ c ∈ b, isBlank c = true) (hl : WordsOnly l)
    (h : (∃ c, l = cstr "if " ++ c) ∨ SimpleLine l) :
    ifLoop R block execute (fuel + 1) s (b ++ (l ++ newline :: t)) condTrue
      = .done (s, l ++ newline :: t) := by
  have hself := skipBlanks_line (b := []) (t := newline :: t)
    (fun c hc => absurd hc (by simp)) hl.oneLine
  have hno : startsWith (cstr "elif ") (l ++ newline :: t) = false
      ∧ startsWith (cstr "else") (l ++ newline :: t) = false
      ∧ startsWith (cstr "fi") (l ++ newline :: t) = false := by
    rcases h with ⟨c, rfl⟩ | h
    · exact ⟨rfl, rfl, rfl⟩
    · have hpre : ∀ {k s : CStr}, k ∈ shellKeywords → k <+: s → (∀ x ∈ s, x ≠ newline) →
          startsWith s (l ++ newline :: t) = false := by
        intro k s hk hks hs
        rw [← Bool.not_eq_true, startsWith_iff]
        exact fun hp => h.unkeyed _ hk (hks.trans (prefix_of_prefix_cut hs hp))
      exact ⟨hpre (k := cstr "elif") (by decide) (by decide) (by decide),
        hpre (k := cstr "else") (by decide) (by decide) (by decide),
        hpre (k := cstr "fi") (by decide) (by decide) (by decide)⟩
  have hne : l ++ newline :: t ≠ [] := by simp
  rw [ifLoop_line hb hl]
  rw [List.nil_append] at hself
  generalize l ++ newline :: t = p at *
  cases p with
  | nil => exact absurd rfl hne
  | cons d p =>
      rw [ifLoop]
      dsimp only
      rw [hself, hno.1, hno.2.1, hno.2.2]
      rfl

end Behind

end VnlKernel
