import VnlKernel.Shell.Pipeline
import VnlKernel.Proof.ShellText

/-!
# Text without quotes

A text goes through `expandWord`, the splitter, the redirect scanner, `expandWord` again and
`tokenize`. Each of them has bytes of its own that it does not just copy. Over the others it
makes one turn for each byte, and the lemmas here follow it to the end of such a text.
-/

namespace VnlKernel

variable {ε : Type} {env : ShEnv ε} {exec : Command ε} {s : Sh (ShWorld ε)}

/-- `expand_word` copies the byte. -/
def Ordinary (c : UInt8) : Prop :=
  c ≠ backslash ∧ c ≠ squote ∧ c ≠ dquote ∧ c ≠ dollarSign ∧ c ≠ backquote

instance (c : UInt8) : Decidable (Ordinary c) := by unfold Ordinary; infer_instance

theorem outs_room {dstsz : Nat} {dst : CStr} (h : dst.length + 1 < dstsz) (c : UInt8) :
    outs dstsz dst [c] = dst ++ [c] := by
  rw [outs, List.take_of_length_le (by simp only [List.length_singleton]; omega)]

/-! ## `expand_word` -/

theorem outs_length (dstsz : Nat) (dst text : CStr) : (outs dstsz dst text).length
    ≤ dst.length + text.length := by
  rw [outs, List.length_append, List.length_take]
  omega

theorem outs_lt {dstsz : Nat} {dst : CStr} (h : dst.length < dstsz) (text : CStr) :
    (outs dstsz dst text).length < dstsz := by
  rw [outs, List.length_append, List.length_take]
  omega

theorem outs_nil (dstsz : Nat) (dst : CStr) : outs dstsz dst [] = dst := by
  rw [outs, List.take_nil, List.append_nil]

/-- One text after another. -/
theorem outs_outs (dstsz : Nat) (dst text text' : CStr) :
    outs dstsz (outs dstsz dst text) text' = outs dstsz dst (text ++ text') := by
  simp only [outs, List.length_append, List.length_take, List.append_assoc, List.take_append]
  congr 3
  omega

theorem outs_cons (dstsz : Nat) (dst text : CStr) (c : UInt8) :
    outs dstsz dst (c :: text) = outs dstsz (outs dstsz dst [c]) text :=
  (outs_outs dstsz dst [c] text).symm

theorem outs_starts (dstsz : Nat) (dst text : CStr) : dst <+: outs dstsz dst text :=
  List.prefix_append _ _

/-- Where the loop inside double quotes leaves off. -/
def Quoted.Fits (dst src : CStr) : Quoted → Prop
  | .closed dst' rest => dst <+: dst' ∧ dst'.length + rest.length ≤ dst.length + src.length
  | .special dst' rest => dst <+: dst' ∧ dst'.length + rest.length ≤ dst.length + src.length
      ∧ ∃ c q, rest = c :: q ∧ (c = dollarSign ∨ c = backquote)
  | .stuck => True

theorem Quoted.Fits.step {dst src dst' src' : CStr} {x : Quoted} (h : x.Fits dst' src')
    (hdst : dst <+: dst')
    (hlen : dst'.length + src'.length ≤ dst.length + src.length) : x.Fits dst src := by
  cases x with
  | closed d r => exact ⟨hdst.trans h.1, by have := h.2; omega⟩
  | special d r => exact ⟨hdst.trans h.1, by have := h.2.1; omega, h.2.2⟩
  | stuck => trivial

theorem expandQuoted_fits (dstsz : Nat) (dst src : CStr) :
    (expandQuoted dstsz dst src).Fits dst src := by
  have hgrow : ∀ (dst : CStr) (c : UInt8), dst <+: dst ++ [c] :=
    fun dst c => List.prefix_append dst [c]
  fun_induction expandQuoted dstsz dst src with
  | case1 dst => exact ⟨List.prefix_refl _, by simp⟩
  | case2 dst p => exact ⟨List.prefix_refl _, by simp⟩
  | case3 dst c p h1 h2 => exact ⟨List.prefix_refl _, Nat.le_refl _, c, p, rfl, h2⟩
  | case4 _ _ _ _ ih => exact ih.step (hgrow _ _) (by simp)
  | case5 => trivial
  | case6 _ _ _ _ _ _ _ ih => exact ih.step (hgrow _ _) (by simp; omega)
  | case7 _ _ _ _ _ _ _ ih => exact ih.step (List.prefix_refl _) (by simp)
  | case8 _ _ _ _ _ _ _ ih => exact ih.step (hgrow _ _) (by simp; omega)
  | case9 => trivial
  | case10 _ _ _ _ _ _ _ ih => exact ih.step (hgrow _ _) (by simp; omega)
  | case11 => trivial

theorem expandLoop_ordinary {fuel dstsz : Nat} {dst p : CStr} {c : UInt8} (hc : Ordinary c)
    (hroom : dst.length + 1 < dstsz) :
    expandLoop env exec (fuel + 1) dstsz s dst (c :: p)
      = expandLoop env exec fuel dstsz s (dst ++ [c]) p := by
  obtain ⟨hb, hs, hd, hdo, hba⟩ := hc
  rw [expandLoop]
  dsimp only
  rw [if_neg (by omega), if_neg hb, if_neg hs, if_neg hd, expandSpecial, if_neg hdo, if_neg hba,
    outs_room hroom]

theorem expandLoop_plain : ∀ {l : CStr}, (∀ c ∈ l, Ordinary c) → ∀ {fuel dstsz : Nat} {dst : CStr},
    dst.length + l.length < dstsz → ∀ (p : CStr),
    expandLoop env exec (l.length + fuel) dstsz s dst (l ++ p)
      = expandLoop env exec fuel dstsz s (dst ++ l) p
  | [], _, fuel, dstsz, dst, _, p => by
      rw [List.length_nil, Nat.zero_add, List.nil_append, List.append_nil]
  | c :: l, hl, fuel, dstsz, dst, hroom, p => by
      rw [List.length_cons] at hroom ⊢
      rw [Nat.add_right_comm, List.cons_append,
        expandLoop_ordinary (hl c (List.mem_cons_self ..)) (by omega),
        expandLoop_plain (fun d hd => hl d (List.mem_cons_of_mem _ hd))
          (by rw [List.length_append, List.length_singleton]; omega) p]
      rw [List.append_assoc, List.singleton_append]

/-- A text in single quotes, closed or not, is copied. -/
theorem expandLoop_squote {l q : CStr} (hl : squote ∉ l) (hq : q = [] ∨ q = [squote])
    {fuel dstsz : Nat}
    {dst : CStr} (hroom : dst.length + l.length + 1 < dstsz) :
    expandLoop env exec (fuel + 2) dstsz s dst (squote :: (l ++ q)) = .done (s, dst ++ l) := by
  have htake : (l ++ q).takeWhile (· ≠ squote) = l := by
    rw [List.takeWhile_append_of_pos (fun c hc => by
      simp only [decide_eq_true_eq]
      exact fun he => hl (he ▸ hc))]
    rcases hq with rfl | rfl
    · simp
    · simp
  have hdrop : (l ++ q).drop (l.length + 1) = [] := by
    rw [List.drop_append]
    rcases hq with rfl | rfl
    · simp
    · simp
  rw [expandLoop]
  dsimp only
  rw [if_neg (by omega), if_neg (by decide), if_pos rfl, htake, if_neg (by omega), hdrop,
    expandLoop]

/-- A text of ordinary bytes stays as it is. -/
theorem expandWord_plain {l : CStr} (hl : ∀ c ∈ l, Ordinary c) (hne : l ≠ []) {dstsz : Nat}
    (hroom : l.length < dstsz) : expandWord env exec dstsz s l = .done (s, l) := by
  have h : expandLoop env exec (l.length + 1) dstsz s [] (l ++ [])
      = expandLoop env exec 1 dstsz s ([] ++ l) [] :=
    expandLoop_plain hl (by rw [List.length_nil, Nat.zero_add]; exact hroom) []
  rw [List.append_nil, List.nil_append, expandLoop] at h
  rw [expandWord, h, Outcome.bind_done]
  dsimp only
  rw [if_neg hne]
  rfl

/-! ## The splitter -/

/-- What the splitter remembers at the end of a text. -/
def Split.after (t : Split) (l : CStr) : Split := l.foldl Split.next t

/-- Nothing in the text is cut. -/
def Uncut (t : Split) (l : CStr) : Prop := ∀ a c b, l = a ++ c :: b → (t.after a).cuts c b = false

theorem splitLoop_uncut : ∀ {l : CStr} {t : Split} (left : Nat), Uncut t l
    → splitLoop left t l = (l, [])
  | [], t, left, _ => by rw [splitLoop.eq_def]
  | c :: l, t, left, h => by
      have hc : t.cuts c l = false := h [] c l rfl
      have hl : Uncut (t.next c) l := fun a d b he => h (c :: a) d b (by rw [he]; rfl)
      rw [splitLoop.eq_def]
      dsimp only
      rw [hc, splitLoop_uncut left hl]
      rfl

theorem splitStages_uncut {l : CStr} (h : Uncut ⟨0, false, false⟩ l) (hlen : l.length < shLineMax) :
    splitStages l = [l] := by
  rw [splitStages, splitLoop_uncut 8 h]
  dsimp only
  rw [List.map_singleton, List.take_of_length_le (by unfold shLineMax at *; omega)]

/-! ## The redirect scanner -/

theorem scanRedirects_other {fuel : Nat} {c : UInt8} {p : CStr} (hc : c ≠ greater ∧ c ≠ less)
    (h2 : ¬ (c = 0x32 ∧ p.head? = some greater)) (acc : CStr × Redirs) :
    scanRedirects (fuel + 1) (c :: p) acc = scanRedirects fuel p (acc.1 ++ [c], acc.2) := by
  obtain ⟨stripped, r⟩ := acc
  have happ : startsWith [greater, greater] (c :: p) = false := by
    rw [← Bool.not_eq_true, startsWith_iff, List.cons_prefix_cons]
    exact fun h => hc.1 h.1.symm
  have herr : ∀ t : CStr, startsWith (0x32 :: greater :: t) (c :: p) = false := by
    intro t
    rw [← Bool.not_eq_true, startsWith_iff, List.cons_prefix_cons]
    rintro ⟨hc2, hp⟩
    obtain ⟨r, hr⟩ := hp
    exact h2 ⟨hc2.symm, by rw [← hr]; rfl⟩
  rw [scanRedirects, happ, show cstr "2>&1" = 0x32 :: greater :: [0x26, 0x31] from rfl, herr,
    show cstr "2>" = 0x32 :: greater :: [] from rfl, herr, if_neg (by decide), if_neg (by decide),
    if_neg (by decide), if_neg hc.1, if_neg hc.2]

/-- What is not a redirection stays, unless it is the digit in front of one. -/
theorem scanRedirects_plain : ∀ {l : CStr}, (∀ c ∈ l, c ≠ greater ∧ c ≠ less)
    → ∀ (fuel : Nat) (p : CStr)
    (acc : CStr × Redirs), (p.head? = some greater → 0x32 ∉ l) →
    scanRedirects (l.length + fuel) (l ++ p) acc = scanRedirects fuel p (acc.1 ++ l, acc.2)
  | [], _, fuel, p, acc, _ => by
      rw [List.length_nil, Nat.zero_add, List.nil_append, List.append_nil]
  | c :: l, hl, fuel, p, acc, hp => by
      have hnext : ¬ (c = 0x32 ∧ (l ++ p).head? = some greater) := by
        rintro ⟨hc, hhead⟩
        cases l with
        | nil => exact hp hhead (by rw [hc]; exact List.mem_cons_self ..)
        | cons d l =>
            rw [List.cons_append, List.head?_cons] at hhead
            exact (hl d (by simp)).1 (Option.some.inj hhead)
      rw [List.length_cons, Nat.add_right_comm, List.cons_append,
        scanRedirects_other (hl c (List.mem_cons_self ..)) hnext,
        scanRedirects_plain (fun d hd => hl d (List.mem_cons_of_mem _ hd)) fuel p _
          (fun h hm => hp h (List.mem_cons_of_mem _ hm)),
        List.append_assoc, List.singleton_append]

/-- A line without redirections is run as it stands. -/
theorem runStage_plain {l : CStr} (hl : ∀ c ∈ l, c ≠ greater ∧ c ≠ less)
    (hlen : l.length < shLineMax - 1) :
    runStage env exec s l = exec s l := by
  have hscan := scanRedirects_plain hl 1 [] ([], ⟨none, none, none⟩) (fun h => by cases h)
  rw [List.append_nil, List.nil_append, scanRedirects] at hscan
  rw [runStage, if_neg (by omega), hscan]
  rfl

/-! ## `tokenize` -/

/-- `tokenize` copies the byte into the token. -/
def TokenByte (c : UInt8) : Prop :=
  endsToken c = false ∧ c ≠ squote ∧ c ≠ dquote ∧ c ≠ dollarSign ∧ c ≠ backquote

instance (c : UInt8) : Decidable (TokenByte c) := by unfold TokenByte; infer_instance

theorem tokenLoop_byte {bufsz bi fuel : Nat} {tok p : CStr} {c : UInt8} (hc : TokenByte c)
    (hroom : bi + tok.length + 1 < bufsz) :
    tokenLoop env exec bufsz bi (fuel + 1) s tok (c :: p)
      = tokenLoop env exec bufsz bi fuel s (tok ++ [c]) p := by
  obtain ⟨he, hs, hd, hdo, hba⟩ := hc
  rw [tokenLoop, he, if_neg (by decide), if_neg hs, if_neg hd, if_neg (by simp [hdo, hba]),
    if_pos hroom]

/-- The token goes on to the first byte that ends it. -/
theorem tokenLoop_token {bufsz bi : Nat} : ∀ {l : CStr}, (∀ c ∈ l, TokenByte c)
    → ∀ {fuel : Nat} {tok p : CStr},
    bi + tok.length + l.length < bufsz → p.head?.all endsToken = true →
    tokenLoop env exec bufsz bi (l.length + fuel + 1) s tok (l ++ p) = .done (s, tok ++ l, p)
  | [], _, fuel, tok, p, _, hp => by
      cases p with
      | nil => rw [List.append_nil, List.append_nil, tokenLoop]
      | cons c p =>
          have hc : endsToken c = true := by simpa using hp
          rw [List.nil_append, List.append_nil, tokenLoop, hc, if_pos rfl]
  | c :: l, hl, fuel, tok, p, hroom, hp => by
      rw [List.length_cons] at hroom ⊢
      rw [Nat.add_right_comm l.length, List.cons_append,
        tokenLoop_byte (hl c (List.mem_cons_self ..)) (by omega),
        tokenLoop_token (fun d hd => hl d (List.mem_cons_of_mem _ hd))
          (by rw [List.length_append, List.length_singleton]; omega) hp,
        List.append_assoc, List.singleton_append]

/-- One token, and what is behind it. -/
theorem tokenizeLoop_token {bufsz left bi : Nat} {l p : CStr} (hne : l ≠ [])
    (hl : ∀ c ∈ l, TokenByte c)
    (hroom : bi + l.length < bufsz) (hp : p.head?.all endsToken = true) :
    tokenizeLoop env exec bufsz (left + 1) s (l ++ p) bi = (do
      let (s, toks) ← tokenizeLoop env exec bufsz left s p (bi + l.length + 1)
      pure (s, l :: toks)) := by
  obtain ⟨c, r, rfl⟩ := List.exists_cons_of_ne_nil hne
  have hc := (hl c (List.mem_cons_self ..)).1
  simp only [endsToken, Bool.or_eq_false_iff, decide_eq_false_iff_not] at hc
  have hskip : skipBlanks (c :: r ++ p) = c :: (r ++ p) := by
    rw [skipBlanks, List.cons_append, List.dropWhile_cons, hc.1.1.1]
    rfl
  have htok : tokenLoop env exec bufsz bi ((c :: r).length + p.length + 1) s [] (c :: r ++ p)
      = .done (s, [] ++ c :: r, p) := tokenLoop_token hl (by rw [List.length_nil]; omega) hp
  rw [List.nil_append, List.cons_append] at htok
  rw [tokenizeLoop, hskip]
  dsimp only
  have hfuel : (r ++ p).length + 2 = (c :: r).length + p.length + 1 := by
    simp only [List.length_append, List.length_cons]
    omega
  rw [if_neg (by simp [hc]), if_neg (by omega), hfuel, htok, Outcome.bind_done]

theorem tokenizeLoop_nil {bufsz left bi : Nat} :
    tokenizeLoop env exec bufsz left s [] bi = .done (s, []) := by
  cases left with
  | zero => rw [tokenizeLoop]
  | succ left =>
      rw [tokenizeLoop]
      rfl

theorem tokenizeLoop_blank {bufsz left bi : Nat} {c : UInt8} (hc : isBlank c = true) (p : CStr) :
    tokenizeLoop env exec bufsz (left + 1) s (c :: p) bi
      = tokenizeLoop env exec bufsz (left + 1) s p bi := by
  have hskip : skipBlanks (c :: p) = skipBlanks p := by
    rw [skipBlanks, List.dropWhile_cons, hc]
    rfl
  rw [tokenizeLoop, tokenizeLoop, hskip]

end VnlKernel
