import VnlKernel.Proof.ShellIf
import VnlKernel.Proof.ShellWords

/-!
# Words and blanks

The words of a text without quoting are what is between its blanks, and those are what `tokenize`
finds, as many as there is room for.
-/

namespace VnlKernel

/-! ## Words -/

theorem blankWords_blank {c : UInt8} (hc : isBlank c = true) (p : CStr) :
    blankWords (c :: p) = blankWords p := by
  rw [blankWords, List.splitOnP_cons_eq_if_modifyHead, if_pos hc]
  rfl

theorem blankWords_skipBlanks : ∀ p : CStr, blankWords (skipBlanks p) = blankWords p
  | [] => rfl
  | c :: p => by
      by_cases hc : isBlank c = true
      · rw [skipBlanks, List.dropWhile_cons, if_pos hc, blankWords_blank hc]
        exact blankWords_skipBlanks p
      · rw [skipBlanks, List.dropWhile_cons, if_neg hc]

/-- The first word, and those behind it. -/
theorem blankWords_word {w p : CStr} (hne : w ≠ []) (hw : ∀ c ∈ w, isBlank c = false)
    (hp : p.head?.all isBlank = true) : blankWords (w ++ p) = w :: blankWords p := by
  cases p with
  | nil => simp [blankWords, List.splitOnP_eq_singleton hw, hne]
  | cons c p =>
      have hc : isBlank c = true := by simpa using hp
      rw [blankWords_blank hc, blankWords, List.splitOnP_append_cons_of_forall_mem hw c hc,
        List.filter_cons_of_pos (by simpa using hne)]
      rfl

theorem blankWords_append {a p : CStr} {c : UInt8} (hc : isBlank c = true) :
    blankWords (a ++ c :: p) = blankWords a ++ blankWords p := by
  rw [blankWords, List.splitOnP_append_cons a p hc, List.filter_append]
  rfl

/-! ## Plain words -/

/-- Words and blanks; operators are words too. -/
def PlainText (l : CStr) : Prop := ∀ c ∈ l, Ordinary c ∧ c ≠ newline ∧ c ≠ semicolon ∧ c ≠ hash

theorem PlainText.tokenByte {l : CStr} (h : PlainText l) {c : UInt8} (hc : c ∈ l)
    (hb : isBlank c = false) :
    TokenByte c := by
  obtain ⟨⟨_, hs, hd, hdo, hba⟩, hnl, hsemi, hhash⟩ := h c hc
  exact ⟨by simp [endsToken, hb, hnl, hsemi, hhash], hs, hd, hdo, hba⟩

/-- Behind the blanks there is nothing, or a word and then nothing or a blank. -/
theorem skipBlanks_cases (l : CStr) : skipBlanks l = [] ∨ ∃ w r, skipBlanks l = w ++ r ∧ w ≠ []
    ∧ (∀ c ∈ w, isBlank c = false) ∧ (r = [] ∨ ∃ c r', r = c :: r' ∧ isBlank c = true) := by
  have hfirst : (skipBlanks l).head?.all (fun c => !isBlank c) = true := by
    have := List.head?_dropWhile_not isBlank l
    rw [← skipBlanks] at this
    cases hs : skipBlanks l with
    | nil => rfl
    | cons c q =>
        rw [hs] at this
        simpa using this
  cases hs : skipBlanks l with
  | nil => exact Or.inl rfl
  | cons c q =>
      rw [hs] at hfirst
      have hc : isBlank c = false := by simpa using hfirst
      refine Or.inr ⟨(c :: q).takeWhile (fun c => !isBlank c),
        (c :: q).dropWhile (fun c => !isBlank c),
        List.takeWhile_append_dropWhile.symm, by simp [hc], fun d hd => ?_, ?_⟩
      · simpa using List.mem_takeWhile_imp hd
      · have := List.head?_dropWhile_not (fun c => !isBlank c) (c :: q)
        cases hr : (c :: q).dropWhile fun c => !isBlank c with
        | nil => exact Or.inl rfl
        | cons d r =>
            rw [hr] at this
            exact Or.inr ⟨d, r, rfl, by simpa using this⟩

variable {ε : Type} {env : ShEnv ε} {exec : Command ε} {s : Sh (ShWorld ε)}

/-- `tokenize` finds the words, as many as there is room for. -/
theorem tokenizeLoop_words {bufsz : Nat} : ∀ (left : Nat) {l : CStr} {bi : Nat}, PlainText l →
    bi + l.length < bufsz →
    tokenizeLoop env exec bufsz left s l bi = .done (s, (blankWords l).take left)
  | 0, l, bi, _, _ => by rw [tokenizeLoop, List.take_zero]
  | left + 1, l, bi, hl, hroom => by
      have hsub : (skipBlanks l).Sublist l := List.dropWhile_sublist _
      have hself : tokenizeLoop env exec bufsz (left + 1) s l bi
          = tokenizeLoop env exec bufsz (left + 1) s (skipBlanks l) bi := by
        have hidem : skipBlanks (skipBlanks l) = skipBlanks l := List.dropWhile_idempotent _ _
        rw [tokenizeLoop, tokenizeLoop, hidem]
      have hp : PlainText (skipBlanks l) := fun c hc => hl c (hsub.subset hc)
      have hlen := hsub.length_le
      rw [hself, ← blankWords_skipBlanks]
      rcases skipBlanks_cases l with hnil | ⟨w, r, hsplit, hne, hw, hr⟩
      · rw [hnil, tokenizeLoop_nil]
        rfl
      · rw [hsplit] at hp hlen ⊢
        rw [List.length_append] at hlen
        have hbytes : ∀ d ∈ w, TokenByte d :=
          fun d hd => hp.tokenByte (List.mem_append_left _ hd) (hw d hd)
        rcases hr with rfl | ⟨c, r, rfl, hc⟩
        · rw [tokenizeLoop_token hne hbytes (by omega) rfl, tokenizeLoop_nil,
            blankWords_word hne hw rfl,
            Outcome.bind_done, List.take_succ_cons]
          simp [blankWords]
        · have hends : (c :: r).head?.all endsToken = true := by simp [endsToken, hc]
          rw [List.length_cons] at hlen
          have ih := tokenizeLoop_words left (l := r)
            (fun d hd => hp d (by simp [hd])) (show bi + w.length + 1 + r.length < bufsz by omega)
          have hblank : tokenizeLoop env exec bufsz left s (c :: r) (bi + w.length + 1)
              = tokenizeLoop env exec bufsz left s r (bi + w.length + 1) := by
            cases left with
            | zero => rw [tokenizeLoop, tokenizeLoop]
            | succ left => exact tokenizeLoop_blank hc r
          rw [tokenizeLoop_token hne hbytes (by omega) hends, hblank, ih, Outcome.bind_done,
            blankWords_word hne hw (by simp [hc]), blankWords_blank hc]
          rfl

end VnlKernel
