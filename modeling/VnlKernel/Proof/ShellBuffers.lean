import VnlKernel.Shell.BlockBytes
import VnlKernel.Proof.ShellReturns

/-!
# Script parsing and its buffers

Every loop of `sh_exec_block` that fills an array looks whether there is room, but for one:
the scan for `name()` copies the first word of the line to `fname`, and it runs for every line
that does not begin with `function`. So the arrays are safe exactly as long as every line that
is collected has a first word shorter than `fname`. What is read of the script is never behind
its NUL.

The functions that fill the arrays are shown to come to what the functions on texts do; the
walk then mirrors the walk on texts, call by call.
-/

namespace VnlKernel

namespace BlockNote

variable {σ : Type} {cap n : Nat} {dst p : CStr} {c : UInt8}

/-- An access in bounds, and nothing else. -/
def Bounded : BlockNote σ → Prop
  | .access a => a.InBounds
  | _ => False

/-- The access, if it is one, is in bounds. -/
def InBounds : BlockNote σ → Prop
  | .access a => a.InBounds
  | _ => True

/-- The line leaves the scan for a function's name inside `fname`. -/
def NameFits (line : CStr) : Prop :=
  startsWith (cstr "function ") (skipSpaces line) = true ∨
    ((skipSpaces line).takeWhile fun c => c ≠ parenOpen && c ≠ space).length < shVarNamsz

instance (line : CStr) : Decidable (NameFits line) := by unfold NameFits; infer_instance

/-- The line, if it is one, fits. -/
def Fits : BlockNote σ → Prop
  | .line l => NameFits l
  | _ => True

theorem Bounded.inBounds : ∀ {e : BlockNote σ}, e.Bounded → e.InBounds
  | .access _, h => h
  | .line _, h => h.elim
  | .elif _, h => h.elim
  | .words _ _, h => h.elim
  | .word _ _, h => h.elim

theorem Bounded.fits : ∀ {e : BlockNote σ}, e.Bounded → e.Fits
  | .access _, _ => trivial
  | .line _, h => h.elim
  | .elif _, h => h.elim
  | .words _ _, h => h.elim
  | .word _ _, h => h.elim

/-! ## Reading -/

theorem look_comes (h : n ≤ p.length + 1) : (look (σ := σ) n p).Comes Bounded () := .note h

theorem skipWhile_comes (f : UInt8 → Bool)
    (p : CStr) : (skipWhile (σ := σ) f p).Comes Bounded (p.dropWhile f) :=
  .bind (look_comes (Nat.succ_le_succ (List.takeWhile_sublist f).length_le)) (.pure _)

theorem skipLineBytes_comes (p : CStr) : (skipLineBytes (σ := σ) p).Comes Bounded (skipLine p) :=
  .bind (skipWhile_comes _ p) (.bind (look_comes (Nat.le_add_left _ _)) (.pure _))

theorem compared_le : ∀ s p : CStr, compared s p ≤ p.length + 1
  | [], _ => Nat.zero_le _
  | _ :: _, [] => Nat.le_refl _
  | d :: s, c :: p => by
      rw [compared]
      split
      · exact Nat.succ_le_succ (compared_le s p)
      · exact Nat.le_add_left _ _

theorem starts_comes (s p : CStr) : (starts (σ := σ) s p).Comes Bounded (startsWith s p) :=
  .bind (look_comes (compared_le s p)) (.pure _)

theorem startsThen_comes (s : CStr) (test : CStr → Bool) (p : CStr) :
    (startsThen (σ := σ) s test p).Comes Bounded (startsWith s p && test (p.drop s.length)) := by
  refine .bind (starts_comes s p) ?_
  cases h : startsWith s p with
  | true =>
      have hlen := (startsWith_iff.mp h).length_le
      exact .bind (look_comes (Nat.succ_le_succ hlen)) (.pure _)
  | false => exact .pure _

/-! ## Writing -/

theorem put_comes (h : n < cap) : (put (σ := σ) cap n).Comes Bounded () := .note h

theorem fill_comes (h : n ≤ cap) : (fill (σ := σ) cap n).Comes Bounded () := .note h

theorem copyString_comes (src : CStr) : (copyString (σ := σ) cap src).Comes Bounded () := by
  refine fill_comes ?_
  split
  · exact Nat.sub_le _ _
  · exact Nat.le_refl _

theorem store_comes : (store (σ := σ) cap dst c).Comes Bounded (outs cap dst [c]) := by
  rw [store]
  split
  · next h =>
    rw [outs_room h]
    exact .bind (put_comes (Nat.lt_of_succ_lt h)) (.pure _)
  · next h =>
    rw [outs, show cap - 1 - dst.length = 0 by omega, List.take_zero, List.append_nil]
    exact .pure _

/-- A text up to where it ends. -/
def untilEnd (ends : CStr → Bool) : CStr → CStr
  | [] => []
  | c :: p => if ends (c :: p) then [] else c :: untilEnd ends p

/-- The text from there on. -/
def fromEnd (ends : CStr → Bool) : CStr → CStr
  | [] => []
  | c :: p => if ends (c :: p) then c :: p else fromEnd ends p

theorem untilEnd_append (ends : CStr → Bool) : ∀ p : CStr, untilEnd ends p ++ fromEnd ends p = p
  | [] => rfl
  | c :: p => by
      rw [untilEnd, fromEnd]
      split
      · rfl
      · rw [List.cons_append, untilEnd_append ends p]

/-- What a copying loop comes to, with room for `k` bytes. -/
def copied (full : WhenFull) (k : Nat) (dst t rest : CStr) : Outcome (CStr × CStr) :=
  match full with
  | .drop => .done (dst ++ t.take k, rest)
  | .stop => .done (dst ++ t.take k, t.drop k ++ rest)
  | .stick => if t.length ≤ k then .done (dst ++ t, rest) else .timeout
  | .write => .done (dst ++ t, rest)

theorem copied_cons (full : WhenFull) (k : Nat) (dst t rest : CStr) (c : UInt8) :
    copied full (k + 1) dst (c :: t) rest = copied full k (dst ++ [c]) t rest := by
  cases full <;> simp [copied]

section Copy

variable {full : WhenFull} {looks : CStr → Nat} {ends : CStr → Bool}

theorem copyLoop_out (p : CStr) : ∀ dst, (copyLoop (σ := σ) cap full looks ends dst p).out =
    copied full (cap - 1 - dst.length) dst (untilEnd ends p) (fromEnd ends p) := by
  induction p with
  | nil =>
      intro dst
      rw [copyLoop, Logged.bind_out, untilEnd, fromEnd]
      cases full <;> simp [copied, look]
  | cons c p ih =>
      intro dst
      rw [copyLoop, Logged.bind_out, untilEnd, fromEnd, look, Logged.note_out, Outcome.bind_done]
      by_cases hend : ends (c :: p) = true
      · rw [if_pos hend, if_pos hend, if_pos hend]
        cases full <;> simp [copied]
      rw [if_neg hend, if_neg hend, if_neg hend]
      by_cases hroom : dst.length + 1 < cap
      · have hk : cap - 1 - dst.length = cap - 1 - (dst ++ [c]).length + 1 := by
          rw [List.length_append, List.length_singleton]
          omega
        rw [if_pos (.inl hroom), hk, copied_cons, ← ih]
        rfl
      · have hk : cap - 1 - dst.length = 0 := by omega
        rw [hk]
        cases full with
        | drop =>
            rw [if_neg (by simp [hroom]), if_pos rfl, ih, hk]
            simp [copied]
        | stop =>
            rw [if_neg (by simp [hroom]), if_neg (by decide), if_pos rfl]
            rw [copied, List.take_zero, List.append_nil, List.drop_zero, List.cons_append,
              untilEnd_append]
            rfl
        | stick =>
            rw [if_neg (by simp [hroom]), if_neg (by decide), if_neg (by decide)]
            rfl
        | write =>
            rw [if_pos (.inr rfl), Logged.bind_out, put, Logged.note_out, Outcome.bind_done, ih]
            simp [copied]

/-- A loop that looks for room, or that has room, keeps inside its array. -/
theorem copyLoop_bounded (hlooks : ∀ p, looks p ≤ p.length + 1) (p : CStr) : ∀ dst,
    full ≠ .write ∨ dst.length + (untilEnd ends p).length ≤ cap →
    (copyLoop (σ := σ) cap full looks ends dst p).Keeps Bounded fun _ => True := by
  induction p with
  | nil =>
      intro dst _
      rw [copyLoop]
      exact .bind (Q := fun _ => True) (look_comes (Nat.le_add_left _ _)).notes fun _ _ =>
        .pure trivial
  | cons c p ih =>
      intro dst hfull
      rw [copyLoop]
      refine (look_comes (hlooks (c :: p))).notes.bind fun _ _ => ?_
      by_cases hend : ends (c :: p) = true
      · rw [if_pos hend]
        exact .pure trivial
      rw [untilEnd, if_neg hend, List.length_cons] at hfull
      rw [if_neg hend]
      split_ifs with hroom hdrop hstop
      · have hput : dst.length < cap := by
          rcases hfull with hfull | hfull
          · rcases hroom with hroom | hroom
            · omega
            · exact absurd hroom hfull
          · omega
        refine (put_comes hput).notes.bind fun _ _ => ih (dst ++ [c]) ?_
        rw [List.length_append, List.length_singleton]
        exact hfull.imp id fun h => by omega
      · exact ih dst (hfull.imp id fun h => by omega)
      · exact .pure trivial
      · exact .timeout

theorem copyLoop_comes (hlooks : ∀ p, looks p ≤ p.length + 1) {r : CStr × CStr}
    (hfull : full ≠ .write ∨ dst.length + (untilEnd ends p).length ≤ cap)
    (hr : copied full (cap - 1 - dst.length) dst (untilEnd ends p) (fromEnd ends p) = .done r) :
    (copyLoop (σ := σ) cap full looks ends dst p).Comes Bounded r :=
  ⟨(copyLoop_bounded hlooks p dst hfull).1, (copyLoop_out p dst).trans hr⟩

theorem copyLoop_stuck (h : cap - 1 - dst.length < (untilEnd ends p).length) :
    (copyLoop (σ := σ) cap .stick looks ends dst p).out = .timeout := by
  rw [copyLoop_out, copied, if_neg (Nat.not_le_of_lt h)]

end Copy

/-- Copying up to a byte of some kind. -/
theorem untilEnd_head (f : UInt8 → Bool) {ends : CStr → Bool} (h : ∀ c p, ends (c :: p) = !f c) :
    ∀ p, untilEnd ends p = p.takeWhile f ∧ fromEnd ends p = p.dropWhile f
  | [] => ⟨rfl, rfl⟩
  | c :: p => by
      obtain ⟨h1, h2⟩ := untilEnd_head f h p
      rw [untilEnd, fromEnd, h, List.takeWhile_cons, List.dropWhile_cons]
      cases f c with
      | true => exact ⟨by simp [h1], by simp [h2]⟩
      | false => exact ⟨rfl, rfl⟩

theorem untilEnd_newline (p : CStr) : untilEnd (fun p => p.head? = some newline) p
    = p.takeWhile (· ≠ newline) ∧
    fromEnd (fun p => p.head? = some newline) p = p.dropWhile (· ≠ newline) :=
  untilEnd_head _ (fun c p => by simp) p

/-! ## Lines -/

theorem collectBytes_comes : ∀ p dst : CStr, (collectBytes (σ := σ) dst p).Comes Bounded
    (outs shLineMax dst (collectLine p).1, (collectLine p).2)
  | [], dst => by
      rw [collectBytes, collectLine, outs_nil]
      exact .bind (look_comes (Nat.le_refl _)) (.pure _)
  | [c], dst => by
      rw [collectBytes.eq_def, collectLine.eq_def]
      dsimp only
      refine .bind (look_comes (Nat.le_add_left _ _)) ?_
      split_ifs with hend hhash hback
      · rw [outs_nil]
        exact .pure _
      · rw [outs_nil]
        refine .bind (skipWhile_comes _ _) ?_
        rw [hhash]
        exact .pure _
      · exact .bind (look_comes (Nat.le_refl _))
          (.bind store_comes (.bind (look_comes (Nat.le_refl _)) (.pure _)))
      · exact .bind (look_comes (Nat.le_succ _))
          (.bind store_comes (.bind (look_comes (Nat.le_refl _)) (.pure _)))
  | c :: d :: q, dst => by
      rw [collectBytes.eq_def, collectLine.eq_def]
      dsimp only
      refine .bind (look_comes (Nat.le_add_left _ _)) ?_
      split_ifs with hend hhash hback hcont
      · rw [outs_nil]
        exact .pure _
      · rw [outs_nil]
        refine .bind (skipWhile_comes _ _) ?_
        rw [List.dropWhile_cons_of_pos (by rw [hhash]; decide)]
        exact .pure _
      · exact .bind (look_comes (Nat.succ_le_succ (Nat.le_add_left _ _))) (collectBytes_comes q dst)
      · refine .bind (look_comes (Nat.succ_le_succ (Nat.le_add_left _ _))) (.bind store_comes ?_)
        dsimp only
        rw [outs_cons _ _ (collectLine (d :: q)).1]
        exact collectBytes_comes (d :: q) _
      · next h => exact absurd h.1 hback
      · refine .bind (look_comes (Nat.le_add_left _ _)) (.bind store_comes ?_)
        dsimp only
        rw [outs_cons _ _ (collectLine (d :: q)).1]
        exact collectBytes_comes (d :: q) _

theorem logicalLineBytes_comes (p : CStr) : (logicalLineBytes (σ := σ) p).Comes Bounded
    (logicalLine p) := by
  have hlen : (outs shLineMax [] (collectLine p).1).length < shLineMax := outs_lt (by decide) _
  refine .bind (collectBytes_comes p [])
    (.bind (put_comes hlen) (.bind (look_comes (Nat.le_add_left _ _)) ?_))
  exact .bind (fill_comes (Nat.le_of_lt hlen)) (.pure _)

/-- A line is shorter than its array. -/
theorem logicalLine_lt (p : CStr) : (logicalLine p).1.length < shLineMax := by
  refine Nat.lt_of_le_of_lt (List.rdropWhile_prefix _ _).length_le ?_
  rw [List.length_take]
  exact Nat.lt_of_le_of_lt (Nat.min_le_left _ _) (by decide)

/-! ## Functions -/

theorem untilEnd_name (p : CStr) : untilEnd endsName p
    = (p.takeWhile fun c => c ≠ parenOpen && c ≠ space) ∧
    fromEnd endsName p = p.dropWhile fun c => c ≠ parenOpen && c ≠ space := by
  refine untilEnd_head _ (fun c p => ?_) p
  simp only [endsName, List.head?_cons, Option.some.injEq]
  by_cases h1 : c = space <;> by_cases h2 : c = parenOpen <;> simp [h1, h2]

theorem untilEnd_name' (p : CStr) : untilEnd endsName p = p.takeWhile fun c => c ≠ space && c
    ≠ parenOpen := by
  rw [(untilEnd_name p).1]
  congr 1
  funext c
  exact Bool.and_comm _ _

/-- A line that fits: its scan keeps inside `fname`. -/
theorem functionNameBytes_comes {line : CStr} {a : Option CStr} (h : functionName line = .done a) :
    (functionNameBytes (σ := σ) line).Comes Bounded a := by
  rw [functionName] at h
  dsimp only at h
  rw [functionNameBytes]
  have hskip : (skipWhile (σ := σ) (· = space) line).Comes Bounded (skipSpaces line) :=
    skipWhile_comes _ line
  refine .bind hskip (.bind (starts_comes _ _) ?_)
  obtain ⟨huntil, hfrom⟩ := untilEnd_name (skipSpaces line)
  split_ifs at h ⊢ with hfun hlong hdef
  · cases h
    refine .bind (skipWhile_comes _ _) (.bind
      (copyLoop_comes (fun _ => Nat.le_add_left _ _) (.inl (by decide)) rfl) ?_)
    rw [untilEnd_name', List.nil_append]
    refine .bind (put_comes ?_) (.pure _)
    rw [List.length_take]
    exact Nat.lt_of_le_of_lt (Nat.min_le_left _ _) (by decide)
  all_goals
    have hshort := Nat.lt_of_not_le hlong
    rw [← huntil] at hshort
    refine .bind (copyLoop_comes (fun _ => Nat.le_add_left _ _) (.inr ?_) rfl) ?_
    · rw [List.length_nil, Nat.zero_add]
      exact Nat.le_of_lt hshort
    rw [List.nil_append]
    refine .bind (put_comes hshort) ?_
    dsimp only
    rw [if_neg (Nat.not_le_of_lt hshort), hfrom]
  · cases h
    rw [if_pos hdef, huntil]
    exact .pure _
  · cases h
    rw [if_neg hdef]
    exact .pure _

/-- A line that does not fit: `fname` is written past its end. -/
theorem functionNameBytes_overruns {line : CStr} (h : ¬ NameFits line) :
    (functionNameBytes (σ := σ) line).out = functionName line ∧
      ∃ e ∈ (functionNameBytes (σ := σ) line).log, ¬ e.InBounds := by
  obtain ⟨hfun, hlong⟩ := not_or.mp h
  have hskip : (skipWhile (σ := σ) (· = space) line).Comes Bounded (skipSpaces line) :=
    skipWhile_comes _ line
  obtain ⟨huntil, hfrom⟩ := untilEnd_name (skipSpaces line)
  have hcopy : (copyLoop (σ := σ) shVarNamsz .write (fun _ => 1) endsName []
    (skipSpaces line)).out =
      .done (untilEnd endsName (skipSpaces line), fromEnd endsName (skipSpaces line)) :=
        copyLoop_out _ []
  have hlong' : ¬ (untilEnd endsName (skipSpaces line)).length < shVarNamsz := by
    rw [huntil]
    exact hlong
  rw [functionNameBytes, Logged.bind_of_done hskip.2, Logged.bind_of_done (starts_comes _ _).2,
    if_neg hfun,
    Logged.bind_of_done hcopy]
  constructor
  · rw [functionName]
    dsimp only
    rw [if_neg hfun, if_pos (Nat.le_of_not_lt hlong), Logged.bind_out, put, Logged.note_out,
      Outcome.bind_done,
      if_pos (Nat.le_of_not_lt hlong')]
    rfl
  · refine ⟨.access (.span ((untilEnd endsName (skipSpaces line)).length + 1) shVarNamsz), ?_,
      hlong'⟩
    simp [Logged.mem_bind, put]

theorem functionName_fits {line : CStr} (h : NameFits line) : ∃ a, functionName line = .done a := by
  rw [functionName]
  dsimp only
  split_ifs with hfun hlong hdef
  · exact ⟨_, rfl⟩
  · rcases h with h | h
    · exact absurd h hfun
    · exact absurd hlong (Nat.not_le_of_lt h)
  · exact ⟨_, rfl⟩
  · exact ⟨_, rfl⟩

/-! ## Bodies -/

/-- Lines up to the one that ends them. -/
def linesOf (stop : CStr → Option CStr) : Nat → CStr → CStr × CStr
  | 0, p => ([], p)
  | _ + 1, [] => ([], [])
  | fuel + 1, p =>
      let p := skipBlanks p
      match stop p with
      | some rest => ([], rest)
      | none =>
          let r := linesOf stop fuel (skipLine p)
          (p.takeWhile (· ≠ newline) ++ newline :: r.1, r.2)

/-- What ends a function's body. -/
def bodyEnd (p : CStr) : Option CStr := if p.head? = some braceClose then some (skipLine p) else none

/-- What ends a branch. -/
def branchEnd (p : CStr) : Option CStr :=
  if startsWith (cstr ";;") p then some (skipLine (p.drop 2))
  else if startsWith (cstr "esac") p then some p
  else none

theorem functionBody_eq (fuel : Nat) : ∀ p, functionBody fuel p = linesOf bodyEnd fuel p := by
  induction fuel with
  | zero => exact fun _ => rfl
  | succ fuel ih =>
      intro p
      cases p with
      | nil => rfl
      | cons c q =>
          rw [functionBody, linesOf]
          dsimp only
          rw [bodyEnd, ih]
          split_ifs with h
          · rfl
          · rfl
          all_goals simp

theorem caseBody_eq (fuel : Nat) : ∀ p, caseBody fuel p = linesOf branchEnd fuel p := by
  induction fuel with
  | zero => exact fun _ => rfl
  | succ fuel ih =>
      intro p
      cases p with
      | nil => rfl
      | cons c q =>
          rw [caseBody, linesOf]
          dsimp only
          rw [branchEnd, ih]
          split_ifs
          · rfl
          · rfl
          · rfl
          all_goals simp

theorem bodyStop_comes (p : CStr) : (bodyStop (σ := σ) p).Comes Bounded (bodyEnd p) := by
  rw [bodyStop, bodyEnd]
  refine .bind (look_comes (Nat.le_add_left _ _)) ?_
  split_ifs with h
  · have hline : skipLine p = skipLine (p.drop 1) := by
      cases p with
      | nil => cases h
      | cons c q =>
          cases h
          rfl
    rw [hline]
    exact .bind (skipLineBytes_comes _) (.pure _)
  · exact .pure _

theorem branchStop_comes (p : CStr) : (branchStop (σ := σ) p).Comes Bounded (branchEnd p) := by
  rw [branchStop, branchEnd]
  refine .bind (starts_comes _ p) ?_
  split_ifs with hends hesac
  · exact .bind (skipLineBytes_comes _) (.pure _)
  · refine .bind (starts_comes _ p) ?_
    rw [if_pos hesac]
    exact .pure _
  · refine .bind (starts_comes _ p) ?_
    rw [if_neg hesac]
    exact .pure _

section Lines

variable {stopBytes : CStr → Logged (BlockNote σ) (Option CStr)} {stop : CStr → Option CStr}
  (hstop : ∀ p, (stopBytes p).Comes Bounded (stop p))

include hstop

theorem linesBytes_comes (fuel : Nat) : ∀ dst p :
    CStr, (linesBytes cap stopBytes fuel dst p).Comes Bounded
    (outs cap dst (linesOf stop fuel p).1, (linesOf stop fuel p).2) := by
  induction fuel with
  | zero =>
      intro dst p
      rw [linesBytes, linesOf, outs_nil]
      exact .pure _
  | succ fuel ih =>
      intro dst p
      cases p with
      | nil =>
          rw [linesBytes, linesOf, outs_nil]
          exact .bind (look_comes (Nat.le_add_left _ _)) (.pure _)
      | cons c q =>
          rw [linesBytes.eq_def, linesOf.eq_def]
          dsimp only
          have hskip : (skipWhile (σ := σ) isBlank (c :: q)).Comes Bounded (skipBlanks (c :: q)) :=
            skipWhile_comes _ _
          refine .bind (look_comes (Nat.le_add_left _ _)) (.bind hskip (.bind (hstop _) ?_))
          cases stop (skipBlanks (c :: q)) with
          | some rest =>
              rw [outs_nil]
              exact .pure _
          | none =>
              dsimp only
              obtain ⟨huntil, hfrom⟩ := untilEnd_newline (skipBlanks (c :: q))
              have hcopy : (copyLoop (σ := σ) cap .drop (fun _ => 1)
                (fun p => p.head? = some newline) dst
                  (skipBlanks (c :: q))).Comes Bounded (outs cap dst _, _) :=
                copyLoop_comes (fun _ => Nat.le_add_left _ _) (.inl (by decide)) rfl
              refine .bind hcopy (.bind store_comes (.bind (look_comes (Nat.le_add_left _ _)) ?_))
              rw [huntil, hfrom, List.append_cons _ newline (linesOf stop fuel _).1, ← outs_outs,
                ← outs_outs]
              exact ih _ _

theorem textBytes_comes (hcap : 0 < cap) (p : CStr) : (textBytes cap stopBytes p).Comes Bounded
    ((linesOf stop p.length p).1.take (cap - 1), (linesOf stop p.length p).2) :=
  .bind (linesBytes_comes hstop p.length [] p) (.bind (put_comes (outs_lt hcap _)) (.pure _))

end Lines

theorem functionBytes_comes (p : CStr) :
    (textBytes (σ := σ) (shLineMax * 8) bodyStop p).Comes Bounded
    ((functionBody p.length p).1.take (shLineMax * 8 - 1), (functionBody p.length p).2) := by
  rw [functionBody_eq]
  exact textBytes_comes bodyStop_comes (by decide) p

theorem caseBytes_comes (p : CStr) : (textBytes (σ := σ) (shLineMax * 4) branchStop p).Comes Bounded
    ((caseBody p.length p).1.take (shLineMax * 4 - 1), (caseBody p.length p).2) := by
  rw [caseBody_eq]
  exact textBytes_comes branchStop_comes (by decide) p

/-! ## Headers -/

theorem ifCondBytes_comes (line : CStr) : (ifCondBytes (σ := σ) line).Comes Bounded
    (ifCond line) := by
  rw [ifCondBytes]
  cases strstr (cstr " then") line with
  | none => exact .bind (copyString_comes _) (.pure _)
  | some k =>
      have hn : (if k < 3 then shLineMax - 1 else min (k - 3) (shLineMax - 1)) < shLineMax := by
        split
        · decide
        · exact Nat.lt_of_le_of_lt (Nat.min_le_right _ _) (by decide)
      exact .bind (fill_comes (Nat.le_of_lt hn)) (.bind (put_comes hn) (.pure _))

theorem elifCond_eq : ∀ p : CStr, elifCond p = untilEnd elifEnds p
  | [] => rfl
  | c :: p => by
      rw [elifCond, untilEnd, elifCond_eq p, elifEnds]
      simp

theorem skipLine_elif : ∀ p : CStr, skipLine (fromEnd elifEnds p) = skipLine p
  | [] => rfl
  | c :: p => by
      rw [fromEnd]
      split
      · rfl
      · next h =>
        have hc : c ≠ newline := fun hc => h (by simp [elifEnds, hc])
        rw [skipLine_elif p, skipLine, skipLine, List.dropWhile_cons_of_pos (by simp [hc])]

/-- The rest of a line behind a word of it. -/
theorem skipLine_drop {s p : CStr} (h : startsWith s p = true) (hs : ∀ c ∈ s, c ≠ newline) :
    skipLine (p.drop s.length) = skipLine p := by
  obtain ⟨r, rfl⟩ := startsWith_iff.mp h
  rw [List.drop_left, skipLine, skipLine,
    List.dropWhile_append_of_pos fun c hc => by simp [hs c hc]]

theorem max_compared_le (s p : CStr) : max 1 (compared s p) ≤ p.length + 1 :=
  Nat.max_le.mpr ⟨Nat.le_add_left _ _, compared_le s p⟩

theorem elifCondBytes_comes {p : CStr} (h : (elifCond p).length < shLineMax) :
    (elifCondBytes (σ := σ) p).Comes Bounded (elifCond p, fromEnd elifEnds p) := by
  have hcopy : copied .stick (shLineMax - 1 - ([] : CStr).length) [] (untilEnd elifEnds p)
    (fromEnd elifEnds p) =
      .done (elifCond p, fromEnd elifEnds p) := by
    rw [← elifCond_eq, copied, List.length_nil, Nat.sub_zero, if_pos (Nat.le_sub_one_of_lt h),
      List.nil_append]
  exact .bind (copyLoop_comes (max_compared_le _) (.inl (by decide)) hcopy)
    (.bind (put_comes h) (.pure _))

/-- A condition that does not fit is never finished. -/
theorem elifCondBytes_stuck {p : CStr} (h : ¬ (elifCond p).length < shLineMax) :
    (∀ e ∈ (elifCondBytes (σ := σ) p).log, e.Bounded)
      ∧ (elifCondBytes (σ := σ) p).out = .timeout := by
  rw [elifCond_eq] at h
  have hmax : shLineMax - 1 - ([] : CStr).length = shLineMax - 1 := rfl
  have hcopy : (copyLoop (σ := σ) shLineMax .stick
    (fun p => max 1 (compared (cstr " then") p)) elifEnds [] p).out =
      .timeout := copyLoop_stuck (hmax ▸ Nat.lt_of_lt_of_le (by decide) (Nat.le_of_not_lt h))
  rw [elifCondBytes, Logged.bind_timeout hcopy]
  exact ⟨(copyLoop_bounded (max_compared_le _) p [] (.inl (by decide))).1, rfl⟩

theorem strstr_le {s : CStr} : ∀ {p : CStr} {k : Nat}, strstr s p = some k → k ≤ p.length
  | [], k, h => by
      rw [strstr] at h
      split at h
      · cases h
        exact Nat.le_refl _
      · cases h
  | c :: p, k, h => by
      rw [strstr] at h
      split at h
      · cases h
        exact Nat.zero_le _
      · obtain ⟨j, hj, rfl⟩ := Option.map_eq_some_iff.mp h
        exact Nat.succ_le_succ (strstr_le hj)

theorem cutBytes_comes (s : CStr) {text : CStr} (h : text.length < cap) :
    (cutBytes (σ := σ) cap s text).Comes Bounded (cutAt s text) := by
  rw [cutBytes, cutAt]
  cases hk : strstr s text with
  | none => exact .pure _
  | some k => exact .bind (put_comes (Nat.lt_of_le_of_lt (strstr_le hk) h)) (.pure _)

theorem cutAt_le (s text : CStr) : (cutAt s text).length ≤ text.length := by
  rw [cutAt]
  split
  · exact (List.take_sublist _ _).length_le
  · exact Nat.le_refl _

theorem whileCondBytes_comes {line : CStr}
    (h : line.length < shLineMax) : (whileCondBytes (σ := σ) line).Comes Bounded
    (cutAt (cstr " do") (cutAt (cstr "; do") (line.drop 6))) := by
  have hdrop : (line.drop 6).length < shLineMax :=
    Nat.lt_of_le_of_lt (List.drop_sublist _ _).length_le h
  exact .bind (copyString_comes _) (.bind (cutBytes_comes _ hdrop)
    (cutBytes_comes _ (Nat.lt_of_le_of_lt (cutAt_le _ _) hdrop)))

theorem caseWordBytes_comes {line : CStr} (h : line.length < shLineMax) :
    (caseWordBytes (σ := σ) line).Comes Bounded (cutAt (cstr " in") (line.drop 5)) :=
  .bind (copyString_comes _) (cutBytes_comes _
    (Nat.lt_of_le_of_lt (List.drop_sublist _ _).length_le h))


theorem untilEnd_space (p : CStr) : untilEnd (fun p => p.head? = some space) p
    = p.takeWhile (· ≠ space) ∧
    fromEnd (fun p => p.head? = some space) p = p.dropWhile (· ≠ space) :=
  untilEnd_head _ (fun c p => by simp) p

theorem forHeaderBytes_comes {line : CStr} (hline : line.length < shLineMax)
    (h : (forHeader line).1.length < shVarNamsz) : (forHeaderBytes (σ := σ) line).Comes Bounded
      (forHeader line) := by
  obtain ⟨huntil, hfrom⟩ := untilEnd_space (line.drop 4)
  change ((line.drop 4).takeWhile (· ≠ space)).length < shVarNamsz at h
  have hcopy : copied .stick (shVarNamsz - 1 - ([] : CStr).length) []
      (untilEnd (fun p => p.head? = some space) (line.drop 4))
        (fromEnd (fun p => p.head? = some space) (line.drop 4)) =
      .done ((line.drop 4).takeWhile (· ≠ space), (line.drop 4).dropWhile (· ≠ space)) := by
    rw [huntil, hfrom, copied, List.length_nil, Nat.sub_zero, if_pos (Nat.le_sub_one_of_lt h),
      List.nil_append]
  have hskip : (skipWhile (σ := σ) (· = space) ((line.drop 4).dropWhile (· ≠ space))).Comes Bounded
      (skipSpaces ((line.drop 4).dropWhile (· ≠ space))) := skipWhile_comes _ _
  refine .bind (copyLoop_comes (fun _ => Nat.le_add_left _ _) (.inl (by decide)) hcopy)
    (.bind (put_comes h)
    (.bind hskip (.bind (copyString_comes _) ?_)))
  -- what is copied behind the variable is part of the line
  have hlist : (if startsWith (cstr "in ") (skipSpaces ((line.drop 4).dropWhile (· ≠ space))) then
      (skipSpaces ((line.drop 4).dropWhile (· ≠ space))).drop 3
      else skipSpaces ((line.drop 4).dropWhile (· ≠ space))).length < shLineMax := by
    have h1 := (List.dropWhile_sublist (· = space)
      (l := (line.drop 4).dropWhile (· ≠ space))).length_le
    have h2 := (List.dropWhile_sublist (· ≠ space) (l := line.drop 4)).length_le
    have h3 := (List.drop_sublist 4 line).length_le
    rw [skipSpaces]
    split
    · rw [List.length_drop]
      omega
    · omega
  exact .bind (cutBytes_comes _ hlist)
    (.bind (cutBytes_comes _ (Nat.lt_of_le_of_lt (cutAt_le _ _) hlist)) (.pure _))

/-- A variable that does not fit is never finished. -/
theorem forHeaderBytes_stuck {line : CStr} (h : ¬ (forHeader line).1.length < shVarNamsz) :
    (∀ e ∈ (forHeaderBytes (σ := σ) line).log, e.Bounded)
      ∧ (forHeaderBytes (σ := σ) line).out = .timeout := by
  change ¬ ((line.drop 4).takeWhile (· ≠ space)).length < shVarNamsz at h
  rw [← (untilEnd_space (line.drop 4)).1] at h
  have hmax : shVarNamsz - 1 - ([] : CStr).length = shVarNamsz - 1 := rfl
  have hcopy : (copyLoop (σ := σ) shVarNamsz .stick (fun _ => 1) (fun p => p.head? = some space) []
    (line.drop 4)).out =
      .timeout := copyLoop_stuck (hmax ▸ Nat.lt_of_lt_of_le (by decide) (Nat.le_of_not_lt h))
  rw [forHeaderBytes, Logged.bind_timeout hcopy]
  exact ⟨(copyLoop_bounded (fun _ => Nat.le_add_left _ _) _ [] (.inl (by decide))).1, rfl⟩

theorem findAndOr_le {line : CStr} {op : Nat × Bool} (h : findAndOr line = some op) :
    op.1 ≤ line.length := by
  rw [findAndOr] at h
  split at h
  · next a o ha ho =>
    split at h
    · cases h
      exact strstr_le ha
    · cases h
      exact strstr_le ho
  · next a ha _ =>
    cases h
    exact strstr_le ha
  · next o _ ho =>
    cases h
    exact strstr_le ho
  · cases h

/-! ## Patterns -/

/-- The length of texts with a byte behind each. -/
def barsLength (ts : List CStr) : Nat := (ts.map fun t => t.length + 1).sum

theorem barsLength_splitBars : ∀ p : CStr, barsLength (splitBars p) = p.length + 1
  | [] => rfl
  | c :: p => by
      have ih := barsLength_splitBars p
      rw [splitBars]
      split
      · rw [List.length_cons, ← ih]
        simp [barsLength, Nat.add_comm]
      · split
        · next h =>
          rw [h] at ih
          cases ih
        · next w ws h =>
          rw [h] at ih
          rw [List.length_cons, ← ih]
          simp [barsLength]
          omega

theorem matchBytes_comes (word : CStr) : ∀ (ts : List CStr) (start : Nat),
    start + barsLength ts ≤ cap →
    (matchBytes (σ := σ) cap word ts start).Comes Bounded (ts.any fun t =>
      let t := (skipSpaces t).rdropWhile (· = space)
      t = cstr "*" || t = word)
  | [], _, _ => .pure _
  | t :: ts, start, h => by
      have hlen : barsLength (t :: ts) = t.length + 1 + barsLength ts := rfl
      have hu : (t.takeWhile (· = space)).length + ((skipSpaces t).rdropWhile (· = space)).length
          ≤ t.length := by
        have hspaces := congrArg List.length
          (List.takeWhile_append_dropWhile (p := (· = space)) (l := t))
        rw [List.length_append] at hspaces
        have htail : ((skipSpaces t).rdropWhile (· = space)).length
            ≤ (t.dropWhile (· = space)).length :=
          (List.rdropWhile_prefix _ _).length_le
        omega
      have hrest := matchBytes_comes word ts (start + t.length + 1) (by omega)
      have hmatch : ((do
          put cap (start + (t.takeWhile (· = space)).length +
            ((skipSpaces t).rdropWhile (· = space)).length)
          if (skipSpaces t).rdropWhile (· = space) = cstr "*" ∨ (skipSpaces t).rdropWhile (· = space) = word then pure true
          else matchBytes cap word ts (start + t.length + 1)) : Logged (BlockNote σ) Bool).Comes
            Bounded
          ((t :: ts).any fun t =>
            let t := (skipSpaces t).rdropWhile (· = space)
            t = cstr "*" || t = word) := by
        refine .bind (put_comes (by omega)) ?_
        rw [List.any_cons, ← Bool.decide_or]
        split
        · next h =>
          rw [decide_eq_true h, Bool.true_or]
          exact .pure _
        · next h =>
          rw [decide_eq_false h, Bool.false_or]
          exact hrest
      rw [matchBytes]
      dsimp only
      split
      · exact .bind (put_comes (by omega)) hmatch
      · exact hmatch

theorem branchMatches_comes (looking : Bool) {pat : CStr} (word : CStr)
    (h : pat.length < shVarNamsz * 2) :
    (branchMatches (σ := σ) looking pat word).Comes Bounded
      (looking && patternMatches pat word) := by
  cases looking with
  | true => exact matchBytes_comes word _ _ (by rw [barsLength_splitBars]; omega)
  | false => exact .pure _

theorem pattern_lt (p : CStr) :
    (((p.takeWhile (· ≠ parenClose)).take (shVarNamsz * 2 - 1)).rdropWhile (· = space)).length
      < shVarNamsz * 2 := by
  refine Nat.lt_of_le_of_lt (List.rdropWhile_prefix _ _).length_le ?_
  rw [List.length_take]
  exact Nat.lt_of_le_of_lt (Nat.min_le_left _ _) (by decide)

theorem patternBytes_comes (p : CStr) : (patternBytes (σ := σ) p).Comes Bounded
    (((p.takeWhile (· ≠ parenClose)).take (shVarNamsz * 2 - 1)).rdropWhile (· = space),
      if (p.drop ((p.takeWhile (· ≠ parenClose)).take (shVarNamsz * 2 - 1)).length).head? = some parenClose then
        (p.drop ((p.takeWhile (· ≠ parenClose)).take (shVarNamsz * 2 - 1)).length).drop 1
      else p.drop ((p.takeWhile (· ≠ parenClose)).take (shVarNamsz * 2 - 1)).length) := by
  have hsplit := List.takeWhile_append_dropWhile (p := (· ≠ parenClose)) (l := p)
  have hsame : untilEnd (fun p => p.head? = some parenClose) p = p.takeWhile (· ≠ parenClose) ∧
      fromEnd (fun p => p.head? = some parenClose) p = p.dropWhile (· ≠ parenClose) :=
    untilEnd_head _ (fun c p => by simp) p
  obtain ⟨huntil, hfrom⟩ := hsame
  generalize p.takeWhile (· ≠ parenClose) = t at *
  have hcopy : copied .stop (shVarNamsz * 2 - 1 - ([] : CStr).length) []
      (untilEnd (fun p => p.head? = some parenClose) p)
        (fromEnd (fun p => p.head? = some parenClose) p) =
      .done (t.take (shVarNamsz * 2 - 1), p.drop (t.take (shVarNamsz * 2 - 1)).length) := by
    rw [huntil, hfrom, copied, List.nil_append, List.length_nil, Nat.sub_zero]
    congr 2
    have hcut : p = t.take (shVarNamsz * 2 - 1) ++
        (t.drop (shVarNamsz * 2 - 1) ++ p.dropWhile (· ≠ parenClose)) := by
      rw [← List.append_assoc, List.take_append_drop]
      exact hsplit.symm
    rw [hcut, List.drop_left, ← hcut]
  have hlen : (t.take (shVarNamsz * 2 - 1)).length < shVarNamsz * 2 := by
    rw [List.length_take]
    exact Nat.lt_of_le_of_lt (Nat.min_le_left _ _) (by decide)
  exact .bind (copyLoop_comes (fun _ => Nat.le_add_left _ _) (.inl (by decide)) hcopy)
    (.bind (put_comes hlen)
    (.bind (look_comes (Nat.le_add_left _ _)) (.bind (fill_comes (Nat.le_of_lt hlen)) (.pure _))))

/-! ## The walk -/

/-- A call on bytes mirrors a call on texts: it comes to the same, and it keeps inside its arrays
exactly as far as the lines that it collects fit. -/
structure Mirrors {α : Type} (x : Logged (BlockNote σ) α) (y : Outcome α) : Prop where
  out : x.out = y
  bounds : (∀ e ∈ x.log, e.InBounds) ↔ ∀ e ∈ x.log, e.Fits

section Mirrors

variable {α β : Type}

theorem Mirrors.of_bounded {x : Logged (BlockNote σ) α} {y : Outcome α} (h : ∀ e ∈ x.log, e.Bounded)
    (hout : x.out = y) :
    Mirrors x y :=
  ⟨hout, ⟨fun _ e he => (h e he).fits, fun _ e he => (h e he).inBounds⟩⟩

theorem Mirrors.pure (a : α) : Mirrors (pure a : Logged (BlockNote σ) α) (.done a) :=
  .of_bounded (by simp) rfl

theorem Mirrors.lift (y : Outcome α) : Mirrors (Logged.lift y : Logged (BlockNote σ) α) y :=
  .of_bounded (by simp) rfl

theorem Mirrors.bind {x : Logged (BlockNote σ) α} {y : Outcome α} {f : α → Logged (BlockNote σ) β}
    {g : α → Outcome β}
    (hx : Mirrors x y) (hf : ∀ a, y = .done a → Mirrors (f a) (g a)) :
    Mirrors (x >>= f) (y >>= g) := by
  refine ⟨?_, ?_⟩
  · rw [Logged.bind_out, hx.out]
    exact Outcome.bind_congr fun a ha => (hf a ha).out
  · cases hy : y with
    | done a =>
        have hgo := hf a hy
        rw [Logged.bind_of_done (hx.out.trans hy)]
        simp only [List.forall_mem_append]
        rw [hx.bounds, hgo.bounds]
    | panic msg =>
        rw [Logged.bind_of_not_done fun a ha => by rw [hx.out, hy] at ha; cases ha]
        exact hx.bounds
    | timeout =>
        rw [Logged.bind_of_not_done fun a ha => by rw [hx.out, hy] at ha; cases ha]
        exact hx.bounds

/-- Something is done first that the call on texts does in no time. -/
theorem Mirrors.after {x : Logged (BlockNote σ) α} {a : α} {f : α → Logged (BlockNote σ) β}
    {y : Outcome β}
    (hx : x.Comes Bounded a) (hf : Mirrors (f a) y) : Mirrors (x >>= f) y :=
  Mirrors.bind (y := .done a) (g := fun _ => y) (.of_bounded hx.1 hx.2) fun b hb => by
    cases hb
    exact hf

/-- A note about something else. -/
theorem Mirrors.noted {e : BlockNote σ} {f : Unit → Logged (BlockNote σ) β} {y : Outcome β}
    (he : e.InBounds ∧ e.Fits)
    (hf : Mirrors (f ()) y) : Mirrors (Logged.note e >>= f) y := by
  refine Mirrors.bind (y := .done ()) (g := fun _ => y) ⟨rfl, ?_⟩ fun _ _ => hf
  simp [he.1, he.2]

/-- A line that does not fit: nothing is said about what follows. -/
theorem Mirrors.overrun {line : CStr} (h : ¬ NameFits line)
    (f : Option CStr → Logged (BlockNote σ) β)
    (g : Option CStr → Outcome β) :
    Mirrors (Logged.note (.line line) >>= fun _ => functionNameBytes line >>= f)
    (functionName line >>= g) := by
  obtain ⟨hout, e, he, hbad⟩ := functionNameBytes_overruns (σ := σ) h
  obtain ⟨hfun, hlong⟩ := not_or.mp h
  have hpanic : functionName line = .panic "fname: write past the end" := by
    rw [functionName]
    dsimp only
    rw [if_neg hfun, if_pos (Nat.le_of_not_lt hlong)]
  refine ⟨?_, fun hall => ?_, fun hall => ?_⟩
  · rw [Logged.bind_out, Logged.note_out, Outcome.bind_done, Logged.bind_out, hout, hpanic]
    rfl
  · exact absurd (hall e (Logged.mem_bind.mpr (.inr ⟨(), rfl, Logged.mem_bind.mpr (.inl he)⟩))) hbad
  · exact absurd (hall _ (Logged.mem_bind.mpr (.inl (List.mem_singleton_self _)))) h

end Mirrors

section Walk

variable {R : Runner σ} {blockBytes : Sh σ → CStr → Bool → Logged (BlockNote σ) (Sh σ × CStr × Int)}
  {block : Sh σ → CStr → Bool → Outcome (Sh σ × CStr × Int)}
  (hblock : ∀ s p execute, Mirrors (blockBytes s p execute) (block s p execute))

include hblock

theorem ifLoop_mirrors (execute : Bool) (fuel : Nat) : ∀ (s : Sh σ) (p : CStr) (condTrue : Bool),
    Mirrors (ifLoopBytes R blockBytes execute fuel s p condTrue)
    (ifLoop R block execute fuel s p condTrue) := by
  induction fuel with
  | zero => exact fun _ _ _ => .lift _
  | succ fuel ih =>
      intro s p condTrue
      cases p with
      | nil => exact .after (look_comes (Nat.le_add_left _ _)) (.pure _)
      | cons c q =>
          have hskip : (skipWhile (σ := σ) isBlank (c :: q)).Comes Bounded (skipBlanks (c :: q)) :=
            skipWhile_comes _ _
          rw [ifLoopBytes, ifLoop]
          dsimp only
          refine .after (look_comes (Nat.le_add_left _ _))
            (.after hskip (.after (starts_comes _ _) ?_))
          generalize skipBlanks (c :: q) = p
          by_cases helif : startsWith (cstr "elif ") p = true
          · rw [if_pos helif, if_pos helif]
            refine .noted ⟨trivial, trivial⟩ ?_
            by_cases hlen : (elifCond (p.drop 5)).length ≥ shLineMax
            · obtain ⟨hlog, hout⟩ := elifCondBytes_stuck (σ := σ) (Nat.not_lt_of_le hlen)
              rw [if_pos hlen, Logged.bind_timeout hout]
              exact .of_bounded hlog rfl
            rw [if_neg hlen]
            have hline : skipLine (fromEnd elifEnds (p.drop 5)) = skipLine p :=
              (skipLine_elif _).trans (skipLine_drop helif (by decide))
            refine .after (elifCondBytes_comes (Nat.lt_of_not_le hlen))
              (.after (skipLineBytes_comes _) ?_)
            rw [hline]
            exact .bind (.lift _) fun t _ => .bind (hblock _ _ _) fun b _ => ih _ _ _
          rw [if_neg helif, if_neg helif]
          have helseBytes : (startsThen (σ := σ) (cstr "else") (endsWord false) p).Comes Bounded
              (startsWith (cstr "else") p && endsWord false (p.drop 4)) := startsThen_comes _ _ _
          refine .after helseBytes ?_
          by_cases helse : (startsWith (cstr "else") p && endsWord false (p.drop 4)) = true
          · rw [if_pos helse, if_pos helse]
            exact .after (skipLineBytes_comes _) (.bind (hblock _ _ _) fun b _ => ih _ _ _)
          rw [if_neg helse, if_neg helse]
          have hfiBytes : (startsThen (σ := σ) (cstr "fi") (endsWord true) p).Comes Bounded
              (startsWith (cstr "fi") p && endsWord true (p.drop 2)) := startsThen_comes _ _ _
          refine .after hfiBytes ?_
          by_cases hfi : (startsWith (cstr "fi") p && endsWord true (p.drop 2)) = true
          · rw [if_pos hfi, if_pos hfi]
            exact .after (skipLineBytes_comes _) (.pure _)
          · rw [if_neg hfi, if_neg hfi]
            exact .pure _

theorem whileLoop_mirrors (cond loopStart : CStr) (fuel : Nat) :
    ∀ (s : Sh σ) (p : CStr) (lastRet : Int),
    Mirrors (whileLoopBytes R blockBytes cond loopStart fuel s p lastRet)
      (whileLoop R block cond loopStart fuel s p lastRet) := by
  induction fuel with
  | zero => exact fun _ _ _ => .lift _
  | succ fuel ih =>
      intro s p lastRet
      rw [whileLoopBytes, whileLoop]
      refine .bind (.lift _) fun t _ => ?_
      obtain ⟨s', r⟩ := t
      dsimp only
      by_cases hr : r ≠ 0
      · rw [if_pos hr, if_pos hr]
        exact .pure _
      rw [if_neg hr, if_neg hr]
      refine .bind (hblock _ _ _) fun b _ => ?_
      obtain ⟨s'', lp, lastRet'⟩ := b
      dsimp only
      obtain ⟨a, p', more⟩ := afterBody s'' loopStart lp
      cases more with
      | true => exact ih _ _ _
      | false => exact .pure _

theorem forLoop_mirrors (var loopStart : CStr) :
    ∀ (words : List CStr) (s : Sh σ) (p : CStr) (lastRet : Int),
    Mirrors (forLoopBytes R blockBytes var loopStart words s p lastRet)
      (forLoop R block var loopStart words s p lastRet)
  | [], _, _, _ => .pure _
  | w :: ws, s, p, lastRet => by
      rw [forLoopBytes, forLoop]
      refine .bind (hblock _ _ _) fun b _ => ?_
      obtain ⟨s', lp, lastRet'⟩ := b
      dsimp only
      obtain ⟨a, p', more⟩ := afterBody s' loopStart lp
      cases more with
      | true => exact forLoop_mirrors var loopStart ws _ _ _
      | false => exact .pure _

omit hblock in
theorem caseLoop_mirrors {runBytes : Sh σ → CStr → Logged (BlockNote σ) (Sh σ × Int)}
    {run : Sh σ → CStr → Outcome (Sh σ × Int)}
    (hrun : ∀ s body, Mirrors (runBytes s body) (run s body))
    (execute : Bool) (word : CStr) (fuel : Nat) :
    ∀ (s : Sh σ) (p : CStr) (matched : Bool) (lastRet : Int),
    Mirrors (caseLoopBytes runBytes execute word fuel s p matched lastRet)
      (caseLoop run execute word fuel s p matched lastRet) := by
  induction fuel with
  | zero => exact fun _ _ _ _ => .lift _
  | succ fuel ih =>
      intro s p matched lastRet
      cases p with
      | nil => exact .after (look_comes (Nat.le_add_left _ _)) (.pure _)
      | cons c q =>
          rw [caseLoopBytes, caseLoop]
          dsimp only
          refine .after (look_comes (Nat.le_add_left _ _)) (.after (skipWhile_comes _ _) ?_)
          generalize (c :: q).dropWhile (fun c => isBlank c || decide (c = newline)) = p
          have hesacBytes : (startsThen (σ := σ) (cstr "esac")
              (fun p => p.isEmpty || p.head? = some newline || p.head? = some space) p).Comes
                Bounded
              (startsWith (cstr "esac") p && ((p.drop 4).isEmpty || (p.drop 4).head? = some newline
                || (p.drop 4).head? = some space)) := startsThen_comes _ _ _
          refine .after hesacBytes ?_
          split
          · exact .after (skipLineBytes_comes _) (.pure _)
          refine .after (patternBytes_comes _) ?_
          dsimp only
          have hpat := pattern_lt p
          generalize ((p.takeWhile (· ≠ parenClose)).take (shVarNamsz * 2 - 1)).rdropWhile
            (· = space) = pat at *
          have hmatch := branchMatches_comes (σ := σ) (!matched && execute) word hpat
          refine .after hmatch ?_
          refine .after (caseBytes_comes _) ?_
          by_cases hrun' : (!matched && execute && patternMatches pat word && execute) = true
          · rw [if_pos hrun', if_pos hrun']
            exact .bind (hrun _ _) fun b _ => ih _ _ _ _
          · rw [if_neg hrun', if_neg hrun']
            exact ih _ _ _ _

theorem execLine_mirrors (fuel : Nat) {nextBytes : Sh σ → CStr → Int → Logged (BlockNote σ)
    (Sh σ × CStr × Int)}
    {next : Sh σ → CStr → Int → Outcome (Sh σ × CStr × Int)}
    (hnext : ∀ s p r, Mirrors (nextBytes s p r) (next s p r))
    (s : Sh σ) {line : CStr} (hline : line.length < shLineMax) (hfits : NameFits line)
    (lineStart p : CStr)
    (execute : Bool) (lastRet : Int) :
    Mirrors (execLineBytes R fuel blockBytes nextBytes s line lineStart p execute lastRet)
      (execLine R fuel block next s line lineStart p execute lastRet) := by
  obtain ⟨a, ha⟩ := functionName_fits hfits
  rw [execLineBytes, execLine, ha, Outcome.bind_done]
  refine .after (functionNameBytes_comes ha) ?_
  cases a with
  -- a definition: its body goes into the shell's table
  | some name => exact .after (functionBytes_comes p) (hnext _ _ _)
  | none =>
      dsimp only
      -- `if` alone: the condition is read from behind the end of the line
      by_cases hif : line = cstr "if"
      · rw [if_pos hif, if_pos hif]
        exact .after (fill_comes (by decide)) (.lift _)
      rw [if_neg hif, if_neg hif]
      by_cases hifs : startsWith (cstr "if ") line = true
      · rw [if_pos hifs, if_pos hifs]
        refine .after (ifCondBytes_comes line)
            (.bind (.lift _) fun t _ => .bind (hblock _ _ _) fun b _ =>
          .bind (ifLoop_mirrors hblock _ _ _ _ _) fun r _ => hnext _ _ _)
      rw [if_neg hifs, if_neg hifs]
      cases terminator line lineStart p with
      | some p => exact .pure _
      | none =>
          dsimp only
          by_cases hthen : (isKeyword (cstr "then") line || isKeyword (cstr "do") line) = true
          · rw [if_pos hthen, if_pos hthen]
            exact hnext _ _ _
          rw [if_neg hthen, if_neg hthen]
          -- `while` alone goes wrong as `if` does
          by_cases hwhile : line = cstr "while"
          · rw [if_pos hwhile, if_pos hwhile]
            exact .after (fill_comes (by decide)) (.lift _)
          rw [if_neg hwhile, if_neg hwhile]
          by_cases hwhiles : startsWith (cstr "while ") line = true
          · rw [if_pos hwhiles, if_pos hwhiles]
            refine .after (whileCondBytes_comes hline) ?_
            cases execute with
            | true => exact .bind (whileLoop_mirrors hblock _ _ _ _ _ _) fun r _ => hnext _ _ _
            | false => exact .bind (hblock _ _ _) fun b _ => hnext _ _ _
          rw [if_neg hwhiles, if_neg hwhiles]
          by_cases hfor : startsWith (cstr "for ") line = true
          · rw [if_pos hfor, if_pos hfor]
            by_cases hvar : (forHeader line).1.length ≥ shVarNamsz
            · -- the loop that reads the name never ends
              obtain ⟨hlog, hout⟩ := forHeaderBytes_stuck (σ := σ) (Nat.not_lt_of_le hvar)
              rw [Logged.bind_timeout hout]
              refine .of_bounded hlog ?_
              exact (if_pos hvar).symm
            refine .after (forHeaderBytes_comes hline (Nat.lt_of_not_le hvar))
              (.noted ⟨trivial, trivial⟩ ?_)
            refine Eq.mpr (congrArg _ (if_neg hvar)) (.bind (.lift _) fun w _ => ?_)
            obtain ⟨s', words⟩ := w
            cases execute with
            | true => exact .bind (forLoop_mirrors hblock _ _ _ _ _ _) fun r _ => hnext _ _ _
            | false => exact .bind (hblock _ _ _) fun b _ => hnext _ _ _
          rw [if_neg hfor, if_neg hfor]
          -- the loops are over; one arm of a `case` runs at most
          by_cases hcase : startsWith (cstr "case ") line = true
          · rw [if_pos hcase, if_pos hcase]
            refine .after (caseWordBytes_comes hline)
              (.noted ⟨trivial, trivial⟩ (.bind (.lift _) fun w _ => ?_))
            obtain ⟨s', word⟩ := w
            refine .bind (caseLoop_mirrors (fun s body => ?_) _ _ _ _ _ _ _) fun r _ => hnext _ _ _
            exact .bind (hblock _ _ _) fun b _ => .pure _
          rw [if_neg hcase, if_neg hcase]
          by_cases hbreak : line = cstr "break"
          · rw [if_pos hbreak, if_pos hbreak]
            exact .pure _
          rw [if_neg hbreak, if_neg hbreak]
          by_cases hcont : line = cstr "continue"
          · rw [if_pos hcont, if_pos hcont]
            exact .pure _
          rw [if_neg hcont, if_neg hcont]
          by_cases hret : startsWith (cstr "return") line = true
          · rw [if_pos hret, if_pos hret]
            cases execute with
            | true => exact .pure _
            | false => exact hnext _ _ _
          rw [if_neg hret, if_neg hret]
          cases hop : findAndOr line with
          | some op =>
              obtain ⟨k, isAnd⟩ := op
              have hk : k < shLineMax := Nat.lt_of_le_of_lt (findAndOr_le hop) hline
              refine .after (put_comes hk) ?_
              cases execute with
              | false => exact hnext _ _ _
              | true =>
                  refine .bind (.lift _) fun r1 _ => ?_
                  obtain ⟨s', r⟩ := r1
                  dsimp only
                  -- the second half runs or not by the status of the first
                  generalize (if isAnd = true then decide (r = 0) else decide (r ≠ 0)) = runRhs
                  cases runRhs with
                  | true => exact .bind (.lift _) fun r _ => hnext _ _ _
                  | false => exact hnext _ _ _
          | none =>
              cases execute with
              | true => exact .bind (.lift _) fun r _ => hnext _ _ _
              | false => exact hnext _ _ _

end Walk

end BlockNote

open BlockNote

section Block

variable {σ : Type} {R : Runner σ}

/-- **The walk on bytes mirrors the walk on texts**, by induction on the fuel. -/
theorem shExecBlock_mirrors (fuel : Nat) : ∀ (s : Sh σ) (p : CStr) (execute : Bool) (lastRet : Int),
    Mirrors (shExecBlockBytes R fuel s p execute lastRet)
    (shExecBlock R fuel s p execute lastRet) := by
  induction fuel with
  | zero => exact fun _ _ _ _ => .lift _
  | succ fuel ih =>
      intro s p execute lastRet
      have hskip : (skipWhile (σ := σ) isBlank p).Comes Bounded (skipBlanks p) :=
        skipWhile_comes _ _
      rw [shExecBlockBytes, shExecBlock]
      refine .after (look_comes (Nat.le_add_left _ _)) (.after hskip ?_)
      cases skipBlanks p with
      | nil => exact .pure _
      | cons c q =>
          dsimp only
          by_cases hc : c = newline
          · rw [if_pos hc, if_pos hc]
            exact ih _ _ _ _
          rw [if_neg hc, if_neg hc]
          by_cases hhash : c = hash
          · rw [if_pos hhash, if_pos hhash]
            exact .after (skipWhile_comes _ _) (ih _ _ _ _)
          rw [if_neg hhash, if_neg hhash]
          have hcomes := logicalLineBytes_comes (σ := σ) (c :: q)
          have hline := logicalLine_lt (c :: q)
          generalize logicalLine (c :: q) = r at *
          obtain ⟨line, rest⟩ := r
          refine .after hcomes ?_
          dsimp only at hline ⊢
          by_cases hnil : line = []
          · rw [if_pos hnil, if_pos hnil]
            exact ih _ _ _ _
          rw [if_neg hnil, if_neg hnil]
          by_cases hfits : NameFits line
          · exact .noted ⟨trivial, hfits⟩
              (execLine_mirrors (fun _ _ _ => ih _ _ _ _) fuel (fun _ _ _ => ih _ _ _ _) s
              hline hfits _ _ _ _)
          · exact .overrun hfits _ _

/-- **`sh_exec_block` keeps inside its arrays and reads nothing behind the script's NUL exactly if
every line that it collects fits `fname`.** -/
theorem shExecBlock_inBounds_iff (R : Runner σ) (fuel : Nat) (s : Sh σ) (p : CStr) (execute : Bool) (lastRet : Int) :
    (∀ a, BlockNote.access a ∈ (shExecBlockBytes R fuel s p execute lastRet).log → a.InBounds) ↔
      ∀ line, BlockNote.line line ∈ (shExecBlockBytes R fuel s p execute lastRet).log → NameFits line := by
  have h := (shExecBlock_mirrors (R := R) fuel s p execute lastRet).bounds
  constructor
  · intro ha line hl
    refine h.mp (fun e he => ?_) _ hl
    cases e with
    | access a => exact ha a he
    | line l => trivial
    | elif c => trivial
    | words s l => trivial
    | word s w => trivial
  · intro hl a ha
    refine h.mpr (fun e he => ?_) _ ha
    cases e with
    | access a => trivial
    | line l => exact hl l he
    | elif c => trivial
    | words s l => trivial
    | word s w => trivial

end Block

/-- The line, if the note is of one. -/
def BlockNote.line? {σ : Type} : BlockNote σ → Option CStr
  | .line l => some l
  | _ => none

theorem BlockNote.line?_some {σ : Type} {e : BlockNote σ} {l : CStr} (h : e.line? = some l) :
    e = .line l := by
  cases e with
  | line _ => exact congrArg _ (Option.some.inj h)
  | _ => cases h

/-- An assignment, of 65 bytes without a blank. -/
theorem long_word_overruns : ¬ ∀ a, BlockNote.access a ∈
    (shExecBlockBytes (shRunner stillEnv idleExec) 1 stillShell (cstr "x=" ++ List.replicate 63 0x61) true 0).log →
    a.InBounds := by
  intro h
  have hline : (shExecBlockBytes (shRunner stillEnv idleExec) 1 stillShell
    (cstr "x=" ++ List.replicate 63 0x61) true
      0).log.filterMap BlockNote.line? = [cstr "x=" ++ List.replicate 63 0x61] := by decide +kernel
  obtain ⟨e, he, hl⟩ := List.mem_filterMap.mp (hline ▸ List.mem_singleton_self _)
  rw [BlockNote.line?_some hl] at he
  exact absurd ((shExecBlock_inBounds_iff _ _ _ _ _ _).mp h _ he) (by decide)

end VnlKernel
