import VnlKernel.Proof.ShellTurns
import Mathlib.Logic.Relation

/-!
# When `expand_word` returns

Every turn of its loop consumes some of the source, and so does every turn of the loops inside
quotes, as long as there is room in the destination. Where there is none, `OUT(*src++)` leaves
the cursor where it is, and these loops test nothing but the source. The call returns exactly if
that never happens: if every quoted text fits into what is left of the destination when the
quote is met.

A turn leads from one state of the loop to the next, or enters the loop of a call for a default;
what a run comes to is what these two relations lead to.
-/

namespace VnlKernel

variable {ε : Type}

/-- The interpreter as it is at the start. -/
def stillShell : Sh (ShWorld Unit) :=
  ⟨.none, 0, 0, ⟨[], [], [], [], cstr "sh", Kout.init, fun _ => [], [], [], ()⟩⟩

/-- No files, and builtins that do nothing. -/
def stillEnv : ShEnv Unit where
  arith _ _ := 0
  ticks _ := 0
  slurp ext _ _ := (ext, none)
  spill ext _ _ _ := ext
  own s _ := .done (s, 0)
  builtin _ _ s _ := .done (s, 0)

/-- A command that does nothing. -/
def idleExec : Command Unit := fun s _ => .done (s, 0)

namespace Expansion

variable {dstsz fuel : Nat} {s : Sh (ShWorld ε)} {t p q : CStr} {c : UInt8} {x y : Expansion ε}
  {env : ShEnv ε} {exec : Command ε} {junk : CStr}

/-! ## The turns of a run -/

/-- What was put out so far. -/
def text (x : Expansion ε) : CStr := x.dst.cells.take x.dst.di

/-- The default that the next turn expands. -/
def dflt? (x : Expansion ε) : Option CStr :=
  match lead x.dstsz x.text x.src with
  | .special _ q => specialDflt x.sh q
  | _ => none

/-- If the next turn begins with a quote, what is quoted fits into the room there is. -/
def QuoteFits (x : Expansion ε) : Prop :=
  x.Turns →
    match x.src with
    | [] => True
    | c :: p =>
        (c = squote → x.dst.di + (p.takeWhile (· ≠ squote)).length < x.dstsz) ∧
          (c = dquote → dquoteFits (x.dstsz - 1 - x.dst.di) p = true)

/-- One turn leads from `x` to `y`. -/
def Next (env : ShEnv ε) (exec : Command ε) (junk : CStr) (x y : Expansion ε) : Prop :=
  x.Turns ∧ ∃ fuel, (turn env exec (expandDflt env exec junk fuel) fuel x).out = .done y

/-- The turn at `x` calls `expand_word` for a default, and `y` is how that call begins. -/
def Enters (x y : Expansion ε) : Prop := x.Turns ∧ ∃ d, x.dflt? = some d ∧ y = start shVarValsz x.sh d

/-- The loop of this call, or of one made for a default on the way, comes to `y`. -/
def Reached (env : ShEnv ε) (exec : Command ε) (junk : CStr) : Expansion ε → Expansion ε → Prop :=
  Relation.ReflTransGen fun x y => Next env exec junk x y ∨ Enters x y

/-- The destination holds what was put out. -/
def Formed (x : Expansion ε) : Prop := x.dst = Dst.holding x.text

theorem text_wrote : (wrote dstsz s t p).text = t := by
  rw [text, wrote, Dst.holding_di, Dst.holding_take]

theorem formed_wrote : (wrote dstsz s t p).Formed := by
  rw [Formed, text_wrote]
  rfl

theorem Formed.eq (h : x.Formed) : x = wrote x.dstsz x.sh x.text x.src := by
  rw [wrote, ← h]

theorem Formed.di (h : x.Formed) : x.dst.di = x.text.length := by
  have h' := congrArg Dst.di h
  rwa [Dst.holding_di] at h'

/-- A turn begins with some text, and with room for a character. -/
theorem Formed.turns (h : x.Formed) (hx : x.Turns) : ∃ c p, x.text.length + 1 < x.dstsz ∧
    x = wrote x.dstsz x.sh x.text (c :: p) := by
  obtain ⟨c, p, hsrc⟩ := List.exists_cons_of_ne_nil hx.1
  refine ⟨c, p, ?_, ?_⟩
  · rw [← h.di]
    exact hx.2
  · rw [← hsrc]
    exact h.eq

theorem quoteFits_iff (hroom : t.length + 1 < dstsz) :
    (wrote dstsz s t (c :: p)).QuoteFits ↔ lead dstsz t (c :: p) ≠ .stuck := by
  have hturns : (wrote dstsz s t (c :: p)).Turns := wrote_turns.mpr ⟨by simp, hroom⟩
  rw [QuoteFits, forall_prop_of_true hturns, lead]
  dsimp only [wrote]
  rw [Dst.holding_di, dquoteFits_iff]
  have h1 : backslash ≠ squote ∧ backslash ≠ dquote ∧ squote ≠ dquote := by decide
  split_ifs with hb hs hfit hd
  · subst hb
    simp [h1.1, h1.2.1]
  · exact iff_of_false (fun h => Nat.not_lt_of_le hfit (h.1 hs)) (fun h => h rfl)
  · refine iff_of_true ⟨fun _ => Nat.lt_of_not_le hfit, fun h => ?_⟩ (by simp)
    rw [hs] at h
    exact absurd h h1.2.2
  · subst hd
    simp [h1.2.2.symm]
  · simp [hs, hd]

theorem Next.below (env : ShEnv ε) (exec : Command ε) (junk : CStr) (x : Expansion ε) {n m : Nat}
    (hnm : n ≤ m) :
    (turn env exec (expandDflt env exec junk n) n x).Below
      (turn env exec (expandDflt env exec junk m) m x) :=
  Logged.Below.of_le (x := fun n => turn env exec (expandDflt env exec junk n) n x)
    (fun n => turn_below (expandDflt_below n) n x) hnm

/-- There is one next state at most. -/
theorem Next.unique {z : Expansion ε} (h : Next env exec junk x y) (h' : Next env exec junk x z) :
    y = z := by
  obtain ⟨_, n, hn⟩ := h
  obtain ⟨_, m, hm⟩ := h'
  have h1 := (Next.below env exec junk x (Nat.le_max_left n m)).done hn
  have h2 := (Next.below env exec junk x (Nat.le_max_right n m)).done hm
  rw [h1, ← h2, hm] at hn
  cases hn
  rfl

variable (env exec) in
/-- More fuel for the loops inside quotes alone. -/
theorem turn_more (expand) (x : Expansion ε) {n m : Nat} (hnm : n ≤ m) :
    (turn env exec expand n x).Below (turn env exec expand m x) :=
  Logged.Below.of_le (x := fun n => turn env exec expand n x)
    (fun n => turn_below (fun _ _ => .refl _) n x) hnm

/-- **A turn puts something behind what was put out, and consumes some of the source.** -/
theorem turn_out (hx : x.Formed) (hturns : x.Turns) {expand}
    (h : (turn env exec expand fuel x).out = .done y) :
    ∃ s' t' q, y = wrote x.dstsz s' t' q ∧ x.text <+: t' ∧ q.length < x.src.length := by
  obtain ⟨c, p, hroom, heq⟩ := hx.turns hturns
  have hsrc : x.src = c :: p := congrArg Expansion.src heq
  have hmore := (turn_more env exec expand x (Nat.le_add_right fuel (p.length + 1))).done h
  have hfuel : p.length < fuel + (p.length + 1) := by omega
  rw [hmore] at h
  rw [hsrc, List.length_cons]
  cases hl : lead x.dstsz x.text (c :: p) with
  | closed t' q =>
      have hturn := turn_closed x.sh env exec hroom hl expand hfuel
      rw [← heq] at hturn
      rw [hturn.2] at h
      cases h
      exact ⟨_, _, _, rfl, (lead_closed hl).1, Nat.lt_succ_of_le (lead_closed hl).2⟩
  | special t' q =>
      obtain ⟨log, _, hturn⟩ := turn_special x.sh env exec hroom hl hfuel
      rw [heq, hturn] at h
      simp only [Logged.bind_out, Outcome.bind_done] at h
      obtain ⟨r, hr, ho⟩ := Outcome.bind_eq_done h
      obtain ⟨h1, h2, h3, _⟩ := lead_special hl
      rw [(outs_comes _ _).2] at ho
      cases ho
      exact ⟨_, _, _, rfl, h1.trans (outs_starts _ _ _), Nat.lt_of_lt_of_le (stands_rest h2 hr) h3⟩
  | stuck =>
      rw [heq, turn_stuck hroom hl] at h
      cases h

theorem Next.formed (hx : x.Formed) (h : Next env exec junk x y) :
    y.Formed ∧ y.dstsz = x.dstsz ∧ x.text <+: y.text ∧ y.src.length < x.src.length := by
  obtain ⟨hturns, n, hn⟩ := h
  obtain ⟨s', t', q, rfl, h1, h2⟩ := turn_out hx hturns hn
  exact ⟨formed_wrote, rfl, by rwa [text_wrote], h2⟩

theorem Enters.formed (h : Enters x y) : y.Formed := by
  obtain ⟨_, d, _, rfl⟩ := h
  rw [start_eq]
  exact formed_wrote

/-- A default is shorter than the text it stands in. -/
theorem Enters.shorter (hx : x.Formed) (h : Enters x y) : y.src.length < x.src.length := by
  obtain ⟨hturns, d, hd, rfl⟩ := h
  obtain ⟨c, p, hroom, heq⟩ := hx.turns hturns
  have hsrc : x.src = c :: p := congrArg Expansion.src heq
  rw [dflt?, hsrc] at hd
  rw [hsrc]
  cases hl : lead x.dstsz x.text (c :: p) with
  | special t' q =>
      rw [hl] at hd
      exact Nat.lt_of_lt_of_le (specialDflt_shorter hd) (lead_special hl).2.2.1
  | closed t' q => rw [hl] at hd; cases hd
  | stuck => rw [hl] at hd; cases hd

theorem run_more (x : Expansion ε) {n m : Nat} (hnm : n ≤ m) :
    (run env exec junk n x).Below (run env exec junk m x) :=
  Logged.Below.of_le (x := fun n => run env exec junk n x) (fun n => run_below n x) hnm

theorem run_done_more {n m : Nat} (h : (run env exec junk n x).out = .done y) (hnm : n ≤ m) :
    (run env exec junk m x).out = .done y := by
  rw [← (run_more x hnm).done h]
  exact h

/-- The call returns once the turn and what follows it do. -/
theorem run_next {z : Expansion ε} (h : Next env exec junk x y) {n : Nat}
    (hn : (run env exec junk n y).out = .done z) :
    ∃ fuel, (run env exec junk fuel x).out = .done z := by
  obtain ⟨hturns, m, hm⟩ := h
  refine ⟨max n m + 1, ?_⟩
  have hturn := (Next.below env exec junk x (Nat.le_max_right n m)).done hm
  rw [run_succ, if_pos hturns, Logged.bind_out, ← hturn, hm]
  exact run_done_more hn (Nat.le_max_left n m)

/-- The turn is made if what is quoted fits, and the call for a default returns. -/
theorem next_exists (hexec : ∀ s c, ∃ r, exec s c = .done r) (hx : x.Formed) (hturns : x.Turns)
    (hfits : x.QuoteFits)
    (hdflt : ∀ y, Enters x y → ∃ fuel z, (run env exec junk fuel y).out = .done z) :
    ∃ y, Next env exec junk x y := by
  obtain ⟨c, p, hroom, heq⟩ := hx.turns hturns
  have hsrc : x.src = c :: p := congrArg Expansion.src heq
  rw [heq] at hfits
  cases hl : lead x.dstsz x.text (c :: p) with
  | stuck => exact absurd hl ((quoteFits_iff hroom).mp hfits)
  | closed t' q =>
      have hturn := turn_closed x.sh env exec hroom hl
        (expandDflt env exec junk (p.length + 1)) (Nat.lt_succ_self _)
      rw [← heq] at hturn
      exact ⟨_, hturns, _, hturn.2⟩
  | special t' q =>
      -- what the text stands for is known, with fuel enough for the default if there is one
      have hstands : ∃ fuel r, (stands env exec (expandDflt env exec junk fuel) x.sh q).out
          = .done r := by
        cases hd : specialDflt x.sh q with
        | none =>
            obtain ⟨r, hr⟩ := stands_returns env hexec hd
            exact ⟨0, r, hr⟩
        | some d =>
            have henters : Enters x (start shVarValsz x.sh d) :=
              ⟨hturns, d, by rw [dflt?, hsrc, hl]; exact hd, rfl⟩
            obtain ⟨fuel, z, hz⟩ := hdflt _ henters
            obtain ⟨log, rest, _, _, hform⟩ := stands_some env exec hd
            refine ⟨fuel, ?_⟩
            rw [hform]
            simp only [Logged.bind_out, Outcome.bind_done, expandDflt, hz]
            exact ⟨_, rfl⟩
      obtain ⟨fuel, r, hr⟩ := hstands
      have hmore := Logged.Below.of_le
        (x := fun n => stands env exec (expandDflt env exec junk n) x.sh q)
        (fun n => stands_below env exec (expandDflt_below n) x.sh q)
          (Nat.le_add_right fuel (p.length + 1))
      rw [hmore.done hr] at hr
      obtain ⟨log, _, hturn⟩ := turn_special x.sh env exec hroom hl
        (show p.length < fuel + (p.length + 1) by omega)
      refine ⟨wrote x.dstsz r.1 (VnlKernel.outs x.dstsz t' r.2.1) r.2.2, hturns,
        fuel + (p.length + 1), ?_⟩
      rw [heq, hturn]
      simp only [Logged.bind_out, Outcome.bind_done, hr, (outs_comes _ _).2]
      rfl

/-- By induction on the length of the text that is left: a turn consumes some of it, and the default
of a turn is shorter. -/
theorem run_returns (hexec : ∀ s c, ∃ r, exec s c = .done r) (n : Nat) : ∀ x :
    Expansion ε, x.Formed →
    x.src.length < n → (∀ y, Reached env exec junk x y → y.QuoteFits) →
    ∃ fuel y, (run env exec junk fuel x).out = .done y := by
  induction n with
  | zero =>
      intro x _ hlen
      exact absurd hlen (Nat.not_lt_zero _)
  | succ n ih =>
      intro x hx hlen hfits
      by_cases hturns : x.Turns
      · have hnext : ∃ y, Next env exec junk x y := by
          refine next_exists hexec hx hturns (hfits x .refl) ?_
          intro y hy
          refine ih y hy.formed (Nat.lt_of_lt_of_le (hy.shorter hx) (Nat.le_of_lt_succ hlen)) ?_
          intro z hz
          exact hfits z (hz.head (.inr hy))
        obtain ⟨y, hy⟩ := hnext
        obtain ⟨hyf, _, _, hylen⟩ := hy.formed hx
        obtain ⟨fuel, z, hz⟩ := ih y hyf (Nat.lt_of_lt_of_le hylen (Nat.le_of_lt_succ hlen))
          fun z hz => hfits z (hz.head (.inl hy))
        obtain ⟨fuel, hfuel⟩ := run_next hy hz
        exact ⟨fuel, z, hfuel⟩
      · refine ⟨1, x, ?_⟩
        rw [run_succ, if_neg hturns]
        rfl

/-- A turn that returns has seen the call for its default return. -/
theorem turn_done_dflt (hx : x.Formed) (h : Enters x y) {z : Expansion ε}
    (hz : (turn env exec (expandDflt env exec junk fuel) fuel x).out = .done z) :
    ∃ w, (run env exec junk fuel y).out = .done w := by
  obtain ⟨hturns, d, hd, rfl⟩ := h
  obtain ⟨c, p, hroom, heq⟩ := hx.turns hturns
  have hsrc : x.src = c :: p := congrArg Expansion.src heq
  have hmore := (turn_more env exec (expandDflt env exec junk fuel) x
    (Nat.le_add_right fuel (p.length + 1))).done hz
  rw [hmore] at hz
  rw [dflt?, hsrc] at hd
  cases hl : lead x.dstsz x.text (c :: p) with
  | closed t' q => rw [hl] at hd; cases hd
  | stuck => rw [hl] at hd; cases hd
  | special t' q =>
      rw [hl] at hd
      obtain ⟨log, _, hturn⟩ := turn_special x.sh env exec hroom hl
        (show p.length < fuel + (p.length + 1) by omega)
      obtain ⟨log', rest, _, _, hform⟩ := stands_some env exec hd
      rw [heq, hturn, hform] at hz
      simp only [Logged.bind_out, Outcome.bind_done] at hz
      obtain ⟨r, hr, _⟩ := Outcome.bind_eq_done hz
      obtain ⟨a, ha, _⟩ := Outcome.bind_eq_done hr
      rw [expandDflt, Logged.bind_out] at ha
      obtain ⟨w, hw, _⟩ := Outcome.bind_eq_done ha
      exact ⟨w, hw⟩

/-- A call that comes to a quoted text that does not fit does not return. -/
theorem run_stuck (hx : x.Formed) (h : Reached env exec junk x y) (hy : ¬ y.QuoteFits) :
    ∀ fuel z, (run env exec junk fuel x).out ≠ .done z := by
  induction h using Relation.ReflTransGen.head_induction_on with
  | refl =>
      intro fuel z hz
      have hturns : y.Turns := by
        by_contra h
        exact hy fun h' => absurd h' h
      obtain ⟨c, p, hroom, heq⟩ := hx.turns hturns
      rw [heq, quoteFits_iff hroom, not_not] at hy
      cases fuel with
      | zero => cases hz
      | succ fuel =>
          rw [run_succ, if_pos hturns, Logged.bind_out, heq, turn_stuck hroom hy] at hz
          cases hz
  | head hstep _ ih =>
      intro fuel z hz
      have hturns := hstep.elim (·.1) (·.1)
      cases fuel with
      | zero => cases hz
      | succ fuel =>
          rw [run_succ, if_pos hturns, Logged.bind_out] at hz
          obtain ⟨w, hw, hz⟩ := Outcome.bind_eq_done hz
          rcases hstep with hnext | henters
          · have hw' : Next env exec junk _ w := ⟨hturns, fuel, hw⟩
            rw [hw'.unique hnext] at hz
            exact ih (hnext.formed hx).1 fuel z hz
          · obtain ⟨v, hv⟩ := turn_done_dflt hx henters hw
            exact ih henters.formed fuel v hv

/-- **`expand_word` returns exactly if every quoted text fits where it is met**, provided the
commands it runs return. -/
theorem run_returns_iff (hexec : ∀ s c, ∃ r, exec s c = .done r) (junk : CStr) (dstsz : Nat)
    (s : Sh (ShWorld ε)) (src : CStr) :
    (∃ fuel y, (run env exec junk fuel (start dstsz s src)).out = .done y) ↔
      ∀ y, Reached env exec junk (start dstsz s src) y → y.QuoteFits := by
  have hstart : (start dstsz s src).Formed := by
    rw [start_eq]
    exact formed_wrote
  constructor
  · intro h y hy
    by_contra hfits
    obtain ⟨fuel, z, hz⟩ := h
    exact run_stuck hstart hy hfits fuel z hz
  · intro h
    exact run_returns hexec _ _ hstart (Nat.lt_succ_self _) h

/-- A word with a default inside double quotes, which fits, and a command that does nothing. -/
theorem run_returns_iff_quoted :
    (∃ fuel y, (run stillEnv idleExec [] fuel (start 8 stillShell (cstr "\"a${X:-bc}\"d"))).out = .done y)
      ∧ ∀ y, Reached stillEnv idleExec [] (start 8 stillShell (cstr "\"a${X:-bc}\"d")) y → y.QuoteFits := by
  have hreturns : ∃ fuel y, (run stillEnv idleExec [] fuel
      (start 8 stillShell (cstr "\"a${X:-bc}\"d"))).out = .done y :=
    ⟨40, _, rfl⟩
  exact ⟨hreturns, (run_returns_iff (fun s _ => ⟨(s, 0), rfl⟩)
    [] 8 stillShell (cstr "\"a${X:-bc}\"d")).mp hreturns⟩

/-- Three quoted characters do not fit into an array of three. -/
theorem quoted_text_stuck :
    ¬ ∃ fuel y, (run stillEnv idleExec [] fuel (start 3 stillShell (cstr "'abc'"))).out = .done y := by
  intro h
  obtain ⟨fuel, y, hy⟩ := h
  have hroom : ([] : CStr).length + 1 < 3 := by decide
  have hfits : ¬ (wrote 3 stillShell [] (cstr "'abc'")).QuoteFits := fun h =>
    (quoteFits_iff (c := squote) (p := cstr "abc'") hroom).mp h rfl
  exact run_stuck formed_wrote .refl hfits fuel y hy

/-! ## The text and the bytes -/

/-- Where a call for a default returns with a text, the call on bytes does. -/
def Agrees (expand : Sh (ShWorld ε) → CStr → Outcome (Sh (ShWorld ε) × CStr))
    (expand' : Sh (ShWorld ε) → CStr → Logged Access (Sh (ShWorld ε) × CStr)) (s : Sh (ShWorld ε)) (d : CStr) : Prop :=
  ∀ a, expand s d = .done a → a.2 ≠ [] → (expand' s d).out = .done a

section Text

variable {expand : Sh (ShWorld ε) → CStr → Outcome (Sh (ShWorld ε) × CStr)}
  {expand' : Sh (ShWorld ε) → CStr → Logged Access (Sh (ShWorld ε) × CStr)} {r : Sh (ShWorld ε) × CStr × CStr}

theorem brace_text (hd : ∀ d, braceDflt s p = some d → Agrees expand expand' s d)
    (h : expandBrace expand s p = .done r) : (brace expand' s p).out = .done r := by
  simp only [braceDflt] at hd
  simp only [expandBrace] at h
  simp only [brace]
  generalize (p.takeWhile fun c => !endsBraceName c).take (shVarNamsz - 1) = vname at *
  generalize p.drop vname.length = q at *
  by_cases hhash : q.head? = some hash
  · rw [if_pos hhash] at h ⊢
    exact h
  rw [if_neg hhash] at h ⊢
  simp only [if_neg hhash] at hd
  by_cases hminus : startsWith [colon, 0x2D] q
  · rw [if_pos hminus] at h ⊢
    simp only [if_pos hminus] at hd
    have hcopy := copyOut_span shVarValsz (by decide) (fun c => decide (c ≠ braceClose)) (q.drop 2)
    have hused : (expand s (((q.drop 2).takeWhile fun c => decide (c ≠ braceClose)).take
        (shVarValsz - 1)) >>= fun a =>
          if a.2 = [] then .panic "expdef: never written" else pure (a.1, a.2, skipBrace q))
            = .done r →
        Agrees expand expand' s (((q.drop 2).takeWhile fun c => decide (c ≠ braceClose)).take
          (shVarValsz - 1)) →
        (copyOut shVarValsz (q.drop 2)
            (clip shVarValsz ((q.drop 2).takeWhile fun c => decide (c ≠ braceClose)).length) >>=
                fun dflt =>
          expand' s dflt >>= fun r => pure (r.1, r.2, skipBrace q)).out = .done r := by
      intro h hagree
      obtain ⟨a, ha, h⟩ := Outcome.bind_eq_done h
      split_ifs at h with hempty
      rw [Logged.bind_out, hcopy.2, Outcome.bind_done, Logged.bind_out, hagree a ha hempty]
      exact h
    cases hv : varGet s.world.vars vname with
    | none =>
        rw [hv] at h hd
        exact hused h (hd _ rfl)
    | some v =>
        rw [hv] at h hd
        cases v with
        | nil => exact hused h (hd _ rfl)
        | cons c t => exact h
  · rw [if_neg hminus] at h ⊢
    exact h

theorem dollar_text (hd : ∀ d, specialDflt s (dollarSign :: p) = some d → Agrees expand expand' s d)
    (h : expandDollar env exec expand s p = .done r) : (dollar env exec expand' s p).out
      = .done r := by
  rw [dollar]
  split_ifs with h1 h2 h3
  · rw [Logged.bind_out, copyOut_arith, Outcome.bind_done]
    rw [expandDollar.eq_def] at h
    dsimp only at h
    rw [if_pos h1] at h
    exact h
  · obtain ⟨q, rfl⟩ := startsWith_one.mp h2
    rw [expandDollar.eq_def] at h
    dsimp only at h
    rw [if_neg h1, if_pos rfl] at h
    rw [List.drop_one, List.tail_cons]
    simp only [Logged.bind_out, copyOut_command, Outcome.bind_done]
    exact h
  · obtain ⟨q, rfl⟩ := startsWith_one.mp h3
    rw [expandDollar.eq_def] at h
    dsimp only at h
    rw [if_neg h1, if_neg (by decide), if_pos rfl] at h
    rw [List.drop_one, List.tail_cons]
    refine brace_text (fun d hdd => hd d ?_) h
    rw [specialDflt, if_pos ⟨rfl, h3⟩]
    exact hdd
  · obtain ⟨text, rest, _, h5⟩ := expandDollar_plain (s := s) env exec
      (Bool.eq_false_iff.mpr h2) (Bool.eq_false_iff.mpr h3)
    rw [Logged.lift_out, h5, ← h5 expand]
    exact h

theorem stands_text {next : Sh (ShWorld ε) → CStr → CStr → Outcome (Sh (ShWorld ε) × CStr)}
    {z : Sh (ShWorld ε) × CStr} (hd : ∀ d, specialDflt s p = some d → Agrees expand expand' s d)
    (h : expandSpecial env exec expand next dstsz s t p = .done z) :
    ∃ r, (stands env exec expand' s p).out = .done r
      ∧ next r.1 (VnlKernel.outs dstsz t r.2.1) r.2.2 = .done z := by
  cases p with
  | nil =>
      refine ⟨_, rfl, ?_⟩
      rw [VnlKernel.outs, List.take_nil, List.append_nil]
      exact h
  | cons c p =>
      rw [expandSpecial] at h
      rw [stands]
      split at h
      · next hc =>
        rw [if_pos hc]
        obtain ⟨r, hr, hz⟩ := Outcome.bind_eq_done h
        subst hc
        exact ⟨r, dollar_text hd hr, hz⟩
      · next hc =>
        rw [if_neg hc]
        split at h
        · next hb =>
          rw [if_pos hb]
          dsimp only at h
          obtain ⟨r, hr, hz⟩ := Outcome.bind_eq_done h
          have hcopy := copyOut_span shLineMax (by decide) (fun c => decide (c ≠ backquote)) p
          refine ⟨(r.1, r.2, p.drop ((p.takeWhile fun c => decide (c ≠ backquote)).length + 1)), ?_,
            hz⟩
          simp only [Logged.bind_out, hcopy.2, Outcome.bind_done, Logged.lift_out, hr,
            Logged.pure_out]
        · next hb =>
          rw [if_neg hb]
          exact ⟨_, rfl, h⟩

end Text

/-- A turn on the text is a turn on the bytes. -/
theorem expandLoop_lead (hroom : t.length + 1 < dstsz) :
    expandLoop env exec (fuel + 1) dstsz s t (c :: p) =
    match lead dstsz t (c :: p) with
    | .closed t' q => expandLoop env exec fuel dstsz s t' q
    | .special t' q => expandSpecial env exec
        (fun s src => expandLoop env exec fuel shVarValsz s [] src)
        (expandLoop env exec fuel dstsz) dstsz s t' q
    | .stuck => .timeout := by
  rw [expandLoop, lead]
  dsimp only
  rw [if_neg (Nat.not_le_of_lt hroom)]
  split_ifs with h1 h2 h3 h4
  · rfl
  · rfl
  · rfl
  · cases expandQuoted dstsz t p <;> rfl
  · rfl

/-- What the call for a default leaves is read from its array. -/
theorem expandDflt_agrees {F : Nat} {d : CStr}
    (h : ∀ s' t', expandLoop env exec F shVarValsz s [] d = .done (s', t') →
      ∃ fuel q, (run env exec junk fuel (wrote shVarValsz s [] d)).out
        = .done (wrote shVarValsz s' t' q)) :
    ∃ n, Agrees (fun s src => expandLoop env exec F shVarValsz s [] src)
    (expandDflt env exec junk n) s d := by
  cases hd : expandLoop env exec F shVarValsz s [] d with
  | done a =>
      obtain ⟨n, q, hn⟩ := h a.1 a.2 hd
      refine ⟨n, ?_⟩
      intro b hb hne
      have hb : expandLoop env exec F shVarValsz s [] d = .done b := hb
      rw [hd] at hb
      cases hb
      rw [expandDflt, start_eq, Logged.bind_out, hn, Outcome.bind_done, Logged.bind_out, Dst.read,
        wrote]
      simp only [Dst.holding_terminated, Dst.holding_di, Dst.holding_take,
        if_pos (decide_eq_true hne)]
      rfl
  | panic msg =>
      refine ⟨0, fun b hb => ?_⟩
      have hb : expandLoop env exec F shVarValsz s [] d = .done b := hb
      rw [hd] at hb
      cases hb
  | timeout =>
      refine ⟨0, fun b hb => ?_⟩
      have hb : expandLoop env exec F shVarValsz s [] d = .done b := hb
      rw [hd] at hb
      cases hb

/-- **What `expandLoop` puts out, the loop on bytes puts out**, by induction on the fuel. -/
theorem run_of_expandLoop (junk : CStr) (F : Nat) :
    ∀ {dstsz : Nat} {s s' : Sh (ShWorld ε)} {t t' p : CStr},
    expandLoop env exec F dstsz s t p = .done (s', t') →
    ∃ fuel q, (run env exec junk fuel (wrote dstsz s t p)).out = .done (wrote dstsz s' t' q) := by
  induction F with
  | zero =>
      intro dstsz s s' t t' p h
      rw [expandLoop] at h
      cases h
  | succ F ih =>
      intro dstsz s s' t t' p h
      have hstop : ¬ (wrote dstsz s t p).Turns → (s, t) = (s', t') →
          ∃ fuel q, (run env exec junk fuel (wrote dstsz s t p)).out
              = .done (wrote dstsz s' t' q) := by
        intro hturns he
        cases he
        refine ⟨1, p, ?_⟩
        rw [run_succ, if_neg hturns]
        rfl
      cases p with
      | nil =>
          rw [expandLoop] at h
          exact hstop (fun h => h.1 rfl) (Outcome.done.inj h)
      | cons c p =>
          by_cases hroom : t.length + 1 < dstsz
          · have hturns : (wrote dstsz s t (c :: p)).Turns := wrote_turns.mpr ⟨by simp, hroom⟩
            have hnext : ∀ y, Next env exec junk (wrote dstsz s t (c :: p)) y →
                (∃ fuel q, (run env exec junk fuel y).out = .done (wrote dstsz s' t' q)) →
                ∃ fuel q, (run env exec junk fuel (wrote dstsz s t (c :: p))).out
                    = .done (wrote dstsz s' t' q) := by
              intro y hy hrun
              obtain ⟨fuel, q, hq⟩ := hrun
              obtain ⟨fuel, hfuel⟩ := run_next hy hq
              exact ⟨fuel, q, hfuel⟩
            rw [expandLoop_lead hroom] at h
            cases hl : lead dstsz t (c :: p) with
            | stuck =>
                rw [hl] at h
                cases h
            | closed t₁ q =>
                rw [hl] at h
                exact hnext _ ⟨hturns, p.length + 1,
                  (turn_closed _ _ _ hroom hl _ (Nat.lt_succ_self _)).2⟩ (ih h)
            | special t₁ q =>
                rw [hl] at h
                -- the default is expanded by a call with less fuel, to which the induction applies
                have hdflt : ∃ n, ∀ d, specialDflt s q = some d →
                    Agrees (fun s src => expandLoop env exec F shVarValsz s [] src)
                        (expandDflt env exec junk n) s d := by
                  cases hd : specialDflt s q with
                  | none => exact ⟨0, fun d hd => by cases hd⟩
                  | some d =>
                      obtain ⟨n, hn⟩ := expandDflt_agrees (s := s) (d := d) fun s' t' h => ih h
                      refine ⟨n, ?_⟩
                      intro d' hd'
                      cases hd'
                      exact hn
                obtain ⟨n, hn⟩ := hdflt
                obtain ⟨r, hr, hz⟩ := stands_text hn h
                have hmore := Logged.Below.of_le
                  (x := fun n => stands env exec (expandDflt env exec junk n) s q)
                  (fun n => stands_below env exec (expandDflt_below n) s q)
                    (Nat.le_add_right n (p.length + 1))
                rw [hmore.done hr] at hr
                obtain ⟨log, _, hturn⟩ := turn_special s env exec hroom hl
                  (show p.length < n + (p.length + 1) by omega)
                refine hnext (wrote dstsz r.1 (VnlKernel.outs dstsz t₁ r.2.1) r.2.2)
                  ⟨hturns, n + (p.length + 1), ?_⟩ (ih hz)
                rw [hturn]
                simp only [Logged.bind_out, Outcome.bind_done, hr, (outs_comes _ _).2]
          · rw [expandLoop] at h
            dsimp only at h
            rw [if_pos (Nat.le_of_not_lt hroom)] at h
            exact hstop (fun h => hroom (wrote_turns.mp h).2) (Outcome.done.inj h)

end Expansion

end VnlKernel
