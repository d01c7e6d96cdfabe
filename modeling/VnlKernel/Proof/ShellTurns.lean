import VnlKernel.Shell.WordsBytes
import VnlKernel.Proof.ShellWords

/-!
# One turn of `expand_word`

A turn of the loop begins with a quote or an escape, or goes straight to `handle_special`; what
a quote leaves behind may go there too. `lead` says which, and what is put out before, and
`stands` what the rest of the turn puts out. More fuel changes nothing of what a turn does, and
all of it can be told of a destination that holds a text: the string up to now and a NUL behind
it, or nothing at all.
-/

namespace VnlKernel

variable {ε : Type}

/-! ## What the destination holds -/

/-- The destination once `text` was put out. -/
def Dst.holding (text : CStr) : Dst := if text = [] then .fresh else ⟨text ++ [0], text.length⟩

namespace Dst

@[simp] theorem holding_di (t : CStr) : (holding t).di = t.length := by
  rw [holding]
  split
  · next h => rw [h]; rfl
  · rfl

@[simp] theorem holding_take (t : CStr) : (holding t).cells.take t.length = t := by
  rw [holding]
  split
  · next h => rw [h]; rfl
  · simp

@[simp] theorem holding_put (t : CStr) (c : UInt8) : (holding t).put c = holding (t ++ [c]) := by
  rw [put, holding_di, holding_take, holding, if_neg (by simp)]
  simp

/-- **It is terminated once something was put out.** -/
theorem holding_terminated (t : CStr) : (holding t).terminated = decide (t ≠ []) := by
  rw [terminated, holding]
  split
  · next h => simp [h, fresh]
  · next h => simp [h]

end Dst

namespace Expansion

/-- The loop when `t` was put out and `p` is left. -/
def wrote (dstsz : Nat) (s : Sh (ShWorld ε)) (t p : CStr) : Expansion ε := ⟨dstsz, s, Dst.holding t, p⟩

variable {dstsz fuel : Nat} {s : Sh (ShWorld ε)} {t p q : CStr} {c : UInt8} {x y : Expansion ε}

theorem start_eq (dstsz : Nat) (s : Sh (ShWorld ε)) (p : CStr) :
    start dstsz s p = wrote dstsz s [] p := rfl

theorem wrote_turns : (wrote dstsz s t p).Turns ↔ p ≠ [] ∧ t.length + 1 < dstsz := by
  rw [Turns, wrote, Dst.holding_di]

/-- `OUT`, with room for a character. -/
theorem out_room (h : t.length + 1 < dstsz) (c : UInt8) :
    (wrote dstsz s t p).out c =
      ⟨[.span (t.length + 1) dstsz, .span (t.length + 2) dstsz],
        .done (wrote dstsz s (t ++ [c]) p)⟩ := by
  have hdi : (Dst.holding t).di + 1 < dstsz := by rwa [Dst.holding_di]
  rw [out]
  refine (if_pos hdi).trans ?_
  simp only [wrote, Dst.holding_di, Dst.holding_put]

theorem out_comes (h : t.length + 1 < dstsz) (c : UInt8) :
    ((wrote dstsz s t p).out c).Comes Access.InBounds (wrote dstsz s (t ++ [c]) p) := by
  rw [out_room h]
  refine ⟨?_, rfl⟩
  intro e he
  rcases List.mem_pair.mp he with rfl | rfl
  · exact Nat.le_of_lt h
  · exact h

/-- `OUT(*src++)`, with room for a character. -/
theorem outNext_comes (h : t.length + 1 < dstsz) :
    (wrote dstsz s t (c :: p)).outNext.Comes Access.InBounds (wrote dstsz s (t ++ [c]) p) := by
  have hdi : (Dst.holding t).di + 1 < dstsz := by rwa [Dst.holding_di]
  have hout : (wrote dstsz s t (c :: p)).outNext = (wrote dstsz s t p).out c := if_pos hdi
  rw [hout]
  exact out_comes h c

/-- `OUT(*src++)`, without. -/
theorem outNext_full (h : ¬ t.length + 1 < dstsz) :
    (wrote dstsz s t (c :: p)).outNext = pure (wrote dstsz s t (c :: p)) := by
  have hdi : ¬ (Dst.holding t).di + 1 < dstsz := by rwa [Dst.holding_di]
  exact if_neg hdi

/-- `OUTS` puts out as much of the text as there is room for. -/
theorem outs_comes : ∀ (text t : CStr), (outs text (wrote dstsz s t p)).Comes Access.InBounds
    (wrote dstsz s (VnlKernel.outs dstsz t text) p)
  | [], t => by
      rw [VnlKernel.outs, List.take_nil, List.append_nil]
      exact .pure _
  | c :: text, t => by
      rw [outs, show (wrote dstsz s t p).dst.di = t.length from Dst.holding_di t,
        show (wrote dstsz s t p).dstsz = dstsz from rfl]
      split
      · next h =>
        have hroom : VnlKernel.outs dstsz t (c :: text) = VnlKernel.outs dstsz (t ++ [c]) text := by
          rw [VnlKernel.outs, VnlKernel.outs, List.length_append, List.length_singleton,
            show dstsz - 1 - t.length = dstsz - 1 - (t.length + 1)
              + 1 by omega, List.take_succ_cons,
            List.append_assoc, List.singleton_append]
        rw [hroom]
        exact (out_comes h c).bind (outs_comes text (t ++ [c]))
      · next h =>
        rw [VnlKernel.outs, show dstsz - 1 - t.length = 0 by omega, List.take_zero, List.append_nil]
        exact .pure _

/-! ## The loops inside quotes -/

/-- The loop inside single quotes ends if the text fits. -/
theorem squoteLoop_comes : ∀ {p t : CStr} {fuel : Nat},
    t.length + (p.takeWhile (· ≠ squote)).length < dstsz → p.length < fuel →
    (squoteLoop fuel (wrote dstsz s t p)).Comes Access.InBounds
      (wrote dstsz s (t ++ p.takeWhile (· ≠ squote)) (p.dropWhile (· ≠ squote)))
  | _, _, 0, _, hfuel => absurd hfuel (Nat.not_lt_zero _)
  | [], t, fuel + 1, _, _ => by
      rw [List.takeWhile_nil, List.append_nil]
      exact .pure _
  | c :: p, t, fuel + 1, hfit, hfuel => by
      rw [squoteLoop]
      dsimp only [wrote]
      by_cases hc : c = squote
      · rw [if_pos hc, List.takeWhile_cons_of_neg (by simp [hc]),
          List.dropWhile_cons_of_neg (by simp [hc]),
          List.append_nil]
        exact .pure _
      · rw [List.takeWhile_cons_of_pos (by simp [hc]), List.length_cons] at hfit
        rw [if_neg hc, List.takeWhile_cons_of_pos (by simp [hc]),
          List.dropWhile_cons_of_pos (by simp [hc]),
          List.append_cons]
        rw [List.length_cons] at hfuel
        exact (outNext_comes (by omega)).bind
          (squoteLoop_comes (by rw [List.length_append, List.length_singleton]; omega) (by omega))

variable (s) in
/-- It does not if the text does not. -/
theorem squoteLoop_stuck : ∀ {fuel : Nat} {p t : CStr}, t.length < dstsz →
    dstsz ≤ t.length + (p.takeWhile (· ≠ squote)).length →
    (squoteLoop fuel (wrote dstsz s t p)).out = .timeout
  | 0, _, _, _, _ => rfl
  | fuel + 1, [], t, ht, hfit => by
      rw [List.takeWhile_nil, List.length_nil] at hfit
      omega
  | fuel + 1, c :: p, t, ht, hfit => by
      have hc : c ≠ squote := by
        rintro rfl
        rw [List.takeWhile_cons_of_neg (by simp), List.length_nil] at hfit
        omega
      rw [squoteLoop]
      dsimp only [wrote]
      rw [if_neg hc, Logged.bind_out]
      by_cases hroom : t.length + 1 < dstsz
      · have hnext := (outNext_comes (s := s) (c := c) (p := p) hroom).2
        dsimp only [wrote] at hnext
        rw [hnext]
        rw [List.takeWhile_cons_of_pos (by simp [hc]), List.length_cons] at hfit
        exact squoteLoop_stuck (by rw [List.length_append, List.length_singleton]; omega)
          (by rw [List.length_append, List.length_singleton]; omega)
      · have hnext := outNext_full (s := s) (c := c) (p := p) hroom
        dsimp only [wrote] at hnext
        rw [hnext]
        -- the cursor has not moved
        exact squoteLoop_stuck ht hfit

/-- What the loop inside double quotes comes to. -/
def Leaves (dstsz : Nat) (s : Sh (ShWorld ε)) (x : Logged Access (Expansion ε × Bool)) : Quoted → Prop
  | .closed t rest => ∃ q, x.Comes Access.InBounds (wrote dstsz s t q, false) ∧ q.drop 1 = rest
  | .special t rest => x.Comes Access.InBounds (wrote dstsz s t rest, true)
  | .stuck => x.out = .timeout

theorem Leaves.bind {z : Quoted} {a : Expansion ε} {m : Logged Access (Expansion ε)}
    {f : Expansion ε → Logged Access (Expansion ε × Bool)} (hm : m.Comes Access.InBounds a)
    (hf : Leaves dstsz s (f a) z) : Leaves dstsz s (m >>= f) z := by
  cases z with
  | closed t rest =>
      obtain ⟨q, h1, h2⟩ := hf
      exact ⟨q, hm.bind h1, h2⟩
  | special t rest => exact hm.bind hf
  | stuck =>
      have h : (f a).out = .timeout := hf
      rw [Leaves, Logged.bind_out, hm.2, Outcome.bind_done, h]

/-- A character that is not special, inside double quotes. -/
theorem dquoteLoop_plain (h1 : c ≠ dquote) (h2 : ¬ (c = dollarSign ∨ c = backquote))
    (h3 : ¬ (c = backslash ∧ p.head?.any escapable)) :
    dquoteLoop (fuel + 1) (wrote dstsz s t (c :: p)) =
      (wrote dstsz s t (c :: p)).outNext >>= fun x => dquoteLoop fuel x := by
  rw [dquoteLoop]
  dsimp only [wrote]
  rw [if_neg h1, if_neg h3, if_neg h2]

/-- An escape, inside double quotes. -/
theorem dquoteLoop_escape (hc : escapable c = true) :
    dquoteLoop (fuel + 1) (wrote dstsz s t (backslash :: c :: p)) =
      (wrote dstsz s t (c :: p)).outNext >>= fun x => dquoteLoop fuel x := by
  rw [dquoteLoop]
  dsimp only [wrote]
  rw [if_neg (by decide), if_pos ⟨rfl, by simpa using hc⟩]

/-- Without room such a character stays where it is. -/
theorem dquoteLoop_full (h1 : c ≠ dquote) (h2 : ¬ (c = dollarSign ∨ c = backquote))
    (h3 : ¬ (c = backslash ∧ p.head?.any escapable)) (hroom : ¬ t.length + 1 < dstsz) :
    ∀ fuel : Nat, (dquoteLoop fuel (wrote dstsz s t (c :: p))).out = .timeout
  | 0 => rfl
  | fuel + 1 => by
      rw [dquoteLoop_plain h1 h2 h3, outNext_full hroom, Logged.bind_out]
      exact dquoteLoop_full h1 h2 h3 hroom fuel

theorem escapable_iff : escapable c = true ↔ c = dquote ∨ c = backslash ∨ c = dollarSign
    ∨ c = backquote := by
  simp [escapable, or_assoc]

variable (dstsz s) in
/-- **The loop inside double quotes does what the text says.** -/
theorem dquoteLoop_leaves (p t : CStr) : ∀ {fuel : Nat}, p.length < fuel →
    Leaves dstsz s (dquoteLoop fuel (wrote dstsz s t p)) (expandQuoted dstsz t p) := by
  fun_induction expandQuoted dstsz t p with
  -- the text is over, or the quotes are
  | case1 t =>
      intro fuel hfuel
      obtain ⟨fuel, rfl⟩ := Nat.exists_eq_add_one_of_ne_zero (Nat.ne_zero_of_lt hfuel)
      exact ⟨[], .pure _, rfl⟩
  | case2 t p =>
      intro fuel hfuel
      obtain ⟨fuel, rfl⟩ := Nat.exists_eq_add_one_of_ne_zero (Nat.ne_zero_of_lt hfuel)
      exact ⟨dquote :: p, .pure _, rfl⟩
  -- a character that is special inside quotes is left to the caller
  | case3 t c p h1 h2 =>
      intro fuel hfuel
      obtain ⟨fuel, rfl⟩ := Nat.exists_eq_add_one_of_ne_zero (Nat.ne_zero_of_lt hfuel)
      have hc : ¬ (c = backslash ∧ p.head?.any escapable) := by
        intro h
        rw [h.1] at h2
        exact absurd h2 (by decide)
      rw [dquoteLoop]
      dsimp only [wrote]
      rw [if_neg h1, if_neg hc, if_pos h2]
      exact .pure _
  -- a backslash at the end stands for itself
  | case4 t hroom h1 h2 ih =>
      intro fuel hfuel
      obtain ⟨fuel, rfl⟩ := Nat.exists_eq_add_one_of_ne_zero (Nat.ne_zero_of_lt hfuel)
      rw [dquoteLoop_plain h1 h2 (by simp)]
      exact .bind (outNext_comes hroom) (ih (Nat.lt_of_succ_lt_succ hfuel))
  | case5 t hroom h1 h2 =>
      intro fuel _
      exact dquoteLoop_full h1 h2 (by simp) hroom fuel
  -- an escape drops its backslash; without room it is passed over
  | case6 t d q hd hroom h1 h2 ih =>
      intro fuel hfuel
      obtain ⟨fuel, rfl⟩ := Nat.exists_eq_add_one_of_ne_zero (Nat.ne_zero_of_lt hfuel)
      rw [dquoteLoop_escape (escapable_iff.mpr hd)]
      exact .bind (outNext_comes hroom) (ih (Nat.lt_of_succ_lt (Nat.lt_of_succ_lt_succ hfuel)))
  | case7 t d q hd hroom h1 h2 ih =>
      intro fuel hfuel
      obtain ⟨fuel, rfl⟩ := Nat.exists_eq_add_one_of_ne_zero (Nat.ne_zero_of_lt hfuel)
      rw [dquoteLoop_escape (escapable_iff.mpr hd), outNext_full hroom]
      exact .bind (.pure _) (ih (Nat.lt_of_succ_lt_succ hfuel))
  -- a backslash before anything else stays
  | case8 t d q hd hroom h1 h2 ih =>
      intro fuel hfuel
      obtain ⟨fuel, rfl⟩ := Nat.exists_eq_add_one_of_ne_zero (Nat.ne_zero_of_lt hfuel)
      rw [dquoteLoop_plain h1 h2 (by simpa [escapable_iff] using hd)]
      exact .bind (outNext_comes hroom) (ih (Nat.lt_of_succ_lt_succ hfuel))
  | case9 t d q hd hroom h1 h2 =>
      intro fuel _
      exact dquoteLoop_full h1 h2 (by simpa [escapable_iff] using hd) hroom fuel
  -- any other character, of which there may be no room for one more
  | case10 t c p h1 h2 h3 hroom ih =>
      intro fuel hfuel
      obtain ⟨fuel, rfl⟩ := Nat.exists_eq_add_one_of_ne_zero (Nat.ne_zero_of_lt hfuel)
      rw [dquoteLoop_plain h1 h2 (fun h => h3 h.1)]
      exact .bind (outNext_comes hroom) (ih (Nat.lt_of_succ_lt_succ hfuel))
  | case11 t c p h1 h2 h3 hroom =>
      intro fuel _
      exact dquoteLoop_full h1 h2 (fun h => h3 h.1) hroom fuel

/-- Does a text inside double quotes fit into `room` bytes, up to its end or the first character
that is handled outside? An escape that there is no room for is dropped without its backslash. -/
def dquoteFits : Nat → CStr → Bool
  | _, [] => true
  | room, [c] => c = dquote || c = dollarSign || c = backquote || 0 < room
  | room, c :: d :: q =>
      if c = dquote || c = dollarSign || c = backquote then true
      else if c = backslash && escapable d then
        if room = 0 then dquoteFits 0 (d :: q) else dquoteFits (room - 1) q
      else 0 < room && dquoteFits (room - 1) (d :: q)

theorem dquoteFits_ends {room : Nat} (h : c = dquote ∨ c = dollarSign ∨ c = backquote) :
    dquoteFits room (c :: p) = true := by
  have hc : (c = dquote || c = dollarSign || c = backquote) = true := by simpa [or_assoc] using h
  cases p with
  | nil => rw [dquoteFits, hc, Bool.true_or]
  | cons d q => rw [dquoteFits, if_pos hc]

theorem dquoteFits_escape {room : Nat} (hc : escapable c = true) :
    dquoteFits room (backslash :: c :: p)
      = if room = 0 then dquoteFits 0 (c :: p) else dquoteFits (room - 1) p := by
  rw [dquoteFits, if_neg (by decide), if_pos (by simpa using hc)]

theorem dquoteFits_plain {room : Nat} (h1 : c ≠ dquote) (h2 : ¬ (c = dollarSign ∨ c = backquote))
    (h3 : ¬ (c = backslash ∧ p.head?.any escapable)) :
    dquoteFits room (c :: p) = (decide (0 < room) && dquoteFits (room - 1) p) := by
  have hc : (c = dquote || c = dollarSign || c = backquote) = false := by
    rw [not_or] at h2
    simp [h1, h2]
  cases p with
  | nil => simp only [dquoteFits, hc, Bool.false_or, Bool.and_true]
  | cons d q => rw [dquoteFits, if_neg (by simp [hc]), if_neg (by simpa using h3)]

theorem dquoteFits_iff (dstsz : Nat) (t p : CStr) :
    dquoteFits (dstsz - 1 - t.length) p = true ↔ expandQuoted dstsz t p ≠ .stuck := by
  have hgrow : ∀ (t : CStr) (c : UInt8),
      dstsz - 1 - (t ++ [c]).length = dstsz - 1 - t.length - 1 := by
    intro t c
    rw [List.length_append, List.length_singleton]
    omega
  fun_induction expandQuoted dstsz t p with
  | case1 t => simp [dquoteFits]
  | case2 t p => simp [dquoteFits_ends]
  | case3 t c p h1 h2 => simp [dquoteFits_ends (.inr h2)]
  | case4 t hroom h1 h2 ih =>
      rw [dquoteFits_plain h1 h2 (by simp), decide_eq_true (by omega), Bool.true_and, ← hgrow]
      exact ih
  | case5 t hroom h1 h2 =>
      rw [dquoteFits_plain h1 h2 (by simp), decide_eq_false (by omega)]
      simp
  | case6 t d q hd hroom h1 h2 ih =>
      rw [dquoteFits_escape (escapable_iff.mpr hd), if_neg (by omega), ← hgrow]
      exact ih
  | case7 t d q hd hroom h1 h2 ih =>
      rw [show dstsz - 1 - t.length = 0 by omega] at ih ⊢
      rw [dquoteFits_escape (escapable_iff.mpr hd), if_pos rfl]
      exact ih
  | case8 t d q hd hroom h1 h2 ih =>
      rw [dquoteFits_plain h1 h2 (by simpa [escapable_iff] using hd), decide_eq_true (by omega),
        Bool.true_and,
        ← hgrow]
      exact ih
  | case9 t d q hd hroom h1 h2 =>
      rw [dquoteFits_plain h1 h2 (by simpa [escapable_iff] using hd), decide_eq_false (by omega)]
      simp
  | case10 t c p h1 h2 h3 hroom ih =>
      rw [dquoteFits_plain h1 h2 (fun h => h3 h.1), decide_eq_true (by omega), Bool.true_and,
        ← hgrow]
      exact ih
  | case11 t c p h1 h2 h3 hroom =>
      rw [dquoteFits_plain h1 h2 (fun h => h3 h.1), decide_eq_false (by omega)]
      simp

/-! ## What is neither quoted nor escaped -/

section Special

variable (env : ShEnv ε) (exec : Command ε)
  (expand expand' : Sh (ShWorld ε) → CStr → Logged Access (Sh (ShWorld ε) × CStr))

/-- What the text begins with stands for, and the text behind it. -/
def stands (s : Sh (ShWorld ε)) : CStr → Logged Access (Sh (ShWorld ε) × CStr × CStr)
  | [] => pure (s, [], [])
  | c :: p =>
      if c = dollarSign then dollar env exec expand s p
      else if c = backquote then do
        let n := (p.takeWhile (· ≠ backquote)).length
        let cmd ← copyOut shLineMax p (clip shLineMax n)
        let r ← Logged.lift (substitute .tick exec s cmd)
        pure (r.1, r.2, p.drop (n + 1))
      else pure (s, [c], p)

/-- The default that is expanded for what stands behind `${`. -/
def braceDflt (s : Sh (ShWorld ε)) (p : CStr) : Option CStr :=
  let vname := (p.takeWhile fun c => !endsBraceName c).take (shVarNamsz - 1)
  let p := p.drop vname.length
  if p.head? = some hash then none
  else if startsWith [colon, 0x2D] p then
    match varGet s.world.vars vname with
    | some (_ :: _) => none
    | _ => some (((p.drop 2).takeWhile (· ≠ braceClose)).take (shVarValsz - 1))
  else none

/-- The default that is expanded for what the text begins with. -/
def specialDflt (s : Sh (ShWorld ε)) : CStr → Option CStr
  | [] => none
  | c :: p => if c = dollarSign ∧ startsWith [braceOpen] p then braceDflt s (p.drop 1) else none

/-- Behind `$((` are two characters, behind `$(` is one. -/
def LongEnough (p : CStr) : Prop :=
  (startsWith [dollarSign, parenOpen, parenOpen] p = true → 5 ≤ p.length) ∧
    (startsWith [dollarSign, parenOpen] p = true → 3 ≤ p.length)

variable {env exec expand expand'}

theorem special_eq (h : ∀ c, p.head? = some c → c = dollarSign ∨ c = backquote
    ∨ t.length + 1 < dstsz) :
    special env exec expand (wrote dstsz s t p) =
      stands env exec expand s p >>= fun r => outs r.2.1 (wrote dstsz r.1 t r.2.2) := by
  cases p with
  | nil => rfl
  | cons c p =>
      rw [special, stands]
      dsimp only [wrote]
      by_cases h1 : c = dollarSign
      · rw [if_pos h1, if_pos h1]
      · rw [if_neg h1, if_neg h1]
        by_cases h2 : c = backquote
        · simp only [if_pos h2, Logged.bind_assoc, Logged.pure_bind]
        · have hroom := ((h c rfl).resolve_left h1).resolve_left h2
          simp only [if_neg h2, Logged.pure_bind]
          have hdi : (Dst.holding t).di + 1 < dstsz := by rwa [Dst.holding_di]
          have hnext : (wrote dstsz s t (c :: p)).outNext = (wrote dstsz s t p).out c := if_pos hdi
          have houts : outs [c] (wrote dstsz s t p) = (wrote dstsz s t p).out c >>= fun x =>
            pure x := if_pos hdi
          change (wrote dstsz s t (c :: p)).outNext = outs [c] (wrote dstsz s t p)
          rw [hnext, houts, out_room hroom, Logged.bind_of_done rfl]
          rfl

theorem clip_nat (cap n : Nat) : clip cap n = min n (cap - 1) := by
  rw [clip, if_neg (by omega), Int.toNat_natCast]

theorem clip_neg (cap : Nat) {i : Int} (h : i < 0) : clip cap i = cap - 1 := by
  rw [clip, if_pos h]

/-- A copy of what stands up to a character stays inside both arrays. -/
theorem copyOut_span (cap : Nat) (hcap : 0 < cap) (f : UInt8 → Bool) (start : CStr) :
    (copyOut cap start (clip cap (start.takeWhile f).length)).Comes Access.InBounds
      ((start.takeWhile f).take (cap - 1)) := by
  have hle := (List.takeWhile_sublist f (l := start)).length_le
  rw [clip_nat]
  refine ⟨?_, ?_⟩
  · intro e he
    rcases List.mem_pair.mp he with rfl | rfl
    · change min _ _ ≤ start.length + 1
      omega
    · change min _ _ + 1 ≤ cap
      omega
  · change Outcome.done (start.take _) = _
    rw [Nat.min_comm, ← List.take_take, ← List.prefix_iff_eq_take.mp (List.takeWhile_prefix f)]

theorem parenSpan_le : ∀ (d : Nat) (p : CStr), parenSpan d p ≤ p.length
  | 0, p => by
      rw [parenSpan]
      exact Nat.zero_le _
  | d + 1, [] => by rw [parenSpan, List.length_nil]
  | d + 1, c :: p => by
      rw [parenSpan, List.length_cons, Nat.add_le_add_iff_right]
      split_ifs
      · exact parenSpan_le _ p
      · exact parenSpan_le _ p
      · exact parenSpan_le _ p

/-- It takes a parenthesis for each that is open. -/
theorem parenSpan_ge : ∀ (d : Nat) (p : CStr), min d p.length ≤ parenSpan d p
  | 0, p => by omega
  | d + 1, [] => by rw [List.length_nil, Nat.min_zero]; exact Nat.zero_le _
  | d + 1, c :: p => by
      rw [parenSpan, List.length_cons, Nat.succ_min_succ]
      refine Nat.succ_le_succ ?_
      split_ifs
      · exact Nat.le_trans (by omega) (parenSpan_ge (d + 2) p)
      · exact parenSpan_ge d p
      · exact Nat.le_trans (by omega) (parenSpan_ge (d + 1) p)

/-- What `k` closing parentheses leave of the text up to the last of them is copied. -/
theorem copyOut_parens (cap : Nat) {k : Nat} (hcap : 0 < cap) (p : CStr) (hk : k ≤ p.length) :
    (copyOut cap p (clip cap ((parenSpan k p : Int) - k))).Comes Access.InBounds
      (((p.take (parenSpan k p)).take ((p.take (parenSpan k p)).length - k)).take (cap - 1)) := by
  have hle := parenSpan_le k p
  have hge : k ≤ parenSpan k p := by
    have := parenSpan_ge k p
    omega
  rw [show ((parenSpan k p : Int) - k) = ((parenSpan k p - k : Nat) : Int) by omega, clip_nat]
  refine ⟨?_, ?_⟩
  · intro e he
    rcases List.mem_pair.mp he with rfl | rfl
    · change min _ _ ≤ p.length + 1
      omega
    · change min _ _ + 1 ≤ cap
      omega
  · change Outcome.done (p.take _) = _
    have hlen : min (parenSpan k p) p.length = parenSpan k p := by omega
    rw [List.take_take, List.take_take, List.length_take, hlen]
    congr 2
    omega

/-- With fewer characters than parentheses the copy reads past the NUL. -/
theorem copyOut_short (cap k : Nat) (p : CStr) (hk : p.length < k) (hcap : k + 1 < cap) :
    Access.span (cap - 1) (p.length + 1) ∈
      (copyOut cap p (clip cap ((parenSpan k p : Int) - k))).log ∧
      (copyOut cap p (clip cap ((parenSpan k p : Int) - k))).out = .done p := by
  have hle := parenSpan_le k p
  rw [clip_neg cap (by omega)]
  refine ⟨List.mem_cons_self, ?_⟩
  change Outcome.done (p.take _) = _
  rw [List.take_of_length_le (by omega)]

theorem copyOut_arith (p : CStr) :
    (copyOut shArithMax p (clip shArithMax ((parenSpan 2 p : Int) - 2))).out
      = .done (arithText p) := by
  by_cases hp : 2 ≤ p.length
  · have hge : 2 ≤ (p.take (parenSpan 2 p)).length := by
      have h1 := parenSpan_ge 2 p
      rw [List.length_take]
      omega
    have h := (copyOut_parens shArithMax (by decide) p hp).2
    simp only [arithText, if_neg (Nat.not_lt_of_le hge)]
    exact h
  · have hspan : parenSpan 2 p = p.length := by
      have h1 := parenSpan_ge 2 p
      have h2 := parenSpan_le 2 p
      omega
    have h := (copyOut_short shArithMax 2 p (by omega) (by decide)).2
    have hcap : p.length ≤ shArithMax - 1 := by
      rw [shArithMax]
      omega
    have harith : arithText p = p := by
      simp only [arithText, hspan, List.take_length, if_pos (Nat.lt_of_not_le hp),
        List.take_of_length_le hcap]
    rw [harith]
    exact h

theorem copyOut_command (p : CStr) :
    (copyOut shLineMax p (clip shLineMax ((parenSpan 1 p : Int) - 1))).out
      = .done (commandText p) := by
  cases p with
  | nil => exact (copyOut_short shLineMax 1 [] (by decide) (by decide)).2
  | cons c p => exact (copyOut_parens shLineMax (by decide) (c :: p) (by simp)).2

theorem skipBrace_le (p : CStr) : (skipBrace p).length ≤ p.length := by
  rw [skipBrace, List.length_drop]
  have := (List.dropWhile_sublist (fun c => decide (c ≠ braceClose)) (l := p)).length_le
  omega

/-- A default is copied and expanded. -/
theorem brace_some {d : CStr} (h : braceDflt s p = some d) : ∃ log rest, (∀ e ∈ log, e.InBounds) ∧
    d.length < p.length ∧ rest.length ≤ p.length ∧ ∀ expand, brace expand s p =
      (⟨log, .done ()⟩ : Logged Access Unit) >>= fun _ => expand s d >>= fun r =>
        pure (r.1, r.2, rest) := by
  simp only [braceDflt] at h
  simp only [brace]
  generalize (p.takeWhile fun c => !endsBraceName c).take (shVarNamsz - 1) = vname at *
  have hq : (p.drop vname.length).length ≤ p.length := by
    rw [List.length_drop]
    omega
  generalize p.drop vname.length = q at *
  split at h
  · cases h
  · next hhash =>
    split at h
    · next hminus =>
      simp only [if_neg hhash, if_pos hminus]
      obtain ⟨start, rfl⟩ := startsWith_iff.mp hminus
      have hcopy := copyOut_span shVarValsz (by decide) (fun c => decide (c ≠ braceClose)) start
      have hrest := skipBrace_le ([colon, 0x2D] ++ start)
      -- no value, or an empty one: the default is what stands up to the brace
      have hd : d = (start.takeWhile fun c => decide (c ≠ braceClose)).take (shVarValsz - 1) := by
        cases hv : varGet s.world.vars vname with
        | none => rw [hv] at h; exact (Option.some.inj h).symm
        | some v =>
            rw [hv] at h
            cases v with
            | nil => exact (Option.some.inj h).symm
            | cons c t => cases h
      have hlen : d.length ≤ start.length := by
        rw [hd, List.length_take]
        have := (List.takeWhile_sublist (fun c => decide (c ≠ braceClose)) (l := start)).length_le
        omega
      rw [List.length_append] at hq
      refine ⟨_, skipBrace ([colon, 0x2D] ++ start), hcopy.1, ?_, hrest.trans ?_, ?_⟩
      · change 2 + start.length ≤ _ at hq
        omega
      · rw [List.length_append]
        exact hq
      · intro expand
        -- the copy is in bounds whatever is done with it
        have hpart : ∀ f : CStr → Logged Access (Sh (ShWorld ε) × CStr × CStr), _ :=
          fun f => Logged.bind_of_done' hcopy.2 f
        rw [← hd] at hpart
        cases hv : varGet s.world.vars vname with
        | none => exact hpart _
        | some v =>
            cases v with
            | nil => exact hpart _
            | cons c t =>
                rw [hv] at h
                cases h
    · cases h

/-- Everything else is what it is, whatever is done with defaults. -/
theorem brace_none (h : braceDflt s p = none) : ∃ text rest, rest.length ≤ p.length ∧
    ∀ expand, brace expand s p = pure (s, text, rest) := by
  simp only [braceDflt] at h
  simp only [brace]
  generalize (p.takeWhile fun c => !endsBraceName c).take (shVarNamsz - 1) = vname at *
  have hq : (p.drop vname.length).length ≤ p.length := by
    rw [List.length_drop]
    omega
  generalize p.drop vname.length = q at *
  split at h
  · next hhash =>
    simp only [if_pos hhash]
    exact ⟨_, _, (skipBrace_le q).trans hq, fun _ => rfl⟩
  · next hhash =>
    split at h
    · next hminus =>
      simp only [if_neg hhash, if_pos hminus]
      cases hv : varGet s.world.vars vname with
      | none =>
          rw [hv] at h
          cases h
      | some v =>
          rw [hv] at h
          cases v with
          | nil => cases h
          | cons c t => exact ⟨_, _, (skipBrace_le q).trans hq, fun _ => rfl⟩
    · next hminus =>
      simp only [if_neg hhash, if_neg hminus]
      refine ⟨_, _, ?_, fun _ => rfl⟩
      split
      · rw [List.length_drop]
        omega
      · exact hq

/-- Nothing that `expand` does matters for the forms without parentheses and braces. -/
theorem expandDollar_plain (env : ShEnv ε) (exec : Command ε)
    (h1 : startsWith [parenOpen] p = false)
    (h2 : startsWith [braceOpen] p = false) :
    ∃ text rest, rest.length ≤ p.length ∧ ∀ e,
      expandDollar env exec e s p = .done (s, text, rest) := by
  have h0 : startsWith [parenOpen, parenOpen] p = false := by
    cases p with
    | nil => rfl
    | cons c q => simp_all [startsWith, List.isPrefixOf]
  simp only [expandDollar.eq_def, h0]
  cases p with
  | nil => exact ⟨_, _, Nat.le_refl _, fun _ => rfl⟩
  | cons c q =>
      have hc1 : c ≠ parenOpen := by
        rintro rfl
        exact absurd h1 (by simp [startsWith, List.isPrefixOf])
      have hc2 : c ≠ braceOpen := by
        rintro rfl
        exact absurd h2 (by simp [startsWith, List.isPrefixOf])
      have hq : q.length ≤ (c :: q).length := Nat.le_succ _
      have hdrop : ∀ n, ((c :: q).drop n).length ≤ (c :: q).length := by
        intro n
        rw [List.length_drop]
        omega
      simp only [Bool.false_eq_true, if_false, if_neg hc1, if_neg hc2]
      split_ifs
      all_goals first | exact ⟨_, _, hq, fun _ => rfl⟩ | exact ⟨_, _, hdrop _, fun _ => rfl⟩

theorem startsWith_cons (c : UInt8) (l p : CStr) :
    startsWith (c :: l) (c :: p) = startsWith l p := by
  simp [startsWith, List.isPrefixOf]

theorem startsWith_one {c : UInt8} {p : CStr} : startsWith [c] p = true ↔ ∃ q, p = c :: q := by
  rw [startsWith_iff]
  constructor
  · intro h
    obtain ⟨q, rfl⟩ := h
    exact ⟨q, rfl⟩
  · intro h
    obtain ⟨q, rfl⟩ := h
    exact List.prefix_append [c] q

/-- A default is shorter than the text it stands in. -/
theorem specialDflt_shorter {d : CStr} (h : specialDflt s p = some d) : d.length < p.length := by
  cases p with
  | nil => cases h
  | cons c p =>
      rw [specialDflt] at h
      split at h
      · obtain ⟨_, _, _, h2, _⟩ := brace_some h
        rw [List.length_drop] at h2
        rw [List.length_cons]
        omega
      · cases h

variable (env exec) in
/-- A default that is used is copied and expanded. -/
theorem stands_some {d : CStr} (h : specialDflt s p = some d) :
    ∃ log rest, (∀ e ∈ log, e.InBounds) ∧
    rest.length < p.length ∧ ∀ expand, stands env exec expand s p =
      (⟨log, .done ()⟩ : Logged Access Unit) >>= fun _ => expand s d >>= fun r =>
        pure (r.1, r.2, rest) := by
  cases p with
  | nil => cases h
  | cons c p =>
      rw [specialDflt] at h
      split at h
      · next hc =>
        obtain ⟨rfl, hb⟩ := hc
        obtain ⟨q, rfl⟩ := startsWith_one.mp hb
        obtain ⟨log, rest, h1, h2, h3, h4⟩ := brace_some h
        rw [List.drop_one, List.tail_cons] at h3 h4
        refine ⟨log, rest, h1, ?_, ?_⟩
        · rw [List.length_cons, List.length_cons]
          omega
        · intro expand
          rw [stands, if_pos rfl, dollar,
            if_neg (by simp [startsWith, List.isPrefixOf, parenOpen, braceOpen]),
            if_neg (by simp [startsWith, List.isPrefixOf, parenOpen, braceOpen]), if_pos hb]
          exact h4 expand
      · cases h

/-- Everything else is what it is, whatever is done with defaults. -/
theorem stands_none (h : specialDflt s p = none) (expand expand') :
    stands env exec expand s p = stands env exec expand' s p := by
  cases p with
  | nil => rfl
  | cons c p =>
      rw [specialDflt] at h
      rw [stands, stands]
      split
      · next hc =>
        rw [dollar, dollar]
        split_ifs with h1 h2 h3
        · rfl
        · rfl
        · rw [if_pos ⟨hc, h3⟩] at h
          obtain ⟨text, rest, _, h5⟩ := brace_none h
          rw [h5, h5]
        · rfl
      · rfl

/-- The text behind is shorter. -/
theorem stands_rest {r : Sh (ShWorld ε) × CStr × CStr} (hp : p ≠ [])
    (h : (stands env exec expand s p).out = .done r) : r.2.2.length < p.length := by
  cases p with
  | nil => exact absurd rfl hp
  | cons c p =>
      cases hd : specialDflt s (c :: p) with
      | some d =>
          -- a default: the text behind its brace is left
          obtain ⟨log, rest, _, h3, h4⟩ := stands_some env exec hd
          rw [h4] at h
          simp only [Logged.bind_out, Outcome.bind_done] at h
          obtain ⟨a, _, hr⟩ := Outcome.bind_eq_done h
          cases hr
          exact h3
      | none =>
          rw [List.length_cons, Nat.lt_succ_iff]
          have hdrop : ∀ (n : Nat) (q : CStr), q.length ≤ p.length
              → (q.drop n).length ≤ p.length := by
            intro n q hq
            rw [List.length_drop]
            omega
          rw [stands] at h
          split at h
          · next hc =>
            -- arithmetic, a command, a name in braces, or a plain one
            rw [dollar] at h
            split_ifs at h with h1 h2 h3
            · simp only [Logged.bind_out] at h
              obtain ⟨a, _, hr⟩ := Outcome.bind_eq_done h
              cases hr
              exact hdrop _ _ (hdrop _ _ (Nat.le_refl _))
            · simp only [Logged.bind_out] at h
              obtain ⟨a, _, hr⟩ := Outcome.bind_eq_done h
              obtain ⟨b, _, hr⟩ := Outcome.bind_eq_done hr
              cases hr
              exact hdrop _ _ (hdrop _ _ (Nat.le_refl _))
            · rw [specialDflt, if_pos ⟨hc, h3⟩] at hd
              obtain ⟨text, rest, h4, h5⟩ := brace_none hd
              rw [h5] at h
              cases h
              exact h4.trans (hdrop _ _ (Nat.le_refl _))
            · obtain ⟨text, rest, h4, h5⟩ := expandDollar_plain (s := s) env exec
                (Bool.eq_false_iff.mpr h2) (Bool.eq_false_iff.mpr h3)
              rw [h5] at h
              cases h
              exact h4
          · split at h
            · simp only [Logged.bind_out] at h
              obtain ⟨a, _, hr⟩ := Outcome.bind_eq_done h
              obtain ⟨b, _, hr⟩ := Outcome.bind_eq_done hr
              cases hr
              exact hdrop _ _ (Nat.le_refl _)
            · cases h
              exact Nat.le_refl _

/-- `substitute` returns if the command does. -/
theorem substitute_returns (hexec : ∀ s c, ∃ r, exec s c = .done r) (b : OutBuf)
    (s : Sh (ShWorld ε))
    (cmd : CStr) : ∃ r, substitute b exec s cmd = .done r := by
  obtain ⟨r, hr⟩ := hexec (s.setKout (s.kout.redirect b)) cmd
  rw [substitute, capture, hr]
  exact ⟨_, rfl⟩

variable (env) in
theorem stands_returns (hexec : ∀ s c, ∃ r, exec s c = .done r) (h : specialDflt s p = none) :
    ∃ r, (stands env exec expand s p).out = .done r := by
  cases p with
  | nil => exact ⟨_, rfl⟩
  | cons c p =>
      rw [stands]
      split
      · next hc =>
        rw [dollar]
        split_ifs with h1 h2 h3
        · exact ⟨_, rfl⟩
        · obtain ⟨r, hr⟩ := substitute_returns hexec .dollar s
            ((p.drop 1).take (clip shLineMax ((parenSpan 1 (p.drop 1) : Int) - 1)))
          refine ⟨(r.1, r.2, (p.drop 1).drop (parenSpan 1 (p.drop 1))), ?_⟩
          simp only [Logged.bind_out, copyOut, Outcome.bind_done, Logged.lift_out, hr,
            Logged.pure_out]
        · rw [specialDflt, if_pos ⟨hc, h3⟩] at h
          obtain ⟨text, rest, _, h5⟩ := brace_none h
          rw [h5]
          exact ⟨_, rfl⟩
        · obtain ⟨text, rest, _, h5⟩ := expandDollar_plain (s := s) env exec
            (Bool.eq_false_iff.mpr h2) (Bool.eq_false_iff.mpr h3)
          rw [h5]
          exact ⟨_, rfl⟩
      · split
        · obtain ⟨r, hr⟩ := substitute_returns hexec .tick s
            (p.take (clip shLineMax (p.takeWhile fun c => decide (c ≠ backquote)).length))
          refine ⟨(r.1, r.2, p.drop ((p.takeWhile fun c => decide (c ≠ backquote)).length + 1)), ?_⟩
          simp only [Logged.bind_out, copyOut, Outcome.bind_done, Logged.lift_out, hr,
            Logged.pure_out]
        · exact ⟨_, rfl⟩

/-! ## More fuel -/

theorem squoteLoop_below : ∀ (fuel : Nat) (x : Expansion ε),
    (squoteLoop fuel x).Below (squoteLoop (fuel + 1) x)
  | 0, _ => .timeout _
  | fuel + 1, x => by
      rw [squoteLoop, squoteLoop]
      split
      · exact .refl _
      · split
        · exact .refl _
        · exact Logged.Below.bind (.refl _) fun y => squoteLoop_below fuel y

theorem dquoteLoop_below : ∀ (fuel : Nat) (x : Expansion ε),
    (dquoteLoop fuel x).Below (dquoteLoop (fuel + 1) x)
  | 0, _ => .timeout _
  | fuel + 1, x => by
      rw [dquoteLoop, dquoteLoop]
      split
      · exact .refl _
      · split_ifs
        · exact .refl _
        · exact Logged.Below.bind (.refl _) fun y => dquoteLoop_below fuel y
        · exact .refl _
        · exact Logged.Below.bind (.refl _) fun y => dquoteLoop_below fuel y

section Below

variable (hexpand : ∀ s d, (expand s d).Below (expand' s d))

include hexpand

variable (env exec) in
theorem stands_below (s : Sh (ShWorld ε)) (p : CStr) :
    (stands env exec expand s p).Below (stands env exec expand' s p) := by
  cases hd : specialDflt s p with
  | none =>
      rw [stands_none hd expand expand']
      exact .refl _
  | some d =>
      obtain ⟨log, rest, _, _, h⟩ := stands_some env exec hd
      rw [h, h]
      exact Logged.Below.bind (.refl _) fun _ => Logged.Below.bind (hexpand s d) fun _ => .refl _

theorem special_below (x : Expansion ε) : (special env exec expand x).Below
    (special env exec expand' x) := by
  rw [special, special]
  split
  · exact .refl _
  · next c p hsrc =>
    split
    · have h := stands_below env exec hexpand x.sh (dollarSign :: p)
      rw [stands, stands, if_pos rfl, if_pos rfl] at h
      exact Logged.Below.bind h fun _ => .refl _
    · exact .refl _

theorem turn_below (fuel : Nat) (x : Expansion ε) :
    (turn env exec expand fuel x).Below (turn env exec expand' (fuel + 1) x) := by
  rw [turn, turn]
  split
  · exact .refl _
  · split_ifs
    · exact .refl _
    · exact Logged.Below.bind (squoteLoop_below fuel _) fun _ => .refl _
    · refine Logged.Below.bind (dquoteLoop_below fuel _) fun r => ?_
      split
      · exact special_below hexpand _
      · exact .refl _
    · exact special_below hexpand x

end Below

end Special

/-- The call of `expand_word` for a default, and the string it leaves. -/
def expandDflt (env : ShEnv ε) (exec : Command ε) (junk : CStr) (fuel : Nat) (s : Sh (ShWorld ε)) (src : CStr) :
    Logged Access (Sh (ShWorld ε) × CStr) := do
  let y ← run env exec junk fuel (start shVarValsz s src)
  let text ← y.dst.read junk
  pure (y.sh, text)

variable {env : ShEnv ε} {exec : Command ε} {junk : CStr}

theorem run_succ (fuel : Nat) (x : Expansion ε) : run env exec junk (fuel + 1) x =
    if x.Turns then turn env exec (expandDflt env exec junk fuel) fuel x >>= fun y =>
      run env exec junk fuel y
    else pure x := rfl

theorem run_below : ∀ (fuel : Nat) (x : Expansion ε),
    (run env exec junk fuel x).Below (run env exec junk (fuel + 1) x)
  | 0, _ => .timeout _
  | fuel + 1, x => by
      rw [run_succ, run_succ]
      split
      · exact Logged.Below.bind (turn_below
          (fun s d => Logged.Below.bind (run_below fuel _) fun _ => .refl _) fuel x)
          fun y => run_below fuel y
      · exact .refl _

theorem expandDflt_below (fuel : Nat) (s : Sh (ShWorld ε)) (d : CStr) :
    (expandDflt env exec junk fuel s d).Below (expandDflt env exec junk (fuel + 1) s d) :=
  Logged.Below.bind (run_below fuel _) fun _ => .refl _

/-! ## One turn -/

/-- What quotes and escapes at the start of the text put out behind `t`, and the text behind them,
if the loop goes on there or at `handle_special`. -/
def lead (dstsz : Nat) (t : CStr) : CStr → Quoted
  | [] => .closed t []
  | c :: p =>
      if c = backslash then .closed (t ++ p.take 1) (p.drop 1)
      else if c = squote then
        let text := p.takeWhile (· ≠ squote)
        if dstsz ≤ t.length + text.length then .stuck else .closed (t ++ text) (p.drop (text.length + 1))
      else if c = dquote then expandQuoted dstsz t p
      else .special t (c :: p)

theorem drop_behind (f : UInt8 → Bool) (p : CStr) : (p.dropWhile f).drop 1
    = p.drop ((p.takeWhile f).length + 1) := by
  have h : p.dropWhile f = p.drop (p.takeWhile f).length :=
    calc p.dropWhile f = (p.takeWhile f ++ p.dropWhile f).drop (p.takeWhile f).length :=
        List.drop_left.symm
      _ = p.drop (p.takeWhile f).length := by rw [List.takeWhile_append_dropWhile]
  rw [h, List.drop_drop]

/-- What is put out is put out behind `t`, and the text gets shorter. -/
theorem lead_closed {t' : CStr} (h : lead dstsz t (c :: p) = .closed t' q) :
    t <+: t' ∧ q.length ≤ p.length := by
  rw [lead] at h
  split_ifs at h with h1 h2 h3
  · cases h
    exact ⟨List.prefix_append _ _, by rw [List.length_drop]; omega⟩
  · dsimp only at h
    split at h
    · cases h
    · cases h
      exact ⟨List.prefix_append _ _, by rw [List.length_drop]; omega⟩
  · have hfit := expandQuoted_fits dstsz t p
    rw [h] at hfit
    exact ⟨hfit.1, by have := hfit.1.length_le; have := hfit.2; omega⟩

theorem lead_special {t' : CStr} (h : lead dstsz t (c :: p) = .special t' q) : t <+: t' ∧ q ≠ [] ∧
    q.length ≤ p.length + 1 ∧ ∀ d, q.head? = some d → d = dollarSign ∨ d = backquote ∨ t' = t := by
  rw [lead] at h
  split_ifs at h with h1 h2 h3
  · dsimp only at h
    split at h <;> cases h
  · have hfit := expandQuoted_fits dstsz t p
    rw [h] at hfit
    obtain ⟨h4, h5, d, q, rfl, hd⟩ := hfit
    refine ⟨h4, by simp, ?_, ?_⟩
    · have := h4.length_le
      omega
    · intro e he
      cases he
      exact hd.elim .inl fun h => .inr (.inl h)
  · cases h
    exact ⟨List.prefix_rfl, by simp, Nat.le_refl _, fun _ _ => .inr (.inr rfl)⟩

variable (s env exec) in
/-- A turn that does not come to `handle_special`. -/
theorem turn_closed {t' : CStr} (hroom : t.length + 1 < dstsz)
    (h : lead dstsz t (c :: p) = .closed t' q)
    (expand) (hfuel : p.length < fuel) :
    (turn env exec expand fuel (wrote dstsz s t (c :: p))).Comes Access.InBounds
      (wrote dstsz s t' q) := by
  rw [lead] at h
  rw [turn]
  dsimp only [wrote]
  split_ifs at h with h1 h2 h3
  · rw [if_pos h1]
    cases h
    cases p with
    | nil =>
        rw [List.take_nil, List.append_nil]
        exact .pure _
    | cons d p => exact outNext_comes hroom
  · rw [if_neg h1, if_pos h2]
    dsimp only at h
    split at h
    · cases h
    · next hfit =>
      cases h
      have hloop := squoteLoop_comes (s := s) (Nat.lt_of_not_le hfit) hfuel
      rw [← drop_behind]
      exact hloop.bind (.pure _)
  · rw [if_neg h1, if_neg h2, if_pos h3]
    have hloop := dquoteLoop_leaves dstsz s p t hfuel
    rw [h] at hloop
    obtain ⟨q', hloop, rfl⟩ := hloop
    exact hloop.bind (.pure _)

variable (s env exec) in
/-- A turn that comes to `handle_special`. -/
theorem turn_special {t' : CStr} (hroom : t.length + 1 < dstsz)
    (h : lead dstsz t (c :: p) = .special t' q)
    (hfuel : p.length < fuel) : ∃ log : List Access, (∀ e ∈ log, e.InBounds) ∧ ∀ expand,
      turn env exec expand fuel (wrote dstsz s t (c :: p))
        = (⟨log, .done ()⟩ : Logged Access Unit) >>= fun _ =>
        stands env exec expand s q >>= fun r => outs r.2.1 (wrote dstsz r.1 t' r.2.2) := by
  have hhead : ∀ d, q.head? = some d → d = dollarSign ∨ d = backquote ∨ t'.length + 1 < dstsz := by
    intro d hd
    rcases (lead_special h).2.2.2 d hd with h | h | h
    · exact .inl h
    · exact .inr (.inl h)
    · rw [h]
      exact .inr (.inr hroom)
  rw [lead] at h
  split_ifs at h with h1 h2 h3
  · dsimp only at h
    split at h <;> cases h
  · have hloop := dquoteLoop_leaves dstsz s p t hfuel
    rw [h] at hloop
    refine ⟨_, hloop.1, fun expand => ?_⟩
    rw [turn]
    dsimp only [wrote]
    rw [if_neg h1, if_neg h2, if_pos h3]
    refine (Logged.bind_of_done' hloop.2 _).trans ?_
    rw [if_pos rfl]
    exact congrArg _ (funext fun _ => special_eq hhead)
  · cases h
    refine ⟨[], by simp, fun expand => ?_⟩
    rw [turn]
    dsimp only [wrote]
    rw [if_neg h1, if_neg h2, if_neg h3, Logged.bind_of_done rfl]
    exact special_eq hhead

/-- A turn that never ends. -/
theorem turn_stuck (hroom : t.length + 1 < dstsz) (h : lead dstsz t (c :: p) = .stuck) (expand)
    (fuel : Nat) :
    (turn env exec expand fuel (wrote dstsz s t (c :: p))).out = .timeout := by
  rw [lead] at h
  split_ifs at h with h1 h2 h3
  · dsimp only at h
    split at h
    · next hfit =>
      rw [turn]
      dsimp only [wrote]
      rw [if_neg h1, if_pos h2, Logged.bind_out]
      have hloop : (squoteLoop fuel (wrote dstsz s t p)).out = .timeout :=
        squoteLoop_stuck s (Nat.lt_of_succ_lt hroom) hfit
      rw [wrote] at hloop
      rw [hloop]
      rfl
    · cases h
  · -- with fuel enough the loop is seen to go round, and with less it has not ended either
    have hloop := dquoteLoop_leaves dstsz s p t
      (Nat.lt_succ_of_le (Nat.le_add_left p.length fuel))
    rw [h] at hloop
    have hbelow := Logged.Below.of_le (fun n => dquoteLoop_below n (wrote dstsz s t p))
      (Nat.le_trans (Nat.le_add_right fuel p.length) (Nat.le_succ _))
    rw [turn]
    dsimp only [wrote]
    rw [if_neg h1, if_neg h2, if_pos h3, Logged.bind_out]
    have hout : (dquoteLoop fuel (wrote dstsz s t p)).out = .timeout := by
      rcases hbelow with h | ⟨h, _⟩
      · rw [h]
        exact hloop
      · exact h
    rw [wrote] at hout
    rw [hout]
    rfl

end Expansion

end VnlKernel
