import VnlKernel.Proof.ShellReturns

/-!
# When `expand_word` is memory safe and leaves a string

The destination is written inside its bounds whatever happens. What can go wrong are the copies
behind `$((` and `$(`, whose lengths are differences that wrap around when the text ends at once,
and the NUL, which is written behind each character and not at the end. So a call that puts
nothing out leaves no string, and where that is the call for a default, `OUTS` reads an array
that nothing was written to.
-/

namespace VnlKernel

variable {ε : Type}

namespace Expansion

variable {dstsz fuel : Nat} {s : Sh (ShWorld ε)} {t p q : CStr} {c : UInt8} {x y z : Expansion ε}
  {env : ShEnv ε} {exec : Command ε} {junk : CStr}

/-! ## What a turn accesses -/

theorem outNext_keeps (p t : CStr) : (wrote dstsz s t p).outNext.Keeps Access.InBounds
    fun y => ∃ t' p', y = wrote dstsz s t' p' := by
  cases p with
  | nil => exact .pure ⟨_, _, rfl⟩
  | cons c p =>
      by_cases hroom : t.length + 1 < dstsz
      · exact (outNext_comes hroom).keeps ⟨_, _, rfl⟩
      · rw [outNext_full hroom]
        exact .pure ⟨_, _, rfl⟩

theorem squoteLoop_keeps (fuel : Nat) : ∀ p t : CStr,
    (squoteLoop fuel (wrote dstsz s t p)).Keeps Access.InBounds fun _ => True := by
  induction fuel with
  | zero => exact fun _ _ => .timeout
  | succ fuel ih =>
      intro p t
      rw [squoteLoop]
      split
      · exact .pure trivial
      · split
        · exact .pure trivial
        · refine (outNext_keeps p t).bind ?_
          rintro _ ⟨t', p', rfl⟩
          exact ih p' t'

theorem dquoteLoop_keeps (fuel : Nat) : ∀ p t : CStr,
    (dquoteLoop fuel (wrote dstsz s t p)).Keeps Access.InBounds fun _ => True := by
  induction fuel with
  | zero => exact fun _ _ => .timeout
  | succ fuel ih =>
      intro p t
      rw [dquoteLoop]
      split
      · exact .pure trivial
      · next c q _ =>
        split_ifs
        · exact .pure trivial
        · refine (outNext_keeps q t).bind ?_
          rintro _ ⟨t', p', rfl⟩
          exact ih p' t'
        · exact .pure trivial
        · refine (outNext_keeps p t).bind ?_
          rintro _ ⟨t', p', rfl⟩
          exact ih p' t'

theorem longEnough_arith : LongEnough (dollarSign :: parenOpen :: parenOpen :: p)
    ↔ 2 ≤ p.length := by
  simp [LongEnough, startsWith, List.isPrefixOf]

theorem longEnough_command (h : startsWith [parenOpen] p = false) :
    LongEnough (dollarSign :: parenOpen :: p) ↔ 1 ≤ p.length := by
  rw [LongEnough, startsWith_cons, startsWith_cons, startsWith_cons, startsWith_cons, h]
  simp [startsWith, List.isPrefixOf]

/-- The copies stay inside their arrays if the text is long enough. -/
theorem stands_keeps {expand} (hd : specialDflt s p = none) (hlong : LongEnough p) :
    (stands env exec expand s p).Keeps Access.InBounds fun _ => True := by
  cases p with
  | nil => exact .pure trivial
  | cons c p =>
      rw [stands]
      split
      · next hc =>
        subst hc
        rw [dollar]
        split_ifs with h1 h2 h3
        · obtain ⟨q, rfl⟩ := startsWith_iff.mp h1
          have hcopy := copyOut_parens shArithMax (by decide) q (longEnough_arith.mp hlong)
          exact hcopy.notes.bind fun _ _ => .pure trivial
        · obtain ⟨q, rfl⟩ := startsWith_one.mp h2
          rw [startsWith_cons] at h1
          have hcopy := copyOut_parens shLineMax (by decide) q
            ((longEnough_command (Bool.eq_false_iff.mpr h1)).mp hlong)
          refine hcopy.notes.bind fun cmd _ => ?_
          exact Logged.Keeps.bind (Q := fun _ => True) (.lift fun _ _ => trivial) fun _ _ =>
            .pure trivial
        · rw [specialDflt, if_pos ⟨rfl, h3⟩] at hd
          obtain ⟨text, rest, _, h5⟩ := brace_none hd
          rw [h5]
          exact .pure trivial
        · exact .lift fun _ _ => trivial
      · split
        · have hcopy := copyOut_span shLineMax (by decide) (fun c => decide (c ≠ backquote)) p
          refine hcopy.notes.bind fun cmd _ => ?_
          exact Logged.Keeps.bind (Q := fun _ => True) (.lift fun _ _ => trivial) fun _ _ =>
            .pure trivial
        · exact .pure trivial

variable (s env exec) in
/-- One of them does not if it is not. -/
theorem stands_overruns (expand) (hlong : ¬ LongEnough p) :
    ∃ e ∈ (stands env exec expand s p).log, ¬ e.InBounds := by
  have hcase : (∃ q, p = dollarSign :: parenOpen :: parenOpen :: q ∧ q.length < 2) ∨
      p = [dollarSign, parenOpen] := by
    by_contra h
    rw [not_or, not_exists] at h
    refine hlong ⟨fun h1 => ?_, fun h1 => ?_⟩
    · obtain ⟨q, rfl⟩ := startsWith_iff.mp h1
      have := h.1 q
      simp only [List.cons_append, List.nil_append, true_and, Nat.not_lt] at this
      simp only [List.length_append, List.length_cons, List.length_nil]
      omega
    · obtain ⟨q, rfl⟩ := startsWith_iff.mp h1
      cases q with
      | nil => exact absurd rfl h.2
      | cons d q => simp
  rcases hcase with ⟨q, rfl, hq⟩ | rfl
  · have hshort := (copyOut_short shArithMax 2 q hq (by decide)).1
    refine ⟨.span (shArithMax - 1) (q.length + 1), ?_,
      show ¬ shArithMax - 1 ≤ q.length + 1 by rw [shArithMax]; omega⟩
    rw [stands, if_pos rfl, dollar, if_pos (by simp [startsWith, List.isPrefixOf])]
    exact Logged.mem_bind.mpr (.inl hshort)
  · have hshort := (copyOut_short shLineMax 1 [] (by decide) (by decide)).1
    refine ⟨.span (shLineMax - 1) (0 + 1), ?_, by decide⟩
    rw [stands, if_pos rfl, dollar, if_neg (by decide), if_pos (by decide)]
    exact Logged.mem_bind.mpr (.inl hshort)

/-! ## What a run accesses -/

/-- Where the next turn comes to `handle_special`, the text there is long enough. -/
def LongSubst (x : Expansion ε) : Prop :=
  x.Turns → ∀ t q, lead x.dstsz x.text x.src = .special t q → LongEnough q

/-- What the text begins with stands for something. A default does: whether it comes to something is
a matter of the call that expands it. -/
def Stands (env : ShEnv ε) (exec : Command ε) (s : Sh (ShWorld ε)) (p : CStr) : Prop :=
  ∃ r, (stands env exec (fun s _ => pure (s, [space])) s p).out = .done r ∧ r.2.1 ≠ []

/-- The next turn puts something out. -/
def Puts (env : ShEnv ε) (exec : Command ε) (x : Expansion ε) : Prop :=
  x.Turns ∧
    match lead x.dstsz x.text x.src with
    | .closed t _ => t ≠ x.text
    | .special t q => t ≠ x.text ∨ Stands env exec x.sh q
    | .stuck => False

/-- If the loop comes to its end, one of its turns put something out. -/
def Yields (env : ShEnv ε) (exec : Command ε) (junk : CStr) (x : Expansion ε) : Prop :=
  ∀ z, Relation.ReflTransGen (Next env exec junk) x z → ¬ z.Turns →
    ∃ y, Relation.ReflTransGen (Next env exec junk) x y ∧ y.Puts env exec

/-- The calls of `expand_word`: the one looked at, and those made for defaults on the way. -/
def Begun (env : ShEnv ε) (exec : Command ε) (junk : CStr) (x y : Expansion ε) : Prop :=
  y = x ∨ ∃ w, Reached env exec junk x w ∧ Enters w y

/-- Accesses of what follows are accesses of the whole. -/
theorem mem_run_next {e : Access} (h : Next env exec junk x y) {n : Nat}
    (he : e ∈ (run env exec junk n y).log) :
    ∃ fuel, e ∈ (run env exec junk fuel x).log := by
  obtain ⟨hturns, m, hm⟩ := h
  have hturn := (Next.below env exec junk x (Nat.le_max_right n m)).done hm
  refine ⟨max n m + 1, ?_⟩
  rw [run_succ, if_pos hturns]
  rw [hturn] at hm
  exact Logged.mem_bind.mpr (.inr ⟨y, hm, (run_more y (Nat.le_max_left n m)).mem he⟩)

/-- What is accessed where the text comes to `handle_special` is accessed in the turn. -/
theorem mem_run_special {e : Access} (hx : x.Formed) (hturns : x.Turns) {t' : CStr}
    (hl : lead x.dstsz x.text x.src = .special t' q) {n : Nat}
    (he : e ∈ (stands env exec (expandDflt env exec junk n) x.sh q).log) :
    ∃ fuel, e ∈ (run env exec junk fuel x).log := by
  obtain ⟨c, p, hroom, heq⟩ := hx.turns hturns
  rw [show x.src = c :: p from congrArg Expansion.src heq] at hl
  have hmore := Logged.Below.of_le (x := fun n =>
    stands env exec (expandDflt env exec junk n) x.sh q)
    (fun n => stands_below env exec (expandDflt_below n) x.sh q) (Nat.le_add_right n (p.length + 1))
  obtain ⟨log, _, hturn⟩ := turn_special x.sh env exec hroom hl
    (show p.length < n + (p.length + 1) by omega)
  refine ⟨n + (p.length + 1) + 1, ?_⟩
  rw [run_succ, if_pos hturns]
  refine Logged.mem_bind.mpr (.inl ?_)
  have h := hturn (expandDflt env exec junk (n + (p.length + 1)))
  rw [← heq] at h
  rw [h]
  exact Logged.mem_bind.mpr (.inr ⟨(), rfl, Logged.mem_bind.mpr (.inl (hmore.mem he))⟩)

/-- The call for a default is made in the turn, and its destination is read. -/
theorem mem_run_enters {e : Access} (hx : x.Formed) (h : Enters x y) {n : Nat}
    (he : e ∈ (run env exec junk n y).log ∨ ∃ z,
      (run env exec junk n y).out = .done z ∧ e = .str z.dst.terminated) :
    ∃ fuel, e ∈ (run env exec junk fuel x).log := by
  obtain ⟨hturns, d, hd, rfl⟩ := h
  rw [dflt?] at hd
  cases hl : lead x.dstsz x.text x.src with
  | closed t' q => rw [hl] at hd; cases hd
  | stuck => rw [hl] at hd; cases hd
  | special t' q =>
      rw [hl] at hd
      obtain ⟨log, rest, _, _, hform⟩ := stands_some env exec hd
      refine mem_run_special hx hturns hl (n := n) ?_
      rw [hform]
      refine Logged.mem_bind.mpr (.inr ⟨(), rfl, Logged.mem_bind.mpr (.inl ?_)⟩)
      rcases he with he | ⟨z, hz, rfl⟩
      · exact Logged.mem_bind.mpr (.inl he)
      · exact Logged.mem_bind.mpr (.inr ⟨z, hz, Logged.mem_bind.mpr (.inl List.mem_cons_self)⟩)

theorem mem_run_reached {e : Access} (hx : x.Formed) (h : Reached env exec junk x y) {n : Nat}
    (he : e ∈ (run env exec junk n y).log) : ∃ fuel, e ∈ (run env exec junk fuel x).log := by
  induction h using Relation.ReflTransGen.head_induction_on with
  | refl => exact ⟨n, he⟩
  | head hstep _ ih =>
      rcases hstep with hnext | henters
      · obtain ⟨m, hm⟩ := ih (hnext.formed hx).1
        exact mem_run_next hnext hm
      · obtain ⟨m, hm⟩ := ih henters.formed
        exact mem_run_enters hx henters (.inl hm)

/-! ## What a run puts out -/

theorem Reached.formed (hx : x.Formed) (h : Reached env exec junk x y) : y.Formed := by
  induction h with
  | refl => exact hx
  | tail _ hstep ih => exact hstep.elim (fun h => (h.formed ih).1) fun h => h.formed

theorem Reached.of_next (h : Relation.ReflTransGen (Next env exec junk) x y) :
    Reached env exec junk x y := by
  induction h with
  | refl => exact .refl
  | tail _ hstep ih => exact ih.tail (.inl hstep)

/-- The call returns with the loop at its end. -/
theorem run_reaches (n : Nat) : ∀ {x : Expansion ε}, (run env exec junk n x).out = .done z →
    Relation.ReflTransGen (Next env exec junk) x z ∧ ¬ z.Turns := by
  induction n with
  | zero =>
      intro x h
      cases h
  | succ n ih =>
      intro x h
      rw [run_succ] at h
      split at h
      · next hturns =>
        rw [Logged.bind_out] at h
        obtain ⟨y, hy, hz⟩ := Outcome.bind_eq_done h
        obtain ⟨h1, h2⟩ := ih hz
        exact ⟨h1.head ⟨hturns, n, hy⟩, h2⟩
      · next hturns =>
        cases h
        exact ⟨.refl, hturns⟩

theorem run_of_reaches (h : Relation.ReflTransGen (Next env exec junk) x z) (hz : ¬ z.Turns) :
    ∃ n, (run env exec junk n x).out = .done z := by
  induction h using Relation.ReflTransGen.head_induction_on with
  | refl =>
      refine ⟨1, ?_⟩
      rw [run_succ, if_neg hz]
      rfl
  | head hstep _ ih =>
      obtain ⟨n, hn⟩ := ih
      exact run_next hstep hn

/-- What a turn leads to, where it comes to `handle_special`. -/
theorem next_special (hx : x.Formed) (h : Next env exec junk x y) {t' : CStr}
    (hl : lead x.dstsz x.text x.src = .special t' q) :
    ∃ n r, (stands env exec (expandDflt env exec junk n) x.sh q).out = .done r ∧
      y.text = VnlKernel.outs x.dstsz t' r.2.1 := by
  obtain ⟨hturns, m, hm⟩ := h
  obtain ⟨c, p, hroom, heq⟩ := hx.turns hturns
  rw [show x.src = c :: p from congrArg Expansion.src heq] at hl
  have hmore := (turn_more env exec (expandDflt env exec junk m) x
    (Nat.le_add_right m (p.length + 1))).done hm
  rw [hmore] at hm
  obtain ⟨log, _, hturn⟩ := turn_special x.sh env exec hroom hl
    (show p.length < m + (p.length + 1) by omega)
  have h := hturn (expandDflt env exec junk m)
  rw [← heq] at h
  rw [h] at hm
  simp only [Logged.bind_out, Outcome.bind_done] at hm
  obtain ⟨r, hr, hy⟩ := Outcome.bind_eq_done hm
  rw [(outs_comes _ _).2] at hy
  cases hy
  exact ⟨m, r, hr, text_wrote⟩

/-- What a turn leads to, where it does not. -/
theorem next_closed (hx : x.Formed) (h : Next env exec junk x y) {t' : CStr}
    (hl : lead x.dstsz x.text x.src = .closed t' q) : y.text = t' := by
  obtain ⟨hturns, m, hm⟩ := h
  obtain ⟨c, p, hroom, heq⟩ := hx.turns hturns
  rw [show x.src = c :: p from congrArg Expansion.src heq] at hl
  have hmore := (turn_more env exec (expandDflt env exec junk m) x
    (Nat.le_add_right m (p.length + 1))).done hm
  rw [hmore] at hm
  have hturn := turn_closed x.sh env exec hroom hl (expandDflt env exec junk m)
    (show p.length < m + (p.length + 1) by omega)
  rw [← heq, Logged.Comes, hm] at hturn
  cases hturn.2
  exact text_wrote

theorem next_stuck (hx : x.Formed) (h : Next env exec junk x y) :
    lead x.dstsz x.text x.src ≠ .stuck := by
  intro hl
  obtain ⟨hturns, m, hm⟩ := h
  obtain ⟨c, p, hroom, heq⟩ := hx.turns hturns
  rw [show x.src = c :: p from congrArg Expansion.src heq] at hl
  rw [heq, turn_stuck hroom hl] at hm
  cases hm

/-- A turn that puts nothing out. -/
theorem Next.silent (hx : x.Formed) (ht : x.text = []) (h : Next env exec junk x y)
    (hp : ¬ x.Puts env exec) :
    y.text = [] := by
  rw [Puts, not_and] at hp
  replace hp := hp h.1
  cases hl : lead x.dstsz x.text x.src with
  | stuck => exact absurd hl (next_stuck hx h)
  | closed t' q =>
      rw [hl, ht] at hp
      rw [next_closed hx h hl]
      exact not_not.mp hp
  | special t' q =>
      rw [hl, ht] at hp
      dsimp only at hp
      rw [not_or] at hp
      obtain ⟨n, r, hr, hy⟩ := next_special hx h hl
      have hnone : specialDflt x.sh q = none := by
        cases hd : specialDflt x.sh q with
        | none => rfl
        | some d =>
            obtain ⟨log, rest, _, _, hform⟩ := stands_some env exec hd
            refine absurd ⟨(x.sh, [space], rest), ?_, by simp⟩ hp.2
            rw [hform]
            rfl
      rw [stands_none hnone _ (fun s _ => pure (s, [space]))] at hr
      have hempty : r.2.1 = [] := by
        by_contra hne
        exact hp.2 ⟨r, hr, hne⟩
      rw [hy, hempty, not_not.mp hp.1, VnlKernel.outs, List.take_nil, List.append_nil]

/-- The string that the call for a default leaves. -/
theorem expandDflt_text {n : Nat} {d : CStr} {a : Sh (ShWorld ε) × CStr}
    (h : (expandDflt env exec junk n s d).out = .done a) :
    ∃ z, (run env exec junk n (start shVarValsz s d)).out = .done z
      ∧ (z.text ≠ [] → a.2 = z.text) := by
  rw [expandDflt, Logged.bind_out] at h
  obtain ⟨z, hz, h⟩ := Outcome.bind_eq_done h
  refine ⟨z, hz, fun hne => ?_⟩
  have hstart : (start shVarValsz s d).Formed := by
    rw [start_eq]
    exact formed_wrote
  have hf : z.Formed := (Reached.of_next (run_reaches n hz).1).formed hstart
  rw [hf, Dst.read, Dst.holding_terminated, Logged.bind_out] at h
  simp only [Dst.holding_di, Dst.holding_take, if_pos (decide_eq_true hne), Outcome.bind_done] at h
  cases h
  rfl

/-- A turn that puts something out, if the defaults come to something. -/
theorem Next.loud (hx : x.Formed) (h : Next env exec junk x y) (hp : x.Puts env exec)
    (hdflt : ∀ w, Enters x w → ∀ n z, (run env exec junk n w).out = .done z → z.text ≠ []) :
    y.text ≠ [] := by
  have hturns := h.1
  have hstarts := (h.formed hx).2.2.1
  replace hp := hp.2
  cases hl : lead x.dstsz x.text x.src with
  | stuck => exact absurd hl (next_stuck hx h)
  | closed t' q =>
      rw [hl] at hp
      have hy := next_closed hx h hl
      intro hempty
      rw [hempty] at hy hstarts
      rw [List.prefix_nil.mp hstarts] at hp
      exact hp hy.symm
  | special t' q =>
      simp only [hl] at hp
      obtain ⟨n, r, hr, hy⟩ := next_special hx h hl
      rw [hy]
      intro hempty
      have ht' : t' = [] := List.prefix_nil.mp (hempty ▸ outs_starts x.dstsz t' r.2.1)
      have hx' : x.text = [] := by
        rw [hy, hempty] at hstarts
        exact List.prefix_nil.mp hstarts
      rw [ht', hx'] at hp
      obtain ⟨r', hr', hne⟩ := hp.resolve_left (fun h => h rfl)
      have hr2 : r.2.1 ≠ [] := by
        cases hd : specialDflt x.sh q with
        | none =>
            rw [stands_none hd _ (expandDflt env exec junk n), hr] at hr'
            cases hr'
            exact hne
        | some d =>
            obtain ⟨log, rest, _, _, hform⟩ := stands_some env exec hd
            rw [hform] at hr
            simp only [Logged.bind_out, Outcome.bind_done] at hr
            obtain ⟨a, ha, hr⟩ := Outcome.bind_eq_done hr
            obtain ⟨z, hz, htext⟩ := expandDflt_text ha
            have hzne := hdflt _ ⟨hturns, d, by rw [dflt?, hl]; exact hd, rfl⟩ n z hz
            cases hr
            rw [htext hzne]
            exact hzne
      rw [ht', VnlKernel.outs, List.nil_append, List.length_nil] at hempty
      have hroom := hturns.2
      rw [hx.di, hx', List.length_nil] at hroom
      rcases List.take_eq_nil_iff.mp hempty with h | h
      · omega
      · exact hr2 h

/-- A run whose turns put nothing out. -/
theorem text_of_silent (hx : x.Formed) (ht : x.text = [])
    (hp : ∀ w, Relation.ReflTransGen (Next env exec junk) x w → ¬ w.Puts env exec)
    (h : Relation.ReflTransGen (Next env exec junk) x z) : z.text = [] := by
  induction h with
  | refl => exact ht
  | tail hreach hstep ih => exact hstep.silent ((Reached.of_next hreach).formed hx) ih (hp _ hreach)

theorem text_grows (hx : x.Formed) (h : Relation.ReflTransGen (Next env exec junk) x z) :
    x.text <+: z.text ∧ z.src.length ≤ x.src.length := by
  induction h with
  | refl => exact ⟨List.prefix_rfl, Nat.le_refl _⟩
  | tail hreach hstep ih =>
      obtain ⟨_, _, h1, h2⟩ := hstep.formed ((Reached.of_next hreach).formed hx)
      exact ⟨ih.1.trans h1, Nat.le_trans (Nat.le_of_lt h2) ih.2⟩

/-- A run with a turn that puts something out. -/
theorem text_of_puts (hx : x.Formed) (hy : y.Puts env exec)
    (hdflt : ∀ w, Enters y w → ∀ n z, (run env exec junk n w).out = .done z → z.text ≠ [])
    (hreach : Relation.ReflTransGen (Next env exec junk) x y)
    (h : Relation.ReflTransGen (Next env exec junk) x z) (hz : ¬ z.Turns) : z.text ≠ [] := by
  have hyf := (Reached.of_next hreach).formed hx
  have hunique : Relator.RightUnique (Next env exec junk) := by
    intro _ _ _ h h'
    exact h.unique h'
  -- runs do not branch, and nothing comes behind `z`
  have hyz : Relation.ReflTransGen (Next env exec junk) y z := by
    rcases Relation.ReflTransGen.total_of_right_unique hunique hreach h with h | h
    · exact h
    · rcases h.cases_head with rfl | ⟨w, hw, _⟩
      · exact absurd hy.1 hz
      · exact absurd hw.1 hz
  rcases hyz.cases_head with rfl | ⟨w, hw, hwz⟩
  · exact absurd hy.1 hz
  · have hstarts := (text_grows (hw.formed hyf).1 hwz).1
    intro hempty
    rw [hempty] at hstarts
    exact hw.loud hyf hy hdflt (List.prefix_nil.mp hstarts)

/-- **A call leaves a string if it yields something, and so do the calls for defaults on the way**,
by induction on the length of the text: a default is shorter. -/
theorem text_of_yields (k : Nat) : ∀ {x : Expansion ε}, x.Formed → x.src.length < k
    → x.Yields env exec junk →
    (∀ y w, Reached env exec junk x y → Enters y w → w.Yields env exec junk) →
    ∀ n z, (run env exec junk n x).out = .done z → z.text ≠ [] := by
  induction k with
  | zero =>
      intro x _ hlen
      exact absurd hlen (Nat.not_lt_zero _)
  | succ k ih =>
      intro x hx hlen hyields hdflts n z hz
      obtain ⟨hreach, hturns⟩ := run_reaches n hz
      obtain ⟨y, hxy, hy⟩ := hyields z hreach hturns
      refine text_of_puts hx hy ?_ hxy hreach hturns
      intro w hw
      have hyf := (Reached.of_next hxy).formed hx
      have hxw : Reached env exec junk x w := (Reached.of_next hxy).tail (.inr hw)
      have hshort := hw.shorter hyf
      have hle := (text_grows hx hxy).2
      exact ih hw.formed (by omega) (hdflts y w (Reached.of_next hxy) hw)
        fun v u hv hu => hdflts v u (hxw.trans hv) hu

/-- What `x` leads to is safe if nothing that `x` leads to is too short, and every default comes to
something. -/
structure Sound (env : ShEnv ε) (exec : Command ε) (junk : CStr) (x : Expansion ε) : Prop where
  long : ∀ y, Reached env exec junk x y → y.LongSubst
  dflts : ∀ y w, Reached env exec junk x y → Enters y w → w.Yields env exec junk

theorem Sound.of_reached (h : Sound env exec junk x) (hxy : Reached env exec junk x y) :
    Sound env exec junk y :=
  ⟨fun z hz => h.long z (hxy.trans hz), fun z w hz => h.dflts z w (hxy.trans hz)⟩

/-- A turn keeps inside its arrays if the calls for defaults do. -/
theorem turn_keeps (hx : x.Formed) (hturns : x.Turns) (hlong : x.LongSubst) {expand}
    (hdflt : ∀ d, x.dflt? = some d → (expand x.sh d).Keeps Access.InBounds fun _ => True)
    (n : Nat) :
    (turn env exec expand n x).Keeps Access.InBounds fun _ => True := by
  obtain ⟨c, p, hroom, heq⟩ := hx.turns hturns
  have hsrc : x.src = c :: p := congrArg Expansion.src heq
  have hlong := hlong hturns
  rw [dflt?, hsrc] at hdflt
  rw [hsrc] at hlong
  -- the loops inside quotes with fuel enough access all that they do with less
  have hmore := turn_more env exec expand x (Nat.le_add_right n (p.length + 1))
  refine ⟨fun e he => ?_, fun _ _ => trivial⟩
  have he := hmore.mem he
  have hfuel : p.length < n + (p.length + 1) := by omega
  cases hl : lead x.dstsz x.text (c :: p) with
  | closed t' q =>
      rw [heq] at he
      exact (turn_closed _ _ _ hroom hl expand hfuel).1 e he
  | special t' q =>
      obtain ⟨log, hlog, hturn⟩ := turn_special x.sh env exec hroom hl hfuel
      have hstands : (stands env exec expand x.sh q).Keeps Access.InBounds fun _ => True := by
        cases hd : specialDflt x.sh q with
        | none => exact stands_keeps hd (hlong t' q hl)
        | some d =>
            rw [hl] at hdflt
            obtain ⟨log', rest, h1, _, hform⟩ := stands_some env exec hd
            rw [hform]
            refine Logged.Keeps.bind (Q := fun _ => True) ⟨h1, fun _ _ => trivial⟩ fun _ _ => ?_
            exact (hdflt d hd).bind fun _ _ => .pure trivial
      have h := hturn expand
      rw [← heq] at h
      rw [h] at he
      refine (Logged.Keeps.bind (Q := fun _ => True) (R := fun _ => True)
        ⟨hlog, fun _ _ => trivial⟩ fun _ _ => ?_).1
        e he
      exact hstands.bind fun r _ => (outs_comes _ _).notes
  | stuck =>
      rw [heq, turn] at he
      rw [lead] at hl
      dsimp only [wrote] at he
      split_ifs at hl with h1 h2 h3
      · rw [if_neg h1, if_pos h2] at he
        exact (Logged.Keeps.bind (R := fun _ => True) (squoteLoop_keeps _ p x.text) fun _ _ =>
          .pure trivial).1 e he
      · rw [if_neg h1, if_neg h2, if_pos h3] at he
        have hloop := dquoteLoop_leaves x.dstsz x.sh p x.text hfuel
        rw [hl] at hloop
        rcases Logged.mem_bind.mp he with he | ⟨r, hr, _⟩
        · exact (dquoteLoop_keeps _ p x.text).1 e he
        · have hout : (dquoteLoop (n + (p.length + 1)) (wrote x.dstsz x.sh x.text p)).out
            = .timeout := hloop
          rw [wrote, hr] at hout
          cases hout

/-- **A sound call keeps inside its arrays**, by induction on the fuel. -/
theorem run_keeps (n : Nat) : ∀ {x : Expansion ε}, x.Formed → Sound env exec junk x →
    (run env exec junk n x).Keeps Access.InBounds fun _ => True := by
  induction n with
  | zero => exact fun _ _ => .timeout
  | succ n ih =>
      intro x hx hsound
      rw [run_succ]
      split
      · next hturns =>
        have hdflt : ∀ d, x.dflt? = some d →
            (expandDflt env exec junk n x.sh d).Keeps Access.InBounds fun _ => True := by
          intro d hd
          have henters : Enters x (start shVarValsz x.sh d) := ⟨hturns, d, hd, rfl⟩
          have hreach : Reached env exec junk x (start shVarValsz x.sh d) := .single (.inr henters)
          have hnested := hsound.of_reached hreach
          refine ((ih henters.formed hnested).and fun z hz => hz).bind fun z hz => ?_
          have hzf := (Reached.of_next (run_reaches n hz.2).1).formed henters.formed
          have hne := text_of_yields _ henters.formed (Nat.lt_succ_self _)
            (hsound.dflts x _ .refl henters)
            hnested.dflts n z hz.2
          refine Logged.Keeps.bind (Q := fun _ => True) ⟨?_, fun _ _ => trivial⟩ fun _ _ =>
            .pure trivial
          intro e he
          rw [List.mem_singleton.mp he]
          change z.dst.terminated = true
          rw [hzf, Dst.holding_terminated]
          exact decide_eq_true hne
        refine ((turn_keeps hx hturns (hsound.long x .refl) hdflt n).and fun y hy => hy).bind
          fun y hy => ?_
        have hnext : Next env exec junk x y := ⟨hturns, n, hy.2⟩
        exact ih (hnext.formed hx).1 (hsound.of_reached (.single (.inl hnext)))
      · exact .pure trivial

/-- **`expand_word` keeps inside its arrays and leaves a string exactly if no substitution is cut
off by the end of the text and every call puts something out**: the call itself, and those it makes
for defaults. -/
theorem run_safe_iff (env : ShEnv ε) (exec : Command ε) (junk : CStr) (dstsz : Nat) (s : Sh (ShWorld ε))
    (src : CStr) :
    (∀ fuel, (run env exec junk fuel (start dstsz s src)).Keeps Access.InBounds fun y => y.dst.terminated = true) ↔
      (∀ y, Reached env exec junk (start dstsz s src) y → y.LongSubst) ∧
        ∀ y, Begun env exec junk (start dstsz s src) y → y.Yields env exec junk := by
  have hstart : (start dstsz s src).Formed := by
    rw [start_eq]
    exact formed_wrote
  have hfresh : ∀ (dstsz : Nat) (s : Sh (ShWorld ε)) (src : CStr),
      (start dstsz s src).text = [] := by
    intro dstsz s src
    rw [start_eq, text_wrote]
  constructor
  · intro h
    refine ⟨fun y hy hturns t q hl => ?_, fun y hy z hz hturns => ?_⟩
    · by_contra hlong
      obtain ⟨e, he, hbad⟩ := stands_overruns y.sh env exec (expandDflt env exec junk 0) hlong
      obtain ⟨n, hn⟩ := mem_run_special (hy.formed hstart) hturns hl he
      obtain ⟨m, hm⟩ := mem_run_reached hstart hy hn
      exact hbad ((h m).1 e hm)
    · by_contra hp
      have hyf : y.Formed ∧ y.text = [] := by
        rcases hy with rfl | ⟨w, _, _, d, _, rfl⟩
        · exact ⟨hstart, hfresh _ _ _⟩
        · exact ⟨by rw [start_eq]; exact formed_wrote, hfresh _ _ _⟩
      have htext := text_of_silent hyf.1 hyf.2 (fun w hw hputs => hp ⟨w, hw, hputs⟩) hz
      have hterm : z.dst.terminated = false := by
        rw [(Reached.of_next hz).formed hyf.1, Dst.holding_terminated, htext]
        rfl
      obtain ⟨n, hn⟩ := run_of_reaches hz hturns
      rcases hy with rfl | ⟨w, hw, henters⟩
      · have hsafe : z.dst.terminated = true := (h n).2 z hn
        rw [hterm] at hsafe
        cases hsafe
      · obtain ⟨m, hm⟩ := mem_run_enters (hw.formed hstart) henters (.inr ⟨z, hn, rfl⟩)
        obtain ⟨m, hm⟩ := mem_run_reached hstart hw hm
        have hsafe : z.dst.terminated = true := (h m).1 _ hm
        rw [hterm] at hsafe
        cases hsafe
  · intro h n
    have hsound : Sound env exec junk (start dstsz s src) :=
      ⟨h.1, fun y w hy hw => h.2 w (.inr ⟨y, hy, hw⟩)⟩
    refine (run_keeps n hstart hsound).and (fun y hy => ?_) |>.mono fun y hy => hy.2
    have hyf := (Reached.of_next (run_reaches n hy).1).formed hstart
    rw [hyf, Dst.holding_terminated]
    exact decide_eq_true (text_of_yields _ hstart (Nat.lt_succ_self _)
      (h.2 _ (.inl rfl)) hsound.dflts n y hy)

/-- The text `$(` makes the copy of the command read past the NUL, and two quotes with nothing
between them leave no string. -/
theorem substitution_cut_off :
    (¬ ∀ fuel, (run stillEnv idleExec [] fuel (start 16 stillShell (cstr "$("))).Keeps Access.InBounds
        fun y => y.dst.terminated = true) ∧
      ¬ ∀ fuel, (run stillEnv idleExec [] fuel (start 16 stillShell (cstr "\"\""))).Keeps Access.InBounds
        fun y => y.dst.terminated = true := by
  refine ⟨fun h => ?_, fun h => ?_⟩
  · have hmem : Access.span (shLineMax - 1) 1 ∈
        (run stillEnv idleExec [] 2 (start 16 stillShell (cstr "$("))).log := by
      decide +kernel
    exact absurd ((h 2).1 _ hmem) (by decide)
  · have hrun : (run stillEnv idleExec [] 2 (start 16 stillShell (cstr "\"\""))).out.get?.map
      (·.dst.terminated) =
        some false := by decide +kernel
    obtain ⟨y, hy, hterm⟩ := Outcome.of_get? hrun
    exact absurd ((h 2).2 y hy) (by simp [hterm])

end Expansion

end VnlKernel
