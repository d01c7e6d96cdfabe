import VnlKernel.Proof.ShellExpands

/-!
# Captured output

What a run of the interpreter does to the output hook is a nest: characters that are printed,
and captures, each around what is done while it lasts. A nest says for each capture what it
should come to, which is what is printed directly inside it. Played on the one pointer and the
four buffers, it comes to that if it is orderly.
-/

namespace VnlKernel

/-- What is done to the output hook, in order. -/
inductive Nest where
  | nil
  | put (c : UInt8) (next : Nest)
  | capture (b : OutBuf) (body next : Nest)
  | strip (b : OutBuf) (next : Nest)
  | clear (next : Nest)
deriving DecidableEq

namespace Nest

/-- The hook and the buffers afterwards. -/
def play : Nest → Kout → Kout
  | nil, k => k
  | put c next, k => next.play (k.putchar c)
  | capture b body next, k =>
      let k := (body.play (k.redirect b)).reset
      next.play { k with yields := k.yields ++ [k.bufs b] }
  | strip b next, k => next.play (k.strip b)
  | clear next, k => next.play k.clear

/-- One nest after another. -/
def append : Nest → Nest → Nest
  | nil, m => m
  | put c next, m => put c (next.append m)
  | capture b body next, m => capture b body (next.append m)
  | strip b next, m => strip b (next.append m)
  | clear next, m => clear (next.append m)

/-- What is printed outside of all captures. -/
def own : Nest → CStr
  | nil => []
  | put c next => c :: next.own
  | capture _ _ next => next.own
  | strip _ next => next.own
  | clear next => next.own

/-- What the captures should come to, in the order in which they end: what is printed directly
inside them, as much of it as fits. -/
def captured : Nest → List CStr
  | nil => []
  | put _ next => next.captured
  | capture _ body next => body.captured ++ body.own.take (shPipeBuf - 1) :: next.captured
  | strip _ next => next.captured
  | clear next => next.captured

/-- Nothing is printed behind a capture. -/
def Settled : Nest → Prop
  | nil => True
  | put _ next => next.Settled
  | capture _ _ next => next.own = []
  | strip _ next => next.Settled
  | clear next => next.Settled

/-- The buffer is not used. -/
def Avoids (b : OutBuf) : Nest → Prop
  | nil => True
  | put _ next => next.Avoids b
  | capture b' body next => b' ≠ b ∧ body.Avoids b ∧ next.Avoids b
  | strip b' next => b' ≠ b ∧ next.Avoids b
  | clear next => b ≠ .pipe ∧ next.Avoids b

/-- A capture into the buffer that gets what it should: what runs inside prints before it captures,
does not use the buffer, and if it prints nothing then the buffer is empty. -/
structure Sound (b : OutBuf) (body : Nest) (old : CStr) : Prop where
  settled : body.Settled
  avoids : body.Avoids b
  silent : body.own = [] → old = []

/-- Every capture is sound, with what its buffer holds when it begins. -/
def Orderly : Nest → Kout → Prop
  | nil, _ => True
  | put c next, k => next.Orderly (k.putchar c)
  | capture b body next, k =>
      Sound b body (k.bufs b) ∧ body.Orderly (k.redirect b) ∧ next.Orderly ((capture b body nil).play k)
  | strip b next, k => next.Orderly (k.strip b)
  | clear next, k => next.Orderly k.clear

/-- The calls a nest stands for. -/
def calls : Nest → List KoutCall
  | nil => []
  | put c next => .put c :: next.calls
  | capture b body next => .redirect b :: (body.calls ++ .reset :: next.calls)
  | strip b next => .strip b :: next.calls
  | clear next => .clear :: next.calls

theorem play_append (n m : Nest) (k : Kout) : (n.append m).play k = m.play (n.play k) := by
  induction n generalizing k with
  | nil => rfl
  | put c next ih => exact ih _
  | capture b body next _ ih => exact ih _
  | strip b next ih => exact ih _
  | clear next ih => exact ih _

theorem Avoids.append {b : OutBuf} {n m : Nest} (h : (n.append m).Avoids b) :
    n.Avoids b ∧ m.Avoids b := by
  induction n with
  | nil => exact ⟨trivial, h⟩
  | put c next ih => exact ih h
  | capture b' body next _ ih =>
      obtain ⟨hb, hbody, hnext⟩ := h
      exact ⟨⟨hb, hbody, (ih hnext).1⟩, (ih hnext).2⟩
  | strip b' next ih =>
      obtain ⟨hb, hnext⟩ := h
      exact ⟨⟨hb, (ih hnext).1⟩, (ih hnext).2⟩
  | clear next ih =>
      obtain ⟨hb, hnext⟩ := h
      exact ⟨⟨hb, (ih hnext).1⟩, (ih hnext).2⟩

/-! ## A nest is known by its calls -/

theorem play_calls (n : Nest) (k : Kout) : (n.play k).calls = k.calls ++ n.calls := by
  induction n generalizing k with
  | nil => rw [calls, List.append_nil]; rfl
  | put c next ih =>
      rw [play, ih, calls, ← List.singleton_append, ← List.append_assoc]
      congr 1
      rw [Kout.putchar]
      split
      · split <;> rfl
      · rfl
  | capture b body next ihbody ih =>
      rw [play, ih]
      show (body.play (k.redirect b)).calls ++ [KoutCall.reset] ++ next.calls = _
      rw [ihbody, calls]
      show k.calls ++ [KoutCall.redirect b] ++ body.calls ++ [KoutCall.reset] ++ next.calls = _
      simp
  | strip b next ih =>
      rw [play, ih, calls, ← List.singleton_append, ← List.append_assoc]
      rfl
  | clear next ih =>
      rw [play, ih, calls, ← List.singleton_append, ← List.append_assoc]
      rfl

/-- What follows a nest inside a capture, or at the end. -/
def Ended (r : List KoutCall) : Prop := r = [] ∨ ∃ r', r = .reset :: r'

theorem calls_inj : ∀ (n m : Nest) {r r' : List KoutCall}, Ended r → Ended r' →
    n.calls ++ r = m.calls ++ r' → n = m ∧ r = r' := by
  -- a nest never begins with the call that ends one
  have hnil : ∀ (m : Nest) {r r' : List KoutCall}, Ended r → r = m.calls ++ r' → m = nil := by
    intro m r r' hr he
    cases m with
    | nil => rfl
    | put c next =>
        rcases hr with rfl | ⟨x, rfl⟩ <;> cases he
    | capture b body next =>
        rcases hr with rfl | ⟨x, rfl⟩ <;> cases he
    | strip b next =>
        rcases hr with rfl | ⟨x, rfl⟩ <;> cases he
    | clear next =>
        rcases hr with rfl | ⟨x, rfl⟩ <;> cases he
  intro n
  induction n with
  | nil =>
      intro m r r' hr hr' he
      rw [calls, List.nil_append] at he
      obtain rfl := hnil m hr he
      exact ⟨rfl, by simpa [calls] using he⟩
  | put c next ih =>
      intro m r r' hr hr' he
      cases m with
      | nil => cases hnil _ hr' he.symm
      | put c' next' =>
          simp only [calls, List.cons_append, List.cons.injEq, KoutCall.put.injEq] at he
          obtain ⟨rfl, he⟩ := he
          obtain ⟨rfl, rfl⟩ := ih next' hr hr' he
          exact ⟨rfl, rfl⟩
      | capture b body next' => simp [calls] at he
      | strip b next' => simp [calls] at he
      | clear next' => simp [calls] at he
  | capture b body next ihbody ih =>
      intro m r r' hr hr' he
      cases m with
      | nil => cases hnil _ hr' he.symm
      | put c' next' => simp [calls] at he
      | capture b' body' next' =>
          simp only [calls, List.cons_append, List.cons.injEq, KoutCall.redirect.injEq,
            List.append_assoc] at he
          obtain ⟨rfl, he⟩ := he
          obtain ⟨rfl, hrest⟩ := ihbody body' (Or.inr ⟨_, rfl⟩) (Or.inr ⟨_, rfl⟩) he
          obtain ⟨rfl, rfl⟩ := ih next' hr hr' (List.cons.inj hrest).2
          exact ⟨rfl, rfl⟩
      | strip b next' => simp [calls] at he
      | clear next' => simp [calls] at he
  | strip b next ih =>
      intro m r r' hr hr' he
      cases m with
      | nil => cases hnil _ hr' he.symm
      | put c' next' => simp [calls] at he
      | capture b body next' => simp [calls] at he
      | strip b' next' =>
          simp only [calls, List.cons_append, List.cons.injEq, KoutCall.strip.injEq] at he
          obtain ⟨rfl, he⟩ := he
          obtain ⟨rfl, rfl⟩ := ih next' hr hr' he
          exact ⟨rfl, rfl⟩
      | clear next' => simp [calls] at he
  | clear next ih =>
      intro m r r' hr hr' he
      cases m with
      | nil => cases hnil _ hr' he.symm
      | put c' next' => simp [calls] at he
      | capture b body next' => simp [calls] at he
      | strip b' next' => simp [calls] at he
      | clear next' =>
          simp only [calls, List.cons_append, List.cons.injEq, true_and] at he
          obtain ⟨rfl, rfl⟩ := ih next' hr hr' he
          exact ⟨rfl, rfl⟩

theorem eq_of_calls {n m : Nest} {k : Kout} (h : (n.play k).calls = k.calls ++ m.calls) :
    n = m := by
  rw [play_calls] at h
  exact (calls_inj n m (Or.inl rfl) (Or.inl rfl) (by
    rw [List.append_nil, List.append_nil]
    exact List.append_cancel_left h)).1

/-- Two nests that do the same to the hook are the same. -/
theorem play_inj {n m : Nest} {k : Kout} (h : n.play k = m.play k) : n = m :=
  eq_of_calls ((congrArg Kout.calls h).trans (play_calls m k))

/-! ## Orderly nests -/

theorem putchar_buf (k : Kout) (c : UInt8) : (k.putchar c).buf = k.buf := by
  rw [Kout.putchar]
  split
  · split <;> simp_all
  · simp_all

theorem putchar_yields (k : Kout) (c : UInt8) : (k.putchar c).yields = k.yields := by
  rw [Kout.putchar]
  split
  · split <;> rfl
  · rfl

theorem putchar_screen {k : Kout} (hk : k.buf ≠ none) (c : UInt8) : (k.putchar c).screen
    = k.screen := by
  rw [Kout.putchar]
  split
  · split <;> rfl
  · next hnone => exact absurd hnone hk

/-- A buffer that is neither the target nor used keeps what it holds. -/
theorem play_bufs {b : OutBuf} {n : Nest} {k : Kout} (h : n.Avoids b) (hk : k.buf ≠ some b) :
    (n.play k).bufs b = k.bufs b := by
  induction n generalizing k with
  | nil => rfl
  | put c next ih =>
      rw [play, ih h (by rw [putchar_buf]; exact hk), Kout.putchar]
      split
      · next b' hb' =>
        have hne : b ≠ b' := fun he => hk (by rw [hb', he])
        split
        · dsimp only
          rw [if_neg hne]
        · rfl
      · rfl
  | capture b' body next ihbody ih =>
      obtain ⟨hb, hbody, hnext⟩ := h
      rw [play, ih hnext (by exact fun he => by cases he)]
      exact ihbody hbody fun he => hb (Option.some.inj he)
  | strip b' next ih =>
      obtain ⟨hb, hnext⟩ := h
      have hkeep : (k.strip b').bufs b = k.bufs b := if_neg fun he => hb he.symm
      rw [play, ih hnext (by exact hk), hkeep]
  | clear next ih =>
      obtain ⟨hb, hnext⟩ := h
      have hkeep : k.clear.bufs b = k.bufs b := if_neg hb
      rw [play, ih hnext (by exact hk), hkeep]

/-- A capture that is going on: what was printed so far is what the buffer holds. -/
structure Inside (b : OutBuf) (k : Kout) : Prop where
  buf : k.buf = some b
  cap : k.cap = shPipeBuf
  len : k.len < shPipeBuf
  held : k.len = 0 ∨ (k.bufs b).length = k.len

theorem inside_redirect (b : OutBuf) (k : Kout) : Inside b (k.redirect b) :=
  ⟨rfl, rfl, (by decide : 0 < shPipeBuf), Or.inl rfl⟩

theorem Inside.putchar {b : OutBuf} {k : Kout} (h : Inside b k) (c : UInt8) :
    Inside b (k.putchar c) ∧ (k.putchar c).bufs b
      = ((k.bufs b).take k.len ++ [c]).take (shPipeBuf - 1)
      ∧ (k.putchar c).len = ((k.putchar c).bufs b).length := by
  have hlen := h.len
  have hheld : ((k.bufs b).take k.len).length = k.len := by
    rw [List.length_take]
    rcases h.held with h0 | h0
    · omega
    · omega
  rw [Kout.putchar, h.buf]
  dsimp only
  split
  · next hroom =>
    rw [h.cap] at hroom
    dsimp only
    rw [if_pos rfl]
    have hsize : ((k.bufs b).take k.len ++ [c]).length = k.len + 1 := by
      rw [List.length_append, hheld, List.length_singleton]
    refine ⟨⟨rfl, h.cap, hroom, Or.inr ?_⟩, ?_, hsize.symm⟩
    · dsimp only
      rw [if_pos rfl, hsize]
    · generalize (k.bufs b).take k.len ++ [c] = text at hsize
      rw [List.take_of_length_le (by omega)]
  · next hroom =>
    -- the buffer is full
    rw [h.cap] at hroom
    have hfull : (k.bufs b).length = k.len :=
      h.held.resolve_left (by unfold shPipeBuf at hroom; omega)
    refine ⟨⟨rfl, h.cap, hlen, h.held⟩, ?_, hfull.symm⟩
    dsimp only
    have hsize : shPipeBuf - 1 = ((k.bufs b).take k.len).length := by omega
    rw [hsize, List.take_left, List.take_of_length_le (Nat.le_of_eq hfull)]

theorem take_append_take {l r : CStr} {m : Nat} : (l.take m ++ r).take m = (l ++ r).take m := by
  rw [List.take_append, List.take_take, Nat.min_self, List.length_take, List.take_append]
  congr 1
  congr 1
  omega

/-- What the buffer of a capture holds in the end: what was printed, or what it held before. -/
theorem play_inside {b : OutBuf} {n : Nest} {k : Kout} (hset : n.Settled) (hav : n.Avoids b)
    (h : Inside b k) :
    (n.play k).bufs b
      = if n.own = [] then k.bufs b else ((k.bufs b).take k.len ++ n.own).take (shPipeBuf - 1) := by
  induction n generalizing k with
  | nil => rfl
  | put c next ih =>
      obtain ⟨hin, hbuf, hlen⟩ := h.putchar c
      rw [play, ih hset hav hin, hlen, List.take_length, hbuf, take_append_take, own,
        if_neg (List.cons_ne_nil _ _),
        List.append_assoc, List.singleton_append]
      split
      · next hown => rw [hown]
      · rfl
  | capture b' body next _ _ =>
      have hown : (capture b' body next).own = [] := hset
      rw [if_pos hown]
      obtain ⟨hb, hbody, hnext⟩ := hav
      rw [play, play_bufs hnext (by exact fun he => by cases he)]
      exact play_bufs hbody fun he => hb (Option.some.inj he)
  | strip b' next ih =>
      obtain ⟨hb, hnext⟩ := hav
      have hkeep : (k.strip b').bufs b = k.bufs b := if_neg fun he => hb he.symm
      have hin : Inside b (k.strip b') := ⟨h.buf, h.cap, h.len, by rw [hkeep]; exact h.held⟩
      rw [play, ih hset hnext hin, hkeep]
      rfl
  | clear next ih =>
      obtain ⟨hb, hnext⟩ := hav
      have hkeep : k.clear.bufs b = k.bufs b := if_neg hb
      have hin : Inside b k.clear := ⟨h.buf, h.cap, h.len, by rw [hkeep]; exact h.held⟩
      rw [play, ih hset hnext hin, hkeep]
      rfl

/-- What a nest does that is played as it should be: the captures come to what was printed inside
them, and the screen gets what was printed outside. -/
structure Exact (n : Nest) (k : Kout) : Prop where
  yields : (n.play k).yields = k.yields ++ n.captured
  screen : k.buf = none → (n.play k).screen = k.screen ++ n.own ∧ (n.play k).buf = none
  hidden : k.buf ≠ none → n.Settled → (n.play k).screen = k.screen

/-- A sound capture yields what was printed inside it. -/
theorem Sound.yields {b : OutBuf} {body : Nest} {k : Kout} (h : Sound b body (k.bufs b)) :
    (body.play (k.redirect b)).bufs b = body.own.take (shPipeBuf - 1) := by
  rw [play_inside h.settled h.avoids (inside_redirect b k)]
  split
  · next hown =>
    rw [hown, List.take_nil]
    exact h.silent hown
  · show ((k.bufs b).take 0 ++ body.own).take (shPipeBuf - 1) = _
    rw [List.take_zero, List.nil_append]

/-- **An orderly nest is played as it should be.** -/
theorem Orderly.exact {n : Nest} {k : Kout} (h : n.Orderly k) : Exact n k := by
  induction n generalizing k with
  | nil => exact ⟨by rw [captured, List.append_nil]; rfl, fun hk => ⟨by rw [own, List.append_nil]; rfl, hk⟩,
      fun _ _ => rfl⟩
  | put c next ih =>
      have hnext := ih h
      refine ⟨?_, ?_, ?_⟩
      · rw [play, hnext.yields, putchar_yields]
        rfl
      · intro hk
        obtain ⟨hscreen, hbuf⟩ := hnext.screen (by rw [putchar_buf]; exact hk)
        have hput : (k.putchar c).screen = k.screen ++ [c] := by rw [Kout.putchar, hk]
        rw [play, hscreen, hput, own, List.append_assoc, List.singleton_append]
        exact ⟨rfl, hbuf⟩
      · intro hk hset
        rw [play, hnext.hidden (by rw [putchar_buf]; exact hk) hset, putchar_screen hk]
  | capture b body next ihbody ih =>
      obtain ⟨hsound, hbody, hnext⟩ := h
      have hin := (ihbody hbody).hidden (Option.some_ne_none b) hsound.settled
      have hyields := (ihbody hbody).yields
      have htail := ih hnext
      have hscreen := htail.screen rfl
      have hplay : (capture b body next).play k = next.play ((capture b body nil).play k) := rfl
      have hmid : ((capture b body nil).play k).screen = k.screen := hin
      refine ⟨?_, ?_, ?_⟩
      · rw [hplay, htail.yields]
        show (body.play (k.redirect b)).yields ++ [(body.play (k.redirect b)).bufs b]
          ++ next.captured = _
        rw [hyields, hsound.yields, captured, List.append_assoc, List.append_assoc,
          List.singleton_append]
        rfl
      · intro _
        rw [hplay, hscreen.1, hmid]
        exact ⟨rfl, hscreen.2⟩
      · intro _ hset
        have hown : next.own = [] := hset
        rw [hplay, hscreen.1, hmid, hown, List.append_nil]
  | strip b next ih => exact ⟨(ih h).yields, (ih h).screen, (ih h).hidden⟩
  | clear next ih => exact ⟨(ih h).yields, (ih h).screen, (ih h).hidden⟩

end Nest

/-! ## The interpreter's nests -/

variable {ε : Type}

/-- What a nest, done in one state, leaves of the statics: names of redirections and stages of
pipelines are only written by what also uses the buffer. -/
structure Nest.Leads (n : Nest) (w w' : ShWorld ε) : Prop where
  kout : w'.kout = n.play w.kout
  names : n.Avoids .redir → w'.outName = w.outName ∧ w'.appName = w.appName
  stages : n.Avoids .pipe → ∀ i, 0 < i → w'.stages i = w.stages i

def Nested (w w' : ShWorld ε) : Prop := ∃ n : Nest, n.Leads w w'

theorem Nest.Leads.append {n m : Nest} {u v w : ShWorld ε} (h : n.Leads u v) (h' : m.Leads v w) :
    (n.append m).Leads u w := by
  refine ⟨?_, ?_, ?_⟩
  · rw [Nest.play_append, ← h.kout, h'.kout]
  · intro hav
    obtain ⟨hn, hm⟩ := hav.append
    exact ⟨(h'.names hm).1.trans (h.names hn).1, (h'.names hm).2.trans (h.names hn).2⟩
  · intro hav i hi
    obtain ⟨hn, hm⟩ := hav.append
    exact (h'.stages hm i hi).trans (h.stages hn i hi)

theorem nested_chained : Chained (Nested (ε := ε)) where
  refl _ := ⟨.nil, rfl, fun _ => ⟨rfl, rfl⟩, fun _ _ _ => rfl⟩
  trans := by
    rintro u v w ⟨n, h⟩ ⟨m, h'⟩
    exact ⟨n.append m, h.append h'⟩

theorem nested_onWorld : Chained (OnWorld (Nested (ε := ε))) where
  refl s := nested_chained.refl s.world
  trans := nested_chained.trans

/-- A change to anything else is no change. -/
theorem Nested.aside {w w' : ShWorld ε} (hk : w'.kout = w.kout) (ho : w'.outName = w.outName)
    (ha : w'.appName = w.appName) (hs : w'.stages = w.stages) : Nested w w' :=
  ⟨.nil, hk, fun _ => ⟨ho, ha⟩, fun _ i _ => by rw [hs]⟩

/-- A command that respects nesting. -/
def Command.Nests (exec : Command ε) : Prop := ∀ s cmd, Within (OnWorld Nested) s (exec s cmd)

/-- What is not modelled prints, and runs commands and scripts, and does nothing else to the hook.
-/
structure ShEnv.Nests (env : ShEnv ε) : Prop where
  own : ∀ s argv, Within (OnWorld Nested) s (env.own s argv)
  builtin : ∀ {exec run : Command ε}, exec.Nests → run.Nests →
    ∀ s argv, Within (OnWorld Nested) s (env.builtin exec run s argv)

section Interpreter

variable {env : ShEnv ε} {exec : Command ε} {s : Sh (ShWorld ε)} (hexec : exec.Nests)

/-- What is captured is a capture around what the command does. -/
theorem capture_leads {b : OutBuf} {cmd : CStr} {s' s₁ : Sh (ShWorld ε)} {r r₁ : Int} {text : CStr}
    {n : Nest}
    (hrun : exec (s.setKout (s.kout.redirect b)) cmd = .done (s₁, r₁))
    (hn : n.Leads (s.setKout (s.kout.redirect b)).world s₁.world)
    (h : capture b exec s cmd = .done (s', r, text)) :
    (Nest.capture b n .nil).Leads s.world s'.world := by
  rw [capture, hrun, Outcome.bind_done] at h
  cases h
  refine ⟨?_, ?_, ?_⟩
  · show (let k := s₁.world.kout.reset; ({ k with yields := k.yields ++ [k.bufs b] } : Kout)) = _
    rw [hn.kout]
    rfl
  · intro hav
    exact hn.names hav.2.1
  · intro hav
    exact hn.stages hav.2.1

include hexec

theorem capture_within (b : OutBuf) (s : Sh (ShWorld ε)) (cmd : CStr) :
    Within (OnWorld Nested) s (capture b exec s cmd) := by
  intro s' a h
  obtain ⟨⟨s₁, r₁⟩, hrun, _⟩ := Outcome.bind_eq_done h
  obtain ⟨n, hn⟩ := hexec _ _ s₁ r₁ hrun
  obtain ⟨r, text⟩ := a
  exact ⟨_, capture_leads hrun hn h⟩

theorem substitute_within (b : OutBuf) (s : Sh (ShWorld ε)) (cmd : CStr) :
    Within (OnWorld Nested) s (substitute b exec s cmd) := by
  refine Within.bind nested_onWorld (capture_within hexec b s cmd) ?_
  intro s' a
  refine Within.done ⟨.strip b .nil, rfl, fun _ => ⟨rfl, rfl⟩, fun _ _ _ => rfl⟩ _

theorem nested_expands : Expands (OnWorld Nested) exec := ⟨nested_onWorld, substitute_within hexec⟩

omit hexec in
theorem setVars_nested (s : Sh (ShWorld ε)) (vars : List ShVar) :
    Nested s.world (s.setVars vars).world :=
  Nested.aside rfl rfl rfl rfl

omit hexec in
/-- Reading a file changes nothing that matters here. -/
theorem redirIn_statics (s : Sh (ShWorld ε)) (inp : Option CStr) :
    (redirIn env s inp).world.kout = s.world.kout
      ∧ (redirIn env s inp).world.stages = s.world.stages
      ∧ (redirIn env s inp).world.outName = s.world.outName
        ∧ (redirIn env s inp).world.appName = s.world.appName := by
  cases inp with
  | none => exact ⟨rfl, rfl, rfl, rfl⟩
  | some name =>
      rw [redirIn]
      dsimp only
      split
      · exact ⟨rfl, rfl, rfl, rfl⟩
      · exact ⟨rfl, rfl, rfl, rfl⟩

/-- A redirection writes the name and uses the buffer. -/
theorem redirOut_within (trunc : Bool) {w : ShWorld ε} (s : Sh (ShWorld ε)) (cmd : CStr)
    (hk : s.world.kout = w.kout) (hs : s.world.stages = w.stages) {s' : Sh (ShWorld ε)} {r : Int}
    (h : redirOut env exec trunc s cmd = .done (s', r)) : Nested w s'.world := by
  obtain ⟨⟨s₁, r₁, text⟩, hcap, h⟩ := Outcome.bind_eq_done h
  cases h
  obtain ⟨⟨s₂, r₂⟩, hrun, _⟩ := Outcome.bind_eq_done hcap
  obtain ⟨n, hn⟩ := hexec _ _ s₂ r₂ hrun
  have hlead := capture_leads hrun hn hcap
  refine ⟨Nest.capture .redir n .nil, ?_, ?_, ?_⟩
  · rw [← hk]
    exact hlead.kout
  · intro hav
    exact absurd rfl hav.1
  · intro hav i hi
    rw [← hs]
    exact hlead.stages hav i hi

theorem runStage_within (s : Sh (ShWorld ε)) (cmdline : CStr) :
    Within (OnWorld Nested) s (runStage env exec s cmdline) := by
  rw [runStage]
  refine Within.ite (Within.panic _) ?_
  generalize scanRedirects (cmdline.length + 1) cmdline ([], ⟨none, none, none⟩) = res
  obtain ⟨stripped, redirs⟩ := res
  dsimp only
  generalize hs₁ : redirIn env _ redirs.inp = s₁
  have hstatics : s₁.world.kout = s.world.kout ∧ s₁.world.stages = s.world.stages
      ∧ s₁.world.outName = redirs.out.getD s.world.outName
          ∧ s₁.world.appName = redirs.app.getD s.world.appName := by
    rw [← hs₁]
    exact redirIn_statics _ _
  obtain ⟨hkout, hstages, hout, happ⟩ := hstatics
  by_cases ho : redirs.out.isSome = true
  · rw [if_pos ho]
    intro s' r h
    exact redirOut_within hexec true s₁ stripped hkout hstages h
  by_cases ha : redirs.app.isSome = true
  · rw [if_neg ho, if_pos ha]
    intro s' r h
    exact redirOut_within hexec false s₁ stripped hkout hstages h
  · rw [if_neg ho, if_neg ha]
    rw [Option.not_isSome_iff_eq_none] at ho ha
    rw [ho] at hout
    rw [ha] at happ
    exact Within.from nested_onWorld (Nested.aside hkout hout happ hstages) (hexec _ _)

theorem stageLoop_within (left i : Nat) (s : Sh (ShWorld ε)) :
    Within (OnWorld Nested) s (stageLoop env exec left i s) := by
  induction left generalizing i s with
  | zero =>
      rw [stageLoop]
      refine Within.bind nested_onWorld (expandWord_within (nested_expands hexec) _ _ _) ?_
      intro s' cmd
      refine Within.from nested_onWorld ?_ (hexec _ _)
      split
      · exact setVars_nested _ _
      · exact nested_onWorld.refl _
  | succ left ih =>
      rw [stageLoop]
      refine Within.bind nested_onWorld (expandWord_within (nested_expands hexec) _ _ _) ?_
      intro s' cmd
      dsimp only
      refine Within.from nested_onWorld ?_
        (Within.bind nested_onWorld (capture_within hexec _ _ _) ?_)
      · split
        · exact setVars_nested _ _
        · exact nested_onWorld.refl _
      · intro s'' a
        exact ih _ _

/-- A line with bars writes the stages and uses the buffer; a line without writes the first. -/
theorem shRunPipeline_within (s : Sh (ShWorld ε)) (line : CStr) :
    Within (OnWorld Nested) s (shRunPipeline env exec s line) := by
  rw [shRunPipeline]
  dsimp only
  split
  · next stage hstage =>
    refine Within.from nested_onWorld ?_ (runStage_within hexec _ _)
    refine ⟨.nil, rfl, fun _ => ⟨rfl, rfl⟩, ?_⟩
    intro _ i hi
    show (splitStages line).getD i (s.world.stages i) = s.world.stages i
    rw [hstage]
    cases i with
    | zero => exact absurd hi (Nat.lt_irrefl 0)
    | succ i => rfl
  · refine Within.from nested_onWorld ?_ (stageLoop_within hexec _ _ _)
    refine ⟨.clear .nil, rfl, fun _ => ⟨rfl, rfl⟩, ?_⟩
    intro hav
    exact absurd rfl hav.1

/-! ### Simple commands -/

omit hexec in
theorem puts_nested (s : Sh (ShWorld ε)) (text : CStr) :
    Nested s.world (s.setKout (s.kout.puts text)).world := by
  have hplay : ∀ (text : CStr) (k : Kout), ∃ n : Nest, k.puts text = n.play k := by
    intro text
    induction text with
    | nil => exact fun k => ⟨.nil, rfl⟩
    | cons c text ih =>
        intro k
        obtain ⟨n, hn⟩ := ih (k.putchar c)
        exact ⟨.put c n, hn⟩
  obtain ⟨n, hn⟩ := hplay text s.kout
  exact ⟨n, hn, fun _ => ⟨rfl, rfl⟩, fun _ _ _ => rfl⟩

theorem shRunSimple_within (henv : env.Nests) {run : Command ε} (hrun : run.Nests)
    (s : Sh (ShWorld ε))
    (argv : List CStr) : Within (OnWorld Nested) s (shRunSimple env exec run s argv) := by
  induction argv generalizing s with
  | nil =>
      rw [shRunSimple]
      exact Within.done (nested_onWorld.refl _) _
  | cons cmd args ih =>
      have hdone : ∀ r : Int, Within (OnWorld Nested) s (.done (s, r)) :=
        fun r => Within.done (nested_onWorld.refl _) r
      rw [shRunSimple]
      refine Within.ite (hdone _) (Within.ite (hdone _) (Within.ite (hdone _) ?_))
      refine Within.ite (Within.done (puts_nested _ _) _) ?_
      refine Within.ite (henv.own _ _) ?_
      refine Within.ite ?_ ?_
      · -- an assignment, perhaps with a command behind it
        refine Within.bind nested_onWorld (expandWord_within (nested_expands hexec) _ _ _) ?_
        intro s' val
        dsimp only
        cases args with
        | nil => exact Within.done (setVars_nested _ _) _
        | cons a as => exact Within.from nested_onWorld (setVars_nested _ _) (ih _)
      · split
        · -- a function, with its arguments while it runs
          rw [callFunction]
          refine Within.from nested_onWorld ?_ (Within.bind nested_onWorld (hrun _ _) ?_)
          · exact Nested.aside rfl rfl rfl rfl
          · intro s' r
            refine Within.done ?_ _
            exact Nested.aside rfl rfl rfl rfl
        · split
          · refine Within.bind nested_onWorld (expandWord_within (nested_expands hexec) _ _ _) ?_
            intro s' text
            exact hexec _ _
          · exact henv.builtin hexec hrun _ _

omit hexec in
/-- What the executor calls nests, if `sh_exec` does. -/
theorem shRunner_respects (hexec : exec.Nests) : (shRunner env exec).Respects Nested where
  exec := hexec
  line s line := by
    refine Within.bind nested_onWorld (expandWord_within (nested_expands hexec) _ _ _) ?_
    intro s' expanded
    exact shRunPipeline_within hexec _ _
  words s list := by
    refine Within.bind nested_onWorld (expandWord_within (nested_expands hexec) _ _ _) ?_
    intro s' expanded
    exact tokenize_within (nested_expands hexec) _ _ _
  word s src := expandWord_within (nested_expands hexec) _ _ _
  varSet s name val := setVars_nested _ _
  funcSet s name body := Nested.aside rfl rfl rfl rfl

omit hexec in
/-- **Every command of the interpreter does a nest to the output hook.** -/
theorem shExec_nests (henv : env.Nests) (fuel : Nat) :
    (shExec env (shRunSimple env) fuel).Nests := by
  induction fuel with
  | zero => exact fun s cmd => Within.timeout
  | succ fuel ih =>
      intro s cmd
      rw [shExec, shExecOnce]
      refine Within.bind nested_onWorld (expandWord_within (nested_expands ih) _ _ _) ?_
      intro s₁ expanded
      refine Within.bind nested_onWorld (tokenize_within (nested_expands ih) _ _ _) ?_
      intro s₂ argv
      dsimp only
      split
      · exact Within.done (nested_onWorld.refl _) _
      · exact shRunSimple_within ih henv
          (fun s script => shRunString_within nested_onWorld (shRunner_respects ih) fuel s script) _
            _

omit hexec in
theorem shScript_nests (henv : env.Nests)
    (fuel : Nat) : (shScript env (shRunSimple env) fuel).Nests :=
  fun s script => shRunString_within nested_onWorld
    (shRunner_respects (shExec_nests henv fuel)) fuel s script

end Interpreter

end VnlKernel
