/-!
# Runs

A system is a set of states to start in and a relation that says which state may
follow which. What can be proved of every state it reaches is proved twice: of the
states it starts in, and of one step.
-/

namespace Run

variable {S : Type}

/-- The states that steps lead to. -/
inductive Reach (init : S → Prop) (step : S → S → Prop) : S → Prop
  | start {s : S} : init s → Reach init step s
  | next {s s' : S} : Reach init step s → step s s' → Reach init step s'

/-- **The invariant rule.** -/
theorem Reach.invariant {init : S → Prop} {step : S → S → Prop} {P : S → Prop}
    (h0 : ∀ s, init s → P s) (hs : ∀ s s', P s → step s s' → P s') {s : S}
    (h : Reach init step s) : P s := by
  induction h with
  | start hi => exact h0 _ hi
  | next _ hstep ih => exact hs _ _ ih hstep

/-- What is reached by fewer steps is reached. -/
theorem Reach.mono {init : S → Prop} {step step' : S → S → Prop}
    (hs : ∀ s s', step s s' → step' s s')
    {s : S} (h : Reach init step s) : Reach init step' s := by
  induction h with
  | start hi => exact .start hi
  | next _ hstep ih => exact .next ih (hs _ _ hstep)

/-! ## Logs

A step may also say what it did, as a few entries of a log. What is kept in mind about
the log so far is a fold over it, and an invariant may speak of both. -/

variable {E G : Type}

/-- Steps in a row, and the log they leave. -/
inductive Trace (step : S → List E → S → Prop) : S → List E → S → Prop
  | nil (s : S) : Trace step s [] s
  | snoc {s s' s'' : S} {log es : List E} :
      Trace step s log s' → step s' es s'' → Trace step s (log ++ es) s''

theorem Trace.one {step : S → List E → S → Prop} {s s' : S} {es : List E} (h : step s es s') :
    Trace step s es s' := .snoc (.nil s) h

theorem Trace.append {step : S → List E → S → Prop} {s s' s'' : S} {log log' : List E}
    (h : Trace step s log s') (h' : Trace step s' log' s'') : Trace step s (log ++ log') s'' := by
  induction h' with
  | nil => rw [List.append_nil]; exact h
  | snoc _ hs ih => rw [← List.append_assoc]; exact .snoc ih hs

/-- Every entry is one that may be made where the fold then stands. -/
def Allowed (after : G → E → G) (ok : G → E → Prop) : G → List E → Prop
  | _, [] => True
  | g, e :: es => ok g e ∧ Allowed after ok (after g e) es

theorem allowed_append {after : G → E → G} {ok : G → E → Prop} : ∀ {g : G} {log es : List E},
    Allowed after ok g (log ++ es) ↔ Allowed after ok g log
      ∧ Allowed after ok (log.foldl after g) es
  | _, [], _ => by simp [Allowed]
  | g, e :: log, es => by
      rw [List.cons_append, Allowed, Allowed, allowed_append, List.foldl_cons, and_assoc]

/-- A condition on the entries alone does not depend on where the fold stands. -/
theorem allowed_and {after : G → E → G} {ok : G → E → Prop} {p : E → Prop} :
    ∀ {g : G} {log : List E}, Allowed after (fun g e => ok g e ∧ p e) g log
      ↔ Allowed after ok g log ∧ ∀ e ∈ log, p e
  | _, [] => by simp [Allowed]
  | g, e :: log => by
      rw [Allowed, Allowed, allowed_and, List.forall_mem_cons, and_and_and_comm]

/-- **The invariant rule for logs.** -/
theorem Trace.fold {step : S → List E → S → Prop} {after : G → E → G} {ok : G → E → Prop}
    {P : S → G → Prop}
    (hs : ∀ s es s' g, P s g → Allowed after ok g es → step s es s' → P s' (es.foldl after g))
    {s s' : S} {log : List E} (h : Trace step s log s') {g : G} (hok : Allowed after ok g log)
    (hp : P s g) : P s' (log.foldl after g) := by
  induction h with
  | nil => exact hp
  | snoc _ hstep ih =>
      obtain ⟨h1, h2⟩ := allowed_append.mp hok
      rw [List.foldl_append]
      exact hs _ _ _ _ (ih h1) h2 hstep

end Run
