import VnlKernel.Types
import Mathlib.Data.List.Infix

/-!
# Calls that leave a log

A call notes down what it does on the way. The notes stay when the call does not return, so
that something can be said about calls that never do. More fuel leaves a longer log, and the
same one once the call has ended.
-/

namespace VnlKernel

/-- What a call came to, and what it noted down. -/
structure Logged (E α : Type) where
  log : List E
  out : Outcome α

namespace Logged

variable {E α β : Type}

/-- Note something down. -/
def note (e : E) : Logged E Unit := ⟨[e], .done ()⟩

/-- A call that notes nothing down. -/
def lift (x : Outcome α) : Logged E α := ⟨[], x⟩

/-- The notes of one kind among those of another. -/
def within {E' : Type} (f : E → E') (x : Logged E α) : Logged E' α := ⟨x.log.map f, x.out⟩

def bind (x : Logged E α) (f : α → Logged E β) : Logged E β :=
  match x.out with
  | .done a => ⟨x.log ++ (f a).log, (f a).out⟩
  | .panic msg => ⟨x.log, .panic msg⟩
  | .timeout => ⟨x.log, .timeout⟩

instance : Monad (Logged E) where
  pure a := ⟨[], .done a⟩
  bind := bind

@[simp] theorem pure_out (a : α) : (pure a : Logged E α).out = .done a := rfl

@[simp] theorem pure_log (a : α) : (pure a : Logged E α).log = [] := rfl

@[simp] theorem lift_out (x : Outcome α) : (lift x : Logged E α).out = x := rfl

@[simp] theorem lift_log (x : Outcome α) : (lift x : Logged E α).log = [] := rfl

@[simp] theorem note_out (e : E) : (note e).out = .done () := rfl

@[simp] theorem note_log (e : E) : (note e).log = [e] := rfl

@[simp] theorem bind_out (x : Logged E α) (f : α → Logged E β) :
    (x >>= f).out = x.out >>= fun a => (f a).out := by
  change (bind x f).out = _
  rw [bind]
  cases x.out with
  | done a => rfl
  | panic msg => rfl
  | timeout => rfl

theorem mem_bind {x : Logged E α} {f : α → Logged E β} {e : E} :
    e ∈ (x >>= f).log ↔ e ∈ x.log ∨ ∃ a, x.out = .done a ∧ e ∈ (f a).log := by
  change e ∈ (bind x f).log ↔ _
  rw [bind]
  cases hx : x.out with
  | done a => simp
  | panic msg => simp
  | timeout => simp

theorem forall_mem_bind {x : Logged E α} {f : α → Logged E β} {P : E → Prop} :
    (∀ e ∈ (x >>= f).log, P e) ↔ (∀ e ∈ x.log, P e) ∧ ∀ a, x.out = .done a → ∀ e ∈ (f a).log,
      P e := by
  constructor
  · intro h
    exact ⟨fun e he => h e (mem_bind.mpr (.inl he)),
      fun a ha e he => h e (mem_bind.mpr (.inr ⟨a, ha, he⟩))⟩
  · intro ⟨hx, hf⟩ e he
    rcases mem_bind.mp he with he | ⟨a, ha, he⟩
    · exact hx e he
    · exact hf a ha e he

theorem bind_of_done {x : Logged E α} {a : α} (h : x.out = .done a) (f : α → Logged E β) :
    (x >>= f) = ⟨x.log ++ (f a).log, (f a).out⟩ := by
  change bind x f = _
  rw [bind, h]

/-- A call that has returned is its notes, and what it returned. -/
theorem bind_of_done' {x : Logged E α} {a : α} (h : x.out = .done a) (f : α → Logged E β) :
    (x >>= f) = (⟨x.log, .done ()⟩ : Logged E Unit) >>= fun _ => f a := by
  rw [bind_of_done h, bind_of_done rfl]

@[simp] theorem pure_bind (a : α) (f : α → Logged E β) : (pure a >>= f) = f a := by
  rw [bind_of_done (pure_out a), pure_log, List.nil_append]

theorem bind_pure (x : Logged E α) : (x >>= pure) = x := by
  change bind x pure = x
  obtain ⟨log, out⟩ := x
  cases out with
  | done a => simp only [bind, pure_log, pure_out, List.append_nil]
  | panic msg => rfl
  | timeout => rfl

theorem bind_of_not_done {x : Logged E α} (h : ∀ a, x.out ≠ .done a) (f : α → Logged E β) :
    (x >>= f).log = x.log := by
  change (bind x f).log = _
  rw [bind]
  cases hx : x.out with
  | done a => exact absurd hx (h a)
  | panic msg => rfl
  | timeout => rfl

theorem bind_timeout {x : Logged E α} (h : x.out = .timeout) (f : α → Logged E β) :
    (x >>= f) = ⟨x.log, .timeout⟩ := by
  change bind x f = _
  rw [bind, h]

theorem bind_assoc {γ : Type} (x : Logged E α) (f : α → Logged E β) (g : β → Logged E γ) :
    (x >>= f) >>= g = x >>= fun a => f a >>= g := by
  change bind (bind x f) g = bind x fun a => bind (f a) g
  obtain ⟨log, out⟩ := x
  cases out with
  | done a =>
      simp only [bind]
      cases (f a).out with
      | done b => simp only [List.append_assoc]
      | panic msg => rfl
      | timeout => rfl
  | panic msg => rfl
  | timeout => rfl

/-! ## What every note and every result is like -/

/-- Every note satisfies `P`, and what is returned satisfies `Q`. -/
def Keeps (P : E → Prop) (Q : α → Prop) (x : Logged E α) : Prop :=
  (∀ e ∈ x.log, P e) ∧ ∀ a, x.out = .done a → Q a

variable {P : E → Prop} {Q Q' : α → Prop} {R : β → Prop}

theorem Keeps.pure {a : α} (h : Q a) : Keeps P Q (pure a : Logged E α) :=
  ⟨by simp, fun _ he => by cases he; exact h⟩

theorem Keeps.lift {x : Outcome α} (h : ∀ a, x = .done a → Q a) : Keeps P Q (lift x : Logged E α) :=
  ⟨by simp, h⟩

theorem Keeps.timeout : Keeps P Q (Logged.lift .timeout : Logged E α) :=
  Keeps.lift fun _ h => by cases h

theorem Keeps.bind {x : Logged E α} {f : α → Logged E β} (hx : Keeps P Q x)
    (hf : ∀ a, Q a → Keeps P R (f a)) : Keeps P R (x >>= f) := by
  refine ⟨fun e he => ?_, fun b hb => ?_⟩
  · rcases mem_bind.mp he with h | ⟨a, ha, h⟩
    · exact hx.1 e h
    · exact (hf a (hx.2 a ha)).1 e h
  · rw [bind_out] at hb
    obtain ⟨a, ha, hb⟩ := Outcome.bind_eq_done hb
    exact (hf a (hx.2 a ha)).2 b hb

theorem Keeps.mono {x : Logged E α} (h : Keeps P Q x) (hq : ∀ a, Q a → Q' a) : Keeps P Q' x :=
  ⟨h.1, fun a ha => hq a (h.2 a ha)⟩

theorem Keeps.and {x : Logged E α} (h : Keeps P Q x) (h' : ∀ a, x.out = .done a → Q' a) :
    Keeps P (fun a => Q a ∧ Q' a) x :=
  ⟨h.1, fun a ha => ⟨h.2 a ha, h' a ha⟩⟩

/-- Every note satisfies `P`, and the call returns `a`. -/
def Comes (P : E → Prop) (x : Logged E α) (a : α) : Prop := (∀ e ∈ x.log, P e) ∧ x.out = .done a

theorem Comes.pure (a : α) : Comes P (pure a : Logged E α) a := ⟨by simp, rfl⟩

theorem Comes.note {e : E} (h : P e) : Comes P (note e) () :=
  ⟨fun e' he => by
    rw [note_log, List.mem_singleton] at he
    rw [he]
    exact h, rfl⟩

theorem Comes.bind {x : Logged E α} {f : α → Logged E β} {a : α} {b : β} (hx : Comes P x a)
    (hf : Comes P (f a) b) : Comes P (x >>= f) b := by
  rw [bind_of_done hx.2]
  refine ⟨fun e he => ?_, hf.2⟩
  rcases List.mem_append.mp he with h | h
  · exact hx.1 e h
  · exact hf.1 e h

theorem Comes.mono {P' : E → Prop} {x : Logged E α} {a : α} (h : Comes P x a)
    (hp : ∀ e, P e → P' e) : Comes P' x a :=
  ⟨fun e he => hp e (h.1 e he), h.2⟩

theorem Comes.keeps {x : Logged E α} {a : α} (h : Comes P x a) (hq : Q a) : Keeps P Q x :=
  ⟨h.1, fun b hb => by
    rw [h.2] at hb
    cases hb
    exact hq⟩

theorem Comes.notes {x : Logged E α} {a : α} (h : Comes P x a) : Keeps P (fun _ => True) x :=
  h.keeps trivial

/-- Every note satisfies `P`, and the call returns. -/
def Fine (P : E → Prop) (x : Logged E α) : Prop := (∀ e ∈ x.log, P e) ∧ ∃ a, x.out = .done a

@[simp] theorem fine_pure (a : α) : Fine P (Pure.pure a : Logged E α) := ⟨by simp, a, rfl⟩

@[simp] theorem fine_note {e : E} : Fine P (Logged.note e) ↔ P e :=
  ⟨fun h => h.1 e (List.mem_singleton_self e), fun h => ⟨fun e' he => by
    rw [note_log, List.mem_singleton] at he
    rw [he]
    exact h, (), rfl⟩⟩

@[simp] theorem not_fine_panic (msg : String) :
    ¬ Fine P (Logged.lift (.panic msg) : Logged E α) := by
  intro ⟨_, a, ha⟩
  cases ha

@[simp] theorem not_fine_timeout : ¬ Fine P (Logged.lift .timeout : Logged E α) := by
  intro ⟨_, a, ha⟩
  cases ha

/-- A sequence is fine if both halves are. -/
theorem fine_bind {x : Logged E α} {f : α → Logged E β} :
    Fine P (x >>= f) ↔ Fine P x ∧ ∀ a, x.out = .done a → Fine P (f a) := by
  constructor
  · intro ⟨hlog, b, hb⟩
    rw [bind_out] at hb
    obtain ⟨a, ha, hb⟩ := Outcome.bind_eq_done hb
    refine ⟨⟨fun e he => hlog e (mem_bind.mpr (.inl he)), a, ha⟩, fun a' ha' => ?_⟩
    cases ha.symm.trans ha'
    exact ⟨fun e he => hlog e (mem_bind.mpr (.inr ⟨a, ha, he⟩)), b, hb⟩
  · intro ⟨⟨hlog, a, ha⟩, hf⟩
    obtain ⟨hlog', b, hb⟩ := hf a ha
    refine ⟨fun e he => ?_, b, by rw [bind_out, ha]; exact hb⟩
    rcases mem_bind.mp he with he | ⟨a', ha', he⟩
    · exact hlog e he
    · cases ha.symm.trans ha'
      exact hlog' e he

/-- What comes first is known, and what it returns. -/
theorem fine_bind_done {x : Logged E α} {f : α → Logged E β} {a : α} (hx : x.out = .done a) :
    Fine P (x >>= f) ↔ (∀ e ∈ x.log, P e) ∧ Fine P (f a) := by
  rw [fine_bind]
  constructor
  · intro ⟨h, hf⟩
    exact ⟨h.1, hf a hx⟩
  · intro ⟨h, hf⟩
    refine ⟨⟨h, a, hx⟩, fun b hb => ?_⟩
    cases hx.symm.trans hb
    exact hf

/-! ## Calls that return where their notes are good -/

/-- Every note satisfies `P`. Given fuel enough, the call returns exactly if every note is good, and
what it returns satisfies `Q`, which may look at the notes too. -/
structure Settles (P Good : E → Prop) (enough : Prop) (Q : List E → α → Prop) (x : Logged E α) : Prop where
  notes : ∀ e ∈ x.log, P e
  done : ∀ a, x.out = .done a → Q x.log a ∧ ∀ e ∈ x.log, Good e
  returns : enough → (∀ e ∈ x.log, Good e) → ∃ a, x.out = .done a

section Settles

variable {Good : E → Prop} {enough : Prop} {Q Q' : List E → α → Prop} {R : List E → β → Prop}

theorem Settles.pure {a : α} (h : Q [] a) : Settles P Good enough Q (pure a : Logged E α) where
  notes := by simp
  done := by
    intro b hb
    cases hb
    exact ⟨h, by simp⟩
  returns := fun _ _ => ⟨a, rfl⟩

theorem Settles.timeout (h : ¬ enough) : Settles P Good enough Q (.lift .timeout) where
  notes := by simp
  done := by
    intro a ha
    cases ha
  returns := fun he => absurd he h

theorem Settles.bind {x : Logged E α} {f : α → Logged E β} (hx : Settles P Good enough Q x)
    (hf : ∀ l a, Q l a → Settles P Good enough (fun l' b => R (l ++ l') b) (f a)) :
    Settles P Good enough R (x >>= f) where
  notes := by
    intro e he
    rcases mem_bind.mp he with h | ⟨a, ha, h⟩
    · exact hx.notes e h
    · exact (hf _ a (hx.done a ha).1).notes e h
  done := by
    intro b hb
    rw [bind_out] at hb
    obtain ⟨a, ha, hb⟩ := Outcome.bind_eq_done hb
    obtain ⟨hq, hgood⟩ := hx.done a ha
    obtain ⟨hr, hgood'⟩ := (hf _ a hq).done b hb
    rw [bind_of_done ha]
    refine ⟨hr, fun e he => ?_⟩
    rcases List.mem_append.mp he with h | h
    · exact hgood e h
    · exact hgood' e h
  returns := by
    intro henough hgood
    obtain ⟨a, ha⟩ := hx.returns henough fun e he => hgood e (mem_bind.mpr (.inl he))
    obtain ⟨b, hb⟩ := (hf _ a (hx.done a ha).1).returns henough
      fun e he => hgood e (mem_bind.mpr (.inr ⟨a, ha, he⟩))
    exact ⟨b, by rw [bind_out, ha]; exact hb⟩

theorem Settles.mono {P' : E → Prop} {enough' : Prop} {x : Logged E α}
    (hx : Settles P Good enough Q x)
    (hp : ∀ e, P e → P' e) (he : enough' → enough) (hq : ∀ l a, Q l a → Q' l a) :
    Settles P' Good enough' Q' x where
  notes := fun e h => hp e (hx.notes e h)
  done := fun a ha => ⟨hq _ a (hx.done a ha).1, (hx.done a ha).2⟩
  returns := fun h => hx.returns (he h)

/-- What returns, and notes down nothing bad. -/
theorem Settles.of_comes {x : Logged E α} {a : α} (hx : x.Comes (fun e => P e ∧ Good e) a)
    (ha : Q x.log a) :
    Settles P Good enough Q x where
  notes := fun e he => (hx.1 e he).1
  done := by
    intro b hb
    rw [hx.2] at hb
    cases hb
    exact ⟨ha, fun e he => (hx.1 e he).2⟩
  returns := fun _ _ => ⟨a, hx.2⟩

/-- Something is done first that returns, and notes down nothing bad. -/
theorem Settles.after {x : Logged E α} {f : α → Logged E β} {a : α}
    (hx : x.Comes (fun e => P e ∧ Good e) a)
    (hf : Settles P Good enough (fun l b => R (x.log ++ l) b) (f a)) :
    Settles P Good enough R (x >>= f) := by
  refine Settles.bind (Q := fun l b => l = x.log ∧ b = a) (.of_comes hx ⟨rfl, rfl⟩) fun l b h => ?_
  obtain ⟨rfl, rfl⟩ := h
  exact hf

end Settles

theorem log_prefix_bind (x : Logged E α) (f : α → Logged E β) : x.log <+: (x >>= f).log := by
  change _ <+: (Logged.bind x f).log
  rw [Logged.bind]
  cases x.out with
  | done a => exact List.prefix_append _ _
  | panic msg => exact List.prefix_rfl
  | timeout => exact List.prefix_rfl

/-! ## More fuel -/

/-- The call `y` is `x`, or goes on where `x` ran out of fuel. -/
def Below (x y : Logged E α) : Prop := x = y ∨ x.out = .timeout ∧ x.log <+: y.log

theorem Below.refl (x : Logged E α) : Below x x := .inl rfl

theorem Below.trans {x y z : Logged E α} (h : Below x y) (h' : Below y z) : Below x z := by
  rcases h with rfl | ⟨h1, h2⟩
  · exact h'
  · rcases h' with rfl | ⟨_, h3⟩
    · exact .inr ⟨h1, h2⟩
    · exact .inr ⟨h1, h2.trans h3⟩

theorem Below.timeout (y : Logged E α) : Below (Logged.lift .timeout) y :=
  .inr ⟨rfl, List.nil_prefix⟩

theorem Below.lift {x y : Outcome α} (h : x = y ∨ x = .timeout) :
    Below (Logged.lift x : Logged E α) (Logged.lift y) := by
  rcases h with rfl | rfl
  · exact .refl _
  · exact .timeout _

theorem Below.ite {c : Prop} [Decidable c] {x x' y y' : Logged E α} (hx : Below x x')
    (hy : Below y y') :
    Below (if c then x else y) (if c then x' else y') := by
  split
  · exact hx
  · exact hy

theorem Below.bind {x y : Logged E α} {f g : α → Logged E β} (h : Below x y)
    (hf : ∀ a, Below (f a) (g a)) : Below (x >>= f) (y >>= g) := by
  rcases h with rfl | ⟨h1, h2⟩
  · cases hx : x.out with
    | done a =>
        rw [bind_of_done hx, bind_of_done hx]
        rcases hf a with h | ⟨h1, h2⟩
        · rw [h]
          exact .refl _
        · exact .inr ⟨h1, (List.prefix_append_right_inj _).mpr h2⟩
    | panic msg => exact .inl (by change Logged.bind x f = Logged.bind x g; rw [Logged.bind, Logged.bind, hx])
    | timeout => exact .inl (by change Logged.bind x f = Logged.bind x g; rw [Logged.bind, Logged.bind, hx])
  · refine .inr ⟨by rw [bind_out, h1]; rfl, ?_⟩
    rw [bind_timeout h1]
    exact h2.trans (log_prefix_bind y g)

theorem Below.done {x y : Logged E α} {a : α} (h : Below x y) (hx : x.out = .done a) : x = y := by
  rcases h with h | ⟨h, _⟩
  · exact h
  · rw [h] at hx
    cases hx

theorem Below.mem {x y : Logged E α} (h : Below x y) {e : E} (he : e ∈ x.log) : e ∈ y.log := by
  rcases h with rfl | ⟨_, h⟩
  · exact he
  · exact h.subset he

/-- What one unit of fuel more leaves as it is, any fuel more does. -/
theorem Below.of_le {x : Nat → Logged E α} (h : ∀ n, Below (x n) (x (n + 1))) {n m : Nat}
    (hnm : n ≤ m) :
    Below (x n) (x m) := by
  induction hnm with
  | refl => exact .refl _
  | step _ ih => exact ih.trans (h _)

/-! ## Loops -/

/-- The first `n` turns of `for (int i = 0; …; i++)`. -/
def forUpTo (body : Nat → α → Logged E α) (a : α) : Nat → Logged E α
  | 0 => Pure.pure a
  | n + 1 => do
      let a ← forUpTo body a n
      body n a

/-- `g i` is what there is after `i` turns. -/
theorem Comes.forUpTo {body : Nat → α → Logged E α} {g : Nat → α} :
    ∀ {n : Nat}, (∀ i, i < n → Comes P (body i (g i)) (g (i + 1)))
      → Comes P (forUpTo body (g 0) n) (g n)
  | 0, _ => Comes.pure _
  | n + 1, h => (Comes.forUpTo fun i hi => h i (Nat.lt_succ_of_lt hi)).bind
      (h n (Nat.lt_succ_self n))

end Logged

/-! ## Accesses -/

/-- What a call does with an array. -/
inductive Access where
  /-- It reads or writes bytes up to `stop`, of `size`. -/
  | span (stop size : Nat)
  /-- It reads it as a string. -/
  | str (terminated : Bool)
deriving DecidableEq

/-- The access stays inside the array. -/
def Access.InBounds : Access → Prop
  | .span stop size => stop ≤ size
  | .str terminated => terminated = true

instance : DecidablePred Access.InBounds
  | .span _ _ => inferInstanceAs (Decidable (_ ≤ _))
  | .str _ => inferInstanceAs (Decidable (_ = _))

end VnlKernel
