import VnlKernel.Lib.RingBuf

/-!
# Taking from a ring that others use

`RingBuf.popLoop` takes elements and nobody comes in between. Here the same loop is
cut at every access to the ring, and between two accesses the ring may change.

Two loops on one ring spoil each other: both may take the same element, or one may
move the tail back. If nobody else moves the tail while a loop has a copy of it, the
loop takes the oldest element each time, whatever is stored behind it meanwhile.
-/

namespace RingBuf

/-- What the loop accesses next. -/
inductive TakePos (α : Type) (cap : Nat) where
  /-- The tail, to see whether anything is there. -/
  | test
  /-- The head, which is compared with the tail that was read. -/
  | compare (t : Fin cap)
  /-- The tail, to find the element. -/
  | pick
  | load (t : Fin cap)
  /-- The tail, to move it past the element `a`. -/
  | bump (a : α)
  | store (a : α) (t : Fin cap)
deriving DecidableEq

/-- A loop that takes up to `room` elements, and what it has taken. -/
structure Taker (α : Type) (cap : Nat) where
  room : Nat
  out : List α
  pos : TakePos α cap
deriving DecidableEq

variable {α : Type} {cap : Nat} [NeZero cap]

/-- A loop before its first access. -/
def Taker.start (room : Nat) : Taker α cap := ⟨room, [], .test⟩

/-- One access: the ring, the element that has left it if one has, and the loop, unless it is
over. -/
def Taker.go (k : Taker α cap) (r : RingBuf α cap) :
    RingBuf α cap × Option α × Option (Taker α cap) :=
  match k.pos with
  | .test =>
      if k.out.length < k.room then (r, none, some { k with pos := .compare r.tl })
      else (r, none, none)
  | .compare t => if t = r.hd then (r, none, none) else (r, none, some { k with pos := .pick })
  | .pick => (r, none, some { k with pos := .load r.tl })
  | .load t => (r, none, some { k with out := k.out ++ [r.buf t], pos := .bump (r.buf t) })
  | .bump a => (r, none, some { k with pos := .store a r.tl })
  | .store a t => ({ r with tl := succ t }, some a, some { k with pos := .test })

/-- Has the loop looked at the tail and not moved it yet? -/
def Taker.taking (k : Taker α cap) : Bool :=
  match k.pos with
  | .test => false
  | _ => true

/-- Is the loop about to look at the tail? -/
def Taker.begins (k : Taker α cap) : Bool :=
  match k.pos with
  | .test => k.out.length < k.room
  | _ => false

/-- **What the loop knows of the ring.** -/
def Taker.Holds (k : Taker α cap) (r : RingBuf α cap) : Prop :=
  match k.pos with
  | .test => True
  | .compare t => t = r.tl
  | .pick => r.toList ≠ []
  | .load t => t = r.tl ∧ r.toList ≠ []
  | .bump a => r.toList.head? = some a
  | .store a t => t = r.tl ∧ r.toList.head? = some a

/-- More may have been stored, and nothing was taken. -/
structure Fed (r r' : RingBuf α cap) : Prop where
  tl : r'.tl = r.tl
  held : r.toList <+: r'.toList

section Taking

variable {k k' : Taker α cap} {r r' : RingBuf α cap} {a : α} {m : Option α}

theorem Fed.refl (r : RingBuf α cap) : Fed r r := ⟨rfl, List.prefix_rfl⟩

theorem Fed.trans {r'' : RingBuf α cap} (h : Fed r r') (h' : Fed r' r'') : Fed r r'' :=
  ⟨h'.tl.trans h.tl, h.held.trans h'.held⟩

theorem Fed.push (h : r.push a = some r') : Fed r r' := by
  refine ⟨?_, ?_⟩
  · unfold RingBuf.push at h
    split at h
    · exact absurd h (by simp)
    · cases h; rfl
  · rw [toList_push h]
    exact List.prefix_append _ _

theorem Fed.pushLoop (data : Nat → α) : ∀ (n i : Nat) (r : RingBuf α cap),
    Fed r (RingBuf.pushLoop data n i r).2
  | 0, _, r => Fed.refl r
  | n + 1, i, r => by
      rw [RingBuf.pushLoop]
      cases hp : r.push (data i) with
      | none => exact Fed.refl r
      | some r' => exact (Fed.push hp).trans (Fed.pushLoop data n (i + 1) r')

theorem Fed.ne_nil (h : Fed r r') (hr : r.toList ≠ []) : r'.toList ≠ [] := by
  obtain ⟨rest, hrest⟩ := h.held
  rw [← hrest]
  simp [hr]

theorem Fed.head (h : Fed r r') (hr : r.toList.head? = some a) : r'.toList.head? = some a := by
  obtain ⟨rest, hrest⟩ := h.held
  rw [← hrest, List.head?_append, hr]
  rfl

/-- Storing does not disturb the loop. -/
theorem Taker.Holds.fed (h : k.Holds r) (hf : Fed r r') : k.Holds r' := by
  unfold Taker.Holds at h ⊢
  cases hp : k.pos with
  | test => trivial
  | compare t => rw [hp] at h; exact h.trans hf.tl.symm
  | pick => rw [hp] at h; exact hf.ne_nil h
  | load t => rw [hp] at h; exact ⟨h.1.trans hf.tl.symm, hf.ne_nil h.2⟩
  | bump a => rw [hp] at h; exact hf.head h
  | store a t => rw [hp] at h; exact ⟨h.1.trans hf.tl.symm, hf.head h.2⟩

/-- The oldest element is the one at the tail. -/
theorem toList_eq_cons (h : r.toList ≠ []) :
    r.toList = r.buf r.tl :: ({ r with tl := succ r.tl } : RingBuf α cap).toList := by
  refine toList_pop ?_
  unfold pop
  exact if_neg fun hc => h ((toList_eq_nil r).mpr hc)

/-- **One access keeps what the loop knows**, and what leaves the ring is its oldest element. -/
theorem Taker.Holds.go (h : k.Holds r) (hg : k.go r = (r', m, some k')) :
    k'.Holds r' ∧ r.toList = m.toList ++ r'.toList := by
  unfold Taker.go at hg
  unfold Taker.Holds at h
  cases hp : k.pos with
  | test =>
      rw [hp] at hg
      dsimp only at hg
      split at hg
      · cases hg; exact ⟨rfl, rfl⟩
      · exact absurd hg (by simp)
  | compare t =>
      rw [hp] at h hg
      dsimp only at h hg
      split at hg
      · exact absurd hg (by simp)
      · next hne =>
        cases hg
        exact ⟨fun hc => hne (h.trans ((toList_eq_nil r).mp hc)), rfl⟩
  | pick => rw [hp] at h hg; cases hg; exact ⟨⟨rfl, h⟩, rfl⟩
  | load t =>
      rw [hp] at h hg
      cases hg
      refine ⟨?_, rfl⟩
      change r.toList.head? = some (r.buf t)
      rw [toList_eq_cons h.2, h.1]
      rfl
  | bump a => rw [hp] at h hg; cases hg; exact ⟨⟨rfl, h⟩, rfl⟩
  | store a t =>
      rw [hp] at h hg
      cases hg
      obtain ⟨rfl, ha⟩ := h
      have hne : r.toList ≠ [] := by
        intro hc
        rw [hc] at ha
        exact absurd ha (by simp)
      have hcons := toList_eq_cons hne
      rw [hcons, List.head?_cons, Option.some.injEq] at ha
      exact ⟨trivial, by rw [hcons, ha]; rfl⟩

/-- The loop ends without touching the ring. -/
theorem Taker.go_over (hg : k.go r = (r', m, none)) : r' = r ∧ m = none := by
  unfold Taker.go at hg
  cases hp : k.pos with
  | test =>
      rw [hp] at hg
      dsimp only at hg
      split at hg
      · exact absurd hg (by simp)
      · cases hg; exact ⟨rfl, rfl⟩
  | compare t =>
      rw [hp] at hg
      dsimp only at hg
      split at hg
      · cases hg; exact ⟨rfl, rfl⟩
      · exact absurd hg (by simp)
  | pick => rw [hp] at hg; exact absurd hg (by simp)
  | load t => rw [hp] at hg; exact absurd hg (by simp)
  | bump a => rw [hp] at hg; exact absurd hg (by simp)
  | store a t => rw [hp] at hg; exact absurd hg (by simp)

/-- A loop that goes on has looked at the tail, or is about to. -/
theorem Taker.go_in (hg : k.go r = (r', m, some k')) : k.taking = true ∨ k.begins = true := by
  unfold Taker.go at hg
  unfold Taker.taking Taker.begins
  cases hp : k.pos with
  | test =>
      rw [hp] at hg
      dsimp only at hg
      split at hg
      · next hlt => exact Or.inr (by simpa using hlt)
      · exact absurd hg (by simp)
  | _ => exact Or.inl rfl

/-- Only the last access of a turn moves the tail. -/
theorem Taker.go_same (hg : k.go r = (r', none, some k')) : r' = r := by
  unfold Taker.go at hg
  cases hp : k.pos with
  | test =>
      rw [hp] at hg
      dsimp only at hg
      split at hg
      · cases hg; rfl
      · exact absurd hg (by simp)
  | compare t =>
      rw [hp] at hg
      dsimp only at hg
      split at hg
      · exact absurd hg (by simp)
      · cases hg; rfl
  | pick => rw [hp] at hg; cases hg; rfl
  | load t => rw [hp] at hg; cases hg; rfl
  | bump a => rw [hp] at hg; cases hg; rfl
  | store a t => rw [hp] at hg; exact absurd hg (by simp)

/-- A loop that has not looked at the tail needs to know nothing. -/
theorem Taker.holds_of_not_taking (h : k.taking = false) (r : RingBuf α cap) : k.Holds r := by
  unfold Taker.taking at h
  unfold Taker.Holds
  cases hp : k.pos with
  | test => trivial
  | _ => rw [hp] at h; exact absurd h (by simp)

end Taking

end RingBuf
