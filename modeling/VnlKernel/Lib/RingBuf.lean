import Mathlib.Data.List.Range
import Mathlib.Tactic.Linarith

/-!
# Ring buffers

A ring of `cap` slots with a head where the next element is stored and a tail where
the next one is taken from. It is empty when the two meet; the slot before the tail
is never filled, so a ring holds at most `cap - 1` elements.

Loops that move many elements are the C loops around one push and one pop. Their
specifications are about `toList`, the elements held, oldest first.
-/

structure RingBuf (α : Type) (cap : Nat) where
  buf : Fin cap → α
  hd : Fin cap
  tl : Fin cap

namespace RingBuf

variable {α : Type} {cap : Nat} [NeZero cap]

/-- `(i + 1) % cap`. -/
def succ (i : Fin cap) : Fin cap := ⟨(i + 1) % cap, Nat.mod_lt _ (Nat.pos_of_neZero cap)⟩

/-- A ring with both ends at slot 0. -/
def fresh (buf : Fin cap → α) : RingBuf α cap :=
  ⟨buf, ⟨0, Nat.pos_of_neZero cap⟩, ⟨0, Nat.pos_of_neZero cap⟩⟩

/-- Store one element, unless the ring is full. -/
def push (r : RingBuf α cap) (a : α) : Option (RingBuf α cap) :=
  if succ r.hd = r.tl then none
  else some { r with buf := fun i => if i = r.hd then a else r.buf i, hd := succ r.hd }

/-- Take one element, unless the ring is empty. -/
def pop (r : RingBuf α cap) : Option (α × RingBuf α cap) :=
  if r.tl = r.hd then none else some (r.buf r.tl, { r with tl := succ r.tl })

/-- Store `data i`, `data (i + 1)`, .. until `n` are stored or the ring is full. How many were? -/
def pushLoop (data : Nat → α) : Nat → Nat → RingBuf α cap → Nat × RingBuf α cap
  | 0, _, r => (0, r)
  | n + 1, i, r =>
      match r.push (data i) with
      | none => (0, r)
      | some r =>
          let (k, r) := pushLoop data n (i + 1) r
          (k + 1, r)

/-- Take until `n` are taken or the ring is empty. -/
def popLoop : Nat → RingBuf α cap → List α × RingBuf α cap
  | 0, r => ([], r)
  | n + 1, r =>
      match r.pop with
      | none => ([], r)
      | some (a, r) =>
          let (as, r) := popLoop n r
          (a :: as, r)

/-- How many elements the ring holds. -/
def count (r : RingBuf α cap) : Nat := (r.hd + cap - r.tl) % cap

/-- The elements held, oldest first. -/
def toList (r : RingBuf α cap) : List α :=
  (List.range r.count).map fun k => r.buf ⟨(r.tl + k) % cap, Nat.mod_lt _ (Nat.pos_of_neZero cap)⟩

/-- The first `n` elements of a buffer, from `i` on. -/
def slice (data : Nat → α) (i n : Nat) : List α := (List.range n).map fun k => data (i + k)

@[simp] theorem slice_zero (data : Nat → α) (i : Nat) : slice data i 0 = [] := rfl

@[simp] theorem length_slice (data : Nat → α) (i n : Nat) : (slice data i n).length = n := by
  simp [slice]

theorem slice_succ (data : Nat → α) (i n : Nat) :
    slice data i (n + 1) = data i :: slice data (i + 1) n := by
  unfold slice
  rw [List.range_succ_eq_map, List.map_cons, List.map_map]
  refine congrArg (data i :: ·) (List.map_congr_left fun k _ => ?_)
  simp only [Function.comp]
  congr 1
  omega

variable (r : RingBuf α cap)

@[simp] theorem length_toList : r.toList.length = r.count := by simp [toList]

/-- A ring holds at most `cap - 1` elements. -/
theorem count_lt : r.count < cap := Nat.mod_lt _ (Nat.pos_of_neZero cap)

theorem length_lt : r.toList.length < cap := by
  rw [length_toList]
  exact r.count_lt

@[simp] theorem toList_fresh (buf : Fin cap → α) : (fresh buf).toList = [] := by
  simp [toList, count, fresh]

theorem val_succ (i : Fin cap) : (succ i).val = if i.val + 1 = cap then 0 else i.val + 1 := by
  have h := i.isLt
  unfold succ
  dsimp only
  split
  · next he => rw [he, Nat.mod_self]
  · exact Nat.mod_eq_of_lt (by omega)

omit [NeZero cap] in
/-- The distance from the tail to the head, without the modulus. -/
theorem count_eq :
    r.count = if r.tl.val ≤ r.hd.val then r.hd.val - r.tl.val else r.hd.val + cap - r.tl.val := by
  have h1 := r.hd.isLt
  have h2 := r.tl.isLt
  unfold count
  split
  · rw [show r.hd.val + cap - r.tl = r.hd - r.tl + cap by omega, Nat.add_mod_right]
    exact Nat.mod_eq_of_lt (by omega)
  · exact Nat.mod_eq_of_lt (by omega)

/-- Only an empty ring has its ends together. -/
theorem toList_eq_nil : r.toList = [] ↔ r.tl = r.hd := by
  have h1 := r.hd.isLt
  have h2 := r.tl.isLt
  rw [← List.length_eq_zero_iff, length_toList, count_eq, Fin.ext_iff]
  split
  · omega
  · omega

/-- Only a ring with `cap - 1` elements has its head right before its tail. -/
theorem succ_hd_eq_tl : succ r.hd = r.tl ↔ r.count + 1 = cap := by
  have h1 := r.hd.isLt
  have h2 := r.tl.isLt
  rw [count_eq, Fin.ext_iff, val_succ]
  split_ifs <;> omega

/-! ## One element -/

theorem push_none {a : α} : r.push a = none ↔ r.count + 1 = cap := by
  unfold push
  rw [← succ_hd_eq_tl]
  split
  · next h => simp [h]
  · next h => simp [h]

/-- Storing appends. -/
theorem toList_push {r r' : RingBuf α cap} {a : α} (h : r.push a = some r') :
    r'.toList = r.toList ++ [a] := by
  have hfull : ¬ r.count + 1 = cap := by
    intro hc
    rw [(r.push_none (a := a)).mpr hc] at h
    exact absurd h (by simp)
  have h1 := r.hd.isLt
  have h2 := r.tl.isLt
  unfold push at h
  split at h
  · exact absurd h (by simp)
  · next hne =>
    cases h
    -- one more element, and the slot it went to is the one after the others
    have hcount : ({ r with buf := fun i => if i = r.hd then a else r.buf i, hd := succ r.hd } :
        RingBuf α cap).count = r.count + 1 := by
      rw [count_eq, count_eq]
      dsimp only
      rw [count_eq] at hfull
      simp only [val_succ] at hfull ⊢
      split_ifs at hfull ⊢ <;> omega
    have hhd : (r.tl.val + r.count) % cap = r.hd.val := by
      rw [count_eq]
      split
      · rw [Nat.mod_eq_of_lt (by omega)]; omega
      · rw [show r.tl.val + (r.hd.val + cap - r.tl.val) = r.hd + cap by omega, Nat.add_mod_right]
        exact Nat.mod_eq_of_lt h1
    unfold toList
    rw [hcount, List.range_succ, List.map_append, List.map_singleton]
    congr 1
    · refine List.map_congr_left fun k hk => ?_
      rw [List.mem_range] at hk
      refine if_neg fun he => ?_
      have he : (r.tl.val + k) % cap = r.hd.val := congrArg Fin.val he
      rw [count_eq] at hk
      by_cases hw : r.tl.val + k < cap
      · rw [Nat.mod_eq_of_lt hw] at he
        split at hk <;> omega
      · rw [Nat.mod_eq_sub_mod (by omega), Nat.mod_eq_of_lt (by split at hk <;> omega)] at he
        split at hk <;> omega
    · simp only [hhd, Fin.eta, if_true]

theorem pop_none : r.pop = none ↔ r.toList = [] := by
  rw [toList_eq_nil]
  unfold pop
  split
  · next h => simp [h]
  · next h => simp [h]

/-- Taking removes the oldest element. -/
theorem toList_pop {r r' : RingBuf α cap} {a : α} (h : r.pop = some (a, r')) :
    r.toList = a :: r'.toList := by
  have h1 := r.hd.isLt
  have h2 := r.tl.isLt
  unfold pop at h
  split at h
  · exact absurd h (by simp)
  · next hne =>
    cases h
    have hcount : r.count = ({ r with tl := succ r.tl } : RingBuf α cap).count + 1 := by
      rw [Fin.ext_iff] at hne
      rw [count_eq, count_eq]
      simp only [val_succ]
      split_ifs <;> omega
    unfold toList
    rw [hcount, List.range_succ_eq_map, List.map_cons, List.map_map]
    congr 1
    · simp [Nat.mod_eq_of_lt h2]
    · refine List.map_congr_left fun k _ => congrArg r.buf (Fin.ext ?_)
      change (r.tl.val + (k + 1)) % cap = ((r.tl.val + 1) % cap + k) % cap
      rw [Nat.mod_add_mod]
      congr 1
      omega

/-! ## Many elements -/

/-- A storing loop stores as many elements as there is room for. -/
theorem pushLoop_spec (data : Nat → α) : ∀ (n i : Nat) (r : RingBuf α cap),
    (pushLoop data n i r).1 = min n (cap - 1 - r.toList.length)
      ∧ (pushLoop data n i r).2.toList = r.toList ++ slice data i (pushLoop data n i r).1
  | 0, i, r => by simp [pushLoop]
  | n + 1, i, r => by
      have hlt := r.length_lt
      rw [pushLoop]
      cases hp : r.push (data i) with
      | none =>
          have hfull := r.push_none.mp hp
          rw [← length_toList] at hfull
          dsimp only
          rw [show cap - 1 - r.toList.length = 0 by omega]
          simp
      | some r' =>
          have happ := toList_push hp
          have hlt' := r'.length_lt
          obtain ⟨h1, h2⟩ := pushLoop_spec data n (i + 1) r'
          have hlen : r'.toList.length = r.toList.length + 1 := by rw [happ]; simp
          rw [hlen] at h1 hlt'
          dsimp only
          refine ⟨by rw [h1]; omega, ?_⟩
          rw [h2, happ, List.append_assoc, slice_succ]
          rfl

/-- A taking loop takes the oldest elements and leaves the rest. -/
theorem popLoop_spec : ∀ (n : Nat) (r : RingBuf α cap),
    (popLoop n r).1 = r.toList.take n ∧ (popLoop n r).2.toList = r.toList.drop n
  | 0, r => by simp [popLoop]
  | n + 1, r => by
      rw [popLoop]
      cases hp : r.pop with
      | none =>
          rw [r.pop_none.mp hp]
          simp
      | some p =>
          obtain ⟨a, r'⟩ := p
          obtain ⟨h1, h2⟩ := popLoop_spec n r'
          dsimp only
          rw [toList_pop hp, List.take_succ_cons, List.drop_succ_cons, h1, h2]
          exact ⟨rfl, rfl⟩

end RingBuf
