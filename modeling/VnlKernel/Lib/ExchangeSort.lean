import Mathlib.Data.List.Basic
import Mathlib.Data.List.Perm.Basic
import Mathlib.Tactic.Common

/-!
# Exchange sort

Two nested loops over an array. The outer one goes through the places from the left; the
inner one compares what stands at that place with everything behind it, and exchanges the two
where they are the wrong way round. After a turn of the outer loop the least of what was left
stands at its place, and what is behind it is what was there before, in some other order.
-/

namespace ExchangeSort

variable {α : Type} (gt : α → α → Bool)

/-- Put the elements at two places the right way round. -/
def exchange (l : List α) (i j : Nat) : List α :=
  match l[i]?, l[j]? with
  | some x, some y => if gt x y then (l.set i y).set j x else l
  | _, _ => l

/-- The inner loop, over the `n` places from `j` on. -/
def inner (i : Nat) : Nat → Nat → List α → List α
  | 0, _, l => l
  | n + 1, j, l => inner i n (j + 1) (exchange gt l i j)

/-- The outer loop, over the `n` places from `i` on. -/
def outer : Nat → Nat → List α → List α
  | 0, _, l => l
  | n + 1, i, l => outer n (i + 1) (inner gt i (l.length - (i + 1)) (i + 1) l)

def sort (l : List α) : List α := outer gt (l.length - 1) 0 l

variable {gt}

/-! ## The inner loop -/

/-- One exchange with the element at `j` either takes place or does not. -/
theorem exchange_at {pre mid post : List α} {x y : α} :
    exchange gt (pre ++ x :: mid ++ y :: post) pre.length
    (pre.length + 1 + mid.length)
    = if gt x y then pre ++ y :: mid ++ x :: post else pre ++ x :: mid ++ y :: post := by
  have hi : (pre ++ x :: mid ++ y :: post)[pre.length]? = some x := by simp
  have hj : (pre ++ x :: mid ++ y :: post)[pre.length + 1 + mid.length]? = some y := by
    rw [List.getElem?_append_right (by simp; omega)]
    simp only [List.length_append, List.length_cons]
    rw [show pre.length + 1 + mid.length - (pre.length + (mid.length + 1)) = 0 by omega]
    rfl
  rw [exchange, hi, hj]
  dsimp only
  split
  · have hset : (pre ++ x :: mid ++ y :: post).set pre.length y = pre ++ y :: mid ++ y :: post := by
      simp
    rw [hset, List.set_append_right _ _ (by simp; omega)]
    simp only [List.length_append, List.length_cons]
    rw [show pre.length + 1 + mid.length - (pre.length + (mid.length + 1)) = 0 by omega]
    rfl
  · rfl

/-- The order in which elements stand where nothing is left to exchange. -/
def Le (gt : α → α → Bool) (x y : α) : Prop := gt x y = false

/-- A comparison that is total and transitive. -/
structure Total (gt : α → α → Bool) : Prop where
  total : ∀ x y, gt x y = true → Le gt y x
  trans : ∀ x y z, Le gt x y → Le gt y z → Le gt x z

/-- **The inner loop brings the least element to its place** and leaves the others in some order.
What it has seen already is not less than what stands there. -/
theorem inner_spec (h : Total gt) (pre : List α) : ∀ (post mid : List α) (x : α),
    (∀ y ∈ mid, Le gt x y) →
    ∃ x' rest, inner gt pre.length post.length (pre.length + 1 + mid.length)
    (pre ++ x :: mid ++ post)
        = pre ++ x' :: rest ∧ (x :: mid ++ post).Perm (x' :: rest) ∧ ∀ y ∈ rest, Le gt x' y
  | [], mid, x, hmid => ⟨x, mid, by simp [inner], by simp, hmid⟩
  | y :: post, mid, x, hmid => by
      rw [List.length_cons, inner, exchange_at]
      by_cases hxy : gt x y = true
      · have hyx := h.total x y hxy
        have hmid' : ∀ z ∈ mid ++ [x], Le gt y z := by
          intro z hz
          rcases List.mem_append.mp hz with hz | hz
          · exact h.trans y x z hyx (hmid z hz)
          · rw [List.mem_singleton.mp hz]
            exact hyx
        obtain ⟨x', rest, heq, hperm, hle⟩ := inner_spec h pre post (mid ++ [x]) y hmid'
        rw [if_pos hxy]
        refine ⟨x', rest, ?_, ?_, hle⟩
        · rw [← heq]
          simp [Nat.add_assoc]
        · refine List.Perm.trans ?_ hperm
          have hswap : (x :: mid ++ y :: post).Perm (y :: (x :: mid ++ post)) := List.perm_middle
          have hback : (x :: (mid ++ post)).Perm (mid ++ [x] ++ post) := by
            rw [List.append_assoc, List.singleton_append]
            exact List.perm_middle.symm
          exact hswap.trans (List.Perm.cons y hback)
      · have hmid' : ∀ z ∈ mid ++ [y], Le gt x z := by
          intro z hz
          rcases List.mem_append.mp hz with hz | hz
          · exact hmid z hz
          · rw [List.mem_singleton.mp hz]
            exact Bool.eq_false_iff.mpr hxy
        obtain ⟨x', rest, heq, hperm, hle⟩ := inner_spec h pre post (mid ++ [y]) x hmid'
        rw [if_neg hxy]
        refine ⟨x', rest, ?_, ?_, hle⟩
        · rw [← heq]
          simp [Nat.add_assoc]
        · refine List.Perm.trans ?_ hperm
          simp

/-! ## The outer loop -/

/-- **The outer loop**, from a place on in front of which everything is in order. -/
theorem outer_spec (h : Total gt) : ∀ (n : Nat) (pre post : List α), post.length = n + 1 →
    pre.Pairwise (Le gt) → (∀ x ∈ pre, ∀ y ∈ post, Le gt x y) →
    (outer gt n pre.length (pre ++ post)).Perm (pre ++ post)
      ∧ (outer gt n pre.length (pre ++ post)).Pairwise (Le gt)
  | 0, pre, post, hlen, hpre, hle => by
      obtain ⟨x, rfl⟩ := List.length_eq_one_iff.mp hlen
      refine ⟨List.Perm.refl _, ?_⟩
      rw [outer, List.pairwise_append]
      exact ⟨hpre, List.pairwise_singleton _ _, hle⟩
  | n + 1, pre, post, hlen, hpre, hle => by
      obtain ⟨x, tl, rfl⟩ := List.exists_cons_of_length_eq_add_one hlen
      rw [List.length_cons] at hlen
      obtain ⟨x', rest, heq, hperm, hmin⟩ := inner_spec h pre tl [] x (by simp)
      have hinner : inner gt pre.length ((pre ++ x :: tl).length - (pre.length + 1))
        (pre.length + 1) (pre ++ x :: tl)
          = pre ++ x' :: rest := by
        have hn : (pre ++ x :: tl).length - (pre.length + 1) = tl.length := by
          rw [List.length_append, List.length_cons]
          omega
        rw [hn, ← heq]
        simp
      have hperm' : (x :: tl).Perm (x' :: rest) := by simpa using hperm
      have hrest : rest.length = n + 1 := by
        have := hperm'.length_eq
        rw [List.length_cons, List.length_cons] at this
        omega
      have hle' : ∀ z ∈ pre, ∀ y ∈ x' :: rest, Le gt z y :=
        fun z hz y hy => hle z hz y (hperm'.mem_iff.mpr hy)
      have hpre' : (pre ++ [x']).Pairwise (Le gt) := by
        rw [List.pairwise_append]
        refine ⟨hpre, List.pairwise_singleton _ _, fun z hz y hy => ?_⟩
        rw [List.mem_singleton.mp hy]
        exact hle' z hz x' (List.mem_cons_self ..)
      have hbound : ∀ z ∈ pre ++ [x'], ∀ y ∈ rest, Le gt z y := by
        intro z hz y hy
        rcases List.mem_append.mp hz with hz | hz
        · exact hle' z hz y (List.mem_cons_of_mem _ hy)
        · rw [List.mem_singleton.mp hz]
          exact hmin y hy
      obtain ⟨hp, hs⟩ := outer_spec h n (pre ++ [x']) rest hrest hpre' hbound
      rw [List.length_append, List.length_singleton, List.append_assoc,
        List.singleton_append] at hp hs
      rw [outer, hinner]
      exact ⟨hp.trans (List.Perm.append_left pre hperm'.symm), hs⟩

/-- **Exchange sort sorts.** -/
theorem sort_spec (h : Total gt) (l : List α) : (sort gt l).Perm l
    ∧ (sort gt l).Pairwise (Le gt) := by
  cases l with
  | nil => exact ⟨List.Perm.refl _, List.Pairwise.nil⟩
  | cons x l =>
      have hspec := outer_spec h l.length [] (x :: l) rfl List.Pairwise.nil (by simp)
      exact hspec

end ExchangeSort
