import Mathlib.Data.List.Induction

/-!
# Radix trees in a store

A node has at most one child under each index, and which one is looked up in a store: it
may depend on the node and on how deep it is. A path of indices leads from the root to a
node, or nowhere. The store holds a tree, down to some depth, if no node is at the end of
two paths. Only what is said here of changing one link is needed to insert into such a tree.
-/

namespace Radix

variable {α ι : Type}

/-- Where a path leads from a node `a` at depth `d`. -/
def follow (child : Nat → α → ι → Option α) : Nat → α → List ι → Option α
  | _, a, [] => some a
  | d, a, i :: p => (child d a i).bind fun b => follow child (d + 1) b p

/-- No node is reached by two paths of length `n` at most. -/
def IsTree (child : Nat → α → ι → Option α) (n : Nat) (root : α) : Prop :=
  ∀ p q a, p.length ≤ n → q.length ≤ n → follow child 0 root p = some a →
    follow child 0 root q = some a → p = q

variable {child child' : Nat → α → ι → Option α} {root : α} {n : Nat}

theorem follow_append (d : Nat) (a : α) (p q : List ι) :
    follow child d a (p ++ q) = (follow child d a p).bind fun b =>
      follow child (d + p.length) b q := by
  induction p generalizing d a with
  | nil => rfl
  | cons i p ih =>
      rw [List.cons_append, follow, follow]
      cases child d a i with
      | none => rfl
      | some b =>
          rw [Option.bind_some, Option.bind_some, ih, List.length_cons,
            show d + 1 + p.length = d + (p.length + 1) by omega]

theorem follow_snoc (p : List ι) (i : ι) :
    follow child 0 root (p ++ [i]) = (follow child 0 root p).bind fun b => child p.length b i := by
  rw [follow_append, Nat.zero_add]
  congr 1
  funext b
  rw [follow]
  cases child p.length b i with
  | none => rfl
  | some c => rfl

/-- **Stores that agree on the nodes of a tree** hold the same tree. -/
theorem follow_congr (h : ∀ p b i, p.length < n → follow child 0 root p = some b →
      child' p.length b i = child p.length b i) :
    ∀ q : List ι, q.length ≤ n → follow child' 0 root q = follow child 0 root q := by
  intro q
  induction q using List.reverseRecOn with
  | nil => exact fun _ => rfl
  | append_singleton q i ih =>
      intro hlen
      rw [List.length_append, List.length_singleton] at hlen
      rw [follow_snoc, follow_snoc, ih (by omega)]
      cases hq : follow child 0 root q with
      | none => rfl
      | some b => exact h q b i (by omega) hq

theorem IsTree.congr (ht : IsTree child n root) (h : ∀ p b i, p.length < n →
      follow child 0 root p = some b → child' p.length b i
        = child p.length b i) : IsTree child' n root := by
  intro p q a hp hq hpa hqa
  rw [follow_congr h p hp] at hpa
  rw [follow_congr h q hq] at hqa
  exact ht p q a hp hq hpa hqa

/-! ## One link more -/

/-- `child'` has a link from the node at the end of `p₀`, under `i₀`, to a node `f` without
children, where `child` had none. -/
structure Grafts (child child' : Nat → α → ι → Option α) (n : Nat) (root : α) (p₀ : List ι) (i₀ : ι)
    (f : α) : Prop where
  at_node : ∃ a₀, follow child 0 root p₀ = some a₀ ∧ child p₀.length a₀ i₀ = none
    ∧ child' p₀.length a₀ i₀ = some f
  bare : p₀.length + 1 < n → ∀ i, child' (p₀.length + 1) f i = none
  same : ∀ p b i, p.length < n → follow child 0 root p = some b → (p, i) ≠ (p₀, i₀) →
    child' p.length b i = child p.length b i

variable [DecidableEq ι] {p₀ : List ι} {i₀ : ι} {f : α}

/-- **One path more.** -/
theorem Grafts.follow_eq (h : Grafts child child' n root p₀ i₀ f) : ∀ q : List ι, q.length ≤ n →
    follow child' 0 root q = if q = p₀ ++ [i₀] then some f else follow child 0 root q := by
  obtain ⟨a₀, ha₀, hnone, hsome⟩ := h.at_node
  have hempty : follow child 0 root (p₀ ++ [i₀]) = none := by
    rw [follow_snoc, ha₀]
    exact hnone
  intro q
  induction q using List.reverseRecOn with
  | nil => exact fun _ => by rw [if_neg (by simp)]; rfl
  | append_singleton q i ih =>
      intro hlen
      rw [List.length_append, List.length_singleton] at hlen
      rw [follow_snoc, ih (by omega), follow_snoc]
      by_cases hq : q = p₀ ++ [i₀]
      · -- the new node has no children, and nothing was there before
        have hne : q ++ [i] ≠ p₀ ++ [i₀] := by
          rw [hq]
          intro hc
          have := congrArg List.length hc
          simp at this
        rw [if_pos hq, if_neg hne, hq, hempty]
        have hlen' : (p₀ ++ [i₀]).length = p₀.length + 1 := by simp
        have hbare := h.bare (by rw [hq, hlen'] at hlen; omega) i
        rw [hlen']
        exact hbare
      · rw [if_neg hq]
        by_cases hhere : (q, i) = (p₀, i₀)
        · obtain ⟨rfl, rfl⟩ := Prod.mk.inj hhere
          rw [if_pos rfl, ha₀]
          exact hsome
        · have hne : q ++ [i] ≠ p₀ ++ [i₀] := by
            intro hc
            obtain ⟨h1, h2⟩ := List.append_inj' hc rfl
            exact hhere (by rw [h1, List.singleton_inj.mp h2])
          rw [if_neg hne]
          cases hb : follow child 0 root q with
          | none => rfl
          | some b => exact h.same q b i (by omega) hb hhere

/-- **The tree stays a tree** if the new node was not in it. -/
theorem Grafts.isTree (h : Grafts child child' n root p₀ i₀ f) (ht : IsTree child n root)
    (hfresh : ∀ q : List ι, q.length ≤ n → follow child 0 root q ≠ some f) :
    IsTree child' n root := by
  intro p q a hp hq hpa hqa
  rw [h.follow_eq p hp] at hpa
  rw [h.follow_eq q hq] at hqa
  split at hpa
  · next hp₀ =>
    split at hqa
    · next hq₀ => rw [hp₀, hq₀]
    · exact absurd (hqa.trans hpa.symm) (hfresh q hq)
  · split at hqa
    · exact absurd (hpa.trans hqa.symm) (hfresh p hp)
    · exact ht p q a hp hq hpa hqa

end Radix
