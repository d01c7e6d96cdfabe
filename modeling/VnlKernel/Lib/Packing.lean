import Mathlib.Data.Nat.Find
import Mathlib.Algebra.BigOperators.Group.List.Basic
import Mathlib.Algebra.GroupWithZero.Nat

/-!
# A list in pieces

Items of different sizes go, in order, into rooms of different sizes: each room takes as many
as fit, and the next goes on where it stopped. If every item fits into every room then no room
stays empty until all items are placed.
-/

namespace Packing

variable {α : Type} (size : α → Nat)

/-- How many items from the front fit into a room. -/
def fitting : Nat → List α → Nat
  | _, [] => 0
  | room, a :: items => if size a ≤ room then fitting (room - size a) items + 1 else 0

/-- How many items have been placed before the room `k`. -/
def placed (room : Nat → Nat) (items : List α) : Nat → Nat
  | 0 => 0
  | k + 1 => placed room items k + fitting size (room k) (items.drop (placed room items k))

/-- What goes into the room `k`. -/
def piece (room : Nat → Nat) (items : List α) (k : Nat) : List α :=
  (items.drop (placed size room items k)).take (fitting size (room k) (items.drop (placed size room items k)))

variable {size} {room : Nat → Nat} {items : List α}

theorem fitting_le_length : ∀ (r : Nat) (items : List α), fitting size r items ≤ items.length
  | _, [] => Nat.le_refl _
  | r, a :: items => by
      rw [fitting]
      split
      · exact Nat.succ_le_succ (fitting_le_length _ items)
      · exact Nat.zero_le _

/-- They fit together. -/
theorem sum_fitting_le : ∀ (r : Nat) (items : List α),
    ((items.take (fitting size r items)).map size).sum ≤ r
  | _, [] => Nat.zero_le _
  | r, a :: items => by
      rw [fitting]
      split
      · have h := sum_fitting_le (r - size a) items
        rw [List.take_succ_cons, List.map_cons, List.sum_cons]
        omega
      · exact Nat.zero_le _

/-- A room that is large enough for the first item does not stay empty. -/
theorem fitting_pos {r : Nat} (hne : items ≠ []) (h : ∀ a ∈ items, size a ≤ r) :
    0 < fitting size r items := by
  obtain ⟨a, rest, rfl⟩ := List.exists_cons_of_ne_nil hne
  rw [fitting, if_pos (h a List.mem_cons_self)]
  exact Nat.succ_pos _

theorem placed_le_length (k : Nat) : placed size room items k ≤ items.length := by
  induction k with
  | zero => exact Nat.zero_le _
  | succ k ih =>
      have h : fitting size (room k) (items.drop (placed size room items k)) ≤ _ :=
        fitting_le_length _ _
      rw [List.length_drop] at h
      rw [placed]
      omega

theorem placed_mono {k n : Nat} (h : k ≤ n) :
    placed size room items k ≤ placed size room items n := by
  induction h with
  | refl => exact Nat.le_refl _
  | step _ ih => exact Nat.le_trans ih (Nat.le_add_right _ _)

/-- As long as something is left, a room takes something. -/
theorem placed_lt (hfit : ∀ k, ∀ a ∈ items, size a ≤ room k) {k : Nat}
    (h : placed size room items k < items.length) :
    placed size room items k < placed size room items (k + 1) := by
  have hpos : 0 < fitting size (room k) (items.drop (placed size room items k)) := by
    refine fitting_pos ?_ fun a ha => hfit k a (List.mem_of_mem_drop ha)
    intro hnil
    have hlen := congrArg List.length hnil
    rw [List.length_drop, List.length_nil] at hlen
    omega
  rw [placed]
  omega

/-- **All items are placed** sooner or later. -/
theorem exists_placed (hfit : ∀ k, ∀ a ∈ items, size a ≤ room k) :
    ∃ n, placed size room items n = items.length ∧ ∀ k < n,
      placed size room items k < items.length := by
  have hmin : ∀ k, min k items.length ≤ placed size room items k := by
    intro k
    induction k with
    | zero => exact Nat.zero_le _
    | succ k ih =>
        by_cases h : placed size room items k < items.length
        · have := placed_lt hfit h
          omega
        · have hmono : placed size room items k ≤ placed size room items (k + 1) :=
            Nat.le_add_right _ _
          omega
  have hex : ∃ n, placed size room items n = items.length := by
    refine ⟨items.length, ?_⟩
    have h := hmin items.length
    have hle : placed size room items items.length ≤ items.length := placed_le_length _
    omega
  refine ⟨Nat.find hex, Nat.find_spec hex, fun k hk => ?_⟩
  have hne := Nat.find_min hex hk
  have hle : placed size room items k ≤ items.length := placed_le_length k
  omega

end Packing
