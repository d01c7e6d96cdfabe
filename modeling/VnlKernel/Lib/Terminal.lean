import Mathlib.Logic.Basic

/-!
# Terminals

A screen of `h` rows and `w` columns with something in every cell, and a cursor that is always
on it. What is put on the screen goes to the cursor, and the cursor goes on to the next cell:
to the next row behind the last column, and in the last row all rows move up instead.

What a cell holds is left open. A change of what the cells are taken for (`map`) goes through
every operation, so two ways of reading one screen show the same terminal.
-/

namespace Terminal

/-- A screen, and where its cursor is. -/
@[ext]
structure Screen (h w : Nat) (α : Type) where
  cells : Fin h → Fin w → α
  row : Fin h
  col : Fin w

namespace Screen

variable {h w : Nat} {α β : Type}

/-! ## Operations -/

/-- The leftmost column. -/
def firstCol (s : Screen h w α) : Fin w := ⟨0, Nat.zero_lt_of_lt s.col.isLt⟩

/-- The topmost row. -/
def firstRow (s : Screen h w α) : Fin h := ⟨0, Nat.zero_lt_of_lt s.row.isLt⟩

/-- `a` where the cursor is. -/
def set (s : Screen h w α) (a : α) : Screen h w α :=
  { s with cells := fun i j => if i = s.row ∧ j = s.col then a else s.cells i j }

/-- Whole rows move up by one, and the last one is blank. -/
def rowsUp (s : Screen h w α) (blank : α) : Screen h w α :=
  { s with cells := fun i j => if hi : i.val + 1 < h then s.cells ⟨i.val + 1, hi⟩ j else blank }

/-- Down by one row. -/
def lineFeed (s : Screen h w α) (blank : α) : Screen h w α :=
  if hr : s.row.val + 1 < h then { s with row := ⟨s.row.val + 1, hr⟩ } else s.rowsUp blank

/-- Back to the first column. -/
def carriage (s : Screen h w α) : Screen h w α := { s with col := s.firstCol }

def newline (s : Screen h w α) (blank : α) : Screen h w α := s.carriage.lineFeed blank

/-- To column `c`, or to the next row where there is none. -/
def toCol (s : Screen h w α) (blank : α) (c : Nat) : Screen h w α :=
  if hc : c < w then { s with col := ⟨c, hc⟩ } else s.newline blank

/-- Put `a` on the screen. -/
def put (s : Screen h w α) (blank a : α) : Screen h w α := (s.set a).toCol blank (s.col.val + 1)

/-- To the next multiple of `k`. -/
def tab (s : Screen h w α) (blank : α) (k : Nat) : Screen h w α := s.toCol blank ((s.col.val + k) / k * k)

/-- One column back, and blank what is there. -/
def back (s : Screen h w α) (blank : α) : Screen h w α :=
  if s.col.val = 0 then s
  else { s with col := ⟨s.col.val - 1, by have := s.col.isLt; omega⟩ }.set blank

def clear (s : Screen h w α) (blank : α) : Screen h w α := ⟨fun _ _ => blank, s.firstRow, s.firstCol⟩

def moveTo (s : Screen h w α) (i : Fin h) (j : Fin w) : Screen h w α := { s with row := i, col := j }

variable {s : Screen h w α} {b : α}

theorem lineFeed_of_lt (hr : s.row.val + 1 < h) :
    s.lineFeed b = { s with row := ⟨s.row.val + 1, hr⟩ } := dif_pos hr

theorem lineFeed_of_last (hr : ¬ s.row.val + 1 < h) : s.lineFeed b = s.rowsUp b := dif_neg hr

theorem toCol_of_lt {c : Nat} (hc : c < w) : s.toCol b c = { s with col := ⟨c, hc⟩ } := dif_pos hc

theorem toCol_of_ge {c : Nat} (hc : ¬ c < w) : s.toCol b c = s.newline b := dif_neg hc

/-! ## Another reading of the cells -/

/-- The same screen, with its cells read by `f`. -/
def map (f : α → β) (s : Screen h w α) : Screen h w β := ⟨fun i j => f (s.cells i j), s.row, s.col⟩

section Map

variable (f : α → β) (s : Screen h w α) (b a : α)

theorem map_set : (s.set a).map f = (s.map f).set (f a) := by
  refine Screen.ext ?_ rfl rfl
  funext i j
  exact apply_ite f _ a (s.cells i j)

theorem map_rowsUp : (s.rowsUp b).map f = (s.map f).rowsUp (f b) := by
  refine Screen.ext ?_ rfl rfl
  funext i j
  exact apply_dite f _ _ _

theorem map_lineFeed : (s.lineFeed b).map f = (s.map f).lineFeed (f b) := by
  unfold lineFeed
  rw [apply_dite (map f)]
  exact dite_congr rfl (fun _ => rfl) fun _ => map_rowsUp f s b

theorem map_newline : (s.newline b).map f = (s.map f).newline (f b) := map_lineFeed f s.carriage b

theorem map_toCol (c : Nat) : (s.toCol b c).map f = (s.map f).toCol (f b) c := by
  unfold toCol
  rw [apply_dite (map f)]
  exact dite_congr rfl (fun _ => rfl) fun _ => map_newline f s b

theorem map_put : (s.put b a).map f = (s.map f).put (f b) (f a) := by
  unfold put
  rw [map_toCol, map_set]
  rfl

theorem map_tab (k : Nat) : (s.tab b k).map f = (s.map f).tab (f b) k := map_toCol f s b _

theorem map_back : (s.back b).map f = (s.map f).back (f b) := by
  unfold back
  rw [apply_ite (map f), map_set]
  rfl

end Map

/-! ## What was put can be seen -/

variable {a a' : α}

/-- A cell, the same one whatever is put. -/
theorem put_seen (s : Screen h w α) (b : α) (hh : 1 < h) :
    ∃ i j, ∀ a, (s.put b a).cells i j = a := by
  have hset : ∀ a, (s.set a).cells s.row s.col = a := fun a => if_pos ⟨rfl, rfl⟩
  by_cases hc : s.col.val + 1 < w
  · refine ⟨s.row, s.col, fun a => ?_⟩
    rw [put, toCol_of_lt hc]
    exact hset a
  · by_cases hr : s.row.val + 1 < h
    · refine ⟨s.row, s.col, fun a => ?_⟩
      rw [put, toCol_of_ge hc, newline, lineFeed_of_lt (s := (s.set a).carriage) hr]
      exact hset a
    · -- the rows move up, and this one with them
      have hlt := s.row.isLt
      have hup : (⟨s.row.val - 1 + 1, by omega⟩ : Fin h) = s.row := Fin.ext (by dsimp only; omega)
      refine ⟨⟨s.row.val - 1, by omega⟩, s.col, fun a => ?_⟩
      rw [put, toCol_of_ge hc, newline, lineFeed_of_last (s := (s.set a).carriage) hr]
      refine (dif_pos (show s.row.val - 1 + 1 < h by omega)).trans ?_
      change (s.set a).cells ⟨s.row.val - 1 + 1, _⟩ s.col = a
      rw [hup]
      exact hset a

/-- **What is put on a screen of two rows or more stays on it**, so different things leave different
screens. -/
theorem put_inj (hh : 1 < h) (he : s.put b a = s.put b a') : a = a' := by
  obtain ⟨i, j, hseen⟩ := put_seen s b hh
  rw [← hseen a, he, hseen a']

end Screen

end Terminal
