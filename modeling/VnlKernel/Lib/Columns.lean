import VnlKernel.Lib.Terminal

/-!
# The left columns of a screen

A narrow screen beside a wide one, with the same rows: what is done to both is seen on both, as long
as it does not come to the narrow one's last column. The wide screen may hold anything behind it.
-/

namespace Terminal

namespace Screen

variable {h w w' : Nat} {α : Type}

/-- The narrow screen is the left part of the wide one, and the cursors are at the same place. -/
structure LeftOf (n : Screen h w' α) (s : Screen h w α) : Prop where
  row : n.row = s.row
  col : n.col.val = s.col.val
  cells : ∀ (i : Fin h) (j' : Fin w') (j : Fin w), j'.val = j.val → n.cells i j' = s.cells i j

namespace LeftOf

variable {n : Screen h w' α} {s : Screen h w α} {a b : α}

theorem set (hl : LeftOf n s) (a : α) : LeftOf (n.set a) (s.set a) where
  row := hl.row
  col := hl.col
  cells := by
    intro i j' j hj
    change ite _ _ _ = ite _ _ _
    have hiff : (i = n.row ∧ j' = n.col) ↔ i = s.row ∧ j = s.col := by
      rw [hl.row, Fin.ext_iff (a := j'), Fin.ext_iff (a := j), hj, hl.col]
    by_cases hc : i = s.row ∧ j = s.col
    · rw [if_pos hc, if_pos (hiff.mpr hc)]
    · rw [if_neg hc, if_neg (fun hc' => hc (hiff.mp hc'))]
      exact hl.cells i j' j hj

theorem rowsUp (hl : LeftOf n s) (b : α) : LeftOf (n.rowsUp b) (s.rowsUp b) where
  row := hl.row
  col := hl.col
  cells := by
    intro i j' j hj
    change dite _ _ _ = dite _ _ _
    split
    · next hi => exact hl.cells ⟨i.val + 1, hi⟩ j' j hj
    · rfl

theorem lineFeed (hl : LeftOf n s) (b : α) : LeftOf (n.lineFeed b) (s.lineFeed b) := by
  by_cases hr : s.row.val + 1 < h
  · have hr' : n.row.val + 1 < h := by rw [hl.row]; exact hr
    rw [lineFeed_of_lt hr, lineFeed_of_lt hr']
    exact ⟨Fin.ext (by dsimp only; rw [hl.row]), hl.col, hl.cells⟩
  · have hr' : ¬ n.row.val + 1 < h := by rw [hl.row]; exact hr
    rw [lineFeed_of_last hr, lineFeed_of_last hr']
    exact hl.rowsUp b

theorem carriage (hl : LeftOf n s) : LeftOf n.carriage s.carriage := ⟨hl.row, rfl, hl.cells⟩

theorem newline (hl : LeftOf n s) (b : α) : LeftOf (n.newline b) (s.newline b) :=
  hl.carriage.lineFeed b

/-- Not the last column of the narrow screen. -/
theorem put (hl : LeftOf n s) (b a : α) (hw : w' ≤ w) (hc : s.col.val + 1 < w') :
    LeftOf (n.put b a) (s.put b a) := by
  have hset := hl.set a
  have hc' : n.col.val + 1 < w' := by rw [hl.col]; exact hc
  rw [Screen.put, Screen.put, toCol_of_lt hc', toCol_of_lt (Nat.lt_of_lt_of_le hc hw)]
  exact ⟨hset.row, congrArg (· + 1) hl.col, hset.cells⟩

/-- Not the first column. -/
theorem back (hl : LeftOf n s) (b : α) : LeftOf (n.back b) (s.back b) := by
  unfold Screen.back
  by_cases hc : s.col.val = 0
  · rw [if_pos hc, if_pos (hl.col.trans hc)]
    exact hl
  · rw [if_neg hc, if_neg (fun hc' => hc (hl.col.symm.trans hc'))]
    have hn := n.col.isLt
    have hs := s.col.isLt
    have hmoved : LeftOf { n with col := ⟨n.col.val - 1, by omega⟩ }
        { s with col := ⟨s.col.val - 1, by omega⟩ } :=
      ⟨hl.row, congrArg (· - 1) hl.col, hl.cells⟩
    exact hmoved.set b

theorem clear (n : Screen h w' α) (s : Screen h w α) (b : α) : LeftOf (n.clear b) (s.clear b) :=
  ⟨Fin.ext rfl, rfl, fun _ _ _ _ => rfl⟩

theorem moveTo (hl : LeftOf n s) (i : Fin h) {j' : Fin w'} {j : Fin w} (hj : j'.val = j.val) :
    LeftOf (n.moveTo i j') (s.moveTo i j) :=
  ⟨rfl, hj, hl.cells⟩

end LeftOf

end Screen

end Terminal
