import VnlKernel.Shell.Vsnake
import VnlKernel.Lib.Run
import Mathlib.Data.Fintype.Card
import Mathlib.Data.Fintype.Prod
import Mathlib.Data.Fin.Basic

/-!
# The snake never leaves its array

While the game is on, the body is a path on the board that meets no cell twice, so it is no
longer than the board has cells, and there is room for it. It may fill the board. Then a turn
that ate once more would write behind the array; but it does not eat, because the head is where
the last food was, and no two foods that follow each other are neighbours.

The head never turns back on the neck, so only the wall and the body behind it end a game.
-/

namespace VnlKernel

open Logged

namespace SnakeGame

/-! ## What a turn comes to -/

/-- What is where the head goes. -/
def next (s : SnakeGame) (k : Int) : Point := ⟨(s.snake 0).x + (s.steer k).1, (s.snake 0).y + (s.steer k).2⟩

/-- A cell of the board. -/
def OnBoard (p : Point) : Prop := 0 ≤ p.x ∧ p.x < snakeWidth ∧ 0 ≤ p.y ∧ p.y < snakeHeight

instance (p : Point) : Decidable (OnBoard p) := inferInstanceAs (Decidable (_ ∧ _))

/-- The head finds a cell of the board, and none of the body. -/
def Clear (s : SnakeGame) (p : Point) : Prop := OnBoard p ∧ ∀ i, i < s.length → s.snake i ≠ p

instance (s : SnakeGame) (p : Point) : Decidable (s.Clear p) := inferInstanceAs (Decidable (_ ∧ _))

/-- How long the snake is behind the turn. -/
def grown (s : SnakeGame) (k : Int) : Nat := if s.next k = s.food then s.length + 1 else s.length

/-- The state behind the turn. -/
def moved (s : SnakeGame) (k : Int) : SnakeGame where
  snake := fun j => if j = 0 then s.next k else if j ≤ s.grown k - 1 then s.snake (j - 1) else s.snake j
  length := s.grown k
  dx := (s.steer k).1
  dy := (s.steer k).2
  food := if s.next k = s.food then nextFood s.food else s.food
  score := if s.next k = s.food then s.score + 100 else s.score
  running := decide (s.Clear (s.next k)) && s.running

theorem touch_comes {i : Nat} (hi : i < snakeWidth * snakeHeight) :
    Comes Access.InBounds (touch i) () :=
  Comes.note (Nat.succ_le_of_lt hi)

theorem partAt_comes (s : SnakeGame) (p : Point) : ∀ {n i : Nat}, i + n ≤ snakeWidth * snakeHeight →
    ∃ o, Comes Access.InBounds (s.partAt p n i) o
  | 0, _, _ => ⟨none, Comes.pure none⟩
  | n + 1, i, h => by
      rw [partAt]
      by_cases hp : s.snake i = p
      · exact ⟨some i, (touch_comes (by omega)).bind (by rw [if_pos hp]; exact Comes.pure _)⟩
      · obtain ⟨o, ho⟩ := partAt_comes s p (n := n) (i := i + 1) (by omega)
        exact ⟨o, (touch_comes (by omega)).bind (by rw [if_neg hp]; exact ho)⟩

theorem cell_comes (s : SnakeGame) (p : Point) (h : s.length ≤ snakeWidth * snakeHeight) :
    ∃ c, Comes Access.InBounds (s.cell p) c := by
  obtain ⟨o, ho⟩ := s.partAt_comes p (n := s.length) (i := 0) (by omega)
  cases o with
  | none => exact ⟨_, ho.bind (Comes.pure _)⟩
  | some i => exact ⟨_, ho.bind (Comes.pure _)⟩

/-- The turns of the loop so far. -/
theorem bites_upTo (s : SnakeGame) (p : Point) (running : Bool) :
    ∀ {n : Nat}, n ≤ snakeWidth * snakeHeight → Comes Access.InBounds
      (forUpTo (fun i running => do
        touch i
        return if s.snake i = p then false else running) running n)
      (decide (∀ i, i < n → s.snake i ≠ p) && running)
  | 0, _ => by
      have hnone : ∀ i, i < 0 → s.snake i ≠ p := fun i hi => absurd hi (Nat.not_lt_zero i)
      rw [decide_eq_true hnone, Bool.true_and]
      exact Comes.pure running
  | n + 1, h => by
      refine (bites_upTo s p running (n := n) (by omega)).bind ((touch_comes (by omega)).bind ?_)
      have hsucc : (∀ i, i < n + 1 → s.snake i ≠ p) ↔ (∀ i, i < n → s.snake i ≠ p)
          ∧ s.snake n ≠ p := by
        constructor
        · exact fun hall => ⟨fun i hi => hall i (by omega), hall n (by omega)⟩
        · intro hall i hi
          rcases Nat.lt_succ_iff_lt_or_eq.mp hi with hi | rfl
          · exact hall.1 i hi
          · exact hall.2
      have hb : (if s.snake n = p then false else decide (∀ i, i < n → s.snake i ≠ p) && running)
          = (decide (∀ i, i < n + 1 → s.snake i ≠ p) && running) := by
        rw [decide_eq_decide.mpr hsucc, Bool.decide_and]
        split
        · next he => simp [he]
        · next hne => simp [hne]
      rw [← hb]
      exact Comes.pure _

theorem bites_comes (s : SnakeGame) (p : Point) (running : Bool)
    (h : s.length ≤ snakeWidth * snakeHeight) :
    Comes Access.InBounds (s.bites p running)
    (decide (∀ i, i < s.length → s.snake i ≠ p) && running) :=
  s.bites_upTo p running h

theorem follow_comes : ∀ {n : Nat} (snake : Nat → Point), n < snakeWidth * snakeHeight →
    Comes Access.InBounds (follow snake n)
      (fun j => if 1 ≤ j ∧ j ≤ n then snake (j - 1) else snake j)
  | 0, snake, _ => by
      rw [follow]
      have hsame : (fun j => if 1 ≤ j ∧ j ≤ 0 then snake (j - 1) else snake j) = snake :=
        funext fun j => if_neg (by omega)
      rw [hsame]
      exact Comes.pure snake
  | n + 1, snake, h => by
      rw [follow]
      refine (touch_comes h).bind ((touch_comes (by omega)).bind ?_)
      have hrest := follow_comes (n := n) (fun j => if j = n + 1 then snake n else snake j)
        (by omega)
      have hsame : (fun j => if 1 ≤ j ∧ j ≤ n + 1 then snake (j - 1) else snake j)
          = fun j => if 1 ≤ j ∧ j ≤ n then (fun j => if j = n + 1 then snake n else snake j) (j - 1)
            else (fun j => if j = n + 1 then snake n else snake j) j := by
        funext j
        dsimp only
        by_cases hj : j = n + 1
        · rw [if_pos (by omega), if_neg (by omega), if_pos hj, hj]
          rfl
        · by_cases hj' : 1 ≤ j ∧ j ≤ n
          · rw [if_pos (by omega), if_pos hj', if_neg (by omega)]
          · rw [if_neg (by omega), if_neg hj', if_neg hj]
      rw [hsame]
      exact hrest

/-- **A turn stays in the array if the snake fits into it afterwards.** -/
theorem turn_comes (s : SnakeGame) (k : Int) (h : s.length ≤ snakeWidth * snakeHeight)
    (hgrown : s.grown k ≤ snakeWidth * snakeHeight) :
    Comes Access.InBounds (s.turn k) (s.moved k) := by
  have hpos : 0 < snakeWidth * snakeHeight := by decide
  rw [turn]
  refine (touch_comes hpos).bind ?_
  have hbites := s.bites_comes (s.next k)
    (if (s.next k).x < 0 ∨ (s.next k).x ≥ snakeWidth ∨ (s.next k).y < 0 ∨ (s.next k).y ≥ snakeHeight then false
      else s.running) h
  have hrun : (decide (∀ i, i < s.length → s.snake i ≠ s.next k)
      && if (s.next k).x < 0 ∨ (s.next k).x ≥ snakeWidth ∨ (s.next k).y < 0 ∨ (s.next k).y ≥ snakeHeight then false
        else s.running) = (s.moved k).running := by
    change _ = (decide (s.Clear (s.next k)) && s.running)
    have hboard : (¬ ((s.next k).x < 0 ∨ (s.next k).x ≥ snakeWidth ∨ (s.next k).y < 0
      ∨ (s.next k).y ≥ snakeHeight)) ↔ OnBoard (s.next k) := by
      unfold OnBoard
      omega
    unfold Clear
    split
    · next hout =>
        have hno : ¬ OnBoard (s.next k) := fun hb => hboard.mpr hb hout
        simp [hno]
    · next hin => simp [hboard.mp hin]
  rw [hrun] at hbites
  refine hbites.bind ((follow_comes s.snake (n := s.grown k - 1) (by omega)).bind
    ((touch_comes hpos).bind ?_))
  have hsame : (fun j => if j = 0 then s.next k
      else if 1 ≤ j ∧ j ≤ s.grown k - 1 then s.snake (j - 1) else s.snake j) =
          (s.moved k).snake := by
    funext j
    change _ = if j = 0 then s.next k else if j ≤ s.grown k - 1 then s.snake (j - 1) else s.snake j
    split
    · rfl
    · split <;> split <;> first | rfl | omega
  change Comes Access.InBounds (pure (SnakeGame.mk (fun j => if j = 0 then s.next k
    else if 1 ≤ j ∧ j ≤ s.grown k - 1 then s.snake (j - 1) else s.snake j) (s.grown k) _ _ _ _ _)) _
  rw [hsame]
  exact Comes.pure (s.moved k)

/-! ## Cells of the board -/

/-- Cells that share a side. -/
def Adjacent (p q : Point) : Prop :=
  (p.x = q.x ∧ (p.y = q.y + 1 ∨ q.y = p.y + 1)) ∨ (p.y = q.y ∧ (p.x = q.x + 1 ∨ q.x = p.x + 1))

/-- **Cells of the board that are all different are no more than the board has.** -/
theorem card_le {f : Nat → Point} {n : Nat} (hboard : ∀ i, i < n → OnBoard (f i))
    (hapart : ∀ i j, i < n → j < n → f i = f j → i = j) : n ≤ snakeWidth * snakeHeight := by
  let g : Fin n → Fin snakeWidth × Fin snakeHeight := fun i =>
    (⟨(f i).x.toNat, by have hb := hboard i i.isLt; unfold OnBoard at hb; omega⟩,
      ⟨(f i).y.toNat, by have hb := hboard i i.isLt; unfold OnBoard at hb; omega⟩)
  have hg : Function.Injective g := by
    intro i j hij
    have hi := hboard i i.isLt
    have hj := hboard j j.isLt
    have hx : (f i).x.toNat = (f j).x.toNat := congrArg (fun c => c.1.val) hij
    have hy : (f i).y.toNat = (f j).y.toNat := congrArg (fun c => c.2.val) hij
    unfold OnBoard at hi hj
    have hxy : f i = f j := Point.ext (by omega) (by omega)
    exact Fin.ext (hapart i j i.isLt j.isLt hxy)
  have hcard := Fintype.card_le_of_injective g hg
  rw [Fintype.card_prod, Fintype.card_fin, Fintype.card_fin, Fintype.card_fin] at hcard
  exact hcard

/-- The four ways to go. -/
def ways : List (Int × Int) := [(0, -1), (0, 1), (-1, 0), (1, 0)]

/-- Where food is put, one after the other. -/
def foods : List Point := [⟨15, 10⟩, ⟨38, 17⟩, ⟨39, 18⟩, ⟨6, 1⟩]

theorem nextFood_mem : ∀ p ∈ foods, nextFood p ∈ foods := by decide

/-- **Food is never put next to where the last one was.** -/
theorem nextFood_apart : ∀ p ∈ foods, ∀ d ∈ ways,
    (⟨p.x + d.1, p.y + d.2⟩ : Point) ≠ nextFood p := by decide

/-! ## What holds while the game is on -/

structure Inv (s : SnakeGame) : Prop where
  long : 3 ≤ s.length
  onBoard : ∀ i, i < s.length → OnBoard (s.snake i)
  apart : ∀ i j, i < s.length → j < s.length → s.snake i = s.snake j → i = j
  path : ∀ i, i + 1 < s.length → Adjacent (s.snake i) (s.snake (i + 1))
  heading : s.snake 0 = ⟨(s.snake 1).x + s.dx, (s.snake 1).y + s.dy⟩
  way : (s.dx, s.dy) ∈ ways
  food : s.food ∈ foods
  score : s.score = 100 * (s.length - 3)
  /-- On a full board the head is where the last food was. -/
  full : s.length = snakeWidth * snakeHeight → ∃ p ∈ foods, s.snake 0 = p ∧ s.food = nextFood p

variable {s : SnakeGame} {k : Int}

theorem Inv.fits (h : s.Inv) : s.length ≤ snakeWidth * snakeHeight := card_le h.onBoard h.apart

/-- A key turns the head to a side, or not at all. -/
theorem Inv.steer (h : s.Inv) (k : Int) : s.steer k ∈ ways ∧ s.steer k ≠ (-s.dx, -s.dy) := by
  have hway := h.way
  simp only [ways, List.mem_cons, Prod.mk.injEq, List.not_mem_nil, or_false] at hway
  unfold SnakeGame.steer ways
  rcases hway with ⟨hx, hy⟩ | ⟨hx, hy⟩ | ⟨hx, hy⟩ | ⟨hx, hy⟩ <;> rw [hx,
    hy] <;> split_ifs <;> simp_all

theorem way_cases {d : Int × Int} (h : d ∈ ways) :
    (d.1 = 0 ∧ (d.2 = 1 ∨ d.2 = -1)) ∨ (d.2 = 0 ∧ (d.1 = 1 ∨ d.1 = -1)) := by
  simp only [ways, List.mem_cons, List.not_mem_nil, or_false] at h
  rcases h with rfl | rfl | rfl | rfl <;> decide

theorem Inv.next_adjacent (h : s.Inv) (k : Int) : Adjacent (s.next k) (s.snake 0) := by
  have hway := way_cases (h.steer k).1
  unfold Adjacent SnakeGame.next
  dsimp only
  omega

/-- **The head meets the body behind the neck only**, if it does. -/
theorem Inv.meets (h : s.Inv) {i : Nat} (hi : i < s.length) (hm : s.snake i = s.next k) :
    3 ≤ i := by
  have hlong := h.long
  have hnext := h.next_adjacent k
  have h01 := h.path 0 (by omega)
  have h12 := h.path 1 (by omega)
  have hback := (h.steer k).2
  have hhead := h.heading
  rw [← hm] at hnext
  unfold Adjacent at hnext h01 h12
  rcases Nat.lt_or_ge i 3 with hlt | hge
  · exfalso
    obtain rfl | rfl | rfl : i = 0 ∨ i = 1 ∨ i = 2 := by omega
    · omega
    · -- the way back is not taken
      refine hback (Prod.ext ?_ ?_)
      · have hx : (s.snake 1).x = (s.snake 0).x + (s.steer k).1 := congrArg Point.x hm
        have hx' : (s.snake 0).x = (s.snake 1).x + s.dx := congrArg Point.x hhead
        change (s.steer k).1 = -s.dx
        omega
      · have hy : (s.snake 1).y = (s.snake 0).y + (s.steer k).2 := congrArg Point.y hm
        have hy' : (s.snake 0).y = (s.snake 1).y + s.dy := congrArg Point.y hhead
        change (s.steer k).2 = -s.dy
        omega
    · -- two cells on, an odd number of steps does not come back
      clear hback hhead
      generalize s.snake 0 = p at hnext h01
      generalize s.snake 1 = q at h01 h12
      generalize s.snake 2 = r at hnext h12
      omega
  · exact hge

/-- Where the head finds a free cell, the board is not full. -/
theorem Inv.room (h : s.Inv) {p : Point} (hp : s.Clear p) :
    s.length < snakeWidth * snakeHeight := by
  have hcard := card_le (f := fun i => if i = 0 then p else s.snake (i - 1)) (n := s.length + 1)
    (fun i hi => by
      split
      · exact hp.1
      · exact h.onBoard _ (by omega))
    (fun i j hi hj he => by
      split at he
      · split at he
        · omega
        · exact absurd he.symm (hp.2 _ (by omega))
      · split at he
        · exact absurd he (hp.2 _ (by omega))
        · have := h.apart _ _ (by omega) (by omega) he
          omega)
  omega

/-- **There is room for the snake behind every turn**, also for the one that ends the game. -/
theorem Inv.grown_le (h : s.Inv) (k : Int) : s.grown k ≤ snakeWidth * snakeHeight := by
  have hfits := h.fits
  unfold grown
  split
  · next heats =>
      rcases Nat.lt_or_eq_of_le hfits with hlt | hfull
      · exact hlt
      · obtain ⟨p, hp, hhead, hfood⟩ := h.full hfull
        refine absurd ?_ (nextFood_apart p hp (s.steer k) (h.steer k).1)
        rw [← hfood, ← heats, ← hhead]
        rfl
  · exact hfits

theorem moved_snake_succ (s : SnakeGame) (k : Int) {j : Nat} (hj : j + 1 < s.grown k) :
    (s.moved k).snake (j + 1) = s.snake j := by
  change (if j + 1 = 0 then s.next k
    else if j + 1 ≤ s.grown k - 1 then s.snake (j + 1 - 1) else s.snake (j + 1)) = _
  rw [if_neg (Nat.succ_ne_zero j), if_pos (by omega)]
  rfl

/-- **A turn that does not end the game.** -/
theorem Inv.moved (h : s.Inv) (hclear : s.Clear (s.next k)) : (s.moved k).Inv := by
  have hgrown : s.length ≤ s.grown k ∧ s.grown k ≤ s.length + 1 := by
    unfold grown
    split <;> omega
  have hlong := h.long
  have hsucc : ∀ j, j + 1 < s.grown k → (s.moved k).snake (j + 1) = s.snake j :=
    fun j hj => moved_snake_succ s k hj
  refine ⟨?_, ?_, ?_, ?_, ?_, (h.steer k).1, ?_, ?_, ?_⟩
  · exact Nat.le_trans hlong hgrown.1
  · intro i hi
    cases i with
    | zero => exact hclear.1
    | succ i => rw [hsucc i hi]; exact h.onBoard i (by change i + 1 < s.grown k at hi; omega)
  · intro i j hi hj he
    change i < s.grown k at hi
    change j < s.grown k at hj
    cases i with
    | zero =>
        cases j with
        | zero => rfl
        | succ j =>
            rw [hsucc j hj] at he
            exact absurd he.symm (hclear.2 j (by omega))
    | succ i =>
        cases j with
        | zero =>
            rw [hsucc i hi] at he
            exact absurd he (hclear.2 i (by omega))
        | succ j =>
            rw [hsucc i hi, hsucc j hj] at he
            exact congrArg (· + 1) (h.apart i j (by omega) (by omega) he)
  · intro i hi
    change i + 1 < s.grown k at hi
    rw [hsucc i hi]
    cases i with
    | zero => exact h.next_adjacent k
    | succ i => rw [hsucc i (by omega)]; exact h.path i (by omega)
  · rw [hsucc 0 (by omega)]
    rfl
  · change (if s.next k = s.food then nextFood s.food else s.food) ∈ foods
    split
    · exact nextFood_mem _ h.food
    · exact h.food
  · have hscore := h.score
    change (if s.next k = s.food then s.score + 100 else s.score) = 100 * ((s.grown k : Int) - 3)
    unfold grown
    split
    · push_cast; omega
    · exact hscore
  · intro hfull
    change s.grown k = _ at hfull
    have hroom := h.room hclear
    -- the board was not full, so the snake has just eaten
    have heats : s.next k = s.food := by
      by_contra hne
      unfold grown at hfull
      rw [if_neg hne] at hfull
      omega
    refine ⟨s.food, h.food, heats, ?_⟩
    change (if s.next k = s.food then nextFood s.food else s.food) = _
    rw [if_pos heats]

theorem start_inv (snake : Nat → Point) : (start snake).Inv where
  long := Nat.le_refl 3
  onBoard := by
    intro i hi
    change i < 3 at hi
    obtain rfl | rfl | rfl : i = 0 ∨ i = 1 ∨ i = 2 := by omega
    · exact (by decide : OnBoard ⟨10, 10⟩)
    · exact (by decide : OnBoard ⟨9, 10⟩)
    · exact (by decide : OnBoard ⟨8, 10⟩)
  apart := by
    intro i j hi hj he
    -- the first three parts lie in a row
    have hx : ∀ i, i < 3 → ((start snake).snake i).x = 10 - (i : Int) := by
      intro i hi
      obtain rfl | rfl | rfl : i = 0 ∨ i = 1 ∨ i = 2 := by omega
      · rfl
      · rfl
      · rfl
    have hi' := hx i hi
    have hj' := hx j hj
    rw [he] at hi'
    omega
  path := by
    intro i hi
    change i + 1 < 3 at hi
    obtain rfl | rfl : i = 0 ∨ i = 1 := by omega
    · exact .inr ⟨rfl, .inl rfl⟩
    · exact .inr ⟨rfl, .inl rfl⟩
  heading := rfl
  way := (by decide : ((1, 0) : Int × Int) ∈ ways)
  food := (by decide : (⟨15, 10⟩ : Point) ∈ foods)
  score := rfl
  full := fun h => absurd h (by decide : (3 : Nat) ≠ snakeWidth * snakeHeight)

/-! ## Games -/

/-- The first state of a game. -/
def Starts (s : SnakeGame) : Prop := ∃ snake, s = start snake

/-- A turn, while the game is on; `q` and Escape end it. -/
def Turns (s s' : SnakeGame) : Prop :=
  s.running = true ∧ ∃ k, k ≠ 0x71 ∧ k ≠ 27 ∧ (s.turn k).out = .done s'

/-- What a player may rely on while the game is on. -/
structure Fair (s : SnakeGame) : Prop where
  onBoard : ∀ i, i < s.length → OnBoard (s.snake i)
  /-- The body meets no cell twice. -/
  apart : ∀ i j, i < s.length → j < s.length → s.snake i = s.snake j → i = j
  path : ∀ i, i + 1 < s.length → Adjacent (s.snake i) (s.snake (i + 1))
  score : s.score = 100 * (s.length - 3)
  /-- The drawing reads nothing but the array. -/
  draws : ∀ p, ∃ c, Comes Access.InBounds (s.cell p) c
  /-- No turn reads or writes anything else, with no key. -/
  turns : ∀ k, Comes Access.InBounds (s.turn k) (s.moved k)
  /-- A game ends at a wall, or at the body behind the neck. -/
  ends : ∀ k, (s.moved k).running = false →
    ¬ OnBoard (s.next k) ∨ ∃ i, 3 ≤ i ∧ i < s.length ∧ s.snake i = s.next k

theorem Inv.fair (h : s.Inv) (hrun : s.running = true) : s.Fair where
  onBoard := h.onBoard
  apart := h.apart
  path := h.path
  score := h.score
  draws := fun p => s.cell_comes p h.fits
  turns := fun k => s.turn_comes k h.fits (h.grown_le k)
  ends := by
    intro k hend
    change (decide (s.Clear (s.next k)) && s.running) = false at hend
    rw [hrun, Bool.and_true, decide_eq_false_iff_not] at hend
    by_cases hb : OnBoard (s.next k)
    · refine .inr ?_
      by_contra hno
      refine hend ⟨hb, fun i hi hm => hno ⟨i, h.meets hi hm, hi, hm⟩⟩
    · exact .inl hb

theorem Turns.running {s s' : SnakeGame} (h : s.Turns s') (hinv : s.Inv)
    (hrun : s'.running = true) : s'.Inv := by
  obtain ⟨hon, k, -, -, hout⟩ := h
  have hturn := s.turn_comes k hinv.fits (hinv.grown_le k)
  cases hturn.2.symm.trans hout
  change (decide (s.Clear (s.next k)) && s.running) = true at hrun
  rw [hon, Bool.and_true, decide_eq_true_eq] at hrun
  exact hinv.moved hrun

/-- **No game leaves the array**, however long it lasts and whatever keys are pressed, not even one
that fills the board; and it is lost only at a wall or at the snake's own body. -/
theorem vsnake_fair {s : SnakeGame} (h : Run.Reach Starts Turns s) (hrun : s.running = true) :
    s.Fair := by
  have hinv : s.running = true → s.Inv := by
    refine Run.Reach.invariant (P := fun s => s.running = true → s.Inv) ?_ ?_ h
    · rintro _ ⟨snake, rfl⟩ _
      exact start_inv snake
    · intro s s' hs hstep hrun'
      exact hstep.running (hs hstep.1) hrun'
  exact (hinv hrun).fair hrun

/-- The first turn of a game without a key. -/
theorem vsnake_fair_first : ((start fun _ => ⟨0, 0⟩).moved (-1)).Fair := by
  have hinv := start_inv fun _ => ⟨0, 0⟩
  have hstep : Turns (start fun _ => ⟨0, 0⟩) ((start fun _ => ⟨0, 0⟩).moved (-1)) :=
    ⟨rfl, -1, by decide, by decide, ((start fun _ => ⟨0, 0⟩).turn_comes (-1) hinv.fits (hinv.grown_le (-1))).2⟩
  exact vsnake_fair (.next (.start ⟨_, rfl⟩) hstep) (by decide)

end SnakeGame

end VnlKernel
