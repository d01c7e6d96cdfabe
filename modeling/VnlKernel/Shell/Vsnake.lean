import VnlKernel.Shell.Readline

/-!
# The snake: `src/shell/vsnake.c`

The body is an array with room for every cell of the board. It moves by one cell a turn, each
part to where the part before it was, and grows by one when the head comes to the food. What
the game reads and writes of the array is noted down.
-/

namespace VnlKernel

/-- `WIDTH`. -/
def snakeWidth : Nat := 40

/-- `HEIGHT`. -/
def snakeHeight : Nat := 20

@[ext]
structure Point where
  x : Int
  y : Int
deriving DecidableEq

/-- What `cmd_vsnake` keeps from turn to turn. -/
structure SnakeGame where
  snake : Nat → Point
  length : Nat
  dx : Int
  dy : Int
  food : Point
  score : Int
  running : Bool

namespace SnakeGame

/-- The variables before the first turn; most of the array is not written to yet. -/
def start (snake : Nat → Point) : SnakeGame where
  snake := fun i => if i = 0 then ⟨10, 10⟩ else if i = 1 then ⟨9, 10⟩ else if i = 2 then ⟨8, 10⟩ else snake i
  length := 3
  dx := 1
  dy := 0
  food := ⟨15, 10⟩
  score := 0
  running := true

/-- `snake[i]` is read or written. -/
def touch (i : Nat) : Logged Access Unit := .note (.span (i + 1) (snakeWidth * snakeHeight))

/-- `for (int i = 0; i < length; i++)` of the drawing, `n` turns of it from `i` on: which part of
the body is at a cell. -/
def partAt (s : SnakeGame) (p : Point) : Nat → Nat → Logged Access (Option Nat)
  | 0, _ => pure none
  | n + 1, i => do
      touch i
      if s.snake i = p then return some i else partAt s p n (i + 1)

/-- The character that is drawn for a cell: `@`, `o`, `*` or a blank. -/
def cell (s : SnakeGame) (p : Point) : Logged Access UInt8 := do
  match ← s.partAt p s.length 0 with
  | some i => return if i = 0 then 0x40 else 0x6F
  | none => return if s.food = p then 0x2A else 0x20

/-- Where the head goes, with key `k`. -/
def steer (s : SnakeGame) (k : Int) : Int × Int :=
  if k = keyUp ∧ s.dy = 0 then (0, -1)
  else if k = keyDown ∧ s.dy = 0 then (0, 1)
  else if k = keyLeft ∧ s.dx = 0 then (-1, 0)
  else if k = keyRight ∧ s.dx = 0 then (1, 0)
  else (s.dx, s.dy)

/-- `for (int i = 0; i < length; i++) if (...) running = false;`. -/
def bites (s : SnakeGame) (next : Point) (running : Bool) : Logged Access Bool :=
  .forUpTo (fun i running => do
    touch i
    return if s.snake i = next then false else running) running s.length

/-- The cell where the food is put next. -/
def nextFood (p : Point) : Point :=
  ⟨(p.x * 7 + 13).tmod snakeWidth, (p.y * 3 + 7).tmod snakeHeight⟩

/-- `for (int i = ...; i > 0; i--) snake[i] = snake[i - 1];`. -/
def follow (snake : Nat → Point) : Nat → Logged Access (Nat → Point)
  | 0 => pure snake
  | i + 1 => do
      touch (i + 1)
      touch i
      follow (fun j => if j = i + 1 then snake i else snake j) i

/-- A turn, with a key that does not end the game. -/
def turn (s : SnakeGame) (k : Int) : Logged Access SnakeGame := do
  let (dx, dy) := s.steer k
  touch 0
  let next : Point := ⟨(s.snake 0).x + dx, (s.snake 0).y + dy⟩
  let running := if next.x < 0 ∨ next.x ≥ snakeWidth ∨ next.y < 0 ∨ next.y ≥ snakeHeight then false else s.running
  let running ← s.bites next running
  let eats := next = s.food
  let length := if eats then s.length + 1 else s.length
  let snake ← follow s.snake (length - 1)
  touch 0
  return {
    snake := fun j => if j = 0 then next else snake j
    length := length
    dx := dx
    dy := dy
    food := if eats then nextFood s.food else s.food
    score := if eats then s.score + 100 else s.score
    running := running }

end SnakeGame

end VnlKernel
