/-!
# A line of text with a cursor

The line is kept as what is before the cursor and what is behind it, so there is no line whose
cursor is outside. An editor is a line and a place in a list of lines that can be recalled.
-/

namespace LineZipper

variable {α : Type}

/-- A line with a cursor. -/
structure Line (α : Type) where
  before : List α
  after : List α

namespace Line

def empty : Line α := ⟨[], []⟩

def text (l : Line α) : List α := l.before ++ l.after

def cursor (l : Line α) : Nat := l.before.length

/-- Insert at the cursor, as long as the line is shorter than `limit`. -/
def insert (limit : Nat) (l : Line α) (c : α) : Line α :=
  if l.text.length = limit then l else ⟨l.before ++ [c], l.after⟩

/-- Delete before the cursor. -/
def backspace (l : Line α) : Line α := ⟨l.before.dropLast, l.after⟩

/-- Delete at the cursor. -/
def delete (l : Line α) : Line α := ⟨l.before, l.after.tail⟩

def left (l : Line α) : Line α := ⟨l.before.dropLast, l.before.getLast?.toList ++ l.after⟩

def right (l : Line α) : Line α := ⟨l.before ++ l.after.head?.toList, l.after.tail⟩

def home (l : Line α) : Line α := ⟨[], l.text⟩

def toEnd (l : Line α) : Line α := ⟨l.text, []⟩

/-- Another line, with the cursor at its end. -/
def whole (s : List α) : Line α := ⟨s, []⟩

theorem text_length (l : Line α) : l.text.length = l.before.length + l.after.length :=
  List.length_append

theorem cursor_le (l : Line α) : l.cursor ≤ l.text.length := by
  rw [text_length]
  exact Nat.le_add_right _ _

/-- Moving the cursor leaves the text. -/
@[simp] theorem left_text (l : Line α) : l.left.text = l.text := by
  have h : l.before.dropLast ++ l.before.getLast?.toList = l.before := by
    rcases List.eq_nil_or_concat l.before with hnil | ⟨b, c, hb⟩
    · rw [hnil]
      rfl
    · rw [hb, List.concat_eq_append, List.dropLast_concat, List.getLast?_concat]
      rfl
  rw [text, left, ← List.append_assoc, h]
  rfl

@[simp] theorem right_text (l : Line α) : l.right.text = l.text := by
  rw [text, right, List.append_assoc]
  cases h : l.after with
  | nil => rw [text, h]; rfl
  | cons c s => rw [text, h]; rfl

@[simp] theorem home_text (l : Line α) : l.home.text = l.text := rfl

@[simp] theorem toEnd_text (l : Line α) : l.toEnd.text = l.text := List.append_nil _

@[simp] theorem whole_text (s : List α) : (whole s).text = s := List.append_nil s

end Line

/-- What a key means to the editor. -/
inductive Key (α : Type) where
  | insert (c : α)
  | backspace
  | delete
  | left
  | right
  | home
  | toEnd
  /-- Recall the line before. -/
  | up
  /-- Recall the line after. -/
  | down
  | ignored
deriving DecidableEq

/-- A line, and the number of the line that was recalled last. -/
structure Editor (α : Type) where
  line : Line α
  recalled : Nat

/-- What a key does, where `saved i` is the line `i` of the `count` that there are. -/
def Editor.press (limit count : Nat) (saved : Nat → List α) (e : Editor α) : Key α → Editor α
  | .insert c => { e with line := e.line.insert limit c }
  | .backspace => { e with line := e.line.backspace }
  | .delete => { e with line := e.line.delete }
  | .left => { e with line := e.line.left }
  | .right => { e with line := e.line.right }
  | .home => { e with line := e.line.home }
  | .toEnd => { e with line := e.line.toEnd }
  | .up => if e.recalled = 0 then e else ⟨.whole (saved (e.recalled - 1)), e.recalled - 1⟩
  | .down => if e.recalled < count then ⟨.whole (saved (e.recalled + 1)), e.recalled + 1⟩ else e
  | .ignored => e

/-- No line behind the last one is recalled. -/
theorem Editor.press_recalled {limit count : Nat} {saved : Nat → List α} {e : Editor α} (k : Key α)
    (h : e.recalled ≤ count) : (e.press limit count saved k).recalled ≤ count := by
  cases k with
  | up =>
      show (if e.recalled = 0 then e else _).recalled ≤ count
      split
      · exact h
      · exact Nat.le_trans (Nat.sub_le _ _) h
  | down =>
      show (if e.recalled < count then _ else e).recalled ≤ count
      split
      · next hlt => exact hlt
      · exact h
  | _ => exact h

/-- **What is in a line** was put in, or recalled. -/
theorem Editor.press_mem {P : α → Prop} {limit count : Nat} {saved : Nat → List α} {e : Editor α}
    {k : Key α}
    (hk : ∀ c, k = .insert c → P c) (hr : ∀ i, ∀ c ∈ saved i, P c) (h : ∀ c ∈ e.line.text, P c) :
    ∀ c ∈ (e.press limit count saved k).line.text, P c := by
  have hbefore : ∀ c ∈ e.line.before, P c := fun c hc => h c (List.mem_append_left _ hc)
  have hafter : ∀ c ∈ e.line.after, P c := fun c hc => h c (List.mem_append_right _ hc)
  intro c hc
  cases k with
  | insert d =>
      have hc : c ∈ (e.line.insert limit d).text := hc
      rw [Line.insert] at hc
      split at hc
      · exact h c hc
      · rw [Line.text, List.mem_append, List.mem_append, List.mem_singleton] at hc
        rcases hc with (hc | rfl) | hc
        · exact hbefore c hc
        · exact hk c rfl
        · exact hafter c hc
  | backspace =>
      rcases List.mem_append.mp hc with hc | hc
      · exact hbefore c ((List.dropLast_sublist _).subset hc)
      · exact hafter c hc
  | delete =>
      rcases List.mem_append.mp hc with hc | hc
      · exact hbefore c hc
      · exact hafter c (List.mem_of_mem_tail hc)
  | left => exact h c (e.line.left_text ▸ hc)
  | right => exact h c (e.line.right_text ▸ hc)
  | home => exact h c hc
  | toEnd => exact h c (e.line.toEnd_text ▸ hc)
  | up =>
      have hc : c ∈ (if e.recalled = 0 then e else _).line.text := hc
      split at hc
      · exact h c hc
      · exact hr _ c (Line.whole_text (saved _) ▸ hc)
  | down =>
      have hc : c ∈ (if e.recalled < count then _ else e).line.text := hc
      split at hc
      · exact hr _ c (Line.whole_text (saved _) ▸ hc)
      · exact h c hc
  | ignored => exact h c hc

end LineZipper
