/-!
# Positions in a source text

A position is a line and a column, both counted from one, in characters; a line ends after its
line feed. A span runs from one position up to another, which it does not include. Main statement:
stepping over two texts in turn is stepping over their concatenation (`advance_append`).
-/

namespace ShaderTemplate

/-- A line and a column of a source text, both counted from one. -/
structure Position where
  /-- The line, counted from one. -/
  line : Nat
  /-- The column within the line in characters, counted from one. -/
  column : Nat
  deriving Repr, DecidableEq, Inhabited

/-- A half-open range of a source text. -/
structure Span where
  /-- The position of the first character. -/
  start : Position
  /-- The position just after the last character. -/
  stop : Position
  deriving Repr, DecidableEq, Inhabited

namespace Position

/-- The position of the first character of a text. -/
def first : Position := ⟨1, 1⟩

/-- Step over one character. -/
def next (p : Position) (c : Char) : Position :=
  if c = '\n' then ⟨p.line + 1, 1⟩ else ⟨p.line, p.column + 1⟩

/-- Step over a text. -/
def advance (p : Position) (text : List Char) : Position :=
  text.foldl next p

@[simp] theorem advance_nil (p : Position) : p.advance [] = p := rfl

@[simp] theorem advance_cons (p : Position) (c : Char) (text : List Char) :
    p.advance (c :: text) = (p.next c).advance text := rfl

/-- Step over two texts in turn. -/
theorem advance_append (p : Position) (first second : List Char) :
    p.advance (first ++ second) = (p.advance first).advance second := by
  simp [advance]

/-- Write a position as line and column. -/
def render (p : Position) : String :=
  toString p.line ++ ":" ++ toString p.column

end Position

end ShaderTemplate
