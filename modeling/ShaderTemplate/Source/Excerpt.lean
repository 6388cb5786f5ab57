import ShaderTemplate.Source.Position
import ShaderTemplate.Text.Blank
import ShaderTemplate.Text.Pieces

/-!
# Excerpts of a source text

An excerpt shows the lines around a span. Every shown line stands in a row of its own after its
number, and a caret row below the first line of the span underlines it. The numbers are aligned to
the right, so all rows share one column of separators.

Lines outside the source are clamped: a span that starts after the last line is shown at the last
line, and a span that ends before it starts is shown at its start.

Lines and columns are counted by words of 64 bits, and a text has less than 2 ^ 63 bytes. Two sums
of counts are made for an excerpt, and its caret row is put together from repeated characters; if
one of them is too long, there is no excerpt (`render?`). What an excerpt looks like does not depend
on these bounds (`render`).
-/

namespace ShaderTemplate.Excerpt

/-- The lines that an excerpt shows, counted from zero. -/
structure Window where
  /-- The line that carries the caret row. -/
  marked : Nat
  /-- The first line shown. -/
  first : Nat
  /-- The last line shown. -/
  last : Nat
  deriving Repr, DecidableEq

/-- The line in which the span starts, counted from zero and clamped into a source of `count`
lines. -/
def firstMarked (count : Nat) (span : Span) : Nat :=
  min (span.start.line - 1) (count - 1)

/-- The line in which the span ends, counted from zero and clamped between the one in which it
starts and the last one of a source of `count` lines. -/
def lastMarked (count : Nat) (span : Span) : Nat :=
  max (firstMarked count span) (min (span.stop.line - 1) (count - 1))

/-- Choose the lines to show of a source of `count` lines: the lines of the span, clamped into the
source, and `context` lines on either side. -/
def Window.around (count : Nat) (span : Span) (context : Nat) : Window where
  marked := firstMarked count span
  first := firstMarked count span - context
  last := min (lastMarked count span + context) (count - 1)

/-- One row of an excerpt. -/
inductive Row where
  /-- A source line after its number. -/
  | line (number : Nat) (text : List Char)
  /-- A caret after `indent` blanks, followed by `dashes`. -/
  | caret (indent dashes : Nat)
  deriving Repr, DecidableEq

/-- Underline the part of the span that lies in its first line, at least one character of it. -/
def Row.marking (span : Span) : Row :=
  let column := max span.start.column 1
  -- The caret stands for the first character of the span.
  let dashes := if span.start.line = span.stop.line then span.stop.column - (column + 1) else 0
  .caret (column - 1) dashes

/-- Write a row, its number or blank margin taking `width` characters. -/
def Row.render (width : Nat) : Row → List Char
  | .line number text => (Nat.toDigits 10 number).leftpad width ' ' ++ '|' :: ' ' :: text
  | .caret indent dashes =>
    List.replicate width ' ' ++ '|' :: ' ' :: List.replicate indent ' ' ++
      '^' :: List.replicate dashes '-'

/-- List the rows around a span: each line in the window, without the carriage returns at its end,
and the caret row after the marked line. -/
def rows (lines : List (List Char)) (span : Span) (context : Nat) : List Row :=
  let window := Window.around lines.length span context
  -- Lines are counted from zero here and numbered from one in their rows.
  let shown := lines.zipIdx.filter fun entry => window.first ≤ entry.2 && entry.2 ≤ window.last
  shown.flatMap fun entry =>
    let row := Row.line (entry.2 + 1) (Text.dropEndWhile (· == '\r') entry.1)
    if entry.2 = window.marked then [row, Row.marking span] else [row]

/-- Write the excerpt of `source` around `span` with `context` lines on either side. -/
def render (source : String) (span : Span) (context : Nat) : String :=
  let lines := Text.pieces '\n' source.toList
  let last := (Window.around lines.length span context).last
  -- The last number shown is the widest.
  let width := (Nat.toDigits 10 (last + 1)).length
  String.ofList (Text.joined '\n' ((rows lines span context).map (Row.render width)))

/-! ## Words and the size of a text -/

/-- A text has less than 2 ^ 63 bytes, so that a word tells how far apart two places in it are, and
which of them comes first. -/
def sizeLimit : Nat := UInt64.size / 2

/-- The sums that are made for an excerpt of a source of `count` lines are words. -/
def SumsFit (count : Nat) (span : Span) (context : Nat) : Prop :=
  -- The number of the last line shown is cut to the source only after the sum is made.
  lastMarked count span + context < UInt64.size ∧
    -- The dashes below a span within one line are counted from the column behind the caret.
    (span.start.line = span.stop.line → max span.start.column 1 + 1 < UInt64.size)

instance (count : Nat) (span : Span) (context : Nat) : Decidable (SumsFit count span context) :=
  inferInstanceAs (Decidable (_ ∧ _))

/-- The repeated characters of a row, which are put together before the row is, are texts. -/
def Row.Repeatable : Row → Prop
  | .line _ _ => True
  | .caret indent dashes => indent < sizeLimit ∧ dashes < sizeLimit

instance : (row : Row) → Decidable row.Repeatable
  | .line _ _ => inferInstanceAs (Decidable True)
  | .caret _ _ => inferInstanceAs (Decidable (_ ∧ _))

/-- Write the excerpt of `source` around `span`, if no sum and no text on the way is too long. -/
def render? (source : String) (span : Span) (context : Nat) : Option String :=
  let count := (Text.pieces '\n' source.toList).length
  if SumsFit count span context ∧ (Row.marking span).Repeatable then
    let excerpt := render source span context
    if excerpt.utf8ByteSize < sizeLimit then some excerpt else none
  else none

end ShaderTemplate.Excerpt
