import Mathlib.Data.List.Induction
import ShaderTemplate.Proofs.Source.ExcerptRows
import ShaderTemplate.Proofs.Source.Location

/-!
# Where the caret of an excerpt stands

The position of a character counts the text before it, and an excerpt cuts the source at its line
feeds. Both agree on where the character is: its line is a piece of the source, and its column is
its place in the piece (`Position.exists_pieces_append`). So the caret row of an excerpt follows the
row of that line; and since the numbers of the rows are written in the same width, the caret stands
in it just where the character stands in the row above, whatever else the line holds
(`pointsAt_render`).

A carriage return at the end of a line is not shown, and neither is a line feed. Every other
character can be pointed at.
-/

namespace ShaderTemplate

/-- A text goes on behind `front` in the line and the column of the position behind it. -/
theorem Position.exists_pieces_append (front : List Char) {back first : List Char}
    {more : List (List Char)} (hback : Text.pieces '\n' back = first :: more) :
    ∃ above start, Text.pieces '\n' (front ++ back) = above ++ (start ++ first) :: more ∧
      behind front = ⟨above.length + 1, start.length + 1⟩ := by
  induction front using List.reverseRecOn generalizing back first more with
  | nil => exact ⟨[], [], by simpa using hback, rfl⟩
  | append_singleton front c ih =>
    rw [List.append_assoc, List.singleton_append, behind_concat]
    by_cases hc : c = '\n'
    · -- The line of `front` ends here, and the text behind it is a line of its own.
      obtain ⟨above, start, hpieces, hbehind⟩ :=
        @ih (c :: back) [] (first :: more) (by rw [hc, Text.pieces_sep_cons, hback])
      refine ⟨above ++ [start], [], by simp [hpieces], ?_⟩
      simp [hbehind, hc, next]
    · obtain ⟨above, start, hpieces, hbehind⟩ :=
        @ih (c :: back) (c :: first) more (by simp [Text.pieces, hc, hback])
      refine ⟨above, start ++ [c], by simp [hpieces], ?_⟩
      simp [hbehind, hc, next]

namespace Excerpt

/-- In an excerpt of `source` the caret points at the character `c` at the position `p`. It stands in
the row below that of the line of `p`, in the column in which `c` stands there. Every other row is
one of a line, and the line of `p` is shown but for carriage returns at its end. -/
def PointsAt (excerpt source : String) (p : Position) (c : Char) : Prop :=
  ∃ width above text blanks dashes below,
    Text.pieces '\n' excerpt.toList =
        above ++ (margin width p.line ++ text) :: (blanks ++ '^' :: dashes) :: below ∧
      (∀ row ∈ above ++ below, ∃ number other, row = margin width number ++ other) ∧
      (∃ returns, (Text.pieces '\n' source.toList)[p.line - 1]? =
        some (text ++ List.replicate returns '\r')) ∧
      '^' ∉ blanks ∧ blanks.length = (margin width p.line).length + (p.column - 1) ∧
      text[p.column - 1]? = some c

/-! ## The place of the caret -/

variable {above below : List (List Char)} {line : List Char} {span : Span} {context : Nat}

/-- The line in which the span starts is one of the text. -/
theorem startLine_eq (h : span.start.line = above.length + 1) :
    startLine (above ++ line :: below).length span = span.start.line := by
  simp only [startLine, List.length_append, List.length_cons]
  omega

/-- The line in which the span starts is shown. -/
theorem line_le_lastShown (h : span.start.line = above.length + 1) :
    span.start.line ≤ lastShown (above ++ line :: below).length span context := by
  rw [← @startLine_eq above below line span h]
  exact startLine_le_lastShown (by simp)

/-- The caret row follows the row of the line in which the span starts, and every other row is one
of a line. -/
theorem exists_rows_eq (h : span.start.line = above.length + 1) :
    ∃ before after, rows (above ++ line :: below) span context =
        before ++ .line span.start.line (Text.dropEndWhile (· == '\r') line) ::
          .marking span :: after ∧
      ∀ row ∈ before ++ after, ∃ number text, row = .line number text := by
  have hstart := @startLine_eq above below line span h
  have hrow : lineRow (above ++ line :: below) span.start.line =
      .line span.start.line (Text.dropEndWhile (· == '\r') line) := by
    simp [lineRow, h]
  have hrows : rows (above ++ line :: below) span context = _ := rows_eq_marked (by simp)
  rw [hstart, List.Ico.succ_top (show max 1 (span.start.line - context) ≤ span.start.line by omega),
    List.map_append, List.map_singleton, hrow, List.append_assoc, List.singleton_append] at hrows
  refine ⟨_, _, hrows, fun row hrow => ?_⟩
  rw [← List.map_append] at hrow
  obtain ⟨number, -, rfl⟩ := List.mem_map.mp hrow
  exact ⟨_, _, rfl⟩

/-- The caret stands behind as many blanks as there are characters before the span. -/
theorem exists_render_marking (span : Span) (width : Nat) :
    ∃ dashes, (Row.marking span).render width =
      (List.replicate width ' ' ++ '|' :: ' ' :: List.replicate (span.start.column - 1) ' ') ++
        '^' :: dashes := by
  have hindent : max span.start.column 1 - 1 = span.start.column - 1 := by omega
  rw [Row.marking, Row.render, hindent]
  exact ⟨_, rfl⟩

/-- A character that is not dropped stays in its place when a text is cut at its end. -/
theorem getElem?_dropEndWhile {p : Char → Bool} {text : List Char} {i : Nat} {c : Char}
    (h : text[i]? = some c) (hc : p c = false) : (Text.dropEndWhile p text)[i]? = some c := by
  obtain ⟨dropped, htext, hdropped⟩ := Text.exists_append_dropEndWhile p text
  rw [htext, List.getElem?_append] at h
  split at h
  · exact h
  · exact absurd (hdropped c (List.mem_of_getElem? h)) (by simp [hc])

/-- The caret of an excerpt points at the character at the start of the span. -/
theorem pointsAt_render {source : String} {before after : List Char} {c : Char}
    (hsource : source.toList = before ++ c :: after) (hnewline : c ≠ '\n') (hreturn : c ≠ '\r')
    (hstart : span.start = .behind before) :
    PointsAt (render source span context) source span.start c := by
  obtain ⟨first, below, hafter⟩ := List.exists_cons_of_ne_nil (Text.pieces_ne_nil '\n' after)
  obtain ⟨above, start, hpieces, hbehind⟩ := Position.exists_pieces_append before
    (show Text.pieces '\n' (c :: after) = (c :: first) :: below by
      simp [Text.pieces, hnewline, hafter])
  rw [← hsource] at hpieces
  rw [← hstart] at hbehind
  have hline : span.start.line = above.length + 1 := by rw [hbehind]
  have hcolumn : span.start.column = start.length + 1 := by rw [hbehind]
  obtain ⟨rowsAbove, rowsBelow, hrows, hothers⟩ :=
    @exists_rows_eq above below (start ++ c :: first) span context hline
  obtain ⟨returns, hkept⟩ := exists_eq_append_returns (start ++ c :: first)
  have hmargin := length_margin
    (@line_le_lastShown above below (start ++ c :: first) span context hline)
  have hexcerpt := pieces_render source span context
  rw [hpieces, hrows, List.map_append, List.map_cons, List.map_cons, render_line] at hexcerpt
  generalize widthOf (above ++ (start ++ c :: first) :: below) span context = width at *
  obtain ⟨dashes, hcaret⟩ := exists_render_marking span width
  rw [hcaret] at hexcerpt
  refine ⟨width, _, _, _, dashes, _, hexcerpt, fun row hrow => ?_, ⟨returns, ?_⟩, ?_, ?_, ?_⟩
  · rw [← List.map_append] at hrow
    obtain ⟨shown, hshown, rfl⟩ := List.mem_map.mp hrow
    obtain ⟨number, text, rfl⟩ := hothers shown hshown
    exact ⟨number, text, render_line width number text⟩
  · rw [hpieces, hline, Nat.add_sub_cancel, List.getElem?_append_right (Nat.le_refl _),
      Nat.sub_self, List.getElem?_cons_zero, ← hkept]
  · simp
  · rw [hmargin]
    simp
    omega
  · refine getElem?_dropEndWhile ?_ (by simpa using hreturn)
    rw [hcolumn, Nat.add_sub_cancel, List.getElem?_append_right (Nat.le_refl _), Nat.sub_self,
      List.getElem?_cons_zero]

end Excerpt

end ShaderTemplate
