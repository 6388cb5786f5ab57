import Mathlib.Data.List.Forall2
import Mathlib.Data.String.Basic
import ShaderTemplate.Proofs.Source.ExcerptRows

/-!
# The layout of an excerpt

An excerpt is told by the numbers of the lines that it shows. With the first and the last line of
the span clamped into the source, the lines from `context` above the first one to `context` below
the last one stand in rows of their own, one below the other, and the caret row stands below that
of the first line of the span (`WellFormed`).

For every location, also for one outside the source, and every number of context lines there is just
one such excerpt, which is the one that `render` writes (`wellFormed_iff`). It is handed out unless
it is too long for a text, or the sum of the last line and the context is too long for a word
(`exists_wellFormed_render?`). The other checks on the way add nothing to this: numbers that fail
them belong to a caret row which is too long itself (`sumsFit_and_repeatable_iff`).
-/

namespace ShaderTemplate.Excerpt

/-- The row shows the line with a number: behind the number, which takes `width` characters, and the
separator stands the line without the carriage returns at its end. -/
def ShowsLine (lines : List (List Char)) (width number : Nat) (row : List Char) : Prop :=
  ∃ text returns, row = margin width number ++ text ∧
    (margin width number).length = width + 2 ∧
    lines[number - 1]? = some (text ++ List.replicate returns '\r') ∧ text.getLast? ≠ some '\r'

/-- A caret behind `indent` blanks, and dashes behind it. -/
def underline (indent dashes : Nat) : List Char :=
  List.replicate indent ' ' ++ '^' :: List.replicate dashes '-'

/-- The caret or a dash stands in a column, which is counted from one. -/
def Underlined (text : List Char) (column : Nat) : Prop :=
  text[column - 1]? = some '^' ∨ text[column - 1]? = some '-'

/-- The row marks a span: behind a blank margin of `width` characters and the separator stands a
caret in the column in which the span starts. If the span lies within one line, exactly the columns
from there to its end are underlined, but at least one. Otherwise the caret stands alone. -/
def MarksSpan (span : Span) (width : Nat) (row : List Char) : Prop :=
  let first := max 1 span.start.column
  ∃ dashes, row = List.replicate width ' ' ++ '|' :: ' ' :: underline (first - 1) dashes ∧
    (span.start.line = span.stop.line → ∀ column, 0 < column →
      (Underlined (underline (first - 1) dashes) column ↔
        first ≤ column ∧ column < max (first + 1) span.stop.column)) ∧
    (span.start.line ≠ span.stop.line → dashes = 0)

/-- The excerpt shows the lines of `source` around a span in order: those from `context` above the
first line of the span to `context` below its last one, as far as they exist. There is one further
row, which marks the span, below the row of its first line. The numbers are as wide as the last one
of them. -/
def WellFormed (excerpt source : String) (span : Span) (context : Nat) : Prop :=
  let lines := Text.pieces '\n' source.toList
  let first := startLine lines.length span
  let last := lastShown lines.length span context
  let width := widthOf lines span context
  ∃ above mark below, Text.pieces '\n' excerpt.toList = above ++ mark :: below ∧
    List.Forall₂ (ShowsLine lines width) (List.Ico (max 1 (first - context)) (first + 1)) above ∧
    MarksSpan span width mark ∧
    List.Forall₂ (ShowsLine lines width) (List.Ico (first + 1) (last + 1)) below

variable {context : Nat} {lines : List (List Char)} {span : Span}

/-- The row of a line shows it, if its number is not above the last one shown. -/
theorem showsLine_render {number : Nat} (hpos : 0 < number) (hnumber : number ≤ lines.length)
    (hlast : number ≤ lastShown lines.length span context) :
    ShowsLine lines (widthOf lines span context) number
      ((lineRow lines number).render (widthOf lines span context)) := by
  have hplace : number - 1 < lines.length := by omega
  obtain ⟨returns, hkept⟩ := exists_eq_append_returns (lines.getD (number - 1) [])
  refine ⟨_, returns, render_line .., length_margin hlast, ?_, fun hend => ?_⟩
  · rw [← hkept, List.getElem?_eq_getElem hplace, List.getD_eq_getElem?_getD,
      List.getElem?_eq_getElem hplace, Option.getD_some]
  · exact absurd (Text.eq_false_of_mem_getLast?_dropEndWhile hend) (by decide)

/-- The rows of successive lines show them. -/
theorem forall₂_showsLine {low high : Nat} (hlow : 0 < low) (hhigh : high ≤ lines.length + 1)
    (hlast : high ≤ lastShown lines.length span context + 1) :
    List.Forall₂ (ShowsLine lines (widthOf lines span context)) (List.Ico low high)
      ((List.Ico low high).map (Row.render (widthOf lines span context) ∘ lineRow lines)) := by
  rw [List.forall₂_map_right_iff, List.forall₂_same]
  intro number hnumber
  have hmem := List.Ico.mem.mp hnumber
  exact showsLine_render (by omega) (by omega) (by omega)

/-- The underlined columns are those of the caret and the dashes. -/
theorem underlined_underline_iff {indent dashes column : Nat} (hcolumn : 0 < column) :
    Underlined (underline indent dashes) column ↔
      indent < column ∧ column ≤ indent + 1 + dashes := by
  unfold Underlined underline
  -- A column lies in front of the caret, under it or behind it.
  rcases Nat.lt_or_ge (column - 1) indent with hblank | hbehind
  · rw [List.getElem?_append_left (by simpa using hblank), List.getElem?_replicate, if_pos hblank]
    simp
    omega
  · rw [List.getElem?_append_right (by simpa using hbehind), List.length_replicate]
    cases hplace : column - 1 - indent with
    | zero =>
      simp
      omega
    | succ place =>
      simp [List.getElem?_replicate]
      omega

/-- The caret row marks the span. -/
theorem marksSpan_render (span : Span) (width : Nat) :
    MarksSpan span width ((Row.marking span).render width) := by
  refine ⟨if span.start.line = span.stop.line then span.stop.column - (max 1 span.start.column + 1)
    else 0, ?_, fun hline column hcolumn => ?_, fun hline => if_neg hline⟩
  · simp [Row.marking, Row.render, underline, max_comm]
  · rw [underlined_underline_iff hcolumn, if_pos hline]
    omega

/-- What is written for a location is well-formed. -/
theorem wellFormed_render (source : String) (span : Span) (context : Nat) :
    WellFormed (render source span context) source span context := by
  have hlines := Text.pieces_ne_nil '\n' source.toList
  have hstart := @startLine_le_lastShown _ context span (List.length_pos_iff.mpr hlines)
  have hend : lastShown (Text.pieces '\n' source.toList).length span context ≤ _ :=
    Nat.min_le_left _ _
  exact ⟨_, _, _, pieces_render_marked rfl span context,
    forall₂_showsLine (by omega) (by omega) (by omega), marksSpan_render span _,
    forall₂_showsLine (by omega) (by omega) le_rfl⟩

/-! ## There is only one layout -/

/-- A row that shows a line is the one written for it: the text ends where the returns begin. -/
theorem ShowsLine.eq_render {width number : Nat} {row : List Char}
    (h : ShowsLine lines width number row) : row = (lineRow lines number).render width := by
  obtain ⟨text, returns, rfl, -, hline, hend⟩ := h
  have hkept : Text.dropEndWhile (· == '\r') (text ++ List.replicate returns '\r') = text := by
    rw [Text.dropEndWhile_append_of_forall text fun c hc => by simp [List.eq_of_mem_replicate hc]]
    refine Text.dropEndWhile_eq_self fun c hc => beq_eq_false_iff_ne.mpr ?_
    rintro rfl
    exact hend hc
  rw [lineRow, List.getD_eq_getElem?_getD, hline, Option.getD_some, hkept, render_line]

/-- A row that marks a span is the one written for it: the columns tell the number of dashes. -/
theorem MarksSpan.eq_render {width : Nat} {row : List Char} (h : MarksSpan span width row) :
    row = (Row.marking span).render width := by
  obtain ⟨dashes, rfl, hwithin, hacross⟩ := h
  have hdashes : dashes = if span.start.line = span.stop.line then
      span.stop.column - (max 1 span.start.column + 1) else 0 := by
    split
    next hline =>
      -- The last underlined column and the one behind it.
      have hlast := hwithin hline (max 1 span.start.column + dashes) (by omega)
      have hbehind := hwithin hline (max 1 span.start.column + dashes + 1) (by omega)
      rw [underlined_underline_iff (by omega)] at hlast hbehind
      omega
    next hline => exact hacross hline
  rw [hdashes]
  simp [Row.marking, Row.render, underline, max_comm]

/-- Rows that show successive lines are those written for them. -/
theorem eq_map_render_of_forall₂ {width : Nat} {numbers : List Nat} {shown : List (List Char)}
    (h : List.Forall₂ (ShowsLine lines width) numbers shown) :
    shown = numbers.map (Row.render width ∘ lineRow lines) := by
  rw [← List.forall₂_eq_eq_eq, List.forall₂_map_right_iff]
  exact h.flip.imp fun _ _ hshows => ShowsLine.eq_render hshows

/-- Only what is written for a location is well-formed. -/
theorem wellFormed_iff {excerpt source : String} :
    WellFormed excerpt source span context ↔ excerpt = render source span context := by
  refine ⟨fun h => ?_, fun h => h ▸ wellFormed_render source span context⟩
  obtain ⟨above, mark, below, hexcerpt, habove, hmark, hbelow⟩ := h
  have hrows : Text.pieces '\n' excerpt.toList =
      Text.pieces '\n' (render source span context).toList := by
    rw [hexcerpt, pieces_render_marked rfl span context, ← eq_map_render_of_forall₂ habove,
      ← MarksSpan.eq_render hmark, ← eq_map_render_of_forall₂ hbelow]
  -- Texts of the same rows are the same.
  apply String.toList_inj.mp
  rw [← Text.joined_pieces '\n' excerpt.toList, hrows, Text.joined_pieces]

/-! ## The checks -/

/-- A text has at least as many bytes as characters. -/
theorem length_le_utf8ByteSize (text : String) : text.toList.length ≤ text.utf8ByteSize := by
  rw [← String.utf8Len_toList]
  induction text.toList with
  | nil => exact le_rfl
  | cons c rest ih =>
    have hpos := c.utf8Size_pos
    simp only [List.length_cons, String.utf8Len_cons]
    omega

/-- No row is longer than the excerpt. -/
theorem length_render_le {source : String} {row : Row}
    (hrow : row ∈ rows (Text.pieces '\n' source.toList) span context) :
    (row.render (widthOf (Text.pieces '\n' source.toList) span context)).length ≤
      (render source span context).utf8ByteSize := by
  refine le_trans ?_ (length_le_utf8ByteSize _)
  rw [toList_render]
  exact Text.length_le_joined (List.mem_map_of_mem hrow)

/-- If the excerpt is short enough, the only check that may fail is that of the last line. -/
theorem sumsFit_and_repeatable_iff {source : String}
    (hsize : (render source span context).utf8ByteSize < sizeLimit) :
    SumsFit (Text.pieces '\n' source.toList).length span context ∧ (Row.marking span).Repeatable ↔
      endLine (Text.pieces '\n' source.toList).length span + context ≤ UInt64.size := by
  have hlines := Text.pieces_ne_nil '\n' source.toList
  have hlast := @lastMarked_succ _ span (List.length_pos_iff.mpr hlines)
  -- The caret row, which is part of the excerpt, is longer than its blanks and its dashes.
  have hcaret := @length_render_le context span source (.marking span)
    (by simp [rows_eq_marked hlines])
  simp only [Row.marking, Row.render, List.length_append, List.length_cons,
    List.length_replicate] at hcaret
  simp only [SumsFit, Row.marking, Row.Repeatable, sizeLimit, UInt64.size] at *
  omega

/-- The excerpt is handed out if it is not too long, and if the line that stands `context` lines below
the last one of the span has a number, counted from zero, that is a word. -/
theorem render?_eq_ite (source : String) (span : Span) (context : Nat) :
    render? source span context =
      if endLine (Text.pieces '\n' source.toList).length span + context ≤ UInt64.size ∧
        (render source span context).utf8ByteSize < sizeLimit
      then some (render source span context) else none := by
  rw [render?, ← ite_and]
  exact if_congr (and_congr_left sumsFit_and_repeatable_iff) rfl rfl

/-- Every source has, for every location and every number of context lines, exactly one well-formed
excerpt. It is handed out exactly if it is not too long for a text, and the sum of the last line of
the span, counted from zero, and of the context lines is a word. -/
theorem exists_wellFormed_render? (source : String) (span : Span) (context : Nat) :
    ∃ excerpt, WellFormed excerpt source span context ∧
      (∀ other, WellFormed other source span context → other = excerpt) ∧
      render? source span context =
        if endLine (Text.pieces '\n' source.toList).length span + context ≤ UInt64.size ∧
          excerpt.utf8ByteSize < sizeLimit
        then some excerpt else none :=
  ⟨render source span context, wellFormed_render source span context,
    fun _ hother => wellFormed_iff.mp hother, render?_eq_ite source span context⟩

/-- With the greatest number of context lines there is no excerpt for a span in the second line, not
even of a source of two short lines. -/
theorem render?_eq_none_greatestContext :
    WellFormed "1| a\n2| b\n | ^" "a\nb" ⟨⟨2, 1⟩, ⟨2, 2⟩⟩ (UInt64.size - 1) ∧
      ¬ ∃ excerpt, render? "a\nb" ⟨⟨2, 1⟩, ⟨2, 2⟩⟩ (UInt64.size - 1) = some excerpt ∧
        WellFormed excerpt "a\nb" ⟨⟨2, 1⟩, ⟨2, 2⟩⟩ (UInt64.size - 1) := by
  refine ⟨wellFormed_iff.mpr (by decide +kernel), fun ⟨excerpt, hexcerpt, _⟩ => ?_⟩
  have hnone : render? "a\nb" ⟨⟨2, 1⟩, ⟨2, 2⟩⟩ (UInt64.size - 1) = none := by decide +kernel
  rw [hnone] at hexcerpt
  cases hexcerpt

end ShaderTemplate.Excerpt
