import Mathlib.Data.List.Intervals
import Mathlib.Data.Nat.Digits.Defs
import ShaderTemplate.Source.Excerpt

/-!
# The rows of an excerpt by the numbers of their lines

An excerpt is chosen by lines counted from zero and cut from the source; here its rows are told by
the numbers that they carry. The first and the last line of a span are clamped into the source
(`startLine`, `endLine`), which makes the window the lines from `context` above the first one to
`context` below the last one (`first_succ`, `last_succ`). The rows are those of the lines up to the
first one of the span, the caret row, and those of the lines below (`rows_eq_marked`).
-/

namespace ShaderTemplate.Excerpt

variable {count context : Nat} {lines : List (List Char)} {span : Span}

/-! ## The window -/

/-- The number of the line in which a span starts, clamped into a text of `count` lines. -/
def startLine (count : Nat) (span : Span) : Nat :=
  max 1 (min span.start.line count)

/-- The number of the line in which a span ends, clamped between the one in which it starts and the
last one of a text of `count` lines. -/
def endLine (count : Nat) (span : Span) : Nat :=
  max (startLine count span) (min span.stop.line count)

/-- The number of the last line shown: `context` lines below the span, if the text has so many. -/
def lastShown (count : Nat) (span : Span) (context : Nat) : Nat :=
  min count (endLine count span + context)

theorem marked_succ (hcount : 0 < count) :
    (Window.around count span context).marked + 1 = startLine count span := by
  simp only [Window.around, firstMarked, startLine]
  omega

theorem first_succ (hcount : 0 < count) :
    (Window.around count span context).first + 1 = max 1 (startLine count span - context) := by
  simp only [Window.around, firstMarked, startLine]
  omega

theorem lastMarked_succ (hcount : 0 < count) :
    lastMarked count span + 1 = endLine count span := by
  simp only [lastMarked, firstMarked, endLine, startLine]
  omega

theorem last_succ (hcount : 0 < count) :
    (Window.around count span context).last + 1 = lastShown count span context := by
  have hlast := @lastMarked_succ count span hcount
  simp only [Window.around, lastShown]
  omega

/-- The span lies between its clamped ends, which are lines of the text. -/
theorem startLine_le_endLine (hcount : 0 < count) (span : Span) :
    1 ≤ startLine count span ∧ startLine count span ≤ endLine count span ∧
      endLine count span ≤ count := by
  simp only [endLine, startLine]
  omega

/-- The line in which the span starts is shown. -/
theorem startLine_le_lastShown (hcount : 0 < count) :
    startLine count span ≤ lastShown count span context := by
  obtain ⟨-, hle, hlast⟩ := startLine_le_endLine hcount span
  simp only [lastShown]
  omega

/-! ## The rows -/

/-- The row of the line with a number. -/
def lineRow (lines : List (List Char)) (number : Nat) : Row :=
  .line number (Text.dropEndWhile (· == '\r') (lines.getD (number - 1) []))

/-- The rows of the line with a number: its own one, and the caret row if the span starts there. -/
def rowsOf (lines : List (List Char)) (span : Span) (number : Nat) : List Row :=
  if number = startLine lines.length span then [lineRow lines number, .marking span]
  else [lineRow lines number]

/-- What a row leaves out of its line are carriage returns. -/
theorem exists_eq_append_returns (line : List Char) : ∃ returns,
    line = Text.dropEndWhile (· == '\r') line ++ List.replicate returns '\r' := by
  obtain ⟨dropped, htext, hdropped⟩ := Text.exists_append_dropEndWhile (· == '\r') line
  have hreturns : dropped = List.replicate dropped.length '\r' :=
    List.eq_replicate_iff.mpr ⟨rfl, fun c hc => by simpa using hdropped c hc⟩
  exact ⟨dropped.length, hreturns ▸ htext⟩

/-- Lines together with their places are the lines under their numbers. -/
theorem zipIdx_eq_map_Ico (lines : List (List Char)) : lines.zipIdx =
    (List.Ico 1 (lines.length + 1)).map fun number => (lines.getD (number - 1) [], number - 1) := by
  refine List.ext_getElem (by simp) fun i hi _ => ?_
  have hi : i < lines.length := by simpa using hi
  simp [List.Ico, hi]

/-- The numbers of the lines from `low` to `high`, which are counted from zero. -/
theorem filter_Ico_one {low high : Nat} (hhigh : high < count) :
    ((List.Ico 1 (count + 1)).filter fun number => low ≤ number - 1 && number - 1 ≤ high) =
      List.Ico (low + 1) (high + 1 + 1) := by
  have hsplit : ((List.Ico 1 (count + 1)).filter fun number =>
        low ≤ number - 1 && number - 1 ≤ high) =
      ((List.Ico 1 (count + 1)).filter (low + 1 ≤ ·)).filter (· < high + 1 + 1) := by
    rw [List.filter_filter]
    refine List.filter_congr fun number hnumber => ?_
    have hpos := (List.Ico.mem.mp hnumber).1
    rw [Bool.eq_iff_iff]
    simp
    omega
  rw [hsplit, List.Ico.filter_le, List.Ico.filter_lt, max_eq_right (by omega),
    min_eq_right (by omega)]

/-- The rows of an excerpt, number by number. -/
theorem rows_eq_flatMap (hlines : lines ≠ []) (span : Span) (context : Nat) :
    rows lines span context = (List.Ico (max 1 (startLine lines.length span - context))
      (lastShown lines.length span context + 1)).flatMap (rowsOf lines span) := by
  have hcount : 0 < lines.length := List.length_pos_iff.mpr hlines
  have hmarked := @marked_succ lines.length context span hcount
  have hlast := @last_succ lines.length context span hcount
  have hlow : (Window.around lines.length span context).last < lines.length := by
    simp only [lastShown] at hlast
    omega
  simp only [rows, zipIdx_eq_map_Ico, List.filter_map, List.flatMap_map, Function.comp_def]
  rw [filter_Ico_one hlow, first_succ hcount, hlast]
  -- The marked line is told by its place on the left and by its number on the right.
  refine List.flatMap_congr fun number hnumber => ?_
  have hpos := (List.Ico.mem.mp hnumber).1
  have hiff : number - 1 = (Window.around lines.length span context).marked ↔
      number = startLine lines.length span := by omega
  simp only [rowsOf, hiff, lineRow, Nat.sub_add_cancel (show 1 ≤ number by omega)]

/-- Lines in which the span does not start have one row each. -/
theorem flatMap_rowsOf {low high : Nat}
    (h : startLine lines.length span < low ∨ high ≤ startLine lines.length span) :
    (List.Ico low high).flatMap (rowsOf lines span) = (List.Ico low high).map (lineRow lines) := by
  rw [List.map_eq_flatMap]
  refine List.flatMap_congr fun number hnumber => if_neg ?_
  have hmem := List.Ico.mem.mp hnumber
  omega

/-- The caret row stands below that of the marked line. -/
theorem rows_eq_marked (hlines : lines ≠ []) : rows lines span context =
      (List.Ico (max 1 (startLine lines.length span - context))
        (startLine lines.length span + 1)).map (lineRow lines) ++
      .marking span :: (List.Ico (startLine lines.length span + 1)
        (lastShown lines.length span context + 1)).map (lineRow lines) := by
  have hcount : 0 < lines.length := List.length_pos_iff.mpr hlines
  have hfirst : max 1 (startLine lines.length span - context) ≤ startLine lines.length span := by
    have hpos := (startLine_le_endLine hcount span).1
    omega
  have hshown := Nat.lt_succ_of_le (@startLine_le_lastShown lines.length context span hcount)
  have hmarked : rowsOf lines span (startLine lines.length span) =
      [lineRow lines (startLine lines.length span), .marking span] := if_pos rfl
  -- The numbers are those above the marked line, its own one and those below.
  rw [rows_eq_flatMap hlines,
    ← List.Ico.append_consecutive hfirst hshown.le, List.flatMap_append,
    flatMap_rowsOf (.inr le_rfl), List.Ico.eq_cons hshown, List.flatMap_cons, hmarked,
    flatMap_rowsOf (.inl (Nat.lt_succ_self _)), List.Ico.succ_top hfirst]
  simp

/-! ## The text of an excerpt -/

/-- A number of fewer digits is not wider. -/
theorem length_toDigits_mono {number last : Nat} (h : number ≤ last) :
    (Nat.toDigits 10 number).length ≤ (Nat.toDigits 10 last).length := by
  have hpos : 0 < (Nat.toDigits 10 last).length := List.length_pos_iff.mpr Nat.toDigits_ne_nil
  have hlast := (Nat.length_toDigits_le_iff (by decide) hpos).mp (Nat.le_refl _)
  exact (Nat.length_toDigits_le_iff (by decide) hpos).mpr (Nat.lt_of_le_of_lt h hlast)

/-- What stands in front of a line in its row. -/
def margin (width number : Nat) : List Char :=
  (Nat.toDigits 10 number).leftpad width ' ' ++ ['|', ' ']

theorem render_line (width number : Nat) (text : List Char) :
    (Row.line number text).render width = margin width number ++ text := by
  simp [Row.render, margin]

/-- Rows are written without line feeds. -/
theorem newline_notMem_render (hlines : lines ≠ []) (h : ∀ line ∈ lines, '\n' ∉ line) {row : Row}
    (hrow : row ∈ rows lines span context) (width : Nat) : '\n' ∉ row.render width := by
  rw [rows_eq_flatMap hlines] at hrow
  obtain ⟨number, -, hrow⟩ := List.mem_flatMap.mp hrow
  have hmargin : '\n' ∉ margin width number := by
    have hdigits : '\n' ∉ Nat.toDigits 10 number := fun hmem =>
      absurd (Nat.isDigit_of_mem_toDigits (by decide) (by decide) hmem) (by decide)
    simp [margin, List.leftpad, hdigits]
  have htext : '\n' ∉ Text.dropEndWhile (· == '\r') (lines.getD (number - 1) []) := by
    refine fun hmem => absurd (Text.mem_of_mem_dropEndWhile hmem) ?_
    rcases Nat.lt_or_ge (number - 1) lines.length with hplace | hplace
    · simp [hplace, h _ (List.getElem_mem hplace)]
    · simp [hplace]
  have hline : '\n' ∉ (lineRow lines number).render width := by
    rw [lineRow, render_line]
    exact fun hmem => (List.mem_append.mp hmem).elim hmargin htext
  unfold rowsOf at hrow
  split at hrow
  · rcases List.mem_pair.mp hrow with rfl | rfl
    · exact hline
    · simp [Row.render, Row.marking]
  · rw [List.mem_singleton.mp hrow]
    exact hline

/-- The width of the widest number in an excerpt. -/
def widthOf (lines : List (List Char)) (span : Span) (context : Nat) : Nat :=
  (Nat.toDigits 10 (lastShown lines.length span context)).length

/-- An excerpt is joined from its rows. -/
theorem toList_render (source : String) (span : Span) (context : Nat) :
    (render source span context).toList =
      Text.joined '\n' ((rows (Text.pieces '\n' source.toList) span context).map
        (Row.render (widthOf (Text.pieces '\n' source.toList) span context))) := by
  have hcount := List.length_pos_iff.mpr (Text.pieces_ne_nil '\n' source.toList)
  simp only [render, String.toList_ofList, last_succ hcount, widthOf]

/-- An excerpt is cut into its rows. -/
theorem pieces_render (source : String) (span : Span) (context : Nat) :
    Text.pieces '\n' (render source span context).toList =
      (rows (Text.pieces '\n' source.toList) span context).map
        (Row.render (widthOf (Text.pieces '\n' source.toList) span context)) := by
  have hlines := Text.pieces_ne_nil '\n' source.toList
  rw [toList_render]
  refine Text.pieces_joined (by simp [rows_eq_marked hlines]) fun row hrow => ?_
  obtain ⟨shown, hshown, rfl⟩ := List.mem_map.mp hrow
  exact newline_notMem_render hlines (fun line hline => Text.sep_notMem_of_mem_pieces hline)
    hshown _

/-- The pieces of an excerpt are the rows of the lines up to the first one of the span, the caret
row, and the rows of the lines below. -/
theorem pieces_render_marked {source : String} (hlines : Text.pieces '\n' source.toList = lines)
    (span : Span) (context : Nat) :
    Text.pieces '\n' (render source span context).toList =
      (List.Ico (max 1 (startLine lines.length span - context))
        (startLine lines.length span + 1)).map
          (Row.render (widthOf lines span context) ∘ lineRow lines) ++
      (Row.marking span).render (widthOf lines span context) ::
        (List.Ico (startLine lines.length span + 1)
          (lastShown lines.length span context + 1)).map
            (Row.render (widthOf lines span context) ∘ lineRow lines) := by
  subst hlines
  rw [pieces_render, rows_eq_marked (Text.pieces_ne_nil '\n' source.toList), List.map_append,
    List.map_cons, List.map_map, List.map_map]

/-- The numbers of the lines that are shown fit into the margin. -/
theorem length_margin {number : Nat}
    (h : number ≤ lastShown lines.length span context) :
    (margin (widthOf lines span context) number).length = widthOf lines span context + 2 := by
  have hwidth : (Nat.toDigits 10 number).length ≤ widthOf lines span context :=
    length_toDigits_mono h
  rw [margin, List.length_append, List.length_leftpad, Nat.max_eq_left hwidth]
  rfl

end ShaderTemplate.Excerpt
