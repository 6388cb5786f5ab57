import ShaderTemplate.Template.Identifier
import ShaderTemplate.Text.Blank

/-!
# Templates

A template is shader text with its variables factored out. Where the marker stands before a variable
name, the marker and the longest name after it are a variable; everything else is literal. The text
is read from left to right, so no two variables overlap.

Main statement: writing each variable as the marker and its name gives the source back
(`render_compile`).
-/

namespace ShaderTemplate

/-- A part of a template. -/
inductive Segment where
  /-- Text that stays as it is. -/
  | literal (text : String)
  /-- A variable to be replaced by its value. -/
  | var (name : String)
  deriving Repr, DecidableEq

/-- Shader text with its variables factored out. -/
structure Template where
  /-- The parts in order. -/
  segments : List Segment
  /-- The text that marks a variable in the source. -/
  marker : String
  deriving Repr, DecidableEq

/-- What is read at one place of a source. -/
inductive Mark where
  /-- A character that belongs to no variable. -/
  | plain (c : Char)
  /-- A marker and the name after it. -/
  | var (name : List Char)
  deriving Repr, DecidableEq

namespace Mark

/-- The characters that a mark was read from. -/
def text (marker : List Char) : Mark → List Char
  | .plain c => [c]
  | .var name => marker ++ name

/-- Split off a marker and the longest name after it. -/
def marked? (marker source : List Char) : Option (List Char × List Char) :=
  if marker.isPrefixOf source then
    match source.drop marker.length with
    | [] => none
    | c :: rest =>
      if Identifier.isStart c then
        some (c :: rest.takeWhile Identifier.isContinuation,
          rest.dropWhile Identifier.isContinuation)
      else none
  else none

/-- A name split off is a variable name, and the longest one at its place. -/
theorem eq_append_of_marked? {marker source name rest : List Char}
    (h : marked? marker source = some (name, rest)) :
    source = marker ++ name ++ rest ∧ isIdentifier name = true ∧
      ∀ c ∈ rest.head?, Identifier.isContinuation c = false := by
  unfold marked? at h
  split at h
  next starts =>
    split at h
    · exact absurd h (by simp)
    next c tail htail =>
      split at h
      next hstart =>
        obtain ⟨rfl, rfl⟩ := Prod.mk.inj (Option.some.inj h)
        refine ⟨?_, ?_, ?_⟩
        -- What stands before the rest of the source is the marker.
        · have hmarker : source.take marker.length = marker :=
            (List.prefix_iff_eq_take.mp (List.isPrefixOf_iff_prefix.mp starts)).symm
          have := List.take_append_drop marker.length source
          rw [hmarker, htail] at this
          simp [← this]
        · exact isIdentifier_cons_iff.mpr
            ⟨hstart, fun d hd => List.all_eq_true.mp List.all_takeWhile d hd⟩
        · intro d hd
          have := List.head?_dropWhile_not Identifier.isContinuation tail
          simp_all
      · exact absurd h (by simp)
  · exact absurd h (by simp)

theorem length_lt_of_marked? {marker source name rest : List Char}
    (h : marked? marker source = some (name, rest)) : rest.length < source.length := by
  obtain ⟨rfl, hname, -⟩ := eq_append_of_marked? h
  have : name ≠ [] := fun e => by simp [e, isIdentifier] at hname
  have := List.length_pos_iff.mpr this
  simp only [List.length_append]
  omega

/-- Read a source from left to right. -/
def ofSource (marker : List Char) : List Char → List Mark
  | [] => []
  | c :: rest =>
    match _h : marked? marker (c :: rest) with
    | some (name, after) => .var name :: ofSource marker after
    | none => .plain c :: ofSource marker rest
termination_by source => source.length
decreasing_by
  · exact length_lt_of_marked? _h
  · simp

@[simp] theorem ofSource_nil (marker : List Char) : ofSource marker [] = [] := by
  rw [ofSource]

theorem ofSource_of_marked? {marker source name rest : List Char}
    (h : marked? marker source = some (name, rest)) :
    ofSource marker source = .var name :: ofSource marker rest := by
  cases source with
  | nil => exact absurd (length_lt_of_marked? h) (by simp)
  | cons c tail =>
    rw [ofSource]
    split
    next h' =>
      rw [h] at h'
      obtain ⟨rfl, rfl⟩ := Prod.mk.inj (Option.some.inj h')
      rfl
    next h' => rw [h] at h'; exact absurd h' (by simp)

theorem ofSource_of_marked?_eq_none {marker : List Char} {c : Char} {rest : List Char}
    (h : marked? marker (c :: rest) = none) :
    ofSource marker (c :: rest) = .plain c :: ofSource marker rest := by
  rw [ofSource]
  split
  next h' => rw [h] at h'; exact absurd h' (by simp)
  next => rfl

/-- The marks of a source are a cut of it. -/
theorem flatMap_text_ofSource (marker source : List Char) :
    (ofSource marker source).flatMap (text marker) = source := by
  induction hn : source.length using Nat.strongRecOn generalizing source with
  | _ n ih =>
    subst hn
    cases source with
    | nil => simp
    | cons c rest =>
      cases h : marked? marker (c :: rest) with
      | none =>
        rw [ofSource_of_marked?_eq_none h, List.flatMap_cons, ih rest.length (by simp) rest rfl]
        rfl
      | some found =>
        obtain ⟨name, after⟩ := found
        have := ih after.length (length_lt_of_marked? h) after rfl
        rw [ofSource_of_marked? h, List.flatMap_cons, this, (eq_append_of_marked? h).1]
        rfl

end Mark

namespace Segment

/-- Put a run of plain characters in front of segments. -/
def prepend (run : List Char) (segments : List Segment) : List Segment :=
  if run = [] then segments else .literal (String.ofList run) :: segments

/-- Split marks into the plain characters at the front and the segments after them. -/
def group : List Mark → List Char × List Segment
  | [] => ([], [])
  | .plain c :: rest => (c :: (group rest).1, (group rest).2)
  | .var name :: rest =>
    ([], .var (String.ofList name) :: prepend (group rest).1 (group rest).2)

/-- Group marks into segments, a run of plain characters being one literal. -/
def ofMarks (marks : List Mark) : List Segment :=
  prepend (group marks).1 (group marks).2

/-- Write a segment as it stands in a source. -/
def render (marker : String) : Segment → String
  | .literal text => text
  | .var name => marker ++ name

/-- The name of a variable. -/
def name? : Segment → Option String
  | .literal _ => none
  | .var name => some name

end Segment

namespace Template

/-- Write the text of a list of segments, each written by `write`. -/
def concat (write : Segment → String) (segments : List Segment) : String :=
  segments.foldr (fun segment text => write segment ++ text) ""

/-- Factor the variables of a source out. -/
def compile (source marker : String) : Template where
  segments := Segment.ofMarks (Mark.ofSource marker.toList source.toList)
  marker := marker

/-- Write a template as a source text. -/
def render (t : Template) : String :=
  concat (Segment.render t.marker) t.segments

/-- The distinct variables in the order of their first appearance. -/
def variableNames (t : Template) : List String :=
  (t.segments.filterMap Segment.name?).eraseDups

@[simp] theorem concat_nil (write : Segment → String) : concat write [] = "" := rfl

@[simp] theorem concat_cons (write : Segment → String) (segment : Segment)
    (rest : List Segment) : concat write (segment :: rest) = write segment ++ concat write rest :=
  rfl

theorem toList_concat_prepend (write : Segment → String) (run : List Char)
    (segments : List Segment) (h : ∀ text, write (.literal text) = text) :
    (concat write (Segment.prepend run segments)).toList =
      run ++ (concat write segments).toList := by
  unfold Segment.prepend
  split
  next hrun => simp [hrun]
  next => simp [h]

theorem toList_concat_group (marker : String) (marks : List Mark) :
    (Segment.group marks).1 ++ (concat (Segment.render marker) (Segment.group marks).2).toList =
      marks.flatMap (Mark.text marker.toList) := by
  fun_induction Segment.group marks with
  | case1 => rfl
  | case2 c rest ih => simpa [Mark.text] using ih
  | case3 name rest ih =>
    have := toList_concat_prepend (Segment.render marker) (Segment.group rest).1
      (Segment.group rest).2 fun _ => rfl
    rw [ih] at this
    rw [concat_cons, String.toList_append, this]
    simp [Segment.render, Mark.text]

/-- A template is written as the source that it was made from. -/
theorem render_compile (source marker : String) : (compile source marker).render = source := by
  rw [← String.toList_inj, render, compile, Segment.ofMarks,
    toList_concat_prepend _ _ _ fun _ => rfl, toList_concat_group, Mark.flatMap_text_ofSource]

end Template

end ShaderTemplate
