import ShaderTemplate.Template.Basic
import ShaderTemplate.Value.Options

/-!
# Evaluating templates

Evaluating a template replaces every variable by its value, as it is. The first variable without a
value is reported.
-/

namespace ShaderTemplate

/-- A result that is changed is there if the result is. -/
theorem map_eq_ok_iff {ε α β : Type} {f : α → β} {x : Except ε α} {b : β} :
    x.map f = .ok b ↔ ∃ a, x = .ok a ∧ f a = b := by
  cases x <;> simp [Except.map]

/-- An error stays when the result is changed. -/
theorem map_eq_error_iff {ε α β : Type} {f : α → β} {x : Except ε α} {e : ε} :
    x.map f = .error e ↔ x = .error e := by
  cases x <;> simp [Except.map]

namespace Template

/-- Replace the variables of a list of segments by their values. -/
def evaluateSegments (options : Options) : List Segment → Except Error String
  | [] => .ok ""
  | .literal text :: rest => (evaluateSegments options rest).map (text ++ ·)
  | .var name :: rest =>
    match options.get? name with
    | none => .error (.missingVariable name)
    | some text => (evaluateSegments options rest).map (text ++ ·)

/-- Replace the variables of a template by their values. -/
def evaluate (t : Template) (options : Options) : Except Error String :=
  evaluateSegments options t.segments

/-- The text of a segment under options; a variable without a value has none. -/
def valueText (options : Options) : Segment → String
  | .literal text => text
  | .var name => (options.get? name).getD ""

/-- If every variable has a value, an evaluation writes each segment by its value. -/
theorem evaluateSegments_eq_ok {options : Options} {segments : List Segment}
    (h : ∀ segment ∈ segments, ∀ name ∈ segment.name?, (options.get? name).isSome = true) :
    evaluateSegments options segments = .ok (concat (valueText options) segments) := by
  induction segments with
  | nil => rfl
  | cons segment rest ih =>
    have hrest := ih fun s hs => h s (List.mem_cons_of_mem _ hs)
    cases segment with
    | literal text => simp [evaluateSegments, hrest, Except.map, valueText]
    | var name =>
      obtain ⟨text, htext⟩ := Option.isSome_iff_exists.mp (h (.var name) (by simp) name rfl)
      simp [evaluateSegments, hrest, htext, Except.map, valueText]

end Template

end ShaderTemplate
