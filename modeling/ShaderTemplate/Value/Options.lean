import ShaderTemplate.Error
import ShaderTemplate.Template.Identifier
import ShaderTemplate.Value.Basic

/-!
# Options

Options map variable names to rendered values. Setting a value checks that the name is a variable
name; a later value replaces an earlier one.
-/

namespace ShaderTemplate

/-- Rendered values under their names. -/
structure Options where
  /-- The names with their values, each name once. -/
  entries : List (String × String) := []
  deriving Repr, DecidableEq, Inhabited

namespace Options

/-- The rendered value under a name. -/
def get? (options : Options) (name : String) : Option String :=
  (options.entries.find? fun entry => entry.1 = name).map Prod.snd

/-- Put a rendered value under a name, whatever the name. -/
def insert (options : Options) (name text : String) : Options :=
  ⟨(name, text) :: options.entries.filter fun entry => entry.1 ≠ name⟩

/-- Set the value of a variable. -/
def set (options : Options) (name : String) (value : Value) : Except Error Options :=
  if isIdentifier name.toList then .ok (options.insert name value.render)
  else .error (.invalidVariable name)

/-- Set the values of variables one after the other, up to the first that is no variable name. The
values set before a failure stay set. -/
def setAll (options : Options) : List (String × Value) → Options × Except Error Unit
  | [] => (options, .ok ())
  | (name, value) :: rest =>
    match options.set name value with
    | .ok next => next.setAll rest
    | .error e => (options, .error e)

/-- Build options from values, all of whose names must be variable names. -/
def ofList (values : List (String × Value)) : Except Error Options :=
  let result := setAll {} values
  result.2.map fun _ => result.1

/-- Build the options of a record from its fields, whose names need no check. -/
def ofFields (fields : List (String × Value)) : Options :=
  fields.foldl (fun options field => options.insert field.1 field.2.render) {}

/-- The value just inserted is found under its name, and other names keep their values. -/
theorem get?_insert (options : Options) (name text key : String) :
    (options.insert name text).get? key = if key = name then some text else options.get? key := by
  unfold insert get?
  by_cases h : key = name
  · simp [h]
  · have hne : ¬ name = key := fun e => h e.symm
    simp only [h, if_false, List.find?_cons, hne, decide_false, List.find?_filter]
    congr 1
    congr 1
    funext entry
    by_cases e : entry.1 = key
    · simp [e, h]
    · simp [e]

/-- A value is set exactly if the name is a variable name. -/
theorem set_eq_ok_iff {options next : Options} {name : String} {value : Value} :
    options.set name value = .ok next ↔
      isIdentifier name.toList = true ∧ next = options.insert name value.render := by
  unfold set
  split
  next h => simp [h, eq_comm]
  next h => simp [h]

end Options

end ShaderTemplate
