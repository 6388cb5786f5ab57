import ShaderTemplate.Template.Basic

/-!
# Module source

A template can be emitted as the source of a JavaScript module that exports it as a function from an
object of values to the text. The text is a template literal: a literal segment is escaped so that
no character of it ends the literal or starts a substitution, and a variable is a substitution that
looks its value up or throws.
-/

namespace ShaderTemplate.Template

/-- The name of the function that looks a value up. -/
def lookupName : String := "v"

/-- Write a character of a literal segment. -/
def escapedChar (c : Char) : List Char :=
  if c == '\x60' || c == '\\' || c == '$' then ['\\', c] else [c]

/-- Write the text of a literal segment. -/
def escaped (text : String) : String :=
  String.ofList (text.toList.flatMap escapedChar)

/-- Write a variable as a substitution. -/
def substitution (name : String) : String :=
  "$\x7b" ++ lookupName ++ "(\"" ++ name ++ "\")\x7d"

/-- Write a segment inside the template literal. -/
def moduleText : Segment → String
  | .literal text => escaped text
  | .var name => substitution name

/-- What stands before the text of the template. -/
def moduleHead : String :=
  "module.exports = opts => \x7b const " ++ lookupName ++
    " = name => \x7b if (!(name in opts)) throw new Error(\"MissingVariable: \" + name); " ++
    "return opts[name]; \x7d; return `"

/-- What stands after the text of the template. -/
def moduleTail : String := "`; \x7d;"

/-- Write the source of a module that exports a template. -/
def moduleSource (t : Template) : String :=
  moduleHead ++ concat moduleText t.segments ++ moduleTail

end ShaderTemplate.Template
