import ShaderTemplate.Source.SyntaxError
import ShaderTemplate.Text.Alphanumeric
import ShaderTemplate.Text.Blank
import ShaderTemplate.Tree.Basic

/-!
# Reading directive lines

The characters after the `#` of a directive line are read as a name and a value. A line that a
backslash continues counts as one line, the line break being a blank. The value loses a comment at
its end, surrounding blanks and semicolons at its end; a value that starts with a quoted or an
angled part keeps what looks like a comment inside that part.
-/

namespace ShaderTemplate.DirectiveLine

/-- Read every continued line break as a blank. -/
def unfold : List Char → List Char
  | [] => []
  | '\\' :: '\n' :: rest => ' ' :: unfold rest
  | c :: rest => c :: unfold rest

/-- Decide whether a character may stand in the name of a directive. -/
def isNameChar (c : Char) : Bool :=
  Text.isAlphanumeric c || c == '_'

/-- Split a text behind the first `close` that follows its first character, if there is one. -/
def splitBehind (close : Char) (text : List Char) : List Char × List Char :=
  let body := text.tail.takeWhile (· != close)
  if text.tail.length = body.length then ([], text)
  else (text.take (body.length + 2), text.drop (body.length + 2))

/-- Split off a quoted or angled part at the front, delimiters included. Without its closing
delimiter nothing is split off. -/
def splitDelimited (text : List Char) : List Char × List Char :=
  match text with
  | '\x22' :: _ => splitBehind '\x22' text
  | '<' :: _ => splitBehind '>' text
  | _ => ([], text)

/-- Keep what stands before the first comment. -/
def beforeComment : List Char → List Char
  | [] => []
  | '/' :: '/' :: _ => []
  | '/' :: '*' :: _ => []
  | c :: rest => c :: beforeComment rest

/-- Cut a comment off, the leading blanks dropped. -/
def withoutComment (text : List Char) : List Char :=
  let parts := splitDelimited (Text.trimStart text)
  parts.1 ++ beforeComment parts.2

/-- The name on a directive line. -/
def name (line : List Char) : List Char :=
  (Text.trimStart (unfold line)).takeWhile isNameChar

/-- The value on a directive line. -/
def value (line : List Char) : List Char :=
  let rest := (Text.trimStart (unfold line)).dropWhile isNameChar
  -- Blanks may stand on both sides of the semicolons.
  Text.trimEnd (Text.dropEndWhile (· == ';') (Text.trim (withoutComment rest)))

/-- Read the directive of a line that stands at `location`. -/
def read (line : List Char) (location : Span) : Directive where
  name := String.ofList (name line)
  value := String.ofList (value line)
  raw := String.ofList ('#' :: line)
  location := location

end ShaderTemplate.DirectiveLine

namespace ShaderTemplate.Directive

/-- What is wrong with a directive: a value without a name, or a missing path. A line with a `#`
alone is in order. -/
def fault? (d : Directive) : Option SyntaxFault :=
  if d.name = "" ∧ d.value ≠ "" then some .missingName
  else if d.isInclude ∧ d.value = "" then some .missingPath
  else none

/-- What is wrong with a directive is that its name or its path is missing. -/
theorem eq_of_fault?_eq_some {d : Directive} {fault : SyntaxFault}
    (h : d.fault? = some fault) : fault = .missingName ∨ fault = .missingPath := by
  unfold fault? at h
  split at h
  · exact .inl (Option.some.inj h).symm
  · split at h
    · exact .inr (Option.some.inj h).symm
    · exact absurd h (by simp)

end ShaderTemplate.Directive
