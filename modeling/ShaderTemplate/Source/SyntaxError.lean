import ShaderTemplate.Source.Position

/-!
# Faults in a source text

A fault is what a parser finds wrong; a syntax error is a fault together with its place.
-/

namespace ShaderTemplate

/-- The kinds of brackets. -/
inductive Bracket where
  | brace
  | paren
  | square
  deriving Repr, DecidableEq

namespace Bracket

/-- The character that opens a bracket. -/
def opener : Bracket → Char
  | .brace => '\x7b'
  | .paren => '('
  | .square => '['

/-- The character that closes a bracket. -/
def closer : Bracket → Char
  | .brace => '\x7d'
  | .paren => ')'
  | .square => ']'

/-- Read an opening bracket. -/
def ofOpener? (c : Char) : Option Bracket :=
  [brace, paren, square].find? (·.opener == c)

/-- Read a closing bracket. -/
def ofCloser? (c : Char) : Option Bracket :=
  [brace, paren, square].find? (·.closer == c)

theorem opener_of_ofOpener? {c : Char} {b : Bracket} (h : ofOpener? c = some b) : b.opener = c := by
  simpa using List.find?_some h

theorem closer_of_ofCloser? {c : Char} {b : Bracket} (h : ofCloser? c = some b) : b.closer = c := by
  simpa using List.find?_some h

end Bracket

/-- What a parser finds wrong. -/
inductive SyntaxFault where
  /-- A bracket is not closed before the end. -/
  | unclosed (bracket : Bracket)
  /-- A closing bracket stands where no bracket is open. -/
  | unexpected (bracket : Bracket)
  /-- A closing bracket `found` does not close the innermost open one, which is `wanted`. -/
  | mismatched (wanted found : Bracket)
  /-- A block comment does not end. -/
  | unterminatedComment
  /-- A directive line has no name. -/
  | missingName
  /-- A directive asks for a file without naming it. -/
  | missingPath
  /-- A fault of a parser with messages of its own. -/
  | other (message : String)
  deriving Repr, DecidableEq

/-- Word a fault. -/
def SyntaxFault.message : SyntaxFault → String
  | .unclosed b => "unclosed `" ++ b.opener.toString ++ "`"
  | .unexpected b => "unexpected `" ++ b.closer.toString ++ "`"
  | .mismatched wanted found =>
    "expected `" ++ wanted.closer.toString ++ "`, found `" ++ found.closer.toString ++ "`"
  | .unterminatedComment => "unterminated block comment"
  | .missingName => "expected a directive name"
  | .missingPath => "expected a path after `#include`"
  | .other message => message

/-- A fault and its place. -/
structure SyntaxError where
  /-- What is wrong. -/
  fault : SyntaxFault
  /-- Where it is. -/
  location : Span
  deriving Repr, DecidableEq

/-- Word a fault together with the position where it starts. -/
def SyntaxError.render (e : SyntaxError) : String :=
  e.fault.message ++ " at " ++ e.location.start.render

end ShaderTemplate
