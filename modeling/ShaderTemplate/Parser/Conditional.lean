import ShaderTemplate.Tree.Basic

/-!
# Conditional directives

Some directives open a conditional, start a further branch of it, or close it.
-/

namespace ShaderTemplate

/-- The part that a directive plays in a conditional. -/
inductive ConditionalPart where
  /-- A conditional begins. -/
  | begins
  /-- A further branch of the innermost conditional begins. -/
  | branches
  /-- The innermost conditional ends. -/
  | ends
  deriving Repr, DecidableEq

/-- The part that the directive called `name` plays, if any. -/
def ConditionalPart.ofName? (name : String) : Option ConditionalPart :=
  if name = "if" ∨ name = "ifdef" ∨ name = "ifndef" then some .begins
  else if name = "elif" ∨ name = "else" then some .branches
  else if name = "endif" then some .ends
  else none

end ShaderTemplate
