/-!
# Variable names

A variable name is a letter or an underscore of ASCII, followed by letters, digits and underscores
of ASCII.
-/

namespace ShaderTemplate

namespace Identifier

/-- Decide whether a character may start a variable name. -/
def isStart (c : Char) : Bool :=
  c.isAlpha || c == '_'

/-- Decide whether a character may continue a variable name. -/
def isContinuation (c : Char) : Bool :=
  c.isAlphanum || c == '_'

theorem isContinuation_of_isStart {c : Char} (h : isStart c = true) : isContinuation c = true := by
  simp only [isStart, isContinuation, Char.isAlphanum, Bool.or_eq_true] at *
  exact h.imp_left .inl

end Identifier

/-- Decide whether characters are a variable name. -/
def isIdentifier : List Char → Bool
  | [] => false
  | c :: rest => Identifier.isStart c && rest.all Identifier.isContinuation

theorem isIdentifier_cons_iff {c : Char} {rest : List Char} :
    isIdentifier (c :: rest) = true ↔
      Identifier.isStart c = true ∧ ∀ d ∈ rest, Identifier.isContinuation d = true := by
  simp [isIdentifier]

/-- Every character of a variable name may continue one. -/
theorem isContinuation_of_mem {name : List Char} (h : isIdentifier name = true) {c : Char}
    (hc : c ∈ name) : Identifier.isContinuation c = true := by
  cases name with
  | nil => exact absurd hc (by simp)
  | cons first rest =>
    obtain ⟨hstart, hrest⟩ := isIdentifier_cons_iff.mp h
    rcases List.mem_cons.mp hc with rfl | hmem
    · exact Identifier.isContinuation_of_isStart hstart
    · exact hrest c hmem

end ShaderTemplate
