import Mathlib.Data.List.Chain
import ShaderTemplate.Template.Basic

/-!
# The segments of a compiled template

A name is read as long as it goes on, so the variables of a template are variable names. Plain
characters that follow each other are one literal, so no two literals are next to each other.

Main statements:

- `isIdentifier_of_mem_compile`: the variables of a compiled template are variable names;
- `isChain_segments_compile`: of two neighbours in a compiled template one is a variable.
-/

namespace ShaderTemplate

/-- The names that are read in a source are variable names. -/
theorem Mark.isIdentifier_of_mem_ofSource {marker source name : List Char}
    (h : .var name ∈ ofSource marker source) : isIdentifier name = true := by
  induction hn : source.length using Nat.strongRecOn generalizing source with
  | _ n ih =>
    subst hn
    cases source with
    | nil => exact absurd h (by simp)
    | cons c rest =>
      cases hmarked : marked? marker (c :: rest) with
      | none =>
        rw [ofSource_of_marked?_eq_none hmarked] at h
        have hrest : .var name ∈ ofSource marker rest := by simpa using h
        exact ih rest.length (by simp) hrest rfl
      | some found =>
        obtain ⟨first, after⟩ := found
        rw [ofSource_of_marked? hmarked] at h
        have hcases : name = first ∨ .var name ∈ ofSource marker after := by simpa using h
        rcases hcases with rfl | hafter
        · exact (eq_append_of_marked? hmarked).2.1
        · exact ih after.length (length_lt_of_marked? hmarked) hafter rfl

namespace Segment

/-- One of two segments is a variable. -/
def Apart (a b : Segment) : Prop :=
  a.name? ≠ none ∨ b.name? ≠ none

/-- A run of plain characters adds no variable. -/
theorem var_mem_prepend_iff {run : List Char} {segments : List Segment} {name : String} :
    .var name ∈ prepend run segments ↔ .var name ∈ segments := by
  unfold prepend
  split <;> simp

/-- The variables of grouped marks are those of the marks. -/
theorem exists_of_var_mem_group {marks : List Mark} {name : String}
    (h : .var name ∈ (group marks).2) : ∃ letters, .var letters ∈ marks ∧
      name = String.ofList letters := by
  fun_induction group marks with
  | case1 => exact absurd h (by simp)
  | case2 c rest ih =>
    obtain ⟨letters, hmem, rfl⟩ := ih h
    exact ⟨letters, List.mem_cons_of_mem _ hmem, rfl⟩
  | case3 first rest ih =>
    have hcases : name = String.ofList first ∨ .var name ∈ prepend (group rest).1 (group rest).2 :=
      by simpa using h
    rcases hcases with rfl | hrest
    · exact ⟨first, List.mem_cons_self, rfl⟩
    · obtain ⟨letters, hmem, rfl⟩ := ih (var_mem_prepend_iff.mp hrest)
      exact ⟨letters, List.mem_cons_of_mem _ hmem, rfl⟩

/-- What follows the plain characters at the front of some marks starts with a variable, and no two
literals of it are next to each other. -/
theorem isChain_group (marks : List Mark) :
    (∀ first ∈ (group marks).2.head?, first.name? ≠ none) ∧ (group marks).2.IsChain Apart := by
  fun_induction group marks with
  | case1 => exact ⟨by simp, .nil⟩
  | case2 c rest ih => exact ih
  | case3 name rest ih =>
    refine ⟨by simp [name?], ?_⟩
    obtain ⟨hhead, hchain⟩ := ih
    unfold prepend
    split
    · exact hchain.cons fun _ _ => .inl (by simp [name?])
    · -- The literal stands between two variables.
      refine .cons_cons (.inl (by simp [name?])) ?_
      exact hchain.cons fun next hnext => .inr (hhead next hnext)

/-- No two literals of grouped marks are next to each other. -/
theorem isChain_ofMarks (marks : List Mark) : (ofMarks marks).IsChain Apart := by
  obtain ⟨hhead, hchain⟩ := isChain_group marks
  unfold ofMarks prepend
  split
  · exact hchain
  · exact hchain.cons fun next hnext => .inr (hhead next hnext)

end Segment

namespace Template

/-- The names of a template are those of the variables among its segments. -/
theorem mem_variableNames_iff {t : Template} {name : String} :
    name ∈ t.variableNames ↔ .var name ∈ t.segments := by
  rw [variableNames, List.mem_eraseDups, List.mem_filterMap]
  constructor
  · rintro ⟨segment, hsegment, hname⟩
    cases segment with
    | literal text => exact absurd hname (by simp [Segment.name?])
    | var other =>
      obtain rfl := Option.some.inj hname
      exact hsegment
  · exact fun hvar => ⟨_, hvar, rfl⟩

/-- The variables of a compiled template are variable names. -/
theorem isIdentifier_of_mem_compile {source marker name : String}
    (h : .var name ∈ (compile source marker).segments) : isIdentifier name.toList = true := by
  obtain ⟨letters, hmem, rfl⟩ := Segment.exists_of_var_mem_group (Segment.var_mem_prepend_iff.mp h)
  rw [String.toList_ofList]
  exact Mark.isIdentifier_of_mem_ofSource hmem

/-- Of two neighbours in a compiled template one is a variable. -/
theorem isChain_segments_compile (source marker : String) :
    (compile source marker).segments.IsChain Segment.Apart :=
  Segment.isChain_ofMarks _

end Template

end ShaderTemplate
