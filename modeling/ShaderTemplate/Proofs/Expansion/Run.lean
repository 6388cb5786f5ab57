import Mathlib.Data.List.Basic
import ShaderTemplate.Include.Expansion
import ShaderTemplate.Proofs.Parser.Nesting

/-!
# Runs of an expansion

`Setup.Run` tells what the passes of an expansion come to without bounding their number: an
expansion ends when no include directive is left or when a pass fails, and goes on with the next
pass otherwise. Proofs about whole expansions are inductions on runs, one case for each way to go
on.

Main statements:

- `run_expand`: an expansion is a run that starts with the first pass;
- `Run.unique`: a run comes to one result;
- `Run.induction`: what every pass that succeeds keeps holds at the end of an expansion;
- `outcome_pass_congr`: what a pass comes to depends on the chunks of its sites only;
- `Run.sites_eq_nil`: an expansion that succeeds leaves no include directive.
-/

namespace ShaderTemplate

namespace Setup

variable {setup : Setup} {file : Path}

/-- The passes of the file `file` from pass `number` on, the expansion having come to `current`. -/
inductive Run (setup : Setup) (file : Path) :
    Nat → Expansion → Traced Error Expansion → Prop
  /-- No include directive is left. -/
  | finished {number : Nat} {current : Expansion}
      (hnil : current.tree.sites [] file.normalize = []) :
      Run setup file number current ⟨[], .ok current⟩
  /-- A pass fails. -/
  | failed {number : Nat} {current : Expansion} {e : Error}
      (hne : current.tree.sites [] file.normalize ≠ [])
      (hfails : (setup.pass file number current).outcome = .error e) :
      Run setup file number current ⟨(setup.pass file number current).log, .error e⟩
  /-- A pass succeeds. -/
  | passed {number : Nat} {current next : Expansion} {later : Traced Error Expansion}
      (hne : current.tree.sites [] file.normalize ≠ [])
      (hpasses : (setup.pass file number current).outcome = .ok next)
      (hrest : Run setup file (number + 1) next later) :
      Run setup file number current
        ⟨(setup.pass file number current).log ++ later.log, later.outcome⟩

/-- Enough fuel makes a run. -/
theorem run_of_passes {fuel number : Nat} {current : Expansion} {result : Traced Error Expansion}
    (h : setup.passes file number current fuel = some result) :
    Run setup file number current result := by
  induction fuel generalizing number current result with
  | zero =>
    unfold passes at h
    split at h
    next hnil =>
      obtain rfl := Option.some.inj h
      exact .finished ((Tree.query_isInclude_eq_nil_iff _ _ _).mp (List.isEmpty_iff.mp hnil))
    next => exact absurd h (by simp)
  | succ fuel ih =>
    unfold passes at h
    split at h
    next hnil =>
      obtain rfl := Option.some.inj h
      exact .finished ((Tree.query_isInclude_eq_nil_iff _ _ _).mp (List.isEmpty_iff.mp hnil))
    next hne =>
      have hne : current.tree.sites [] file.normalize ≠ [] := fun hnil =>
        hne (List.isEmpty_iff.mpr ((Tree.query_isInclude_eq_nil_iff _ _ _).mpr hnil))
      simp only at h
      split at h
      next e hfails =>
        obtain rfl := Option.some.inj h
        exact .failed hne hfails
      next next hpasses =>
        obtain ⟨later, hlater, rfl⟩ := Option.map_eq_some_iff.mp h
        exact .passed hne hpasses (ih hlater)

/-- An expansion is a run that starts with the first pass. -/
theorem run_expand (setup : Setup) (file : Path) (tree : Tree) :
    Run setup file 1 ⟨tree, .empty⟩ (setup.expand file tree) :=
  run_of_passes (Option.some_get _).symm

/-- A run comes to one result. -/
theorem Run.unique {number : Nat} {current : Expansion} {first second : Traced Error Expansion}
    (h : Run setup file number current first) (h' : Run setup file number current second) :
    first = second := by
  -- Two runs from one state go on in the same way, as a pass comes to one outcome.
  induction h generalizing second with
  | finished hnil =>
    cases h' with
    | finished _ => rfl
    | failed hne _ => exact absurd hnil hne
    | passed hne _ _ => exact absurd hnil hne
  | failed hne hfails =>
    cases h' with
    | finished hnil => exact absurd hnil hne
    | failed _ hfails' =>
      rw [hfails] at hfails'
      rw [Except.error.inj hfails']
    | passed _ hpasses' _ =>
      rw [hfails] at hpasses'
      exact absurd hpasses' (by simp)
  | passed hne hpasses _ ih =>
    cases h' with
    | finished hnil => exact absurd hnil hne
    | failed _ hfails' =>
      rw [hpasses] at hfails'
      exact absurd hfails' (by simp)
    | passed _ hpasses' hrest' =>
      rw [hpasses] at hpasses'
      obtain rfl := Except.ok.inj hpasses'
      rw [ih hrest']

/-- An expansion comes to what its runs come to. -/
theorem Run.eq_expand {tree : Tree} {result : Traced Error Expansion}
    (h : Run setup file 1 ⟨tree, .empty⟩ result) : setup.expand file tree = result :=
  (run_expand setup file tree).unique h

/-- What every pass that succeeds keeps holds at the end of a run that succeeds. -/
theorem Run.induction (holds : Expansion → Prop) {number : Nat} {current last : Expansion}
    {result : Traced Error Expansion} (h : Run setup file number current result)
    (hresult : result.outcome = .ok last) (hstart : holds current)
    (hstep : ∀ {number : Nat} {current next : Expansion}, holds current →
      (setup.pass file number current).outcome = .ok next → holds next) : holds last := by
  induction h with
  | finished _ =>
    obtain rfl := Except.ok.inj hresult
    exact hstart
  | failed _ _ => exact absurd hresult (by simp)
  | passed _ hpasses _ ih => exact ih hresult (hstep hstart hpasses)

/-- Two setups that load the same chunks for the sites of a tree agree on whether a pass succeeds
and on what it makes of the tree. -/
theorem outcome_pass_congr {setup other : Setup} {file : Path} {current : Expansion}
    (h : ∀ site ∈ current.tree.sites [] file.normalize,
      setup.chunkAt site = other.chunkAt site) (number : Nat) (next : Expansion) :
    (setup.pass file number current).outcome = .ok next ↔
      (other.pass file number current).outcome = .ok next := by
  rw [outcome_pass_eq_ok_iff, outcome_pass_eq_ok_iff, Tree.substitute_congr h,
    List.filterMap_congr h]
  refine and_congr_left fun _ => forall₂_congr fun site hsite => ?_
  rw [h site hsite]

/-- No include directive is left at the end of a run that succeeds. -/
theorem Run.sites_eq_nil {number : Nat} {current last : Expansion}
    {result : Traced Error Expansion} (h : Run setup file number current result)
    (hresult : result.outcome = .ok last) : last.tree.sites [] file.normalize = [] := by
  induction h with
  | finished hnil =>
    obtain rfl := Except.ok.inj hresult
    exact hnil
  | failed _ _ => exact absurd hresult (by simp)
  | passed _ _ _ ih => exact ih hresult

end Setup

end ShaderTemplate
