import ShaderTemplate.Proofs.Expansion.Run

/-!
# The order in which reads end

A host may put off the end of each read by some turns, so the reads of a pass end in any order, and
an error may cut a pass short before or after other reads have ended. What an expansion comes to
does not depend on it: a chunk is the same whenever its read ends (`Setup.chunkAt_delayed`), the
chunks of a pass are taken in document order, and a pass fails exactly if one of its loads does.
Only the error that is reported and the order of the notes may differ (`Setup.expand_delayed`).

The pass in which an expansion fails is read off its log, where every pass notes its number as it
starts (`lastPass?`).
-/

namespace ShaderTemplate

/-- The number of the pass that a note announces. -/
def Note.passNumber? : Note → Option Nat
  | .passStarted _ number _ => some number
  | _ => none

/-- The numbers of the passes that a log announces. -/
def passNumbers (log : List Note) : List Nat :=
  log.filterMap Note.passNumber?

/-- The number of the last pass that a log announces. -/
def lastPass? (log : List Note) : Option Nat :=
  (passNumbers log).getLast?

/-- Two logs announce their passes in turn. -/
theorem passNumbers_append (log later : List Note) :
    passNumbers (log ++ later) = passNumbers log ++ passNumbers later :=
  List.filterMap_append

/-! ## The notes of a pass -/

namespace Loads

/-- Only some first part of the polls of a pass takes place. -/
theorem mem_polls_of_mem_throughFirst {p : Poll → Bool} {polls : List Poll} {poll : Poll}
    (h : poll ∈ throughFirst p polls) : poll ∈ polls := by
  induction polls with
  | nil => exact absurd h (by simp [throughFirst])
  | cons first rest ih =>
    rw [throughFirst] at h
    split at h
    · exact List.mem_cons.mpr (.inl (List.mem_singleton.mp h))
    · rcases List.mem_cons.mp h with rfl | h
      · exact List.mem_cons_self
      · exact List.mem_cons_of_mem _ (ih h)

/-- Every poll that takes place is one of the polls of the pass. -/
theorem mem_polls_of_mem_pollsNeeded {loads : List Load} {poll : Poll}
    (h : poll ∈ pollsNeeded loads) : poll ∈ polls loads := by
  unfold pollsNeeded at h
  split at h
  · exact mem_polls_of_mem_throughFirst h
  · split at h
    · exact h
    · exact Text.mem_of_mem_dropEndWhile h

end Loads

namespace Setup

variable {setup : Setup} {file : Path}

/-- Whatever a load comes to, it notes the look-up first. -/
theorem starting_load (setup : Setup) (site : Site) :
    (setup.load site).starting = resolvingNote site.value site.issuer setup.config := by
  unfold load
  simp only
  repeat' split
  all_goals rfl

/-- A load announces no pass. -/
theorem passNumber?_of_mem_notes_load {site : Site} {round place : Nat} {note : Note}
    (h : note ∈ Poll.notes ⟨round, place, setup.load site⟩) : note.passNumber? = none := by
  -- Behind the look-up at most one file is noted.
  have reading : ∀ note ∈ (setup.load site).reading, note.passNumber? = none := by
    unfold load
    simp only
    repeat' split
    all_goals simp [Note.passNumber?]
  rcases List.mem_append.mp h with h | h
  · split at h
    · rw [List.mem_singleton.mp h, starting_load]
      rfl
    · exact absurd h (by simp)
  · split at h
    · exact reading note (Option.mem_toList.mp h)
    · exact absurd h (by simp)

/-- A pass announces itself and no other pass. -/
theorem passNumbers_pass (setup : Setup) (file : Path) (number : Nat) (current : Expansion) :
    passNumbers (setup.pass file number current).log = [number] := by
  have silent : ∀ note ∈ (Loads.await ((current.tree.query Node.isInclude).map fun handle =>
      setup.load (current.tree.siteAt file handle))).log, note.passNumber? = none := by
    intro note hnote
    obtain ⟨⟨round, place, load⟩, hpoll, hnote⟩ := List.mem_flatMap.mp hnote
    obtain ⟨handle, -, rfl⟩ := List.mem_map.mp
      (Loads.load_mem_of_mem_polls (Loads.mem_polls_of_mem_pollsNeeded hpoll))
    exact passNumber?_of_mem_notes_load hnote
  simp only [pass, passNumbers, List.filterMap_cons, Note.passNumber?]
  rw [List.filterMap_eq_nil_iff.mpr silent]

/-! ## Two assignments of delays -/

/-- Put off the reads of all files by the given numbers of turns. -/
def delayed (setup : Setup) (delay : Path → Nat) : Setup :=
  { setup with host := { setup.host with delay } }

/-- A chunk is the same however long its read is put off. -/
theorem chunkAt_delayed (setup : Setup) (delay : Path → Nat) (site : Site) :
    (setup.delayed delay).chunkAt site = setup.chunkAt site := by
  ext chunk
  rw [chunkAt_eq_some_iff, chunkAt_eq_some_iff]
  rfl

/-- A pass succeeds under every assignment of delays, and with the same tree and dependencies, if it
succeeds under one. -/
theorem outcome_pass_delayed (first second : Path → Nat) (number : Nat) (current next : Expansion) :
    ((setup.delayed first).pass file number current).outcome = .ok next ↔
      ((setup.delayed second).pass file number current).outcome = .ok next :=
  outcome_pass_congr (fun site _ => by rw [chunkAt_delayed, chunkAt_delayed]) number next

/-- A pass that fails under one assignment of delays fails under every other. -/
theorem exists_error_pass_delayed (first second : Path → Nat) {number : Nat} {current : Expansion}
    {e : Error} (h : ((setup.delayed first).pass file number current).outcome = .error e) :
    ∃ e', ((setup.delayed second).pass file number current).outcome = .error e' := by
  cases hsecond : ((setup.delayed second).pass file number current).outcome with
  | error e' => exact ⟨e', rfl⟩
  | ok next =>
    rw [(outcome_pass_delayed second first number current next).mp hsecond] at h
    exact absurd h (by simp)

/-- Two runs go the same way if they make the same passes, and come to the same expansion or both
fail. -/
structure SameCourse (first second : Traced Error Expansion) : Prop where
  /-- The same passes are started. -/
  passes : passNumbers first.log = passNumbers second.log
  /-- Both fail, or both come to the same expansion. -/
  outcome : first.outcome.toOption = second.outcome.toOption

/-- A run under one assignment of delays goes the way of a run under any other. -/
theorem Run.delayed {first : Path → Nat} {number : Nat} {current : Expansion}
    {result : Traced Error Expansion} (h : Run (setup.delayed first) file number current result)
    (second : Path → Nat) :
    ∃ result', Run (setup.delayed second) file number current result' ∧
      SameCourse result result' := by
  induction h with
  | finished hnil => exact ⟨_, .finished hnil, rfl, rfl⟩
  | failed hne hfails =>
    -- The errors may differ, as may the notes, but not the pass.
    obtain ⟨e', hfails'⟩ := exists_error_pass_delayed first second hfails
    refine ⟨_, .failed hne hfails', ?_, rfl⟩
    rw [passNumbers_pass, passNumbers_pass]
  | passed hne hpasses _ ih =>
    obtain ⟨later', hrest, hnumbers, houtcome⟩ := ih
    refine ⟨_, .passed hne ((outcome_pass_delayed first second _ _ _).mp hpasses) hrest,
      ?_, houtcome⟩
    rw [passNumbers_append, passNumbers_append, passNumbers_pass, passNumbers_pass, hnumbers]

/-- A run that fails has started a pass. -/
theorem Run.exists_lastPass? {number : Nat} {current : Expansion}
    {result : Traced Error Expansion} (h : Run setup file number current result) {e : Error}
    (hresult : result.outcome = .error e) : ∃ last, lastPass? result.log = some last := by
  induction h with
  | finished _ => exact absurd hresult (by simp)
  | @failed number current _ _ _ =>
    exact ⟨number, by rw [lastPass?, passNumbers_pass, List.getLast?_singleton]⟩
  | passed _ _ _ ih =>
    obtain ⟨last, hlast⟩ := ih hresult
    refine ⟨last, ?_⟩
    rw [lastPass?] at hlast ⊢
    rw [passNumbers_append, List.getLast?_append, hlast, Option.some_or]

/-- However long the reads of the files are put off, an expansion comes out the same: under two
assignments of delays it either succeeds twice with the same tree, the same text and the same
dependencies, or fails twice in the same pass. -/
theorem expand_delayed (setup : Setup) (file : Path) (tree : Tree) (first second : Path → Nat) :
    match ((setup.delayed first).expand file tree).outcome,
      ((setup.delayed second).expand file tree).outcome with
    | .ok expansion, .ok expansion' =>
      expansion.tree = expansion'.tree ∧ expansion.tree.render = expansion'.tree.render ∧
        expansion.dependencies = expansion'.dependencies
    | .error _, .error _ =>
      ∃ number, lastPass? ((setup.delayed first).expand file tree).log = some number ∧
        lastPass? ((setup.delayed second).expand file tree).log = some number
    | _, _ => False := by
  have hfirst := run_expand (setup.delayed first) file tree
  obtain ⟨result, hsecond, hpasses, houtcome⟩ := hfirst.delayed second
  rw [← hsecond.eq_expand] at hpasses houtcome
  cases hok : ((setup.delayed first).expand file tree).outcome with
  | ok expansion =>
    rw [hok] at houtcome
    rw [toOption_eq_some_iff.mp houtcome.symm]
    exact ⟨rfl, rfl, rfl⟩
  | error e =>
    obtain ⟨number, hnumber⟩ := hfirst.exists_lastPass? hok
    rw [hok] at houtcome
    cases hother : ((setup.delayed second).expand file tree).outcome with
    | ok expansion => exact absurd (houtcome.trans (congrArg _ hother)) (by simp [Except.toOption])
    | error e' =>
      refine ⟨number, hnumber, ?_⟩
      rw [lastPass?, ← hpasses]
      exact hnumber

end Setup

end ShaderTemplate
