import ShaderTemplate.Proofs.Expansion.Run

/-!
# How expansions fail

An expansion fails in one of its passes, and a pass fails with the error of one of its loads. A load
fails in one of four ways, told apart by how far it came: its file is not found, stands around the
directive already, cannot be read, or is malformed.

Main statements:

- `error?_load_eq_some_iff`: the ways in which a load fails;
- `exists_error?_load_of_pass`: a pass reports the error of one of its loads;
- `Run.exists_pass_of_error`: a run that fails does so in a pass, and what the passes before it keep
  holds there.
-/

namespace ShaderTemplate

/-- The error of loads that are waited for is the error of one of them. -/
theorem Loads.exists_of_error? {loads : List Load} {e : Error} (h : Loads.error? loads = some e) :
    ∃ load ∈ loads, load.error? = some e := by
  unfold error? at h
  split at h
  · -- The error is that of the first poll that fails, which is a poll of one of the loads.
    obtain ⟨poll, hpoll, herror⟩ := Option.bind_eq_some_iff.mp h
    exact ⟨poll.load, load_mem_of_mem_polls (List.mem_of_find?_eq_some hpoll), herror⟩
  · exact List.exists_of_findSome?_eq_some h

namespace Setup

variable {setup : Setup} {file : Path} {site : Site} {e : Error}

/-- The error of a load whose file is found, but stands around the directive already. -/
theorem error?_load_of_mem_chain {path : Path}
    (hpath : resolve setup.host site.value site.issuer setup.config = .ok path)
    (hmem : ∃ p ∈ site.chain, path.Same p) :
    (setup.load site).error? = some (.cyclicInclude (site.chain ++ [path])) := by
  have hchain : (site.chain.any fun p => decide (path.Same p)) = true := by simpa using hmem
  simp only [load, hpath]
  rw [if_pos hchain]
  rfl

/-- The ways in which a load fails: its file is not found, stands around the directive already,
cannot be read, or is malformed. -/
theorem error?_load_eq_some_iff : (setup.load site).error? = some e ↔
    resolve setup.host site.value site.issuer setup.config = .error e ∨
      ∃ path, resolve setup.host site.value site.issuer setup.config = .ok path ∧
        ((∃ p ∈ site.chain, path.Same p) ∧ e = .cyclicInclude (site.chain ++ [path]) ∨
          (∀ p ∈ site.chain, ¬ path.Same p) ∧
            ((∃ cause, setup.host.read path = .error cause ∧ e = .unreadable path cause) ∨
              ∃ source fault, setup.host.read path = .ok source ∧
                setup.parser source = .error fault ∧
                  e = .inSource fault (some path) source)) := by
  cases hpath : resolve setup.host site.value site.issuer setup.config with
  | error cause => simp [load, hpath, Load.error?, eq_comm]
  | ok path =>
    simp only [reduceCtorEq, false_or, Except.ok.injEq, exists_eq_left']
    by_cases hmem : ∃ p ∈ site.chain, path.Same p
    · -- The load is not even started.
      rw [error?_load_of_mem_chain hpath hmem, Option.some.injEq]
      constructor
      · rintro rfl
        exact .inl ⟨hmem, rfl⟩
      · rintro (⟨-, rfl⟩ | ⟨hnew, -⟩)
        · rfl
        · obtain ⟨p, hp, hsame⟩ := hmem
          exact absurd hsame (hnew p hp)
    · have hnew : ∀ p ∈ site.chain, ¬ path.Same p := fun p hp hsame => hmem ⟨p, hp, hsame⟩
      have hchain : ¬ (site.chain.any fun p => decide (path.Same p)) = true := by simpa using hnew
      -- What is left to go wrong is the read, and then the text.
      simp only [load, hpath]
      rw [if_neg hchain]
      simp only [hmem, false_and, false_or]
      cases hread : setup.host.read path with
      | error cause => simpa [Load.error?, eq_comm] using fun _ => hnew
      | ok source =>
        cases hparse : setup.parser source with
        | error fault => simpa [Load.error?, hparse, eq_comm] using fun _ => hnew
        | ok tree => simp [Load.error?, hparse]

/-- A pass that fails reports the error of its loads. -/
theorem error?_of_outcome_pass {number : Nat} {current : Expansion}
    (h : (setup.pass file number current).outcome = .error e) :
    Loads.error? ((current.tree.sites [] file.normalize).map setup.load) = some e := by
  simp only [pass, map_load_siteAt, Loads.await] at h
  cases herror : Loads.error? ((current.tree.sites [] file.normalize).map setup.load) with
  | none => simp [herror, Except.map] at h
  | some other =>
    rw [herror] at h
    rw [Except.error.inj h]

/-- A pass that fails reports the error of the load of one of its sites. -/
theorem exists_error?_load_of_pass {number : Nat} {current : Expansion}
    (h : (setup.pass file number current).outcome = .error e) :
    ∃ site ∈ current.tree.sites [] file.normalize, (setup.load site).error? = some e := by
  obtain ⟨load, hload, herror⟩ := Loads.exists_of_error? (error?_of_outcome_pass h)
  obtain ⟨site, hsite, rfl⟩ := List.mem_map.mp hload
  exact ⟨site, hsite, herror⟩

/-- A run that fails does so in a pass, and what every pass that succeeds keeps holds before it. -/
theorem Run.exists_pass_of_error (holds : Expansion → Prop) {number : Nat} {current : Expansion}
    {result : Traced Error Expansion} (h : Run setup file number current result)
    (hresult : result.outcome = .error e) (hstart : holds current)
    (hstep : ∀ {number : Nat} {current next : Expansion}, holds current →
      (setup.pass file number current).outcome = .ok next → holds next) :
    ∃ number last, holds last ∧ (setup.pass file number last).outcome = .error e := by
  induction h with
  | finished _ => exact absurd hresult (by simp)
  | @failed number current other hne hfails =>
    obtain rfl : other = e := Except.error.inj hresult
    exact ⟨number, current, hstart, hfails⟩
  | passed _ hpasses _ ih => exact ih hresult (hstep hstart hpasses)

end Setup

end ShaderTemplate
