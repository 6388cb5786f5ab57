import Mathlib.Data.List.Induction
import ShaderTemplate.Proofs.Expansion.Dependencies
import ShaderTemplate.Proofs.Expansion.Failure

/-!
# File trees keep the last text

A file tree is filled by inserting texts under paths. Inserting and looking up go by the normal form
of a path, reading goes by its steps. As every key is a normal form, and as normal forms with the
same steps are equal, the three agree: of the texts that were inserted under one normal form the
last one counts (`FileTree.LastUnder`), a look-up succeeds exactly if there is such a text, and
reading what the look-up answers gives it. So no include that is found in a tree is ever unreadable.

Main statements:

- `FileTree.find?_ofList_eq_some_iff`: what stands under a path after any insertions;
- `Setup.expand_ne_unreadable`: an expansion over a tree of files does not fail with a read;
- `FileTree.ofList_keeps_last`: a file tree as a map in which the last text wins.
-/

namespace ShaderTemplate

namespace FileTree

variable {files : List (Path × String)} {file : Path × String} {key path : Path} {text : String}

/-- Of the files that go under the normal form `key` the last one has the text `text`. -/
def LastUnder (files : List (Path × String)) (key : Path) (text : String) : Prop :=
  ∃ before path after, files = before ++ (path, text) :: after ∧ path.normalize = key ∧
    ∀ later ∈ after, later.1.normalize ≠ key

/-- A further file counts for its own normal form only. -/
theorem lastUnder_concat_iff : LastUnder (files ++ [file]) key text ↔
    file.1.normalize = key ∧ file.2 = text ∨
      file.1.normalize ≠ key ∧ LastUnder files key text := by
  constructor
  · rintro ⟨before, path, after, hfiles, hpath, hafter⟩
    cases after using List.reverseRecOn with
    | nil =>
      obtain ⟨rfl, hlast⟩ := List.append_inj' hfiles rfl
      obtain rfl := List.singleton_inj.mp hlast
      exact .inl ⟨hpath, rfl⟩
    | append_singleton after last =>
      rw [← List.cons_append, ← List.append_assoc] at hfiles
      obtain ⟨rfl, hlast⟩ := List.append_inj' hfiles rfl
      obtain rfl := List.singleton_inj.mp hlast
      refine .inr ⟨hafter file (by simp), before, path, after, rfl, hpath, fun later hlater => ?_⟩
      exact hafter later (List.mem_append_left _ hlater)
  · rintro (⟨rfl, rfl⟩ | ⟨hne, before, path, after, rfl, hpath, hafter⟩)
    · exact ⟨files, file.1, [], rfl, rfl, by simp⟩
    · refine ⟨before, path, after ++ [file], by simp, hpath, fun later hlater => ?_⟩
      rcases List.mem_append.mp hlater with hlater | hlater
      · exact hafter later hlater
      · rwa [List.mem_singleton.mp hlater]

/-- A normal form has a last text if any file goes under it. -/
theorem exists_lastUnder_iff :
    (∃ text, LastUnder files key text) ↔ ∃ file ∈ files, file.1.normalize = key := by
  induction files using List.reverseRecOn with
  | nil => simp [LastUnder]
  | append_singleton files file ih =>
    simp only [lastUnder_concat_iff, exists_or, exists_eq_right', exists_and_left, ih,
      List.mem_append, List.mem_singleton, or_and_right, exists_eq_left]
    by_cases h : file.1.normalize = key <;> simp [h]

theorem ofList_concat (files : List (Path × String)) (file : Path × String) :
    ofList (files ++ [file]) = (ofList files).insert file.1 file.2 := by
  rw [ofList, List.foldl_append]
  rfl

/-- A path that takes the steps of a normal form has this normal form. -/
theorem same_normalize_iff : key.Same path.normalize ↔
    key.Same key.normalize ∧ path.normalize = key.normalize := by
  constructor
  · intro h
    have hnormal : path.normalize = key.normalize := by
      rw [h.normalize_eq, Path.normalize_normalize]
    exact ⟨hnormal ▸ h, hnormal⟩
  · rintro ⟨h, hnormal⟩
    rwa [hnormal]

/-- After any insertions a text stands under a path if it is the last one under the normal form of
the path, and the path takes the steps of its normal form. -/
theorem find?_ofList_eq_some_iff : (ofList files).find? key = some text ↔
    key.Same key.normalize ∧ LastUnder files key.normalize text := by
  induction files using List.reverseRecOn with
  | nil => simp [ofList, find?, empty, LastUnder]
  | append_singleton files file ih =>
    rw [ofList_concat, lastUnder_concat_iff]
    by_cases h : key.Same file.1.normalize
    · obtain ⟨hkey, hfile⟩ := same_normalize_iff.mp h
      simp [find?_insert_of_same _ _ h, hkey, hfile]
    · rw [find?_insert_of_not_same _ _ h, ih]
      refine and_congr_right fun hkey => ?_
      have hfile : file.1.normalize ≠ key.normalize := fun hfile =>
        h (same_normalize_iff.mpr ⟨hkey, hfile⟩)
      simp [hfile]

/-- A look-up answers with the path that it asks for, if a file goes under it. -/
theorem resolve_ofList_eq_ok_iff {context : Path} {specifier : String} :
    (ofList files).resolve context specifier = .ok path ↔
      path = (context.join ⟨specifier⟩).normalize ∧ ∃ file ∈ files, file.1.normalize = path := by
  have hfound : ((ofList files).find? (context.join ⟨specifier⟩).normalize).isSome = true ↔
      ∃ file ∈ files, file.1.normalize = (context.join ⟨specifier⟩).normalize := by
    rw [← exists_lastUnder_iff, Option.isSome_iff_exists]
    simp [find?_ofList_eq_some_iff, Path.Same.rfl]
  rw [resolve]
  split
  next h =>
    rw [Except.ok.injEq, eq_comm]
    exact ⟨fun hpath => ⟨hpath, hpath ▸ hfound.mp h⟩, And.left⟩
  next h =>
    refine iff_of_false (by simp) ?_
    rintro ⟨rfl, hfile⟩
    exact h (hfound.mpr hfile)

end FileTree

/-- A directive whose file is not found is not blamed on a read. -/
theorem resolve_ne_unreadable {host : Host} {value : String} {issuer path : Path} {config : Config}
    {cause : HostFault} : resolve host value issuer config ≠ .error (.unreadable path cause) := by
  unfold resolve
  dsimp only
  split <;> simp

namespace Setup

variable {path : Path} {cause : HostFault}

/-- What is found in a tree of files can be read there. -/
theorem error?_load_ne_unreadable (setup : Setup) (tree : FileTree) (site : Site) :
    ((setup.on tree).load site).error? ≠ some (.unreadable path cause) := by
  intro h
  rcases error?_load_eq_some_iff.mp h with hpath | ⟨found, hfound, ⟨-, he⟩ | ⟨-, hread | hparse⟩⟩
  · exact resolve_ne_unreadable hpath
  · exact absurd he (by simp)
  · obtain ⟨fault, hread, -⟩ := hread
    have hsome : (tree.find? found).isSome = true := by
      simp only [resolve] at hfound
      split at hfound
      next hresolve =>
        obtain rfl := Except.ok.inj hfound
        exact (FileTree.find?_isSome_of_resolve hresolve).2
      · exact absurd hfound (by simp)
    obtain ⟨text, htext⟩ := Option.isSome_iff_exists.mp hsome
    exact absurd (hread.symm.trans (FileTree.read_eq_ok_iff.mpr htext)) (by simp)
  · obtain ⟨source, fault, -, -, he⟩ := hparse
    exact absurd he (by simp [Error.inSource])

/-- An expansion over a tree of files does not fail with a read. -/
theorem expand_ne_unreadable (setup : Setup) (tree : FileTree) (file : Path) (t : Tree) :
    ((setup.on tree).expand file t).outcome ≠ .error (.unreadable path cause) := by
  intro h
  obtain ⟨number, last, -, hpass⟩ := (run_expand (setup.on tree) file t).exists_pass_of_error
    (fun _ => True) h trivial fun _ _ => trivial
  obtain ⟨site, -, herror⟩ := exists_error?_load_of_pass hpass
  exact error?_load_ne_unreadable setup tree site herror

end Setup

/-- A compilation over a tree of files does not fail with a read. -/
theorem Compiler.compile_ne_unreadable (compiler : Compiler) (tree : FileTree) (source : String)
    (file : Path) {path : Path} {cause : HostFault} :
    ((compiler.on tree).compile source file).outcome ≠ .error (.unreadable path cause) := by
  rw [outcome_compile, expandSource]
  intro h
  split at h
  · exact absurd h (by simp [Except.map, Error.inSource])
  next t _ =>
    cases hexpand : ((compiler.on tree).toSetup.expand file t).outcome with
    | ok expansion => simp [hexpand, Except.map] at h
    | error e =>
      rw [hexpand] at h
      obtain rfl := Except.error.inj h
      exact compiler.toSetup.expand_ne_unreadable tree file t hexpand

namespace FileTree

/-- A file tree is a map from normal forms in which the last text wins. Reading a path gives the
last text that was inserted under its normal form, if the path takes the steps of that form. A
look-up from a directory succeeds exactly if some file was inserted under the normal form that it
asks for; it answers with this form, and reading the answer gives the text of the last such file. So
neither an expansion nor a compilation over a file tree fails because a file cannot be read. -/
theorem ofList_keeps_last (files : List (Path × String)) :
    let tree := ofList files
    (∀ path text, tree.read path = .ok text ↔
      path.Same path.normalize ∧ LastUnder files path.normalize text) ∧
    (∀ context specifier path, tree.resolve context specifier = .ok path ↔
      path = (context.join ⟨specifier⟩).normalize ∧ ∃ file ∈ files, file.1.normalize = path) ∧
    (∀ context specifier path, tree.resolve context specifier = .ok path →
      ∃ text, LastUnder files path text ∧ tree.read path = .ok text) ∧
    (∀ (setup : Setup) (file : Path) (t : Tree) (path : Path) (cause : HostFault),
      ((setup.on tree).expand file t).outcome ≠ .error (.unreadable path cause)) ∧
    ∀ (compiler : Compiler) (source : String) (file path : Path) (cause : HostFault),
      ((compiler.on tree).compile source file).outcome ≠ .error (.unreadable path cause) := by
  intro tree
  have hread : ∀ path text, tree.read path = .ok text ↔
      path.Same path.normalize ∧ LastUnder files path.normalize text := fun path text =>
    read_eq_ok_iff.trans find?_ofList_eq_some_iff
  refine ⟨hread, fun _ _ _ => resolve_ofList_eq_ok_iff, fun context specifier path h => ?_,
    fun setup file t _ _ => setup.expand_ne_unreadable tree file t,
    fun compiler source file _ _ => compiler.compile_ne_unreadable tree source file⟩
  obtain ⟨hpath, hfile⟩ := resolve_ofList_eq_ok_iff.mp h
  have hnormal : path.normalize = path := by rw [hpath, Path.normalize_normalize]
  obtain ⟨text, htext⟩ := exists_lastUnder_iff.mpr hfile
  refine ⟨text, htext, (hread path text).mpr ?_⟩
  rw [hnormal]
  exact ⟨.rfl, htext⟩

/-- A text that is inserted again under another spelling, and a look-up by a third one. The path of
the second insertion does not take the steps of its normal form, so it cannot be read as given. -/
theorem ofList_keeps_last_respelled :
    let files := [(⟨"/lib/./a.glsl"⟩, "old"), (⟨"/lib/x/../a.glsl"⟩, "new"), (⟨"/a.glsl"⟩, "other")]
    let tree := ofList files
    tree.resolve ⟨"/lib/y"⟩ "../a.glsl" = .ok ⟨"/lib/a.glsl"⟩ ∧
      LastUnder files ⟨"/lib/a.glsl"⟩ "new" ∧ tree.read ⟨"/lib/a.glsl"⟩ = .ok "new" ∧
      ∀ text, tree.read ⟨"/lib/x/../a.glsl"⟩ ≠ .ok text := by
  intro files tree
  obtain ⟨hread, -, hlookup, -⟩ := ofList_keeps_last files
  have hfound : tree.resolve ⟨"/lib/y"⟩ "../a.glsl" = .ok ⟨"/lib/a.glsl"⟩ := by decide +kernel
  have hnew : tree.read ⟨"/lib/a.glsl"⟩ = .ok "new" := by decide +kernel
  obtain ⟨text, hlast, htext⟩ := hlookup _ _ _ hfound
  obtain rfl : text = "new" := Except.ok.inj (htext.symm.trans hnew)
  refine ⟨hfound, hlast, htext, fun text h => ?_⟩
  exact absurd ((hread _ text).mp h).1 (by decide +kernel)

end FileTree

end ShaderTemplate
