import ShaderTemplate.Compiler
import ShaderTemplate.Host.FileTree
import ShaderTemplate.Proofs.Expansion.Chunks

/-!
# Dependencies suffice

The dependencies of a compilation are all that it takes from its files. A compilation comes out the
same over any other files that agree on the dependencies of the first (`Setup.Run.on_of_agrees`),
whatever else the two hold: each file that an expansion finds, reads and parses is registered, and
nothing is ever unregistered (`Setup.contains_of_run`). So a compilation is out of date only when a
dependency changes, and without one of its dependencies it fails.
-/

namespace ShaderTemplate

namespace FileTree

/-- Remove the file at a path, however it is spelled. -/
def erase (tree : FileTree) (path : Path) : FileTree where
  files := tree.files.filter fun file => ¬ path.Same file.1
  normal file hfile := tree.normal file (List.mem_filter.mp hfile).1
  distinct := tree.distinct.filter _

/-- The removed file is not found. -/
theorem find?_erase_of_same (tree : FileTree) {path key : Path} (h : key.Same path) :
    (tree.erase path).find? key = none := by
  simp only [find?, erase, List.find?_filter, Option.map_eq_none_iff, List.find?_eq_none]
  intro file _
  by_cases e : file.1.Same key
  · simp [e, (e.trans h).symm]
  · simp [e]

/-- Other files keep their texts. -/
theorem find?_erase_of_not_same (tree : FileTree) {path key : Path} (h : ¬ key.Same path) :
    (tree.erase path).find? key = tree.find? key := by
  rw [find?, find?, erase, find?_filter_of_not_same h]

/-- Two trees have the same texts under the paths of a set. -/
def Agrees (tree other : FileTree) (set : DependencySet) : Prop :=
  ∀ path, set.contains path = true → other.find? path = tree.find? path

/-- It is enough that two trees have the same texts under the spellings in the set. -/
theorem agrees_of_forall_paths {tree other : FileTree} {set : DependencySet}
    (h : ∀ path ∈ set.paths, other.find? path = tree.find? path) : tree.Agrees other set := by
  intro path hpath
  obtain ⟨key, hkey, hsame⟩ := DependencySet.contains_iff.mp hpath
  rw [other.find?_congr hsame, tree.find?_congr hsame, h key hkey]

end FileTree

namespace Setup

variable {setup : Setup} {tree other : FileTree} {file : Path}

/-! ## Look-ups and reads -/

/-- Work with the files of a tree. -/
def on (setup : Setup) (tree : FileTree) : Setup :=
  { setup with host := tree.host }

/-- A file that one tree finds for a value is found by another tree that has the same text there. -/
theorem resolve_of_find?_eq {value : String} {issuer path : Path} {config : Config}
    (h : resolve tree.host value issuer config = .ok path)
    (heq : other.find? path = tree.find? path) :
    resolve other.host value issuer config = .ok path := by
  simp only [resolve] at h ⊢
  split at h
  next found hfound =>
    obtain rfl := Except.ok.inj h
    obtain ⟨hpath, hsome⟩ := FileTree.find?_isSome_of_resolve hfound
    rw [← heq] at hsome
    have hother : other.host.resolve (Request.ofValue value issuer config).context
        (Request.ofValue value issuer config).specifier = .ok found := by
      show other.resolve _ _ = _
      rw [FileTree.resolve, ← hpath, if_pos hsome]
    rw [hother]
  next => exact absurd h (by simp)

/-- A chunk that one tree gives is given by another tree that has the same text for its file. -/
theorem chunkAt_on_of_find?_eq {site : Site} {chunk : Chunk}
    (h : (setup.on tree).chunkAt site = some chunk)
    (heq : other.find? chunk.path = tree.find? chunk.path) :
    (setup.on other).chunkAt site = some chunk := by
  obtain ⟨hfound, hnew, source, hread, hparsed⟩ := chunkAt_eq_some_iff.mp h
  refine chunkAt_eq_some_iff.mpr
    ⟨resolve_of_find?_eq hfound heq, hnew, source, ?_, hparsed⟩
  exact FileTree.read_eq_ok_iff.mpr (heq.trans (FileTree.read_eq_ok_iff.mp hread))

/-- The file of a chunk is in its tree. -/
theorem find?_isSome_of_chunkAt {site : Site} {chunk : Chunk}
    (h : (setup.on tree).chunkAt site = some chunk) : (tree.find? chunk.path).isSome = true := by
  obtain ⟨-, -, source, hread, -⟩ := chunkAt_eq_some_iff.mp h
  rw [FileTree.read_eq_ok_iff.mp hread, Option.isSome_some]

/-! ## What is registered -/

/-- The files that an expansion registers are in its tree. -/
theorem find?_isSome_of_contains {number : Nat} {current last : Expansion}
    {result : Traced Error Expansion} (h : Run (setup.on tree) file number current result)
    (hresult : result.outcome = .ok last)
    (hstart : ∀ path, current.dependencies.contains path = true → (tree.find? path).isSome = true)
    (path : Path) (hpath : last.dependencies.contains path = true) :
    (tree.find? path).isSome = true := by
  refine Run.induction (fun expansion => ∀ path, expansion.dependencies.contains path = true →
    (tree.find? path).isSome = true) h hresult hstart ?_ path hpath
  intro number current next hcurrent hpass path hpath
  rcases (contains_of_pass hpass).mp hpath with ⟨site, -, chunk, hchunk, hsame⟩ | hpath
  · rw [tree.find?_congr hsame]
    exact find?_isSome_of_chunkAt hchunk
  · exact hcurrent path hpath

/-! ## Two runs -/

/-- A run over one tree is one over any tree that agrees on what the run has registered in the end:
the two come to the same expansion. -/
theorem Run.on_of_agrees {number : Nat} {current last : Expansion}
    {result : Traced Error Expansion} (h : Run (setup.on tree) file number current result)
    (hresult : result.outcome = .ok last) (agrees : tree.Agrees other last.dependencies) :
    ∃ result', Run (setup.on other) file number current result' ∧ result'.outcome = .ok last := by
  induction h with
  | finished hnil => exact ⟨_, .finished hnil, hresult⟩
  | failed _ _ => exact absurd hresult (by simp)
  | @passed number current next later hne hpasses hrun ih =>
    obtain ⟨hevery, -⟩ := outcome_pass_eq_ok_iff.mp hpasses
    -- The files of this pass are registered now, and still are in the end.
    have hchunks : ∀ site ∈ current.tree.sites [] file.normalize,
        (setup.on tree).chunkAt site = (setup.on other).chunkAt site := by
      intro site hsite
      obtain ⟨chunk, hchunk⟩ := Option.isSome_iff_exists.mp (hevery site hsite)
      have hnext : next.dependencies.contains chunk.path = true :=
        (contains_of_pass hpasses).mpr (.inl ⟨site, hsite, chunk, hchunk, .rfl⟩)
      have heq := agrees chunk.path (contains_of_run hrun hresult hnext)
      rw [hchunk, chunkAt_on_of_find?_eq hchunk heq]
    obtain ⟨later', hrest, hlater⟩ := ih hresult
    exact ⟨_, .passed hne ((outcome_pass_congr hchunks _ _).mp hpasses) hrest, hlater⟩

/-- An expansion over one tree comes out the same over any tree that agrees on its dependencies. -/
theorem expand_on_of_agrees {t : Tree} {expansion : Expansion}
    (h : ((setup.on tree).expand file t).outcome = .ok expansion)
    (agrees : tree.Agrees other expansion.dependencies) :
    ((setup.on other).expand file t).outcome = .ok expansion := by
  obtain ⟨result, hrun, hresult⟩ := (run_expand (setup.on tree) file t).on_of_agrees h agrees
  rw [hrun.eq_expand, hresult]

end Setup

namespace Compiler

variable {compiler : Compiler} {tree other : FileTree} {source : String} {file : Path}

/-- Compile with the files of a tree. -/
def on (compiler : Compiler) (tree : FileTree) : Compiler :=
  { compiler with host := tree.host }

/-- A compilation that succeeds has expanded the tree of its source. -/
theorem outcome_compile_eq_ok_iff {compilation : Compilation} :
    (compiler.compile source file).outcome = .ok compilation ↔
      ∃ t expansion, compiler.parser source = .ok t ∧
        (compiler.toSetup.expand file t).outcome = .ok expansion ∧
          compilation = ⟨compiler.template expansion, expansion.dependencies⟩ := by
  rw [outcome_compile, expandSource]
  cases compiler.parser source with
  | error e => simp [Except.map]
  | ok t =>
    cases hexpand : (compiler.toSetup.expand file t).outcome <;>
      simp [Except.map, hexpand, eq_comm]

/-- A compilation over one tree comes out the same over any tree that agrees on its dependencies. -/
theorem compile_on_of_agrees {compilation : Compilation}
    (h : ((compiler.on tree).compile source file).outcome = .ok compilation)
    (agrees : tree.Agrees other compilation.dependencies) :
    ((compiler.on other).compile source file).outcome = .ok compilation := by
  obtain ⟨t, expansion, hparsed, hexpand, rfl⟩ := outcome_compile_eq_ok_iff.mp h
  exact outcome_compile_eq_ok_iff.mpr
    ⟨t, expansion, hparsed, Setup.expand_on_of_agrees hexpand agrees, rfl⟩

/-- The dependencies of a compilation are files of its tree. -/
theorem find?_isSome_of_compile {compilation : Compilation}
    (h : ((compiler.on tree).compile source file).outcome = .ok compilation) {path : Path}
    (hpath : compilation.dependencies.contains path = true) :
    (tree.find? path).isSome = true := by
  obtain ⟨t, expansion, -, hexpand, rfl⟩ := outcome_compile_eq_ok_iff.mp h
  refine Setup.find?_isSome_of_contains (Setup.run_expand (compiler.toSetup.on tree) file t) hexpand
    (fun path hpath => ?_) path hpath
  simp [DependencySet.contains, DependencySet.empty] at hpath

/-- The dependencies of a compilation tell when it is out of date. A compilation over a tree of
files comes out the same over every tree that has the same texts under its dependencies, whatever
the trees hold elsewhere, and it fails once any of its dependencies is removed. -/
theorem compile_determined_by_dependencies (compiler : Compiler) (tree : FileTree)
    (source : String) (file : Path) {compilation : Compilation}
    (h : ((compiler.on tree).compile source file).outcome = .ok compilation) :
    (∀ other : FileTree,
      (∀ path ∈ compilation.dependencies.paths, other.find? path = tree.find? path) →
        ((compiler.on other).compile source file).outcome = .ok compilation) ∧
      ∀ path, compilation.dependencies.contains path = true →
        ∃ e, ((compiler.on (tree.erase path)).compile source file).outcome = .error e := by
  refine ⟨fun other hpaths => ?_, fun path hpath => ?_⟩
  · exact compile_on_of_agrees h (FileTree.agrees_of_forall_paths hpaths)
  · cases herased : ((compiler.on (tree.erase path)).compile source file).outcome with
    | error e => exact ⟨e, rfl⟩
    | ok shorter =>
      exfalso
      have held : ∀ p, shorter.dependencies.contains p = true → ¬ p.Same path := by
        intro p hp hsame
        have hsome := find?_isSome_of_compile herased hp
        rw [tree.find?_erase_of_same hsame] at hsome
        exact absurd hsome (by simp)
      -- What compiles without the file compiles the same with it, so the file is no dependency.
      have agrees : (tree.erase path).Agrees tree shorter.dependencies := fun p hp =>
        (tree.find?_erase_of_not_same (held p hp)).symm
      have heq : shorter = compilation :=
        Except.ok.inj ((compile_on_of_agrees herased agrees).symm.trans h)
      exact held path (heq ▸ hpath) .rfl

/-- The compiler with the default configuration. -/
def standard : Compiler :=
  ⟨⟨{}, FileTree.empty.host, parseChunk⟩, Config.usable_default⟩

/-- Two files. -/
def twoFiles : FileTree :=
  .ofList [(⟨"/noise.glsl"⟩, "float n;"), (⟨"/light.glsl"⟩, "float l;")]

/-- A source that includes one of two files, over that file alone and without it. -/
theorem compile_determined_by_dependencies_noise :
    ∃ compilation,
      ((standard.on twoFiles).compile "#include noise\n" ⟨"/main.glsl"⟩).outcome =
        .ok compilation ∧
      compilation.dependencies.paths = [⟨"/noise.glsl"⟩] ∧
      ((standard.on (.ofList [(⟨"/noise.glsl"⟩, "float n;")])).compile
        "#include noise\n" ⟨"/main.glsl"⟩).outcome = .ok compilation ∧
      ∃ e, ((standard.on (twoFiles.erase ⟨"/noise.glsl"⟩)).compile
        "#include noise\n" ⟨"/main.glsl"⟩).outcome = .error e := by
  have paths : ((standard.on twoFiles).compile "#include noise\n"
      ⟨"/main.glsl"⟩).outcome.toOption.map (·.dependencies.paths) = some [⟨"/noise.glsl"⟩] := by
    decide +kernel
  obtain ⟨compilation, hcompilation, hpaths⟩ := Option.map_eq_some_iff.mp paths
  have hok := toOption_eq_some_iff.mp hcompilation
  obtain ⟨others, removed⟩ := compile_determined_by_dependencies standard _ _ _ hok
  refine ⟨compilation, hok, hpaths, others _ ?_, removed _ ?_⟩
  · rw [hpaths]
    decide +kernel
  · rw [DependencySet.contains, hpaths]
    decide +kernel

end Compiler

end ShaderTemplate
