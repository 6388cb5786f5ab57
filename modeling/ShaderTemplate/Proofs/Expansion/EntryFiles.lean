import ShaderTemplate.Proofs.Expansion.Dependencies
import ShaderTemplate.Proofs.Path.Lookups
import ShaderTemplate.Template.Evaluation

/-!
# The file that a compilation starts from

A compilation starts from a source text and the path of its file, or from the path alone. In the
second case the path is cut into a directory and a file name, and the name is looked up from the
directory. What is appended to a directory is followed from where the directory leads, so the two
parts lead where the path led, and over a tree of files both ways to start come to the same.

An expansion takes the path of its file in normal form. How the path is spelled makes no difference
to it but in what it notes, and in the report of a source that cannot even be parsed.

Main statements:

- `Path.normalize_join_fileName`: a path is told by its directory and its file name;
- `Setup.outcome_expand_respelled`: expansions of files with one normal form;
- `Compiler.compileNamed_on`: what is compiled for the name of a file;
- `Compiler.compileFile_agrees`: the two ways to start a compilation.
-/

namespace ShaderTemplate

namespace Path

variable {p : Path} {name : String}

/-- A file name is the last step of its path. -/
theorem exists_components_of_fileName? (h : p.fileName? = some name) :
    ∃ steps, p.components = steps ++ [.name name] := by
  unfold fileName? at h
  split at h
  next text hlast =>
    obtain rfl := Option.some.inj h
    exact List.getLast?_eq_some_iff.mp hlast
  · exact absurd h (by simp)

/-- A name among the steps of a path is a path of one step by itself. -/
theorem components_of_name_mem (h : .name name ∈ p.components) :
    components ⟨name⟩ = [.name name] := by
  obtain ⟨hpiece, hfree⟩ : (Component.name name).Ordinary := by
    simpa using components_ordinary h
  replace hpiece : Component.ofPiece? name.toList = some (.name name) := hpiece
  replace hfree : '/' ∉ name.toList := hfree
  have hdot : name.toList ≠ ['.'] := fun hdot => by simp [hdot, Component.ofPiece?] at hpiece
  rw [components, pieces, Text.pieces_eq_singleton hfree, componentsOfPieces, if_neg hdot]
  exact congrArg Option.toList hpiece

/-- The file name of a path, appended to its directory, leads where the path leads. -/
theorem normalize_join_fileName (h : p.fileName? = some name) :
    ((p.parent?.getD ⟨""⟩).join ⟨name⟩).normalize = p.normalize := by
  obtain ⟨steps, hsteps⟩ := exists_components_of_fileName? h
  obtain ⟨directory, hparent, hdirectory⟩ := exists_components_parent? hsteps
  have hname : components ⟨name⟩ = [.name name] :=
    components_of_name_mem (hsteps ▸ List.mem_append_right steps List.mem_cons_self)
  rw [normalize_eq_iff, hparent, Option.getD_some, way_join, hname, way, way, hdirectory, hsteps,
    List.foldl_append]

end Path

namespace Setup

variable {setup : Setup} {file other : Path}

/-- A pass comes to the same for files with one normal form. -/
theorem outcome_pass_respelled (h : file.normalize = other.normalize) (number : Nat)
    (current : Expansion) :
    (setup.pass file number current).outcome = (setup.pass other number current).outcome := by
  simp only [pass, map_load_siteAt, h]

/-- A run of a file is a run of every file with the same normal form, but for what is noted. -/
theorem Run.respelled (h : file.normalize = other.normalize) {number : Nat} {current : Expansion}
    {result : Traced Error Expansion} (hrun : Run setup file number current result) :
    ∃ result', Run setup other number current result' ∧ result'.outcome = result.outcome := by
  -- A run looks at its file in two places, and takes the normal form in both: for the sites that
  -- are left, and for the loads of a pass.
  induction hrun with
  | finished hnil =>
    rw [h] at hnil
    exact ⟨_, .finished hnil, rfl⟩
  | failed hne hfails =>
    rw [h] at hne
    exact ⟨_, .failed hne ((outcome_pass_respelled h _ _).symm.trans hfails), rfl⟩
  | passed hne hpasses _ ih =>
    rw [h] at hne
    obtain ⟨later, hlater, houtcome⟩ := ih
    exact ⟨_, .passed hne ((outcome_pass_respelled h _ _).symm.trans hpasses) hlater, houtcome⟩

/-- Expansions of one tree as that of files with one normal form come to the same. -/
theorem outcome_expand_respelled (h : file.normalize = other.normalize) (t : Tree) :
    (setup.expand file t).outcome = (setup.expand other t).outcome := by
  obtain ⟨result, hrun, houtcome⟩ := (run_expand setup file t).respelled h
  rw [hrun.eq_expand, houtcome]

end Setup

namespace Compiler

variable {compiler : Compiler} {tree : FileTree} {p file other : Path} {source : String}

/-- A source that can be parsed is compiled alike for files with one normal form. -/
theorem outcome_compile_respelled (h : file.normalize = other.normalize) {t : Tree}
    (hparse : compiler.parser source = .ok t) :
    (compiler.compile source file).outcome = (compiler.compile source other).outcome := by
  rw [outcome_compile, outcome_compile, expandSource, expandSource, hparse]
  dsimp only
  rw [Setup.outcome_expand_respelled h]

/-- Over a tree of files, the file with a name in a directory is the one found under the normal form
of the path that they make up, the name being decoded. -/
theorem compileNamed_on (compiler : Compiler) (tree : FileTree) (directory : Path)
    (name : List UInt8) :
    let path := (directory.join ⟨String.ofList (Text.decodeLossy name)⟩).normalize
    (compiler.on tree).compileNamed directory name = match tree.find? path with
      | none => .error (.notInTree path)
      | some source => .ok ((compiler.on tree).compile source path) := by
  intro path
  have hresolve : (compiler.on tree).host.resolve directory
      (String.ofList (Text.decodeLossy name)) =
        if (tree.find? path).isSome then .ok path else .error (.notInTree path) := rfl
  rw [compileNamed, hresolve]
  cases hfind : tree.find? path with
  | none => rfl
  | some source =>
    have hread : (compiler.on tree).host.read path = .ok source :=
      FileTree.read_eq_ok_iff.mpr hfind
    show ((compiler.on tree).host.read path).bind _ = _
    rw [hread]
    rfl

/-- A path without a file name cannot be compiled. -/
theorem compileFile_of_fileName?_eq_none (h : p.fileName? = none) :
    compiler.compileFile p = ⟨[], .error (.unreadable p .notFilePath)⟩ := by
  simp only [compileFile, h]

/-- A path that ends in a name is found under its normal form. -/
theorem compileFile_on {name : String} (h : p.fileName? = some name) :
    (compiler.on tree).compileFile p = match tree.find? p.normalize with
      | none => ⟨[], .error (.unreadable p (.notInTree p.normalize))⟩
      | some source => (compiler.on tree).compile source p.normalize := by
  have hnamed := compileNamed_on compiler tree (p.parent?.getD ⟨""⟩) (Text.encode name.toList)
  rw [Text.decodeLossy_encode, String.ofList_toList, Path.normalize_join_fileName h] at hnamed
  simp only [compileFile, h, hnamed]
  cases tree.find? p.normalize <;> rfl

/-- Compiling a file is compiling its text. Over a tree of files a path that ends in no name, or
under whose normal form there is no text, fails to be read, and the report names the path as it was
given. Any other path is compiled as the text under its normal form is, of the file with this normal
form, on success and on every error. So two paths that end in names and have one normal form have
the same compilations and the same reports of circles; and an expansion, as well as the compilation
of a text that can be parsed, comes to the same for a path and for its normal form.

All this is about paths that are texts. A name that is any bytes is looked up as what it is decoded
to, so the file that is compiled may have another name. -/
theorem compileFile_agrees (compiler : Compiler) (tree : FileTree) :
    let hosted := compiler.on tree
    (∀ p : Path, p.fileName? = none ∨ tree.find? p.normalize = none →
      ∃ cause, (hosted.compileFile p).outcome = .error (.unreadable p cause)) ∧
    (∀ (p : Path) (name text : String), p.fileName? = some name →
      tree.find? p.normalize = some text → hosted.compileFile p = hosted.compile text p.normalize) ∧
    (∀ (p q : Path) (name other : String), p.fileName? = some name → q.fileName? = some other →
      p.normalize = q.normalize →
        (∀ compilation, (hosted.compileFile p).outcome = .ok compilation ↔
          (hosted.compileFile q).outcome = .ok compilation) ∧
        ∀ cycle, (hosted.compileFile p).outcome = .error (.cyclicInclude cycle) ↔
          (hosted.compileFile q).outcome = .error (.cyclicInclude cycle)) ∧
    (∀ (p : Path) (t : Tree),
      (hosted.toSetup.expand p t).outcome = (hosted.toSetup.expand p.normalize t).outcome) ∧
    (∀ (source : String) (t : Tree), hosted.parser source = .ok t → ∀ p : Path,
      (hosted.compile source p).outcome = (hosted.compile source p.normalize).outcome) ∧
    ∀ (directory : Path) (name : List UInt8),
      let decoded := (directory.join ⟨String.ofList (Text.decodeLossy name)⟩).normalize
      hosted.compileNamed directory name = match tree.find? decoded with
        | none => .error (.notInTree decoded)
        | some text => .ok (hosted.compile text decoded) := by
  intro hosted
  refine ⟨fun p h => ?_, fun p name text hname hfind => ?_, ?_,
    fun p => Setup.outcome_expand_respelled (Path.normalize_normalize p).symm,
    fun source t hparse p => outcome_compile_respelled (Path.normalize_normalize p).symm hparse,
    compileNamed_on compiler tree⟩
  · cases hname : p.fileName? with
    | none => exact ⟨_, congrArg Traced.outcome (compileFile_of_fileName?_eq_none hname)⟩
    | some name =>
      have hmissing := h.resolve_left (by simp [hname])
      rw [compileFile_on hname, hmissing]
      exact ⟨_, rfl⟩
  · rw [compileFile_on hname, hfind]
  · intro p q name other hp hq hnormal
    rw [compileFile_on hp, compileFile_on hq, hnormal]
    cases tree.find? q.normalize with
    -- Neither is found, and each report names its own path.
    | none => simp
    | some text => exact ⟨fun _ => .rfl, fun _ => .rfl⟩

/-- Two files that include each other. -/
def circleFiles : FileTree :=
  .ofList [(⟨"/lib/a.glsl"⟩, "#include b\n"), (⟨"/lib/b.glsl"⟩, "#include a\n")]

/-- A circle that is entered by two spellings of a file, and a path that ends in no name. -/
theorem compileFile_agrees_circle :
    let hosted := standard.on circleFiles
    let circle : Error := .cyclicInclude [⟨"/lib/a.glsl"⟩, ⟨"/lib/b.glsl"⟩, ⟨"/lib/a.glsl"⟩]
    hosted.compileFile ⟨"/lib/x/../a.glsl"⟩ = hosted.compile "#include b\n" ⟨"/lib/a.glsl"⟩ ∧
      (hosted.compileFile ⟨"/lib/x/../a.glsl"⟩).outcome = .error circle ∧
      (hosted.compileFile ⟨"//lib/./a.glsl/."⟩).outcome = .error circle ∧
      ∃ cause,
        (hosted.compileFile ⟨"/lib/x/.."⟩).outcome = .error (.unreadable ⟨"/lib/x/.."⟩ cause) := by
  intro hosted circle
  obtain ⟨hfails, hcompiles, hrespelled, -⟩ := compileFile_agrees standard circleFiles
  have hreported : (hosted.compile "#include b\n" ⟨"/lib/a.glsl"⟩).outcome = .error circle := by
    have hforgot : (hosted.compile "#include b\n" ⟨"/lib/a.glsl"⟩).outcome.map (fun _ => ()) =
        .error circle := by decide +kernel
    exact map_eq_error_iff.mp hforgot
  have hfile := hcompiles ⟨"/lib/x/../a.glsl"⟩ "a.glsl" "#include b\n" (by decide +kernel)
    (by decide +kernel)
  have hentered : (hosted.compileFile ⟨"/lib/x/../a.glsl"⟩).outcome = .error circle :=
    hfile ▸ hreported
  refine ⟨hfile, hentered, ?_, hfails _ (.inl (by decide +kernel))⟩
  have hspellings := hrespelled ⟨"/lib/x/../a.glsl"⟩ ⟨"//lib/./a.glsl/."⟩ "a.glsl" "a.glsl"
    (by decide +kernel) (by decide +kernel) (by decide +kernel)
  exact (hspellings.2 _).mp hentered

/-- A file whose name has a replacement character. -/
def replacedFiles : FileTree :=
  .ofList [(⟨"/d/\uFFFD.glsl"⟩, "int d;")]

/-- The byte `0xFF` is in no text, so it is in the name of no file of a tree; but the file that has
a replacement character in its place is found. -/
theorem compileNamed_replaced :
    let hosted := standard.on replacedFiles
    let name : List UInt8 := 0xFF :: Text.encode ".glsl".toList
    (∀ text, Text.encode text ≠ name) ∧
      hosted.compileNamed ⟨"/d"⟩ name = .ok (hosted.compile "int d;" ⟨"/d/\uFFFD.glsl"⟩) ∧
      ¬ ∃ cause, hosted.compileNamed ⟨"/d"⟩ name = .error cause := by
  intro hosted name
  have hdecoded : Text.decodeLossy name = "\uFFFD.glsl".toList := by decide +kernel
  have hpath : (Path.join ⟨"/d"⟩ ⟨"\uFFFD.glsl"⟩).normalize = ⟨"/d/\uFFFD.glsl"⟩ := by
    decide +kernel
  have hfind : replacedFiles.find? ⟨"/d/\uFFFD.glsl"⟩ = some "int d;" := by decide +kernel
  have hcompiled := compileNamed_on standard replacedFiles ⟨"/d"⟩ name
  simp only [hdecoded, String.ofList_toList, hpath, hfind] at hcompiled
  refine ⟨fun text htext => ?_, hcompiled, fun ⟨cause, hcause⟩ => ?_⟩
  · -- The only text that the name could be is what it is decoded to.
    have hsame := Text.decodeLossy_encode text
    rw [htext, hdecoded] at hsame
    rw [← hsame] at htext
    exact absurd htext (by decide +kernel)
  · exact absurd (hcompiled.symm.trans hcause) (by simp)

end Compiler

end ShaderTemplate
