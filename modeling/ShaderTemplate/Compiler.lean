import ShaderTemplate.Include.Expansion
import ShaderTemplate.Template.Module
import ShaderTemplate.Text.Bytes

/-!
# Compiling shader sources

A compilation parses a source, expands its include directives, and factors the variables of the
expanded text out. A compiler is a setup whose configuration is usable.
-/

namespace ShaderTemplate

/-- The outcome of a compilation. -/
structure Compilation where
  /-- The template of the expanded text. -/
  template : Template
  /-- The files that were read; the compilation is out of date when one of them changes. -/
  dependencies : DependencySet

/-- A transform of emitted module sources, which may fail with a message. -/
abbrev Transform : Type := String → Except String String

/-- A setup whose configuration is usable. -/
structure Compiler extends Setup where
  /-- The configuration has no fault. -/
  usable : config.Usable

namespace Compiler

/-- Make a compiler of a setup. -/
def ofSetup (setup : Setup) : Except Error Compiler :=
  match h : setup.config.fault? with
  | some fault => .error (.config fault)
  | none => .ok ⟨setup, h⟩

/-- Expand a source text, the contents of the file `file`. -/
def expandSource (compiler : Compiler) (source : String) (file : Path) : Traced Error Expansion :=
  match compiler.parser source with
  | .error e => ⟨[], .error (.inSource e (some file) source)⟩
  | .ok tree => compiler.toSetup.expand file tree

/-- Factor the variables of an expansion out. -/
def template (compiler : Compiler) (expansion : Expansion) : Template :=
  Template.compile expansion.tree.render compiler.config.marker

/-- Compile a source text, the contents of the file `file`. -/
def compile (compiler : Compiler) (source : String) (file : Path) : Traced Error Compilation :=
  let factored := (compiler.expandSource source file).bind fun expansion =>
    let template := compiler.template expansion
    ⟨[.segmented template.segments.length template.marker],
      .ok ⟨template, expansion.dependencies⟩⟩
  factored.noting fun compilation =>
    .compiled file compilation.dependencies.paths.length compilation.template.variableNames.length

/-- Find, read and compile the file with a name in a directory. A name is kept as bytes, while a
host is asked for a text; if the bytes are not those of a text, the host is asked for another name.
What it refuses is to be reported for the path that was asked for, which the caller knows. -/
def compileNamed (compiler : Compiler) (directory : Path) (name : List UInt8) :
    Except HostFault (Traced Error Compilation) := do
  let entry ← compiler.host.resolve directory (String.ofList (Text.decodeLossy name))
  let source ← compiler.host.read entry
  return compiler.compile source entry

/-- Find, read and compile the file at a path. -/
def compileFile (compiler : Compiler) (path : Path) : Traced Error Compilation :=
  let compiled : Except HostFault (Traced Error Compilation) :=
    match path.fileName? with
    | none => .error .notFilePath
    | some name => compiler.compileNamed (path.parent?.getD ⟨""⟩) (Text.encode name.toList)
  match compiled with
  -- The report names the path that was asked for, not the one that was found.
  | .error cause => ⟨[], .error (.unreadable path cause)⟩
  | .ok result => result

/-- Emit a template as the source of a module, transformed if the configuration asks for it. -/
def emitModule (compiler : Compiler) (template : Template) (transform : Option Transform) :
    Except Error String :=
  let source := template.moduleSource
  if compiler.config.downlevel then
    match transform with
    | none => .error (.config .missingTransform)
    | some transform => (transform source).mapError .downlevel
  else .ok source

/-- What a compilation comes to, its notes left aside. -/
theorem outcome_compile (compiler : Compiler) (source : String) (file : Path) :
    (compiler.compile source file).outcome =
      (compiler.expandSource source file).outcome.map fun expansion =>
        ⟨compiler.template expansion, expansion.dependencies⟩ := by
  rw [compile, Traced.outcome_noting, Traced.outcome_bind]
  cases (compiler.expandSource source file).outcome <;> rfl

end Compiler

end ShaderTemplate
