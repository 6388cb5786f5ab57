import ShaderTemplate.Compiler
import ShaderTemplate.Config.Json
import ShaderTemplate.Host.Disk
import ShaderTemplate.Template.Evaluation

/-!
# The command line

The program compiles one file of a disk and prints the evaluated template, the template as a module,
or the files it depends on. A run is a function of the arguments and the disk.
-/

namespace ShaderTemplate.CommandLine

/-- What the arguments ask for. -/
structure Arguments where
  /-- The file to compile. -/
  entry : Path
  /-- The file that holds the configuration. -/
  config : Option Path := none
  /-- The root path that goes before that of the configuration. -/
  root : Option Path := none
  /-- The extension that goes before that of the configuration. -/
  extension : Option String := none
  /-- The marker that goes before that of the configuration. -/
  marker : Option String := none
  /-- The settings of variables, each as it was written. -/
  settings : List String := []
  /-- Print a module. -/
  asModule : Bool := false
  /-- Print the dependencies. -/
  asDependencies : Bool := false
  deriving Repr, DecidableEq

/-- An option that takes a value. -/
inductive ValueOption where
  | config
  | root
  | extension
  | marker
  | set
  deriving Repr, DecidableEq

/-- An option that takes no value. -/
inductive Flag where
  | asModule
  | asDependencies
  deriving Repr, DecidableEq

/-- Name the options that take a value. -/
def ValueOption.ofName? (name : String) : Option ValueOption :=
  if name = "--config" then some .config
  else if name = "--root" then some .root
  else if name = "--extension" then some .extension
  else if name = "--prefix" then some .marker
  else if name = "--set" then some .set
  else none

/-- Name the options that take none. -/
def Flag.ofName? (name : String) : Option Flag :=
  if name = "--module" then some .asModule
  else if name = "--deps" then some .asDependencies
  else none

/-- One argument or one option with its value. -/
inductive Item where
  /-- An argument that is no option. -/
  | positional (text : String)
  /-- An option with its value. -/
  | value (option : ValueOption) (text : String)
  /-- An option without a value. -/
  | flag (option : Flag)
  deriving Repr, DecidableEq

/-- What reading the arguments comes to. -/
inductive Reading where
  /-- The arguments are in order. -/
  | accepted (items : List Item)
  /-- The version is asked for. -/
  | version
  /-- The arguments are not in order. -/
  | rejected
  deriving Repr, DecidableEq

/-- What has been read so far, in the order of the arguments. -/
abbrev Items : Type := List Item

/-- Decide whether two items must not both be given: there is one entry, and every option but the
settings of variables is given once. -/
def Item.excludes : Item → Item → Bool
  | .positional _, .positional _ => true
  | .value .set _, _ => false
  | .value a _, .value b _ => a == b
  | .flag a, .flag b => a == b
  | _, _ => false

/-- Decide whether an item gives an empty path. -/
def Item.isEmptyPath : Item → Bool
  | .positional text | .value .config text | .value .root text => text == ""
  | _ => false

/-- Add an item unless an earlier one excludes it or it gives an empty path. -/
def add? (items : Items) (item : Item) : Option Items :=
  if items.any item.excludes || item.isEmptyPath then none else some (items ++ [item])

/-- Split an argument at its first equality sign. -/
def splitEquals (text : String) : String × Option String :=
  let chars := text.toList
  match chars.dropWhile (· != '=') with
  | [] => (text, none)
  | _ :: value => (String.ofList (chars.takeWhile (· != '=')), some (String.ofList value))

/-- Decide whether an argument is written like an option. -/
def looksLikeOption (text : String) : Bool :=
  match text.toList with
  | '-' :: _ :: _ => true
  | _ => false

/-- Decide whether an argument asks for the version, in its long form or in its short form, which
may be followed by anything. -/
def asksForVersion (text : String) : Bool :=
  text == "--version" ||
    match text.toList with
    | '-' :: 'V' :: _ => true
    | _ => false

/-- Read arguments after a `--`, all of which are positional. -/
def readPositional (items : Items) : List String → Reading
  | [] => .accepted items
  | text :: rest =>
    match add? items (.positional text) with
    | none => .rejected
    | some items => readPositional items rest

/-- Read arguments in order up to the first that is not in order or asks for the version. -/
def readItems (items : Items) : List String → Reading
  | [] => .accepted items
  | "--" :: rest => readPositional items rest
  | text :: rest =>
    if looksLikeOption text then
      let parts := splitEquals text
      match ValueOption.ofName? parts.1, Flag.ofName? parts.1, parts.2, rest with
      -- The value stands in the same argument.
      | some option, _, some value, rest =>
        match add? items (.value option value) with
        | none => .rejected
        | some items => readItems items rest
      -- The value is the next argument, which must not be written like an option.
      | some option, _, none, value :: rest =>
        if looksLikeOption value then .rejected
        else
          match add? items (.value option value) with
          | none => .rejected
          | some items => readItems items rest
      | _, some option, none, rest =>
        match add? items (.flag option) with
        | none => .rejected
        | some items => readItems items rest
      | _, _, _, _ => if asksForVersion text then .version else .rejected
    else
      match add? items (.positional text) with
      | none => .rejected
      | some items => readItems items rest

/-- Take an item over into the arguments. -/
def Arguments.take (arguments : Arguments) : Item → Arguments
  | .positional text => { arguments with entry := ⟨text⟩ }
  | .value .config text => { arguments with config := some ⟨text⟩ }
  | .value .root text => { arguments with root := some ⟨text⟩ }
  | .value .extension text => { arguments with extension := some text }
  | .value .marker text => { arguments with marker := some text }
  | .value .set text => { arguments with settings := arguments.settings ++ [text] }
  | .flag .asModule => { arguments with asModule := true }
  | .flag .asDependencies => { arguments with asDependencies := true }

/-- Take the items over, which must name an entry and not ask for both kinds of output. -/
def ofItems? (items : Items) : Option Arguments :=
  let arguments := items.foldl Arguments.take { entry := ⟨""⟩ }
  if arguments.entry.spelling = "" ∨ (arguments.asModule ∧ arguments.asDependencies) then none
  else some arguments

/-- What a run leaves behind. -/
structure Outcome where
  /-- The exit code. -/
  code : UInt8
  /-- What is printed on standard output. -/
  output : String
  /-- What is printed on standard error. -/
  errors : String
  deriving Repr, DecidableEq

/-- What is printed for the version. -/
def versionText : String := "glsl_chunks 0.1.0\n"

/-- What is printed when the arguments are not in order. -/
def usageText : String :=
  "usage: glsl_chunks [--config FILE] [--root DIR] [--extension EXT] [--prefix TEXT] " ++
    "[--set NAME=VALUE]... [--module | --deps] ENTRY\n"

/-- Read the configuration of a run. -/
def configOf (disk : Disk) (arguments : Arguments) : Except Error Config := do
  let config ←
    match arguments.config with
    | none => .ok {}
    | some path =>
      match disk.read path with
      | .error cause => .error (.unreadable path cause)
      | .ok source => (Config.ofJson source).mapError .config
  return { config with
    rootPath := arguments.root.getD config.rootPath
    chunkExtension := arguments.extension.getD config.chunkExtension
    marker := arguments.marker.getD config.marker }

/-- Read the setting of a variable, its name trimmed and its value as it is. -/
def setting (text : String) : Except Error (String × Value) :=
  match splitEquals text with
  | (_, none) => .error (.invalidVariable text)
  | (name, some value) => .ok (String.ofList (Text.trim name.toList), .text value)

/-- Take settings over in order. -/
def optionsOf (settings : List String) : Except Error Options :=
  settings.foldlM (fun options text => do
    let (name, value) ← setting text
    options.set name value) {}

/-- Compile the entry and write what is asked for. -/
def produce (disk : Disk) (arguments : Arguments) : Except Error String := do
  let config ← configOf disk arguments
  let compiler ← Compiler.ofSetup { config, host := disk.host, parser := parseChunk }
  let compilation ← (compiler.compileFile arguments.entry).outcome
  if arguments.asDependencies then
    return compilation.dependencies.paths.foldr (fun path text => path.spelling ++ "\n" ++ text) ""
  else if arguments.asModule then
    return (← compiler.emitModule compilation.template none) ++ "\n"
  else
    compilation.template.evaluate (← optionsOf arguments.settings)

/-- Run the program on a disk. An error other than of usage is reported, with exit code one. -/
def run (disk : Disk) (texts : List String) : Outcome × Option Error :=
  match readItems [] texts with
  | .version => (⟨0, versionText, ""⟩, none)
  | .rejected => (⟨2, "", usageText⟩, none)
  | .accepted items =>
    match ofItems? items with
    | none => (⟨2, "", usageText⟩, none)
    | some arguments =>
      match produce disk arguments with
      | .ok text => (⟨0, text, ""⟩, none)
      | .error e => (⟨1, "", e.report ++ "\n"⟩, some e)

end ShaderTemplate.CommandLine
