import ShaderTemplate.Config.Basic
import ShaderTemplate.Host.Fault
import ShaderTemplate.Source.Excerpt
import ShaderTemplate.Source.SyntaxError

/-!
# Errors and their reports

An error says why a compilation or an evaluation failed. A report adds the text of the underlying
cause and, for a syntax error, an excerpt of the source.
-/

namespace ShaderTemplate

/-- Why a compilation or an evaluation failed. -/
inductive Error where
  /-- A source text is malformed; `excerpt` shows the place. -/
  | malformed (file : Option Path) (error : SyntaxError) (excerpt : String)
  /-- An included file was not found in `context`. -/
  | notFound (specifier : String) (context issuer : Path) (cause : HostFault)
  /-- A file could not be read. -/
  | unreadable (path : Path) (cause : HostFault)
  /-- Files include each other in a circle; the last entry is the repeated one. -/
  | cyclicInclude (cycle : List Path)
  /-- No value was given for a variable. -/
  | missingVariable (name : String)
  /-- A value was given for something that is no variable name. -/
  | invalidVariable (name : String)
  /-- The configuration is unusable. -/
  | config (fault : ConfigFault)
  /-- The downleveling transform failed. -/
  | downlevel (message : String)
  deriving Repr, DecidableEq

/-- The kinds of errors. -/
inductive ErrorKind where
  | malformed
  | notFound
  | unreadable
  | cyclicInclude
  | missingVariable
  | invalidVariable
  | config
  | downlevel
  deriving Repr, DecidableEq

/-- Name a kind of errors. -/
def ErrorKind.name : ErrorKind → String
  | .malformed => "SyntaxError"
  | .notFound => "NotFound"
  | .unreadable => "ReadError"
  | .cyclicInclude => "CyclicInclude"
  | .missingVariable => "MissingVariable"
  | .invalidVariable => "InvalidVariable"
  | .config => "ConfigError"
  | .downlevel => "DownlevelError"

namespace Error

/-- The number of lines shown on either side of a malformed place. -/
def excerptContext : Nat := 2

/-- Report a malformed source with an excerpt of it. -/
def inSource (error : SyntaxError) (file : Option Path) (source : String) : Error :=
  .malformed file error (Excerpt.render source error.location excerptContext)

/-- Report a malformed source as `inSource` does, if the excerpt can be written. A place that lies
far outside the source may be told by numbers that are too great for it. -/
def inSource? (error : SyntaxError) (file : Option Path) (source : String) : Option Error :=
  (Excerpt.render? source error.location excerptContext).map (.malformed file error)

/-- The kind of an error. -/
def kind : Error → ErrorKind
  | .malformed .. => .malformed
  | .notFound .. => .notFound
  | .unreadable .. => .unreadable
  | .cyclicInclude _ => .cyclicInclude
  | .missingVariable _ => .missingVariable
  | .invalidVariable _ => .invalidVariable
  | .config _ => .config
  | .downlevel _ => .downlevel

/-- Word an error without its cause. -/
def summary : Error → String
  | .malformed file error _ =>
    "syntax error in " ++ (file.map Path.spelling).getD "<source>" ++ ": " ++ error.render
  | .notFound specifier context issuer _ =>
    "cannot resolve `#include " ++ specifier ++ "` in " ++ issuer.spelling ++ " (looked in " ++
      context.spelling ++ ")"
  | .unreadable path _ => "cannot read " ++ path.spelling
  | .cyclicInclude cycle => "cyclic include: " ++ " -> ".intercalate (cycle.map Path.spelling)
  | .missingVariable name => "no value supplied for template variable `" ++ name ++ "`"
  | .invalidVariable name => "`" ++ name ++ "` is not a valid template variable name"
  | .config fault => "invalid configuration: " ++ fault.message
  | .downlevel message => "downlevel transform failed: " ++ message

/-- The wording of the underlying cause. -/
def cause? : Error → Option String
  | .notFound _ _ _ cause | .unreadable _ cause => some cause.message
  | .downlevel message => some message
  | _ => none

/-- Word an error together with its cause. -/
def message (e : Error) : String :=
  match e.cause? with
  | some cause => e.summary ++ ": " ++ cause
  | none => e.summary

/-- The excerpt that goes with an error. -/
def excerpt? : Error → Option String
  | .malformed _ _ excerpt => some excerpt
  | _ => none

/-- Write an error as a report: its kind, its wording and its excerpt. -/
def report (e : Error) : String :=
  let headline := e.kind.name ++ ": " ++ e.message
  match e.excerpt? with
  | some excerpt => headline ++ "\n" ++ excerpt
  | none => headline

end Error

end ShaderTemplate
