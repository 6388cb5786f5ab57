import ShaderTemplate.Config.Basic
import ShaderTemplate.Text.Blank

/-!
# Requests for included files

The value of an include directive becomes a request: a directory to search from and a specifier to
look up there. Blanks, semicolons at the end and one pair of delimiters are no part of a specifier.
A specifier that names no extension gets the configured one, and one that starts with a slash is
anchored at the configured root.
-/

namespace ShaderTemplate

namespace Specifier

/-- Strip one pair of delimiters. -/
def undelimited? (opening closing : Char) (text : List Char) : Option (List Char) :=
  match text with
  | [] => none
  | c :: body => if c = opening ∧ body.getLast? = some closing then some body.dropLast else none

/-- Drop blanks around a text and the semicolons at its end. -/
def trimmed (raw : List Char) : List Char :=
  Text.trim (Text.dropEndWhile (· == ';') (Text.trim raw))

/-- Reduce the value of an include directive to the specifier it means. -/
def cleaned (raw : List Char) : List Char :=
  let text := trimmed raw
  match undelimited? '\x22' '\x22' text with
  | some body => Text.trim body
  | none =>
    match undelimited? '<' '>' text with
    | some body => Text.trim body
    | none => text

/-- Reduce the value of an include directive to the specifier it means. -/
def clean (raw : String) : String :=
  String.ofList (cleaned raw.toList)

/-- Append the configured extension to a specifier that names none. -/
def withExtension (specifier : String) (config : Config) : String :=
  match Path.extension? ⟨specifier⟩ with
  | some _ => specifier
  | none => specifier ++ "." ++ config.bareExtension

/-- The configured root is no part of a specifier. -/
theorem withExtension_rootPath (specifier : String) (config : Config) (root : Path) :
    withExtension specifier { config with rootPath := root } = withExtension specifier config := by
  have hextension : ({ config with rootPath := root } : Config).bareExtension =
      config.bareExtension := rfl
  rw [withExtension, withExtension, hextension]

end Specifier

/-- A directory and a specifier to look up from it. -/
structure Request where
  /-- The directory to search from. -/
  context : Path
  /-- The specifier to look up. -/
  specifier : String
  deriving Repr, DecidableEq

/-- The request that the value `raw` of an include directive in the file `issuer` stands for. -/
def Request.ofValue (raw : String) (issuer : Path) (config : Config) : Request :=
  let specifier := Specifier.withExtension (Specifier.clean raw) config
  match specifier.toList with
  -- The leading `./` keeps the specifier relative, whatever its rest is.
  | '/' :: rest => ⟨config.rootPath, String.ofList ('.' :: '/' :: rest.dropWhile (· == '/'))⟩
  | _ => ⟨issuer.parent?.getD config.rootPath, specifier⟩

end ShaderTemplate
