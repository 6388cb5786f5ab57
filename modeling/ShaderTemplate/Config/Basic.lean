import ShaderTemplate.Path.Basic
import ShaderTemplate.Text.Alphanumeric
import ShaderTemplate.Text.Blank

/-!
# Configurations

A configuration is fixed for a whole compilation. It is usable when its marker can start a variable
and its extension can be appended to a file name (`Config.Usable`).
-/

namespace ShaderTemplate

/-- What a compilation may be told. -/
structure Config where
  /-- The directory at which included paths that start with a slash are anchored. -/
  rootPath : Path := ⟨"/"⟩
  /-- The extension of included paths that name none. -/
  chunkExtension : String := "glsl"
  /-- The text that marks a variable. -/
  marker : String := "$"
  /-- Whether an emitted module goes through a downleveling transform. -/
  downlevel : Bool := false
  deriving Repr, DecidableEq, Inhabited

/-- What is wrong with a configuration. -/
inductive ConfigFault where
  /-- The marker is empty. -/
  | emptyMarker
  /-- The marker could be the end of a name. -/
  | nameMarker (marker : String)
  /-- The extension cannot be one of a file. -/
  | badExtension (extension : String)
  /-- The text is not that of a configuration. -/
  | malformed
  /-- A transform is asked for and there is none. -/
  | missingTransform
  /-- A fault of another origin. -/
  | other (message : String)
  deriving Repr, DecidableEq

/-- Word a fault. -/
def ConfigFault.message : ConfigFault → String
  | .emptyMarker => "variable marker prefix is empty"
  | .nameMarker marker =>
    "variable marker prefix `" ++ marker ++ "` starts with an identifier character"
  | .badExtension extension => "`" ++ extension ++ "` is not a valid chunk extension"
  | .malformed => "the text is not a configuration"
  | .missingTransform => "downlevel compilation requested but no transform was supplied"
  | .other message => message

namespace Config

/-- Decide whether a character may continue a name in some script. -/
def isNameChar (c : Char) : Bool :=
  Text.isAlphanumeric c || c == '_'

/-- The extension without the dots at its start. -/
def bareExtension (config : Config) : String :=
  String.ofList (config.chunkExtension.toList.dropWhile (· == '.'))

/-- What makes a configuration unusable; the marker is looked at first. -/
def fault? (config : Config) : Option ConfigFault :=
  match config.marker.toList with
  | [] => some .emptyMarker
  | c :: _ =>
    if isNameChar c then some (.nameMarker config.marker)
    else
      let extension := config.bareExtension.toList
      if extension = [] ∨ extension.any (fun c => c == '/' || c == '\\') then
        some (.badExtension config.chunkExtension)
      else none

/-- A configuration that a compilation accepts. -/
def Usable (config : Config) : Prop :=
  config.fault? = none

instance (config : Config) : Decidable config.Usable :=
  inferInstanceAs (Decidable (config.fault? = none))

/-- The default configuration is usable. -/
theorem usable_default : Usable {} := by
  decide +kernel

end Config

end ShaderTemplate
