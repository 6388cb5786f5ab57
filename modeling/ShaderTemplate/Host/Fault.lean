import ShaderTemplate.Path.Basic

/-!
# Faults of a host

A host that looks up or reads a file fails with a fault. Every fault has a kind, by which a caller
may tell faults apart, and a wording, in which a path stands as it is spelled.
-/

namespace ShaderTemplate

/-- Why the contents of a path cannot be had from a disk. -/
inductive ReadFault where
  /-- Nothing is there. -/
  | missing
  /-- A directory is there. -/
  | directory
  /-- The path goes through a file. -/
  | notDirectory
  /-- The bytes are not those of a text. -/
  | notText
  /-- The file may not be read. -/
  | denied
  deriving Repr, DecidableEq

/-- Word a fault of a disk. -/
def ReadFault.message : ReadFault → String
  | .missing => "No such file or directory (os error 2)"
  | .directory => "Is a directory (os error 21)"
  | .notDirectory => "Not a directory (os error 20)"
  | .notText => "stream did not contain valid UTF-8"
  | .denied => "Permission denied (os error 13)"

/-- Why a host cannot look up or read a file. -/
inductive HostFault where
  /-- The path is no file of a tree in memory. -/
  | notInTree (path : Path)
  /-- The path is no file of a disk. -/
  | doesNotExist (path : Path)
  /-- The file may not be read. -/
  | denied
  /-- The disk does not give the contents of the path. -/
  | readFailed (path : Path) (cause : ReadFault)
  /-- The path does not end in a file name. -/
  | notFilePath
  /-- A fault of another origin. -/
  | other (message : String)
  deriving Repr, DecidableEq

/-- The kinds of faults. -/
inductive FaultKind where
  | notFound
  | permissionDenied
  | invalidData
  | invalidInput
  | isDirectory
  | notDirectory
  | other
  deriving Repr, DecidableEq

namespace HostFault

/-- The kind of a fault. -/
def kind : HostFault → FaultKind
  | .notInTree _ | .doesNotExist _ | .readFailed _ .missing => .notFound
  | .denied | .readFailed _ .denied => .permissionDenied
  | .readFailed _ .directory => .isDirectory
  | .readFailed _ .notDirectory => .notDirectory
  | .readFailed _ .notText => .invalidData
  | .notFilePath => .invalidInput
  | .other _ => .other

/-- Word a fault. -/
def message : HostFault → String
  | .notInTree path => path.spelling ++ " is not in the file tree"
  | .doesNotExist path => path.spelling ++ " does not exist"
  | .denied => "denied"
  | .readFailed path cause =>
    "error reading \"" ++ path.spelling ++ "\": " ++ cause.message
  | .notFilePath => "not a file path"
  | .other message => message

end HostFault

end ShaderTemplate
