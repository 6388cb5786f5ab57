import ShaderTemplate.Host.Disk

/-!
# Volumes

A volume is a tree of directories and files, given by the entries below its root. A path is walked
entry by entry: every step must start in a directory, `..` leads to the directory above, and a path
that ends in a slash or in `/.` must lead to a directory. A volume is filled by writing files one
after the other; the directories on the way to a file are made with it.
-/

namespace ShaderTemplate

/-- What may stand in a directory. -/
inductive Entry where
  /-- A file with its bytes. -/
  | file (bytes : ByteArray)
  /-- A directory. -/
  | directory

/-- A tree of directories and files. -/
structure Volume where
  /-- The entries, each under the names that lead to it from the root. The directories above an
  entry need not be listed. -/
  entries : List (List String × Entry)
  /-- The names that lead from the root to the working directory. -/
  workingDirectory : List String

namespace Volume

/-- The entry that names lead to from the root. -/
def entry? (volume : Volume) (names : List String) : Option Entry :=
  match volume.entries.find? fun entry => entry.1 = names with
  | some entry => some entry.2
  | none =>
    if names = [] ∨ volume.entries.any fun entry => names.isPrefixOf entry.1 then some .directory
    else none

/-- Decide whether names lead to a directory. -/
def isDirectory (volume : Volume) (names : List String) : Bool :=
  match volume.entry? names with
  | some .directory => true
  | _ => false

/-- The names that lead to where one step goes from the place that `here` leads to. -/
def place (here : List String) : Component → List String
  | .root => []
  | .current => here
  -- The root is the directory above itself.
  | .parent => here.dropLast
  | .name text => here ++ [text]

/-- Walk the steps of a path from the place that `here` leads to. -/
def walk (volume : Volume) (here : List String) : List Component → Except ReadFault (List String)
  | [] => .ok here
  | step :: rest =>
    -- Even `..` needs a directory to start from.
    if volume.isDirectory here then
      let next := place here step
      if (volume.entry? next).isSome then volume.walk next rest else .error .missing
    else .error .notDirectory

/-- Decide whether a path must lead to a directory because of how it is spelled. -/
def mustBeDirectory (path : Path) : Bool :=
  match path.pieces with
  | [] | [_] => false
  | pieces => (pieces.getLast?.bind Component.ofPiece?).isNone

/-- The text of the file that a path leads to. -/
def contents (volume : Volume) (path : Path) : Except ReadFault String :=
  if path.spelling = "" then .error .missing
  else
    match volume.walk volume.workingDirectory path.components with
    | .error fault => .error fault
    | .ok names =>
      match volume.entry? names with
      | none => .error .missing
      | some .directory => .error .directory
      | some (.file bytes) =>
        if mustBeDirectory path then .error .notDirectory
        else
          match String.fromUTF8? bytes with
          | some text => .ok text
          | none => .error .notText

/-! ## Filling a volume -/

/-- The volume that holds nothing but its working directory. -/
def empty (workingDirectory : List String) : Volume :=
  ⟨[(workingDirectory, .directory)], workingDirectory⟩

/-- Make a directory at a place where nothing stands yet. -/
def addDirectory (volume : Volume) (names : List String) : Volume :=
  if (volume.entry? names).isSome then volume
  else { volume with entries := (names, .directory) :: volume.entries }

/-- Follow the steps of a path from the place that `here` leads to and make every directory on the
way that is missing; the names of the last place come with the volume. -/
def makeWay (volume : Volume) (here : List String) : List Component → Volume × List String
  | [] => (volume, here)
  | step :: rest =>
    let next := place here step
    (volume.addDirectory next).makeWay next rest

/-- Make the directory that a path leads to. -/
def makeDirectory (volume : Volume) (path : Path) : Volume :=
  (volume.makeWay volume.workingDirectory path.components).1

/-- Write a file under a path, in place of the file that may be there. -/
def write (volume : Volume) (path : Path) (bytes : ByteArray) : Volume :=
  let (onTheWay, here) := volume.makeWay volume.workingDirectory path.components.dropLast
  match path.fileName? with
  | none => onTheWay
  | some name =>
    let names := here ++ [name]
    let others := onTheWay.entries.filter fun entry => entry.1 ≠ names
    { onTheWay with entries := (names, .file bytes) :: others }

/-! ## The disk of a volume -/

/-- The absolute path of names. -/
def absolute (names : List String) : Path :=
  Path.ofComponents (.root :: names.map .name)

/-- The same path with a `..` at the root, which stays there. -/
def absoluteAbove (names : List String) : Path :=
  Path.ofComponents (.root :: .parent :: names.map .name)

/-- The disk that a volume is. -/
def disk (volume : Volume) : Disk where
  workingDirectory := absolute volume.workingDirectory
  files := volume.entries.flatMap fun entry =>
    match entry.2 with
    -- A look-up of more `..` than there are directories leads to the second spelling.
    | .file _ => [absolute entry.1, absoluteAbove entry.1]
    | .directory => []
  contents := volume.contents

end Volume

end ShaderTemplate
