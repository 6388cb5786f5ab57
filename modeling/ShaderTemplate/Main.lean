import ShaderTemplate.CommandLine

/-!
# The program

A run of the program needs only the part of the disk that it looks at. It starts from a disk without
files. When it fails at a path that has not been looked at, the path is read and the program is run
again on the larger disk; each time one more path is known, and a run that fails at a known path or
succeeds is the run that counts.
-/

namespace ShaderTemplate.Program

/-- What has been found out about the disk. -/
structure Findings where
  /-- The working directory. -/
  workingDirectory : Path
  /-- The paths that were looked at, with their contents. -/
  contents : List (Path × Except ReadFault String)

/-- Say what is known of a path. -/
def Findings.contents? (findings : Findings) (path : Path) : Option (Except ReadFault String) :=
  (findings.contents.find? fun found => found.1 = path).map Prod.snd

/-- Decide whether there is a file, readable or not. -/
def isFound (contents : Except ReadFault String) : Bool :=
  match contents with
  | .ok _ | .error .notText | .error .denied => true
  | .error _ => false

/-- The disk as far as it is known. -/
def Findings.disk (findings : Findings) : Disk where
  workingDirectory := findings.workingDirectory
  files := (findings.contents.filter fun found => isFound found.2).map fun found => found.1
  contents path := (findings.contents? path).getD (.error .missing)

/-- The path at which a run failed. -/
def failedPath? : Error → Option Path
  | .notFound _ _ _ cause | .unreadable _ cause =>
    match cause with
    | .doesNotExist path | .readFailed path _ => some path
    | _ => none
  | _ => none

/-- The fault that an error of the operating system amounts to. -/
def faultOf : IO.Error → ReadFault
  | .permissionDenied .. => .denied
  | .inappropriateType _ code _ => if code = 21 then .directory else .notDirectory
  | _ => .missing

/-- Look at a path. -/
def inspect (path : Path) : IO (Except ReadFault String) := do
  match ← (IO.FS.readBinFile path.spelling).toBaseIO with
  | .error e => return .error (faultOf e)
  | .ok bytes =>
    match String.fromUTF8? bytes with
    | some text => return .ok text
    | none => return .error .notText

/-- Run the program, looking at the disk where a run needs it. -/
partial def execute (findings : Findings) (texts : List String) : IO CommandLine.Outcome := do
  let (outcome, error) := CommandLine.run findings.disk texts
  match error.bind failedPath? with
  | none => return outcome
  | some path =>
    if (findings.contents? path).isSome then
      return outcome
    let contents ← inspect path
    execute { findings with contents := (path, contents) :: findings.contents } texts

end ShaderTemplate.Program

/-- Run the program on the disk and print what it leaves behind. -/
def main (texts : List String) : IO UInt32 := do
  let directory ← IO.currentDir
  let outcome ← ShaderTemplate.Program.execute ⟨⟨directory.toString⟩, []⟩ texts
  (← IO.getStdout).putStr outcome.output
  (← IO.getStderr).putStr outcome.errors
  return outcome.code.toUInt32
