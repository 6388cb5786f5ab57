import ShaderTemplate.Host.Basic
import ShaderTemplate.Path.Normal

/-!
# Disks

A disk has a working directory, some files, and the contents of paths. Looking up a specifier takes
relative paths from the working directory and answers with an absolute path in normal form.
-/

namespace ShaderTemplate

/-- What the operating system tells about files. -/
structure Disk where
  /-- The absolute path that relative paths start from. -/
  workingDirectory : Path
  /-- The normal forms of absolute paths that lead to a file. -/
  files : List Path
  /-- The text of the file that a path leads to. -/
  contents : Path → Except ReadFault String

namespace Disk

/-- Decide whether a normal form leads to a file. -/
def isFile (disk : Disk) (path : Path) : Bool :=
  disk.files.any fun file => path.Same file

/-- Look up a specifier from a directory. -/
def resolve (disk : Disk) (context : Path) (specifier : String) : Except HostFault Path :=
  let candidate := (disk.workingDirectory.join (context.join ⟨specifier⟩)).normalize
  if disk.isFile candidate then .ok candidate else .error (.doesNotExist candidate)

/-- Read the text of a file. -/
def read (disk : Disk) (path : Path) : Except HostFault String :=
  (disk.contents path).mapError (.readFailed path)

theorem isFile_of_resolve {disk : Disk} {context path : Path} {specifier : String}
    (h : disk.resolve context specifier = .ok path) :
    path = (disk.workingDirectory.join (context.join ⟨specifier⟩)).normalize ∧
      disk.isFile path = true := by
  simp only [resolve] at h
  split at h
  next found =>
    obtain rfl := Except.ok.inj h
    exact ⟨rfl, found⟩
  · exact absurd h (by simp)

/-- The host that looks up and reads the files of a disk. -/
def host (disk : Disk) : Host where
  files := disk.files
  resolve := disk.resolve
  read := disk.read
  resolve_known h := by simpa [isFile] using (isFile_of_resolve h).2
  resolve_normal h := by rw [(isFile_of_resolve h).1, Path.normalize_normalize]

end Disk

end ShaderTemplate
