import ShaderTemplate.Host.Fault
import ShaderTemplate.Path.Normal

/-!
# Hosts

A host finds and reads the files of a compilation. It knows finitely many files, so that no
expansion goes on for ever. A read may take some turns, during which other reads go on; how many
is part of the host, so the order in which reads end is a function of it.
-/

namespace ShaderTemplate

/-- The files that a compilation may use. -/
structure Host where
  /-- The paths of the files that a look-up may find. -/
  files : List Path
  /-- Look up a specifier from a directory. -/
  resolve : (context : Path) → (specifier : String) → Except HostFault Path
  /-- Read the text of a file. -/
  read : Path → Except HostFault String
  /-- How many turns the end of a read is put off. -/
  delay : Path → Nat := fun _ => 0
  /-- A look-up finds nothing but the files that the host knows. -/
  resolve_known : ∀ {context specifier path}, resolve context specifier = .ok path →
    ∃ file ∈ files, path.Same file
  /-- A look-up answers in normal form. -/
  resolve_normal : ∀ {context specifier path}, resolve context specifier = .ok path →
    path.normalize = path

namespace Host

/-- Refuse to read some files. -/
def denying (host : Host) (paths : List Path) : Host where
  files := host.files
  resolve := host.resolve
  read path := if paths.any fun p => path.Same p then .error .denied else host.read path
  delay := host.delay
  resolve_known := host.resolve_known
  resolve_normal := host.resolve_normal

/-- Put off the reads of some files by the given numbers of turns, the last one given for a file
being the one that counts. -/
def delaying (host : Host) (delays : List (Path × Nat)) : Host where
  files := host.files
  resolve := host.resolve
  read := host.read
  delay path :=
    ((delays.reverse.find? fun entry => path.Same entry.1).map Prod.snd).getD (host.delay path)
  resolve_known := host.resolve_known
  resolve_normal := host.resolve_normal

@[simp] theorem resolve_denying (host : Host) (paths : List Path) :
    (host.denying paths).resolve = host.resolve := rfl

@[simp] theorem resolve_delaying (host : Host) (delays : List (Path × Nat)) :
    (host.delaying delays).resolve = host.resolve := rfl

@[simp] theorem read_delaying (host : Host) (delays : List (Path × Nat)) :
    (host.delaying delays).read = host.read := rfl

/-- The last delay given for a file counts, whichever way its path is spelled. -/
theorem delay_delaying_concat (host : Host) (delays : List (Path × Nat)) {path : Path}
    {entry : Path × Nat} (same : path.Same entry.1) :
    (host.delaying (delays ++ [entry])).delay path = entry.2 := by
  simp [delaying, same]

end Host

end ShaderTemplate
