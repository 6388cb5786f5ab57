import ShaderTemplate.Error
import ShaderTemplate.Host.Basic
import ShaderTemplate.Include.Request
import ShaderTemplate.Log

/-!
# Resolving included files

Resolving turns the value of an include directive into the path of a file, by asking the host for
what the value requests.
-/

namespace ShaderTemplate

/-- Find the file that the value `raw` of an include directive in the file `issuer` names. -/
def resolve (host : Host) (raw : String) (issuer : Path) (config : Config) : Except Error Path :=
  let request := Request.ofValue raw issuer config
  match host.resolve request.context request.specifier with
  | .ok path => .ok path
  | .error cause => .error (.notFound (Specifier.clean raw) request.context issuer cause)

/-- The note of a resolution. -/
def resolvingNote (raw : String) (issuer : Path) (config : Config) : Note :=
  let request := Request.ofValue raw issuer config
  .resolving request.specifier request.context issuer

/-- Resolving finds nothing but files of the host. -/
theorem exists_same_of_resolve {host : Host} {raw : String} {issuer path : Path} {config : Config}
    (h : resolve host raw issuer config = .ok path) : ∃ file ∈ host.files, path.Same file := by
  simp only [resolve] at h
  split at h
  next found hfound =>
    obtain rfl := Except.ok.inj h
    exact host.resolve_known hfound
  · exact absurd h (by simp)

/-- Resolving answers in normal form. -/
theorem normalize_of_resolve {host : Host} {raw : String} {issuer path : Path} {config : Config}
    (h : resolve host raw issuer config = .ok path) : path.normalize = path := by
  simp only [resolve] at h
  split at h
  next found hfound =>
    obtain rfl := Except.ok.inj h
    exact host.resolve_normal hfound
  · exact absurd h (by simp)

end ShaderTemplate
