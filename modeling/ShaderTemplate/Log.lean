import ShaderTemplate.Path.Basic

/-!
# The log of a compilation

A compilation notes what it does. Each note knows the stage that made it, how fine-grained it is,
and its wording. `Traced` carries the notes of a computation beside its outcome; what a computation
notes never changes its outcome (`Traced.outcome_bind`).
-/

namespace ShaderTemplate

/-- How fine-grained a note is. -/
inductive Detail where
  | debug
  | trace
  deriving Repr, DecidableEq

/-- How much of the log is wanted. -/
inductive Verbosity where
  | off
  | error
  | warn
  | info
  | debug
  | trace
  deriving Repr, DecidableEq

/-- Decide whether a note is wanted. -/
def Verbosity.admits : Verbosity → Detail → Bool
  | .trace, _ => true
  | .debug, .debug => true
  | _, _ => false

/-- The stages of a compilation that make notes. -/
inductive Stage where
  | compiler
  | expansion
  | resolution
  | template
  deriving Repr, DecidableEq

/-- A note of what a compilation did. -/
inductive Note where
  /-- A pass over `file` found `count` directives to replace. -/
  | passStarted (file : Path) (number count : Nat)
  /-- An included path is being looked up. -/
  | resolving (specifier : String) (context issuer : Path)
  /-- An included file was read. -/
  | included (path issuer : Path) (bytes : Nat)
  /-- The expanded text was cut into segments. -/
  | segmented (count : Nat) (marker : String)
  /-- A compilation came to its end. -/
  | compiled (file : Path) (dependencies variableCount : Nat)
  deriving Repr, DecidableEq

namespace Note

/-- How fine-grained a note is. -/
def detail : Note → Detail
  | .passStarted .. | .included .. | .compiled .. => .debug
  | .resolving .. | .segmented .. => .trace

/-- The stage that makes a note. -/
def stage : Note → Stage
  | .passStarted .. | .included .. => .expansion
  | .resolving .. => .resolution
  | .segmented .. => .template
  | .compiled .. => .compiler

/-- Word a note. -/
def message : Note → String
  | .passStarted file number count =>
    file.spelling ++ ": include pass " ++ toString number ++ " found " ++ toString count ++
      " includes"
  | .resolving specifier context issuer =>
    "resolving `" ++ specifier ++ "` from " ++ context.spelling ++ " for " ++ issuer.spelling
  | .included path issuer bytes =>
    "included " ++ path.spelling ++ " from " ++ issuer.spelling ++ " (" ++ toString bytes ++
      " bytes)"
  | .segmented count marker =>
    "compiled template with " ++ toString count ++ " segments, marker prefix `" ++ marker ++ "`"
  | .compiled file dependencyCount variableCount =>
    "compiled " ++ file.spelling ++ " with " ++ toString dependencyCount ++ " dependencies and " ++
      toString variableCount ++ " variables"

end Note

/-- The notes of a computation and its outcome. -/
structure Traced (ε α : Type) where
  /-- The notes in the order in which they were made. -/
  log : List Note
  /-- What the computation came to. -/
  outcome : Except ε α

namespace Traced

variable {ε α β : Type}

/-- Go on with the outcome of a computation; the notes of a failed computation are kept. -/
def bind (x : Traced ε α) (f : α → Traced ε β) : Traced ε β :=
  match x.outcome with
  | .error e => ⟨x.log, .error e⟩
  | .ok a => ⟨x.log ++ (f a).log, (f a).outcome⟩

/-- Make a note after a computation that succeeded. -/
def noting (x : Traced ε α) (note : α → Note) : Traced ε α :=
  x.bind fun a => ⟨[note a], .ok a⟩

/-- The outcome does not depend on the notes. -/
theorem outcome_bind (x : Traced ε α) (f : α → Traced ε β) :
    (x.bind f).outcome = x.outcome.bind fun a => (f a).outcome := by
  unfold bind
  cases x.outcome <;> rfl

@[simp] theorem outcome_noting (x : Traced ε α) (note : α → Note) :
    (x.noting note).outcome = x.outcome := by
  rw [noting, outcome_bind]
  cases x.outcome <;> rfl

end Traced

end ShaderTemplate
