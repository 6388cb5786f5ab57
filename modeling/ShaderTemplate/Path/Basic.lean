import ShaderTemplate.Text.Blank
import ShaderTemplate.Text.Pieces

/-!
# Paths

A path keeps the spelling it was given. What it leads to is told by its components: the root, a
leading `.`, `..`, and names. Repeated slashes, a trailing slash and a `.` after the first place
spell no component, so two paths are the same when their components agree, whatever their
spellings (`Path.Same`).

A spelling is a text. Bytes that are not the encoding of a text spell no path here.
-/

namespace ShaderTemplate

/-- One step of a path. -/
inductive Component where
  /-- Go to the root; only ever the first step. -/
  | root
  /-- Stay; only ever the first step of a relative path. -/
  | current
  /-- Go up. -/
  | parent
  /-- Go down to the entry called `text`. -/
  | name (text : String)
  deriving Repr, DecidableEq

/-- A path as it was spelled. -/
structure Path where
  /-- The spelling, its components separated by slashes. -/
  spelling : String
  deriving Repr, DecidableEq, Inhabited

namespace Component

/-- Read a piece between slashes; an empty piece and `.` spell no step. -/
def ofPiece? (piece : List Char) : Option Component :=
  if piece = [] ∨ piece = ['.'] then none
  else if piece = ['.', '.'] then some .parent
  else some (.name (String.ofList piece))

/-- Spell a step as a piece between slashes; the root is the empty piece before the first slash. -/
def piece : Component → List Char
  | .root => []
  | .current => ['.']
  | .parent => ['.', '.']
  | .name text => text.toList

end Component

namespace Path

/-- The pieces between the slashes of a path. -/
def pieces (p : Path) : List (List Char) :=
  Text.pieces '/' p.spelling.toList

/-- A path is absolute when it starts with a slash. -/
def isAbsolute (p : Path) : Bool :=
  p.spelling.toList.head? == some '/'

/-- Read the steps of a path from its pieces. The first piece is empty in an absolute path and in
the empty path, and only there may `.` be a step. -/
def componentsOfPieces : List (List Char) → List Component
  | [] => []
  | [first] => if first = ['.'] then [.current] else (Component.ofPiece? first).toList
  | first :: rest =>
    -- An empty first piece is what stands before the slash of an absolute path.
    let start :=
      if first = [] then [.root]
      else if first = ['.'] then [.current]
      else (Component.ofPiece? first).toList
    start ++ rest.filterMap Component.ofPiece?

/-- List the steps of a path. -/
def components (p : Path) : List Component :=
  componentsOfPieces p.pieces

/-- Two paths are the same when they take the same steps. -/
def Same (p q : Path) : Prop :=
  p.components = q.components

instance (p q : Path) : Decidable (p.Same q) :=
  inferInstanceAs (Decidable (p.components = q.components))

theorem Same.rfl {p : Path} : p.Same p := Eq.refl _

theorem Same.symm {p q : Path} (h : p.Same q) : q.Same p := Eq.symm h

theorem Same.trans {p q r : Path} (h : p.Same q) (h' : q.Same r) : p.Same r := Eq.trans h h'

/-- Spell a list of steps with single slashes. -/
def ofComponents (steps : List Component) : Path :=
  if steps = [.root] then ⟨"/"⟩
  else ⟨String.ofList (Text.joined '/' (steps.map Component.piece))⟩

/-- Append a path to a base. An absolute path replaces the base; otherwise a slash is put between
the two unless the base is empty or ends with one. -/
def join (base next : Path) : Path :=
  if next.isAbsolute then next
  else if base.spelling.toList.getLast?.all (· == '/') then ⟨base.spelling ++ next.spelling⟩
  else ⟨base.spelling ++ "/" ++ next.spelling⟩

/-- Drop the pieces at the end that spell no step. -/
def dropSilentEnd (pieces : List (List Char)) : List (List Char) :=
  Text.dropEndWhile (fun piece => (Component.ofPiece? piece).isNone) pieces

/-- The path without its last step, spelled as a first part of it; the root and the empty path have
none. -/
def parent? (p : Path) : Option Path :=
  match p.pieces with
  | [] => none
  | first :: rest =>
    match dropSilentEnd rest with
    | [] => if first = [] then none else some ⟨""⟩
    | kept =>
      -- The pieces before the dropped one may end in pieces that spell no step.
      let above := dropSilentEnd kept.dropLast
      if first = [] ∧ above = [] then some ⟨"/"⟩
      else some ⟨String.ofList (Text.joined '/' (first :: above))⟩

/-- The last step of a path, if it is a name. -/
def fileName? (p : Path) : Option String :=
  match p.components.getLast? with
  | some (.name text) => some text
  | _ => none

/-- The part of the file name after its last dot. A name without dots has no extension, and neither
has a name whose only dot is its first character. -/
def extension? (p : Path) : Option String :=
  p.fileName?.bind fun name =>
    match Text.pieces '.' name.toList with
    -- A name without dots, and one whose only dot comes first.
    | [] | [_] | [[], _] => none
    | parts => parts.getLast?.map String.ofList

end Path

end ShaderTemplate
