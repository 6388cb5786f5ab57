import ShaderTemplate.Value.Options

/-!
# Module scripts

This is what ECMAScript makes of a module of the form

    module.exports = opts => { const v = name => { if (!(name in opts)) throw new Error("…" + name);
    return opts[name]; }; return `…`; };

which stands on one line but for the line breaks of the template literal. A text of this form is
read as a `Script`: what the message of the error starts with, and the parts of the template
literal. A character of the literal is read as its cooked value: a backslash and what follows it
stand for one character or, in front of the end of a line, for none; a carriage return, with the
line feed that may follow it, is a line feed; `${` starts a substitution, and every other `$` stands
for itself. A substitution must call `v` with a string. Escapes of more than one character and
strings with escapes are not read.

A call of the exported function takes the parts from left to right. The operator `in` finds the
properties that an object inherits as well as its own, which come first when a property is read.
-/

namespace ShaderTemplate

/-- A part of a template literal. -/
inductive Part where
  /-- A character of the cooked value. -/
  | char (c : Char)
  /-- A substitution that calls `v` with a name. -/
  | call (name : String)
  deriving Repr, DecidableEq

/-- A module that exports a function from an object to a text. -/
structure Script where
  /-- What the message of the error of `v` starts with. -/
  message : String
  /-- The parts of the template literal. -/
  body : List Part
  deriving Repr, DecidableEq

/-- An object made by a literal: its own properties, and the text of what it inherits. -/
structure PlainObject where
  /-- The own properties, all of them strings. -/
  own : Options
  /-- The inherited properties as they are written in a template literal. -/
  inherited : String → Option String

namespace PlainObject

/-- Decide whether a name is `in` an object. -/
def has (object : PlainObject) (name : String) : Bool :=
  (object.own.get? name).isSome || (object.inherited name).isSome

/-- The text of the property of an object under a name. -/
def text (object : PlainObject) (name : String) : String :=
  ((object.own.get? name).or (object.inherited name)).getD "undefined"

end PlainObject

namespace Script

/-! ## Reading -/

/-- What follows the characters that a text must start with. -/
def after? (expected text : List Char) : Option (List Char) :=
  if expected.isPrefixOf text then some (text.drop expected.length) else none

/-- Decide whether a character stands for itself in a string. -/
def isStringChar (c : Char) : Bool :=
  c != '\x22' && c != '\\' && c != '\n' && c != '\r'

/-- Read the rest of a string behind its opening quote. -/
def readString? (text : List Char) : Option (String × List Char) :=
  (after? ['\x22'] (text.dropWhile isStringChar)).map fun rest =>
    (String.ofList (text.takeWhile isStringChar), rest)

/-- Read the rest of a substitution behind its opening brace. -/
def readCall? (text : List Char) : Option (String × List Char) := do
  let text ← after? ['v', '(', '\x22'] text
  let (name, text) ← readString? text
  let text ← after? [')', '\x7d'] text
  return (name, text)

/-- The characters that a backslash and a character stand for. -/
def escape? : Char → Option (List Char)
  -- The line goes on behind its end.
  | '\n' | '\r' | '\u2028' | '\u2029' => some []
  | 'b' => some ['\x08']
  | 't' => some ['\t']
  | 'n' => some ['\n']
  | 'v' => some ['\x0b']
  | 'f' => some ['\x0c']
  | 'r' => some ['\r']
  | c => if c.isDigit || c == 'x' || c == 'u' then none else some [c]

/-- Put parts in front of those that are read next. -/
def prepend (parts : List Part) (later : Option (List Part × List Char)) :
    Option (List Part × List Char) :=
  later.map fun read => (parts ++ read.1, read.2)

theorem length_lt_of_after? {c : Char} {expected text rest : List Char}
    (h : after? (c :: expected) text = some rest) : rest.length < text.length := by
  unfold after? at h
  split at h
  next hprefix =>
    obtain rfl := Option.some.inj h
    have := (List.isPrefixOf_iff_prefix.mp hprefix).length_le
    simp only [List.length_cons] at this
    simp only [List.length_drop, List.length_cons]
    omega
  · exact absurd h (by simp)

theorem length_lt_of_readCall? {text rest : List Char} {name : String}
    (h : readCall? text = some (name, rest)) : rest.length < text.length := by
  simp only [readCall?, readString?, Option.bind_eq_bind, Option.bind_eq_some_iff,
    Option.map_eq_some_iff, Option.pure_def, Option.some.injEq, Prod.exists, Prod.mk.injEq] at h
  obtain ⟨quoted, hquoted, -, behind, ⟨closed, hclosed, -, rfl⟩, after, hafter, -, rfl⟩ := h
  have hfirst := length_lt_of_after? hquoted
  have hsecond := length_lt_of_after? hclosed
  have hthird := length_lt_of_after? hafter
  have hdrop := (List.dropWhile_suffix isStringChar (l := quoted)).length_le
  omega

/-- Read the parts of a template literal up to its end, and what follows it. -/
def readLiteral? : List Char → Option (List Part × List Char)
  | [] => none
  | '\x60' :: rest => some ([], rest)
  | '\\' :: '\r' :: '\n' :: rest => readLiteral? rest
  | '\\' :: c :: rest =>
    (escape? c).bind fun cs => prepend (cs.map .char) (readLiteral? rest)
  | '$' :: '\x7b' :: rest =>
    match _h : readCall? rest with
    | none => none
    | some (name, after) => prepend [.call name] (readLiteral? after)
  | '\r' :: '\n' :: rest => prepend [.char '\n'] (readLiteral? rest)
  | '\r' :: rest => prepend [.char '\n'] (readLiteral? rest)
  | c :: rest => prepend [.char c] (readLiteral? rest)
termination_by text => text.length
decreasing_by
  all_goals simp only [List.length_cons]
  all_goals try omega
  have := length_lt_of_readCall? _h
  omega

/-- What stands before the message of the error. -/
def opening : String :=
  "module.exports = opts => \x7b const v = name => \x7b if (!(name in opts)) throw new Error(\""

/-- What stands between the message of the error and the template literal. -/
def middle : String := " + name); return opts[name]; \x7d; return `"

/-- What stands after the template literal. -/
def closing : String := "; \x7d;"

/-- Read a module. -/
def read? (source : String) : Option Script := do
  let text ← after? opening.toList source.toList
  let (message, text) ← readString? text
  let text ← after? middle.toList text
  let (body, text) ← readLiteral? text
  if text = closing.toList then return ⟨message, body⟩ else none

/-! ## Calling -/

/-- What `v` makes of a name: a text, or the message of an error. -/
def lookup (script : Script) (object : PlainObject) (name : String) : Except String String :=
  if object.has name then .ok (object.text name) else .error (script.message ++ name)

/-- The text of the parts of a template literal, or the message of the first error. -/
def write (script : Script) (object : PlainObject) : List Part → Except String String
  | [] => .ok ""
  | .char c :: rest => (script.write object rest).map (String.singleton c ++ ·)
  | .call name :: rest =>
    match script.lookup object name with
    | .error message => .error message
    | .ok text => (script.write object rest).map (text ++ ·)

/-- What the exported function makes of an object: a text, or the message of an error. -/
def call (script : Script) (object : PlainObject) : Except String String :=
  script.write object script.body

end Script

end ShaderTemplate
