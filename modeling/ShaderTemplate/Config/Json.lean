import ShaderTemplate.Config.Basic

/-!
# Reading configurations

A configuration is written as a JSON object with any of four keys, or as a JSON array of the values
of these keys in their order, of which the last ones may be missing. Only texts and truth values can
occur in either, so a source is cut into tokens of these and of punctuation, and every other value
is refused.
-/

namespace ShaderTemplate

/-- A token of a configuration text. -/
inductive ConfigToken where
  | objectStart
  | objectStop
  | arrayStart
  | arrayStop
  | colon
  | comma
  /-- A text, its escapes read. -/
  | text (content : String)
  /-- A truth value. -/
  | truth (value : Bool)
  deriving Repr, DecidableEq

namespace ConfigToken

/-- Decide whether a character is a blank between tokens. -/
def isBlank (c : Char) : Bool :=
  c == ' ' || c == '\t' || c == '\n' || c == '\r'

/-- Read a hexadecimal digit. -/
def hexDigit? (c : Char) : Option Nat :=
  if '0' ≤ c ∧ c ≤ '9' then some (c.toNat - '0'.toNat)
  else if 'a' ≤ c ∧ c ≤ 'f' then some (c.toNat - 'a'.toNat + 10)
  else if 'A' ≤ c ∧ c ≤ 'F' then some (c.toNat - 'A'.toNat + 10)
  else none

/-- Read the number of four hexadecimal digits. -/
def hexNumber? (a b c d : Char) : Option Nat := do
  let a ← hexDigit? a
  let b ← hexDigit? b
  let c ← hexDigit? c
  let d ← hexDigit? d
  return ((a * 16 + b) * 16 + c) * 16 + d

/-- Read an escape of one character. -/
def simpleEscape? (c : Char) : Option Char :=
  match c with
  | '\x22' | '\\' | '/' => some c
  | 'b' => some '\x08'
  | 'f' => some '\x0c'
  | 'n' => some '\n'
  | 'r' => some '\r'
  | 't' => some '\t'
  | _ => none

/-- Decide whether a number is the first half of a pair of UTF-16 units. -/
def isLeading (n : Nat) : Bool := 0xd800 ≤ n && n < 0xdc00

/-- Decide whether a number is the second half of a pair of UTF-16 units. -/
def isTrailing (n : Nat) : Bool := 0xdc00 ≤ n && n < 0xe000

/-- The number of the character that a pair of UTF-16 units stands for. -/
def ofPair (leading trailing : Nat) : Nat :=
  0x10000 + (leading - 0xd800) * 0x400 + (trailing - 0xdc00)

/-- Put a character in front of a text that was read. -/
def push (c : Char) (read : Option (List Char × List Char)) : Option (List Char × List Char) :=
  read.map fun parts => (c :: parts.1, parts.2)

/-- Read the rest of a text after its opening quote, and what follows its closing quote. Control
characters, unknown escapes and halves of pairs are refused. -/
def readText? : List Char → Option (List Char × List Char)
  | [] => none
  | '\x22' :: rest => some ([], rest)
  | '\\' :: 'u' :: a :: b :: c :: d :: '\\' :: 'u' :: e :: f :: g :: h :: rest =>
    match hexNumber? a b c d with
    | none => none
    | some unit =>
      if isLeading unit then
        match hexNumber? e f g h with
        | none => none
        | some other =>
          if isTrailing other then push (Char.ofNat (ofPair unit other)) (readText? rest) else none
      else if isTrailing unit then none
      -- The escape stands for a character by itself, and the next one is read anew.
      else push (Char.ofNat unit) (readText? ('\\' :: 'u' :: e :: f :: g :: h :: rest))
  | '\\' :: 'u' :: a :: b :: c :: d :: rest =>
    match hexNumber? a b c d with
    | none => none
    | some unit =>
      if isLeading unit || isTrailing unit then none
      else push (Char.ofNat unit) (readText? rest)
  | '\\' :: c :: rest =>
    match simpleEscape? c with
    | none => none
    | some plain => push plain (readText? rest)
  | c :: rest => if c.toNat < 0x20 || c == '\\' then none else push c (readText? rest)

theorem length_lt_of_readText? {source text rest : List Char}
    (h : readText? source = some (text, rest)) : rest.length < source.length := by
  fun_induction readText? source generalizing text rest <;>
    simp_all only [push, Option.map_eq_some_iff, Prod.exists, Prod.mk.injEq, List.length_cons,
      reduceCtorEq, Option.some.injEq] <;> grind

/-- Read the punctuation mark of a character. -/
def punctuation? (c : Char) : Option ConfigToken :=
  match c with
  | '\x7b' => some .objectStart
  | '\x7d' => some .objectStop
  | '[' => some .arrayStart
  | ']' => some .arrayStop
  | ':' => some .colon
  | ',' => some .comma
  | _ => none

/-- Cut a source into tokens, blanks between them being dropped. -/
def tokens? : List Char → Option (List ConfigToken)
  | [] => some []
  | 't' :: 'r' :: 'u' :: 'e' :: rest => (tokens? rest).map (.truth true :: ·)
  | 'f' :: 'a' :: 'l' :: 's' :: 'e' :: rest => (tokens? rest).map (.truth false :: ·)
  | '\x22' :: rest =>
    match _h : readText? rest with
    | none => none
    | some (content, after) => (tokens? after).map (.text (String.ofList content) :: ·)
  | c :: rest =>
    if isBlank c then tokens? rest
    else match punctuation? c with
      | none => none
      | some mark => (tokens? rest).map (mark :: ·)
termination_by source => source.length
decreasing_by
  all_goals simp only [List.length_cons]
  · omega
  · omega
  · have := length_lt_of_readText? _h
    omega
  · omega
  · omega

end ConfigToken

namespace Config

/-- The keys that a configuration may set. -/
inductive Key where
  | rootPath
  | chunkExtension
  | marker
  | downlevel
  deriving Repr, DecidableEq

/-- Read the name of a key. -/
def Key.ofName? (name : String) : Option Key :=
  if name = "rootPath" then some .rootPath
  else if name = "chunkExtension" then some .chunkExtension
  else if name = "variableMarkerPrefix" then some .marker
  else if name = "downlevelCompile" then some .downlevel
  else none

/-- Set the value of a key, which must be of its type. -/
def setKey? (config : Config) (key : Key) (value : ConfigToken) : Option Config :=
  match key, value with
  | .rootPath, .text content => some { config with rootPath := ⟨content⟩ }
  | .chunkExtension, .text content => some { config with chunkExtension := content }
  | .marker, .text content => some { config with marker := content }
  | .downlevel, .truth value => some { config with downlevel := value }
  | _, _ => none

/-- Read the fields of an object up to its end; `seen` lists the keys before. No key may come
twice. -/
def readFields? (config : Config) (seen : List Key) : List ConfigToken → Option Config
  | .text name :: .colon :: value :: next :: rest =>
    match Key.ofName? name with
    | none => none
    | some key =>
      if key ∈ seen then none
      else match config.setKey? key value with
        | none => none
        | some config =>
          match next, rest with
          | .objectStop, [] => some config
          | .comma, _ => config.readFields? (key :: seen) rest
          | _, _ => none
  | _ => none

/-- Read the elements of an array up to its end, as the values of the keys in order. -/
def readElements? (config : Config) : List Key → List ConfigToken → Option Config
  | key :: keys, value :: next :: rest =>
    match config.setKey? key value with
    | none => none
    | some config =>
      match next, rest with
      | .arrayStop, [] => some config
      | .comma, _ => config.readElements? keys rest
      | _, _ => none
  | _, _ => none

/-- Read a configuration from tokens. -/
def ofTokens? : List ConfigToken → Option Config
  | [.objectStart, .objectStop] => some {}
  | [.arrayStart, .arrayStop] => some {}
  | .objectStart :: rest => readFields? {} [] rest
  | .arrayStart :: rest => readElements? {} [.rootPath, .chunkExtension, .marker, .downlevel] rest
  | _ => none

/-- Read a configuration from its text. -/
def ofJson (source : String) : Except ConfigFault Config :=
  match (ConfigToken.tokens? source.toList).bind ofTokens? with
  | none => .error .malformed
  | some config =>
    match config.fault? with
    | some fault => .error fault
    | none => .ok config

/-- A configuration that was read is usable. -/
theorem usable_of_ofJson {source : String} {config : Config} (h : ofJson source = .ok config) :
    config.Usable := by
  unfold ofJson at h
  split at h
  · exact absurd h (by simp)
  · split at h
    · exact absurd h (by simp)
    next hfault => exact Except.ok.inj h ▸ hfault

end Config

end ShaderTemplate
