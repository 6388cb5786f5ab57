import ShaderTemplate.Value.Number

/-!
# Values in shader notation

A value is written as shader source. Text stands for itself, an unsigned number of 32 bits has the
suffix `u`, and a vector is written as its constructor.
-/

namespace ShaderTemplate

/-- A value that may be substituted for a variable. -/
inductive Value where
  /-- Source text. -/
  | text (content : String)
  /-- An integer of any type but the unsigned one with 32 bits. -/
  | integer (value : Int)
  /-- An unsigned integer with 32 bits. -/
  | word (value : UInt32)
  /-- A truth value. -/
  | truth (value : Bool)
  /-- A number with 32 bits. -/
  | single (bits : UInt32)
  /-- A number with 64 bits. -/
  | double (bits : UInt64)
  /-- A vector of numbers with 32 bits. -/
  | singles (components : List UInt32)
  /-- A vector of integers. -/
  | integers (components : List Int)
  /-- A vector of unsigned integers. -/
  | words (components : List UInt32)
  /-- A vector of truth values. -/
  | truths (components : List Bool)
  deriving Repr, DecidableEq

namespace Value

/-- Write an unsigned integer. -/
def wordText (value : UInt32) : String :=
  toString value.toNat ++ "u"

/-- Write a truth value. -/
def truthText (value : Bool) : String :=
  if value then "true" else "false"

/-- Write a number with 32 bits. -/
def singleText (bits : UInt32) : String :=
  Number.text .single bits.toNat

/-- Write the constructor of a vector whose type starts with `kind`. -/
def vectorText (kind : String) (components : List String) : String :=
  kind ++ "vec" ++ toString components.length ++ "(" ++ ", ".intercalate components ++ ")"

/-- Write a value as shader source. -/
def render : Value → String
  | .text content => content
  | .integer value => toString value
  | .word value => wordText value
  | .truth value => truthText value
  | .single bits => singleText bits
  | .double bits => Number.text .double bits.toNat
  | .singles components => vectorText "" (components.map singleText)
  | .integers components => vectorText "i" (components.map fun value => toString value)
  | .words components => vectorText "u" (components.map wordText)
  | .truths components => vectorText "b" (components.map truthText)

end Value

end ShaderTemplate
