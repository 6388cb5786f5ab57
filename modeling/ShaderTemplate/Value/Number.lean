import ShaderTemplate.Decimal.Shortest

/-!
# Numbers in shader notation

A number with a fractional type is written with the fewest digits that read back, and always so that
it reads as fractional: with a point, or with an exponent. Magnitudes from `10 ^ -4` up to but not
including `10 ^ 16` are written positionally, the others with one digit before the point.
-/

namespace ShaderTemplate.Number

/-- The layout of a binary interchange format. -/
structure BinaryFormat where
  /-- The number of exponent bits. -/
  exponentBits : Nat
  /-- The number of mantissa bits that are stored. -/
  mantissaBits : Nat
  deriving Repr, DecidableEq

/-- What a bit pattern stands for. -/
inductive Magnitude where
  | zero
  | finite (value : Decimal.Binary)
  | infinite
  | notANumber
  deriving Repr, DecidableEq

namespace BinaryFormat

/-- The format with 32 bits. -/
def single : BinaryFormat := ⟨8, 23⟩

/-- The format with 64 bits. -/
def double : BinaryFormat := ⟨11, 52⟩

/-- The exponent of the last place of the smallest numbers. -/
def leastExponent (f : BinaryFormat) : Int :=
  2 - (Nat.pow 2 (f.exponentBits - 1) : Int) - f.mantissaBits

/-- Read a bit pattern, leaving its sign aside. -/
def magnitude (f : BinaryFormat) (bits : Nat) : Magnitude :=
  let unit := Nat.pow 2 f.mantissaBits
  let range := Nat.pow 2 f.exponentBits
  let fraction := bits % unit
  let exponent := bits / unit % range
  if exponent = range - 1 then
    if fraction = 0 then .infinite else .notANumber
  else if exponent = 0 then
    -- The smallest numbers have no leading bit that goes without saying.
    if fraction = 0 then .zero else .finite ⟨fraction, f.leastExponent, false⟩
  else
    .finite ⟨unit + fraction, f.leastExponent + (exponent - 1), fraction = 0⟩

/-- Read the sign of a bit pattern. -/
def isNegative (f : BinaryFormat) (bits : Nat) : Bool :=
  bits / Nat.pow 2 (f.mantissaBits + f.exponentBits) % 2 == 1

end BinaryFormat

/-- The least exponent of ten that is written positionally. -/
def leastPositional : Int := -4

/-- The least exponent of ten above those that are written positionally. -/
def positionalLimit : Int := 16

/-- Write digits with the point after the place of value `10 ^ exponent`. -/
def positional (digits : List Char) (exponent : Int) : List Char :=
  if exponent < 0 then '0' :: '.' :: List.replicate (-exponent - 1).toNat '0' ++ digits
  else
    -- The digits are filled up to the point, and one stands behind it at least.
    let whole := exponent.toNat + 1
    let padded := digits ++ List.replicate (whole - digits.length) '0'
    let fraction := padded.drop whole
    padded.take whole ++ '.' :: (if fraction = [] then ['0'] else fraction)

/-- Write digits with the point after the first of them, and the exponent of ten. -/
def scientific (digits : List Char) (exponent : Int) : List Char :=
  let mantissa := match digits with
    | first :: next :: more => first :: '.' :: next :: more
    | few => few
  mantissa ++ 'e' :: (toString exponent).toList

/-- Write a positive decimal. -/
def decimalText (d : Decimal.Numeral) : List Char :=
  let digits := Nat.toDigits 10 d.digits
  let leading := d.exponent + digits.length - 1
  if leastPositional ≤ leading ∧ leading < positionalLimit then positional digits leading
  else scientific digits leading

/-- Write the number that a bit pattern stands for. -/
def text (f : BinaryFormat) (bits : Nat) : String :=
  let sign := if f.isNegative bits then "-" else ""
  match f.magnitude bits with
  | .notANumber => "NaN"
  | .infinite => sign ++ "inf"
  | .zero => sign ++ "0.0"
  | .finite value => sign ++ String.ofList (decimalText value.shortest)

end ShaderTemplate.Number
