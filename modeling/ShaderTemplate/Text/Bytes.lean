/-!
# Texts as bytes

The operating system keeps the name of a file as bytes, while a host is asked for a text. A text is
encoded in UTF-8. Bytes need not be the encoding of a text; what is ill-formed in them is replaced
when they are decoded, part by part: a part is as many bytes as some character starts with, or a
single byte that no character starts with.

Main statement: what is encoded is decoded to itself (`decodeLossy_encode`).
-/

namespace ShaderTemplate.Text

/-- Encode a text in UTF-8. -/
def encode (text : List Char) : List UInt8 :=
  text.flatMap String.utf8EncodeChar

/-- Decide whether a byte may stand behind the first two of a character. -/
def isContinuationByte (byte : UInt8) : Bool :=
  0x80 ≤ byte && byte ≤ 0xBF

/-- Decide whether some character starts with two bytes. The first of them limits the second where
it would spell a character in more bytes than needed, a surrogate, or a number above all of them. -/
def startsChar (first second : UInt8) : Bool :=
  if first = 0xE0 then 0xA0 ≤ second && second ≤ 0xBF
  else if first = 0xED then 0x80 ≤ second && second ≤ 0x9F
  else if first = 0xF0 then 0x90 ≤ second && second ≤ 0xBF
  else if first = 0xF4 then 0x80 ≤ second && second ≤ 0x8F
  else 0xC2 ≤ first && first ≤ 0xF4 && isContinuationByte second

/-- The number of bytes in the ill-formed part at the front of bytes that do not start with a
character. -/
def illFormedLength : List UInt8 → Nat
  | first :: second :: rest =>
    if startsChar first second then
      -- Behind a third byte the fourth is wrong, or else there would be a character.
      if (rest.head?.map isContinuationByte).getD false then 3 else 2
    else 1
  | _ => 1

/-- Decode bytes of which the first `skip` have been read. -/
def decodeBehind : (skip : Nat) → List UInt8 → List Char
  | _, [] => []
  | skip + 1, _ :: rest => decodeBehind skip rest
  | 0, first :: rest =>
    match (first :: rest).toByteArray.utf8DecodeChar? 0 with
    | some c => c :: decodeBehind (c.utf8Size - 1) rest
    | none => '\uFFFD' :: decodeBehind (illFormedLength (first :: rest) - 1) rest

/-- Decode bytes, each ill-formed part of them as a replacement character. -/
def decodeLossy (bytes : List UInt8) : List Char :=
  decodeBehind 0 bytes

/-- What has been read is skipped. -/
theorem decodeBehind_append (read rest : List UInt8) :
    decodeBehind read.length (read ++ rest) = decodeLossy rest := by
  induction read with
  | nil => rfl
  | cons byte read ih => exact ih

/-- A character is decoded from the bytes that it is encoded in. -/
theorem decodeLossy_utf8EncodeChar_append (c : Char) (rest : List UInt8) :
    decodeLossy (String.utf8EncodeChar c ++ rest) = c :: decodeLossy rest := by
  have hdecode : (String.utf8EncodeChar c ++ rest).toByteArray.utf8DecodeChar? 0 = some c := by
    rw [List.toByteArray_append]
    exact ByteArray.utf8DecodeChar?_utf8EncodeChar_append
  have hlength := String.length_utf8EncodeChar c
  have hpos := c.utf8Size_pos
  cases hbytes : String.utf8EncodeChar c with
  | nil =>
    rw [hbytes, List.length_nil] at hlength
    omega
  | cons first others =>
    rw [hbytes, List.length_cons] at hlength
    rw [hbytes, List.cons_append] at hdecode
    have hothers : c.utf8Size - 1 = others.length := by omega
    rw [List.cons_append, decodeLossy, decodeBehind, hdecode]
    show c :: decodeBehind (c.utf8Size - 1) (others ++ rest) = _
    rw [hothers, decodeBehind_append]

/-- The encoding of a text is decoded to the text. -/
theorem decodeLossy_encode (text : List Char) : decodeLossy (encode text) = text := by
  induction text with
  | nil => rfl
  | cons c text ih =>
    show decodeLossy (String.utf8EncodeChar c ++ encode text) = c :: text
    rw [decodeLossy_utf8EncodeChar_append, ih]

-- The beginnings of a character of three bytes and of one of four, and two bytes that start none.
example : decodeLossy [0xE2, 0x82, 0x41, 0xF0, 0x9F, 0x92, 0xFF, 0x80] =
    ['\uFFFD', 'A', '\uFFFD', '\uFFFD', '\uFFFD'] := by decide +kernel

end ShaderTemplate.Text
