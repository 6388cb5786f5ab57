import ShaderTemplate.Parser.Chunk

/-!
# Parsing sources of import lines

A second, simpler form of sources: a line that, trimmed, starts with `import` and a blank asks for
the file that the rest of it names, and any other line is text. A line that starts with `???` is
malformed.
-/

namespace ShaderTemplate.ImportLine

/-- Cut a source after each line feed. -/
def lines : List Char → List (List Char)
  | [] => []
  | c :: rest =>
    if c = '\n' then ['\n'] :: lines rest
    else match lines rest with
      | [] => [[c]]
      | line :: more => (c :: line) :: more

/-- The characters that an import line starts with. -/
def keyword : List Char := ['i', 'm', 'p', 'o', 'r', 't', ' ']

/-- The characters that a malformed line starts with. -/
def rejected : List Char := ['?', '?', '?']

/-- Read one line, which stands at `start`. -/
def leaf (start : Position) (line : List Char) : Leaf :=
  let trimmed := Text.trim line
  if keyword.isPrefixOf trimmed then
    .directive
      { name := "include"
        value := String.ofList (trimmed.drop keyword.length)
        raw := String.ofList line
        location := ⟨start, start.advance line⟩ }
  else .text (String.ofList line)

/-- Read the lines of a source, the first of which has the given number. -/
def treeOfLines (number : Nat) : List (List Char) → Except SyntaxError Tree
  | [] => .ok .empty
  | line :: rest =>
    if rejected.isPrefixOf line then
      .error ⟨.other "bad line", ⟨⟨number, 1⟩, ⟨number, 4⟩⟩⟩
    else (treeOfLines (number + 1) rest).map (.leaf (leaf ⟨number, 1⟩ line))

/-- Read a source of import lines. -/
def parse : Parser := fun source =>
  treeOfLines 1 (lines source.toList)

end ShaderTemplate.ImportLine
