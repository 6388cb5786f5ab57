import ShaderTemplate.Parser.Balance

/-!
# Parsing shader text

A checked source is grouped into regions: directive lines, and the text between them. Each region
becomes a leaf of the tree, so writing the tree gives the source back.
-/

namespace ShaderTemplate

/-- Read a source text as a tree. -/
abbrev Parser : Type := String → Except SyntaxError Tree

/-- A directive line or the text up to the next one. -/
inductive Region where
  /-- Text without directive lines. -/
  | text (content : List Char)
  /-- The characters after the `#` of a directive line. -/
  | directive (line : List Char)
  deriving Repr, DecidableEq

namespace Region

/-- The characters of a region. -/
def content : Region → List Char
  | .text content => content
  | .directive line => '#' :: line

/-- Put text in front of regions, as part of the text that they start with. -/
def prepend (content : List Char) : List Region → List Region
  | .text more :: rest => .text (content ++ more) :: rest
  | regions => .text content :: regions

/-- Group tokens into regions. -/
def ofTokens : List Token → List Region
  | [] => []
  | .directive line :: rest => .directive line :: ofTokens rest
  | t :: rest => prepend t.text (ofTokens rest)

/-- Make a leaf of a region that starts at `position`. -/
def leaf (position : Position) : Region → Leaf
  | .text content => .text (String.ofList content)
  | .directive line =>
    .directive (DirectiveLine.read line ⟨position, position.advance ('#' :: line)⟩)

/-- Make a tree of regions, the first of which starts at `position`. -/
def tree (position : Position) : List Region → Tree
  | [] => .empty
  | region :: rest => .leaf (region.leaf position) (tree (position.advance region.content) rest)

theorem flatMap_content_prepend (content : List Char) (regions : List Region) :
    (prepend content regions).flatMap Region.content =
      content ++ regions.flatMap Region.content := by
  unfold prepend
  split <;> simp [Region.content]

/-- The regions of a list of tokens have its text. -/
theorem flatMap_content_ofTokens (tokens : List Token) :
    (ofTokens tokens).flatMap Region.content = tokens.flatMap Token.text := by
  fun_induction ofTokens tokens with
  | case1 => rfl
  | case2 line rest ih => simp [Region.content, Token.text, ih]
  | case3 t rest _ ih => rw [flatMap_content_prepend, ih, List.flatMap_cons]

/-- The text of a leaf is that of its region. -/
theorem toList_render_leaf (position : Position) (region : Region) :
    (region.leaf position).render.toList = region.content := by
  cases region <;> simp [leaf, Leaf.render, content, DirectiveLine.read]

/-- The text of a tree of regions is the text of the regions. -/
theorem toList_render_tree (position : Position) (regions : List Region) :
    (tree position regions).render.toList = regions.flatMap Region.content := by
  induction regions generalizing position with
  | nil => rfl
  | cons region rest ih =>
    rw [tree, Tree.render, String.toList_append, ih, toList_render_leaf, List.flatMap_cons]

end Region

/-- Check a source text. -/
def checkSource (source : List Char) : Except SyntaxError Unit :=
  (Balance.initial.run (Token.tokens true source)).bind Balance.finish

/-- Read a source text as texts and directives. -/
def parseChunk : Parser := fun source =>
  match checkSource source.toList with
  | .error e => .error e
  | .ok () => .ok (Region.tree .first (Region.ofTokens (Token.tokens true source.toList)))

/-- The tree of a source has its text. -/
theorem render_of_parseChunk {source : String} {t : Tree} (h : parseChunk source = .ok t) :
    t.render = source := by
  unfold parseChunk at h
  split at h
  · simp at h
  · obtain rfl := Except.ok.inj h
    rw [← String.toList_inj, Region.toList_render_tree, Region.flatMap_content_ofTokens,
      Token.text_tokens]

end ShaderTemplate
