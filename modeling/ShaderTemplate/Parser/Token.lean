import ShaderTemplate.Source.SyntaxError
import ShaderTemplate.Text.Blank

/-!
# Tokens of shader text

A source is cut into comments, directive lines, line feeds, blanks, brackets and other characters.
A `#` starts a directive line only where nothing but blanks and comments came before it on its
line; a directive line ends before the line feed that no backslash precedes. The first token is
determined by the characters ahead and by whether the line is still fresh.

Main statement: the texts of the tokens, one after the other, are the source (`text_tokens`).
-/

namespace ShaderTemplate

/-- A piece of shader text. -/
inductive Token where
  /-- Two slashes and the characters after them up to the end of the line. -/
  | lineComment (body : List Char)
  /-- A comment between `/*` and `*/`. -/
  | blockComment (body : List Char)
  /-- A comment that starts with `/*` and does not end. -/
  | openComment (body : List Char)
  /-- The characters after the `#` of a directive line. -/
  | directive (line : List Char)
  /-- A line feed. -/
  | newline
  /-- A blank other than the line feed. -/
  | blank (c : Char)
  /-- An opening bracket. -/
  | opener (bracket : Bracket)
  /-- A closing bracket. -/
  | closer (bracket : Bracket)
  /-- Any other character. -/
  | other (c : Char)
  deriving Repr, DecidableEq

namespace Token

/-- The characters of a token. -/
def text : Token → List Char
  | .lineComment body => '/' :: '/' :: body
  | .blockComment body => '/' :: '*' :: body ++ ['*', '/']
  | .openComment body => '/' :: '*' :: body
  | .directive line => '#' :: line
  | .newline => ['\n']
  | .blank c => [c]
  | .opener bracket => [bracket.opener]
  | .closer bracket => [bracket.closer]
  | .other c => [c]

theorem text_ne_nil (t : Token) : t.text ≠ [] := by
  cases t <;> simp [text]

/-- Split the characters after `/*` at the first `*/`. -/
def splitComment? : List Char → Option (List Char × List Char)
  | [] => none
  | '*' :: '/' :: rest => some ([], rest)
  | c :: rest => (splitComment? rest).map fun parts => (c :: parts.1, parts.2)

theorem eq_append_of_splitComment? {source body rest : List Char}
    (h : splitComment? source = some (body, rest)) : source = body ++ '*' :: '/' :: rest := by
  fun_induction splitComment? source generalizing body rest with
  | case1 => simp at h
  | case2 tail => simp_all
  | case3 c tail _ ih =>
    obtain ⟨⟨inner, after⟩, hparts, heq⟩ := Option.map_eq_some_iff.mp h
    simp only [Prod.mk.injEq] at heq
    rw [← heq.1, ← heq.2, ih hparts, List.cons_append]

/-- Split a text before the first line feed that no backslash precedes. -/
def splitLine : List Char → List Char × List Char
  | [] => ([], [])
  | '\\' :: '\n' :: rest => ('\\' :: '\n' :: (splitLine rest).1, (splitLine rest).2)
  | c :: rest => if c = '\n' then ([], c :: rest) else (c :: (splitLine rest).1, (splitLine rest).2)

theorem splitLine_append (source : List Char) :
    (splitLine source).1 ++ (splitLine source).2 = source := by
  fun_induction splitLine source <;> simp_all

/-- Classify a character that starts neither a comment nor a directive line. -/
def ofChar (c : Char) : Token :=
  if c = '\n' then .newline
  else if Text.isBlank c then .blank c
  else match Bracket.ofOpener? c with
    | some bracket => .opener bracket
    | none =>
      match Bracket.ofCloser? c with
      | some bracket => .closer bracket
      | none => .other c

@[simp] theorem text_ofChar (c : Char) : (ofChar c).text = [c] := by
  unfold ofChar
  split
  · simp_all [text]
  · split
    · rfl
    · split
      next h => rw [text, Bracket.opener_of_ofOpener? h]
      · split
        next h => rw [text, Bracket.closer_of_ofCloser? h]
        · rfl

/-- Read the token at the front of `c :: rest` and what follows it. -/
def read (fresh : Bool) (c : Char) (rest : List Char) : Token × List Char :=
  match c, rest with
  | '/', '/' :: more => (.lineComment (more.takeWhile (· != '\n')), more.dropWhile (· != '\n'))
  | '/', '*' :: more =>
    match splitComment? more with
    | some (body, after) => (.blockComment body, after)
    | none => (.openComment more, [])
  | c, rest =>
    -- A `#` behind other characters of its line is a character like them.
    if c = '#' ∧ fresh = true then (.directive (splitLine rest).1, (splitLine rest).2)
    else (ofChar c, rest)

/-- The token at the front and what follows it are the source. -/
theorem text_read_append (fresh : Bool) (c : Char) (rest : List Char) :
    (read fresh c rest).1.text ++ (read fresh c rest).2 = c :: rest := by
  unfold read
  split
  · simp [text]
  · split
    next h => simp [text, eq_append_of_splitComment? h]
    · simp [text]
  · split
    next h => simp [text, splitLine_append, h.1]
    · simp

/-- After a line feed the line is fresh, a bracket or another character ends that, and the other
tokens leave it as it is. -/
def freshAfter (fresh : Bool) : Token → Bool
  | .newline => true
  | .opener _ | .closer _ | .other _ => false
  | _ => fresh

theorem length_read_lt (fresh : Bool) (c : Char) (rest : List Char) :
    (read fresh c rest).2.length < (c :: rest).length := by
  have h := congrArg List.length (text_read_append fresh c rest)
  have := List.length_pos_iff.mpr (read fresh c rest).1.text_ne_nil
  simp only [List.length_append] at h
  omega

/-- Cut a text into tokens; `fresh` tells whether its first line is. -/
def tokens (fresh : Bool) : List Char → List Token
  | [] => []
  | c :: rest =>
    let step := read fresh c rest
    step.1 :: tokens (step.1.freshAfter fresh) step.2
termination_by source => source.length
decreasing_by exact length_read_lt fresh c rest

@[simp] theorem tokens_nil (fresh : Bool) : tokens fresh [] = [] := by
  rw [tokens]

theorem tokens_cons (fresh : Bool) (c : Char) (rest : List Char) :
    tokens fresh (c :: rest) = (read fresh c rest).1 ::
      tokens ((read fresh c rest).1.freshAfter fresh) (read fresh c rest).2 := by
  rw [tokens]

/-- The tokens of a text are a cut of it. -/
theorem text_tokens (fresh : Bool) (source : List Char) :
    (tokens fresh source).flatMap text = source := by
  fun_induction tokens fresh source with
  | case1 => rfl
  | case2 fresh c rest step ih =>
    rw [List.flatMap_cons, ih]
    exact text_read_append fresh c rest

end Token

end ShaderTemplate
