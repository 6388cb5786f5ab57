import ShaderTemplate.Proofs.Parser.Boundary
import ShaderTemplate.Proofs.Parser.Nesting
import ShaderTemplate.Proofs.Parser.Regions

/-!
# Directives and comments

`CommentMode` follows the comments of a text by its characters alone, without regard to tokens. The
quoted or angled part at the start of the value of a directive is passed over, and everything else
is read in the same way on the lines of directives as between them.

A directive ends with its line even where a comment was opened on it with `/*`, so directives and
comments may overlap (`not_commentsApart_openedOnLine`). This is the only way: no directive of a
source begins in a comment or ends in one that started with `/*`, if and only if every directive
closes such comments on its own line (`commentsApart_iff`). Both readings of a text agree as long
as no comment is left open between two tokens (`CommentMode.Calm`).
-/

namespace ShaderTemplate

/-! ## Modes -/

/-- What the next character of a text is part of. -/
inductive CommentMode where
  /-- Code. -/
  | code
  /-- Code behind a slash, where a comment may start. -/
  | slash
  /-- A comment of two slashes. -/
  | lineComment
  /-- A comment that started with `/*`. -/
  | blockComment
  /-- A comment that started with `/*`, behind a star. -/
  | star
  deriving Repr, DecidableEq

namespace CommentMode

/-- Step over a character. -/
def next : CommentMode → Char → CommentMode
  | .code, c => if c = '/' then .slash else .code
  | .slash, c => if c = '/' then .lineComment else if c = '*' then .blockComment else .code
  | .lineComment, c => if c = '\n' then .code else .lineComment
  | .blockComment, c => if c = '*' then .star else .blockComment
  | .star, c => if c = '/' then .code else if c = '*' then .star else .blockComment

/-- Step over a text. -/
def scan (m : CommentMode) (text : List Char) : CommentMode :=
  text.foldl next m

/-- Decide whether a comment that started with `/*` is open. -/
def inBlock : CommentMode → Bool
  | .blockComment | .star => true
  | _ => false

/-- Decide whether a comment is open. -/
def inComment (m : CommentMode) : Bool :=
  m = .lineComment || m.inBlock

end CommentMode

namespace DirectiveLine

/-- Drop blanks at the start, continued line breaks included. -/
def dropBlanks : List Char → List Char
  | '\\' :: '\n' :: rest => dropBlanks rest
  | c :: rest => if Text.isBlank c then dropBlanks rest else c :: rest
  | [] => []

/-- What stands on a directive line behind the quoted or angled part at the start of its value. -/
def behindDelimited (line : List Char) : List Char :=
  (splitDelimited (dropBlanks ((dropBlanks line).dropWhile isNameChar))).2

end DirectiveLine

namespace CommentMode

/-- Step over the line of a directive. A quoted or angled part at the start of its value is passed
over unless it stands in a comment. -/
def scanLine (m : CommentMode) (line : List Char) : CommentMode :=
  if m.inComment then m.scan ('#' :: line) else code.scan (DirectiveLine.behindDelimited line)

/-- Step over a node of a tree. -/
def scanNode (m : CommentMode) : Node → CommentMode
  | .leaf (.text content) => m.scan content.toList
  | .leaf (.directive d) => m.scanLine d.raw.toList.tail
  | .chunk _ inner => m.scan inner.render.toList

/-- The mode behind the first nodes of a tree. -/
def behind (nodes : List Node) : CommentMode :=
  nodes.foldl scanNode .code

end CommentMode

/-- No directive of a tree begins in a comment, and none ends in one that started with `/*`. -/
def Tree.CommentsApart (t : Tree) : Prop :=
  ∀ before d after, t.toList = before ++ .leaf (.directive d) :: after →
    (CommentMode.behind before).inComment = false ∧
      (CommentMode.behind (before ++ [.leaf (.directive d)])).inBlock = false

/-- Every comment that starts with `/*` on the line of a directive ends on this line. -/
def Directive.ClosesComments (d : Directive) : Prop :=
  (CommentMode.code.scanLine d.raw.toList.tail).inBlock = false

instance (d : Directive) : Decidable d.ClosesComments :=
  inferInstanceAs (Decidable (_ = _))

namespace CommentMode

variable {m : CommentMode} {text rest : List Char}

/-- Outside comments the line of a directive is read in one way. -/
theorem scanLine_of_inComment (h : m.inComment = false) (line : List Char) :
    m.scanLine line = code.scanLine line := by
  rw [scanLine, scanLine, h]
  rfl

@[simp] theorem scan_nil (m : CommentMode) : m.scan [] = m := rfl

@[simp] theorem scan_cons (m : CommentMode) (c : Char) (text : List Char) :
    m.scan (c :: text) = (m.next c).scan text := rfl

@[simp] theorem scan_append (m : CommentMode) (a b : List Char) :
    m.scan (a ++ b) = (m.scan a).scan b :=
  List.foldl_append

/-! ## Modes between tokens -/

/-- A text that starts behind `m` is read as if it started with no comment open: the comments that
are open end before its first character, and this character is not the second one of a comment's
start. -/
def Calm (m : CommentMode) (text : List Char) : Prop :=
  m.inBlock = false ∧ ∀ c ∈ text.head?, m.next c = code.next c

theorem calm_code (text : List Char) : code.Calm text :=
  ⟨rfl, fun _ _ => rfl⟩

/-- A text that is not empty ends any mode that it may start in. -/
theorem Calm.scan_eq (h : m.Calm (text ++ rest)) (htext : text ≠ []) :
    m.scan text = code.scan text := by
  cases text with
  | nil => exact absurd rfl htext
  | cons c text => rw [scan_cons, scan_cons, h.2 c rfl]

/-- At the end of a line no comment of several lines needs to be closed. -/
theorem calm_of_inBlock (h : m.inBlock = false)
    (hrest : rest.head? = none ∨ rest.head? = some '\n') : m.Calm rest := by
  refine ⟨h, fun c hc => ?_⟩
  rcases hrest with hnone | hsome
  · exact absurd (hnone.symm.trans hc) (by simp)
  · obtain rfl : '\n' = c := Option.some.inj (hsome.symm.trans hc)
    cases m with
    | code | slash | lineComment => rfl
    | blockComment | star => exact absurd h (by simp [inBlock])

/-- Before a directive line no comment is open. -/
theorem Calm.inComment_eq_false {line : List Char} (h : m.Calm ('#' :: line)) :
    m.inComment = false := by
  obtain ⟨hblock, hnext⟩ := h
  have hhash := hnext '#' rfl
  cases m with
  | code | slash => rfl
  | lineComment | blockComment | star => revert hblock hhash; decide

/-- The body of a comment of two slashes. -/
theorem scan_lineComment (h : '\n' ∉ text) : lineComment.scan text = lineComment := by
  induction text with
  | nil => rfl
  | cons c text ih =>
    obtain ⟨hc, htext⟩ := not_or.mp (mt List.mem_cons.mpr h)
    rw [scan_cons, next, if_neg (Ne.symm hc), ih htext]

/-- A comment ends with its first star before a slash. Behind a star this holds unless the text
starts with a slash. -/
theorem scan_of_splitComment? {source body : List Char}
    (h : Token.splitComment? source = some (body, rest)) :
    blockComment.scan (body ++ ['*', '/']) = code ∧
      (source.head? ≠ some '/' → star.scan (body ++ ['*', '/']) = code) := by
  induction source generalizing body with
  | nil => exact absurd h (by simp [Token.splitComment?])
  | cons c source ih =>
    rw [Token.splitComment?_cons] at h
    split at h
    next =>
      -- The comment ends here, whether or not a star stands before it.
      obtain ⟨rfl, -⟩ := Prod.mk.inj (Option.some.inj h)
      exact ⟨rfl, fun _ => rfl⟩
    next hopen =>
      obtain ⟨⟨inner, after⟩, hinner, hbody⟩ := Option.map_eq_some_iff.mp h
      obtain ⟨rfl, rfl⟩ := Prod.mk.inj hbody
      obtain ⟨hblock, hstar⟩ := ih hinner
      -- Behind either mode, `c` leads to the same mode, in which the rest closes the comment.
      have hnext : (if c = '*' then star else blockComment).scan (inner ++ ['*', '/']) = code := by
        split
        next hc => exact hstar fun hhead => hopen ⟨hc, hhead⟩
        next => exact hblock
      refine ⟨hnext, fun hhead => ?_⟩
      have hc : c ≠ '/' := by simpa using hhead
      rw [List.cons_append, scan_cons, next, if_neg hc]
      exact hnext

/-- Behind a token other than a directive line, which is read where it stands, the next token is
read as if no comment were open. -/
theorem calm_scan_text {fresh : Bool} {t : Token} (ht : t.Leads fresh rest)
    (hopen : ∀ body, t ≠ .openComment body) (hline : ∀ line, t ≠ .directive line) :
    (code.scan t.text).Calm rest := by
  have single : ∀ c, t.text = [c] → (code.scan t.text).Calm rest := by
    intro c hc
    obtain ⟨-, hslash⟩ := (Token.leads_iff_of_text_eq hc hline).mp ht
    rw [hc, scan_cons, scan_nil, next]
    split
    next hslashed =>
      -- A slash alone is followed by nothing that makes it the start of a comment.
      obtain ⟨hline, hblock⟩ := hslash hslashed
      refine ⟨rfl, fun d hd => ?_⟩
      have hd1 : d ≠ '/' := by rintro rfl; exact hline hd
      have hd2 : d ≠ '*' := by rintro rfl; exact hblock hd
      rw [next, next, if_neg hd1, if_neg hd2, if_neg hd1]
    next => exact calm_code rest
  cases t with
  | openComment body => exact absurd rfl (hopen body)
  | directive line => exact absurd rfl (hline line)
  | lineComment body =>
    obtain ⟨hbody, hrest⟩ := (Token.leads_lineComment_iff body).mp ht
    have hscan : code.scan (Token.lineComment body).text = lineComment := scan_lineComment hbody
    rw [hscan]
    exact calm_of_inBlock rfl hrest
  | blockComment body =>
    have hscan : code.scan (Token.blockComment body).text = code :=
      (scan_of_splitComment? ((Token.leads_blockComment_iff body).mp ht)).1
    rw [hscan]
    exact calm_code rest
  | newline => exact single '\n' rfl
  | blank c | other c => exact single c rfl
  | opener bracket => exact single bracket.opener rfl
  | closer bracket => exact single bracket.closer rfl

/-! ## Modes along a source -/

/-- Step over a token. -/
def scanToken (m : CommentMode) : Token → CommentMode
  | .directive line => m.scanLine line
  | t => m.scan t.text

/-- A token that is no directive line is stepped over by its text. -/
theorem scanToken_of_ne {t : Token} (ht : ¬ ∃ line, t = .directive line) (m : CommentMode) :
    m.scanToken t = m.scan t.text := by
  cases t with
  | directive line => exact absurd ⟨line, rfl⟩ ht
  | _ => rfl

/-- Step over a text in front of regions. -/
theorem foldl_scanNode_prepend (m : CommentMode) (position : Position) (content : List Char)
    (regions : List Region) :
    (Region.tree position (Region.prepend content regions)).toList.foldl scanNode m =
      (Region.tree (position.advance content) regions).toList.foldl scanNode (m.scan content) := by
  unfold Region.prepend
  split
  next more rest =>
    simp [Region.tree, Region.leaf, Tree.toList, scanNode, Region.content, Position.advance_append]
  next => simp [Region.tree, Region.leaf, Tree.toList, scanNode, Region.content]

/-- The nodes of a tree lead to the mode that its tokens lead to. -/
theorem foldl_scanNode_tree (m : CommentMode) (position : Position) (ts : List Token) :
    (Region.tree position (Region.ofTokens ts)).toList.foldl scanNode m = ts.foldl scanToken m := by
  induction ts generalizing m position with
  | nil => rfl
  | cons t ts ih =>
    obtain ⟨line, rfl⟩ | ht := Classical.em (∃ line, t = .directive line)
    · rw [Region.ofTokens, Region.tree, Tree.toList, List.foldl_cons, ih, List.foldl_cons]
      simp [Region.leaf, scanNode, scanToken, DirectiveLine.read]
    · rw [Region.ofTokens_cons_of_ne ht, foldl_scanNode_prepend, ih, List.foldl_cons,
        scanToken_of_ne ht]

/-- Behind a token the next one is read as if no comment were open, if the token is no comment that
stays open and no directive line that opens one. -/
theorem calm_scanToken {fresh : Bool} {t : Token} (hm : m.Calm (t.text ++ rest))
    (ht : t.Leads fresh rest) (hopen : ∀ body, t ≠ .openComment body)
    (hcloses : ∀ line, t = .directive line → (code.scanLine line).inBlock = false) :
    (m.scanToken t).Calm rest := by
  obtain ⟨line, rfl⟩ | hline := Classical.em (∃ line, t = .directive line)
  · have hhead := ((Token.leads_directive_iff line).mp ht).2
    rw [scanToken, scanLine_of_inComment hm.inComment_eq_false]
    exact calm_of_inBlock (hcloses line rfl) (hhead.imp_right And.left)
  · rw [scanToken_of_ne hline, hm.scan_eq t.text_ne_nil]
    exact calm_scan_text ht hopen fun line h => hline ⟨line, h⟩

/-- Behind any number of such tokens no comment is open for the next one. -/
theorem calm_foldl_scanToken {fresh : Bool} {ts : List Token}
    (hm : m.Calm (ts.flatMap Token.text ++ rest)) (hts : Token.Spelled fresh ts rest)
    (hopen : ∀ body, .openComment body ∉ ts)
    (hcloses : ∀ line, .directive line ∈ ts → (code.scanLine line).inBlock = false) :
    (ts.foldl scanToken m).Calm rest := by
  -- The invariant is that the rest of the text is read as if no comment were open before it.
  induction ts generalizing m fresh with
  | nil => exact hm
  | cons t ts ih =>
    obtain ⟨hleads, hrest⟩ := hts
    refine ih ?_ hrest (fun body h => hopen body (List.mem_cons_of_mem _ h))
      fun line h => hcloses line (List.mem_cons_of_mem _ h)
    rw [List.flatMap_cons, List.append_assoc] at hm
    refine calm_scanToken hm hleads (fun body h => hopen body (h ▸ List.mem_cons_self)) ?_
    exact fun line h => hcloses line (h ▸ List.mem_cons_self)

/-- A directive line of a source that is in order begins in code, if every directive line before it
closes the comments that start with `/*` on it. -/
theorem inComment_foldl_scanToken {source : List Char} {front back : List Token} {line : List Char}
    {last : Nesting} (hrun : Nesting.initial.run? (Token.tokens true source) = some last)
    (hts : Token.tokens true source = front ++ .directive line :: back)
    (hcloses : ∀ other, .directive other ∈ front → (code.scanLine other).inBlock = false) :
    (front.foldl scanToken code).inComment = false := by
  have hspelled := Token.spelled_tokens true source
  rw [hts, Token.spelled_append_iff] at hspelled
  have hopen : ∀ body, .openComment body ∉ front := by
    intro body hbody
    refine Nesting.openComment_notMem_of_run? hrun body ?_
    rw [hts]
    exact List.mem_append_left _ hbody
  have hcalm : (front.foldl scanToken code).Calm
      ((Token.directive line :: back).flatMap Token.text ++ []) :=
    calm_foldl_scanToken (calm_code _) hspelled.1 hopen hcloses
  exact hcalm.inComment_eq_false

end CommentMode

open CommentMode

/-- No directive of a source begins in a comment or ends in one that started with `/*`, if and only
if every directive closes the comments that start with `/*` on its own line. -/
theorem commentsApart_iff {source : String} {t : Tree} (h : parseChunk source = .ok t) :
    t.CommentsApart ↔ ∀ d, .leaf (.directive d) ∈ t.toList → d.ClosesComments := by
  obtain ⟨⟨last, hrun, -⟩, htree⟩ := parseChunk_eq_ok_iff.mp h
  constructor
  · intro hapart d hd
    obtain ⟨before, after, hnodes⟩ := List.append_of_mem hd
    obtain ⟨hbegins, hends⟩ := hapart before d after hnodes
    -- As the directive begins in code, what it leaves open it has opened itself.
    rw [behind, List.foldl_append, ← behind] at hends
    rw [Directive.ClosesComments, ← scanLine_of_inComment hbegins]
    exact hends
  · intro hcloses before d after hnodes
    obtain ⟨front, line, back, hts, rfl, hraw⟩ := Region.exists_of_toList_tree (htree ▸ hnodes)
    have hclosesLine : ∀ other, .directive other ∈ Token.tokens true source.toList →
        (code.scanLine other).inBlock = false := by
      intro other hother
      obtain ⟨e, he, hrawOther⟩ := Region.exists_mem_toList_tree hother .first
      have hcloses := hcloses e (htree ▸ he)
      rwa [Directive.ClosesComments, hrawOther] at hcloses
    have hbegins := inComment_foldl_scanToken hrun hts fun other hother =>
      hclosesLine other (by simp [hts, hother])
    have hends := hclosesLine line (by simp [hts])
    have hbehind : behind (Region.tree .first (Region.ofTokens front)).toList =
        front.foldl scanToken code := foldl_scanNode_tree _ _ _
    rw [← hbehind] at hbegins
    refine ⟨hbegins, ?_⟩
    rw [behind, List.foldl_append, ← behind, List.foldl_cons, List.foldl_nil, scanNode, hraw,
      List.tail_cons, scanLine_of_inComment hbegins]
    exact hends

/-- Directives with comments behind them, and a comment with a directive line in it. What looks like
the start of a comment in the path is none. -/
theorem commentsApart_iff_quoted :
    ∃ t, parseChunk "#include \"a/*b\" /* c */ // d /*\n/*\n#include e\n*/ #define F\n" = .ok t ∧
      t.query Node.isInclude = [[0]] ∧ t.CommentsApart := by
  have hcomputed : (parseChunk
      "#include \"a/*b\" /* c */ // d /*\n/*\n#include e\n*/ #define F\n").toOption.map
        Tree.toList =
      some [.leaf (.directive ⟨"include", "\"a/*b\"", "#include \"a/*b\" /* c */ // d /*",
          ⟨⟨1, 1⟩, ⟨1, 32⟩⟩⟩),
        .leaf (.text "\n/*\n#include e\n*/ "),
        .leaf (.directive ⟨"define", "F", "#define F", ⟨⟨4, 4⟩, ⟨4, 13⟩⟩⟩),
        .leaf (.text "\n")] := by decide +kernel
  obtain ⟨t, hparse, hnodes⟩ := exists_tree_of_eq hcomputed
  refine ⟨t, hparse, ?_, (commentsApart_iff hparse).mpr ?_⟩
  · rw [← Tree.ofList_toList t, hnodes]
    decide +kernel
  · rw [hnodes]
    intro d hd
    simp only [List.mem_cons, Node.leaf.injEq, Leaf.directive.injEq, reduceCtorEq,
      List.not_mem_nil, or_false, false_or] at hd
    rcases hd with rfl | rfl <;> decide +kernel

/-- Not every source keeps its directives and comments apart. A comment that is opened on the line
of a directive goes on behind it, and the include directive on the next line is found in it. -/
theorem not_commentsApart_openedOnLine :
    ∃ t first second, parseChunk "#include a /* x\n#include b\n*/\n" = .ok t ∧
      t.toList = [.leaf (.directive first), .leaf (.text "\n"), .leaf (.directive second),
        .leaf (.text "\n*/\n")] ∧
      first.isInclude = true ∧ (behind [.leaf (.directive first)]).inBlock = true ∧
      second.isInclude = true ∧
      (behind [.leaf (.directive first), .leaf (.text "\n")]).inComment = true ∧
      ¬ t.CommentsApart := by
  have hcomputed : (parseChunk "#include a /* x\n#include b\n*/\n").toOption.map Tree.toList =
      some [.leaf (.directive ⟨"include", "a", "#include a /* x", ⟨⟨1, 1⟩, ⟨1, 16⟩⟩⟩),
        .leaf (.text "\n"),
        .leaf (.directive ⟨"include", "b", "#include b", ⟨⟨2, 1⟩, ⟨2, 11⟩⟩⟩),
        .leaf (.text "\n*/\n")] := by decide +kernel
  obtain ⟨t, hparse, hnodes⟩ := exists_tree_of_eq hcomputed
  refine ⟨t, _, _, hparse, hnodes, by decide, by decide +kernel, by decide, by decide +kernel,
    fun hapart => ?_⟩
  exact absurd (hapart [] _ _ hnodes).2 (by decide +kernel)

end ShaderTemplate
