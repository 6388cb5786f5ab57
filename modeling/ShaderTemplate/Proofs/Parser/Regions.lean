import ShaderTemplate.Include.Site
import ShaderTemplate.Parser.Chunk

/-!
# Regions and their tokens

A region of a directive line is one token, and a region of text is the longest run of tokens without
a directive. So the tree of a source can be taken apart leaf by leaf, and each leaf gives back the
tokens that it was made of.

Main statements:

- `exists_of_ofTokens_directive`, `exists_of_ofTokens_text`: the tokens of the first region;
- `exists_of_toList_tree`: the tokens before and behind the line of a directive;
- `query_isInclude_tree`: a tree has no include directives if its tokens are none.
-/

namespace ShaderTemplate

/-- Decide whether a token is an include directive. -/
def Token.isInclude : Token → Bool
  | .directive line => (DirectiveLine.read line default).isInclude
  | _ => false

namespace Region

open Token

variable {ts : List Token} {regions : List Region}

/-- A token other than a directive becomes part of a region of text. -/
theorem ofTokens_cons_of_ne {t : Token} (ht : ¬ ∃ line, t = .directive line) (ts : List Token) :
    ofTokens (t :: ts) = prepend t.text (ofTokens ts) := by
  rw [ofTokens]
  exact fun line h => ht ⟨line, h⟩

/-- A region of text starts with the text that is put in front of regions. -/
theorem prepend_eq_cons {content : List Char} {first : Region} {rest : List Region}
    (h : prepend content regions = first :: rest) :
    (∃ more, first = .text (content ++ more) ∧ regions = .text more :: rest) ∨
      first = .text content ∧ regions = rest := by
  unfold prepend at h
  split at h
  next more tail =>
    obtain ⟨rfl, rfl⟩ := List.cons.inj h
    exact .inl ⟨more, rfl, rfl⟩
  next =>
    obtain ⟨rfl, rfl⟩ := List.cons.inj h
    exact .inr ⟨rfl, rfl⟩

/-- Only a text without tokens has no regions. -/
theorem eq_nil_of_ofTokens (h : ofTokens ts = []) : ts = [] := by
  cases ts with
  | nil => rfl
  | cons t ts =>
    exfalso
    obtain ⟨line, rfl⟩ | ht := Classical.em (∃ line, t = .directive line)
    · simp [ofTokens] at h
    · rw [ofTokens_cons_of_ne ht] at h
      unfold prepend at h
      split at h <;> simp at h

/-- The tokens of a region of a directive line and those behind it. -/
theorem exists_of_ofTokens_directive {line : List Char}
    (h : ofTokens ts = .directive line :: regions) :
    ∃ back, ts = Token.directive line :: back ∧ ofTokens back = regions := by
  cases ts with
  | nil => simp [ofTokens] at h
  | cons t ts =>
    obtain ⟨other, rfl⟩ | ht := Classical.em (∃ line, t = .directive line)
    · simp only [ofTokens, List.cons.injEq, Region.directive.injEq] at h
      exact ⟨ts, by rw [h.1], h.2⟩
    · rw [ofTokens_cons_of_ne ht] at h
      rcases prepend_eq_cons h with ⟨more, hfirst, -⟩ | ⟨hfirst, -⟩ <;> simp at hfirst

/-- The tokens of a region of text and those behind it. -/
theorem exists_of_ofTokens_text {content : List Char} (h : ofTokens ts = .text content :: regions) :
    ∃ front back, ts = front ++ back ∧ (∀ t ∈ front, t.isInclude = false) ∧
      front.flatMap Token.text = content ∧ ofTokens back = regions := by
  induction ts generalizing content with
  | nil => simp [ofTokens] at h
  | cons t ts ih =>
    obtain ⟨line, rfl⟩ | ht := Classical.em (∃ line, t = .directive line)
    · simp [ofTokens] at h
    · have hkeep : t.isInclude = false := by
        cases t with
        | directive line => exact absurd ⟨line, rfl⟩ ht
        | _ => rfl
      rw [ofTokens_cons_of_ne ht] at h
      rcases prepend_eq_cons h with ⟨more, hfirst, hmore⟩ | ⟨hfirst, hrest⟩
      · obtain ⟨front, back, rfl, hfront, rfl, hback⟩ := ih hmore
        refine ⟨t :: front, back, rfl, List.forall_mem_cons.mpr ⟨hkeep, hfront⟩, ?_, hback⟩
        exact (Region.text.inj hfirst).symm
      · refine ⟨[t], ts, rfl, by simpa using hkeep, ?_, hrest⟩
        rw [List.flatMap_singleton]
        exact (Region.text.inj hfirst).symm

/-- The first leaf of a tree of regions is that of the first region. -/
theorem exists_of_tree_eq_leaf {position : Position} {item : Leaf} {rest : Tree}
    (h : tree position regions = .leaf item rest) :
    ∃ region others, regions = region :: others ∧ item = region.leaf position ∧
      rest = tree (position.advance region.content) others := by
  cases regions with
  | nil => exact absurd h (by simp [tree])
  | cons region others =>
    obtain ⟨rfl, rfl⟩ := Tree.leaf.inj h
    exact ⟨region, others, rfl, rfl, rfl⟩

/-! ## The tokens around a directive -/

/-- Text in front of regions with a directive line is in front of those before the line. -/
theorem exists_of_prepend_eq_append {content line : List Char} {front back : List Region}
    (h : prepend content regions = front ++ .directive line :: back) :
    ∃ rest, regions = rest ++ .directive line :: back ∧ prepend content rest = front := by
  cases front with
  | nil => rcases prepend_eq_cons h with ⟨more, hfirst, -⟩ | ⟨hfirst, -⟩ <;> simp at hfirst
  | cons first front =>
    unfold prepend at h
    split at h
    next more rest =>
      obtain ⟨rfl, rfl⟩ := List.cons.inj h
      exact ⟨.text more :: front, rfl, rfl⟩
    next hne =>
      obtain ⟨rfl, rfl⟩ := List.cons.inj h
      refine ⟨front, rfl, ?_⟩
      -- The regions do not start with a text, so neither do those before the line.
      unfold prepend
      split
      next more rest => exact (hne more _ rfl).elim
      next => rfl

/-- The tokens before and behind a region of a directive line. -/
theorem exists_of_ofTokens_eq_append {line : List Char} {front back : List Region}
    (h : ofTokens ts = front ++ .directive line :: back) :
    ∃ before after, ts = before ++ Token.directive line :: after ∧ ofTokens before = front ∧
      ofTokens after = back := by
  induction ts generalizing front with
  | nil => exact absurd h (by simp [ofTokens])
  | cons t ts ih =>
    obtain ⟨other, rfl⟩ | ht := Classical.em (∃ line, t = .directive line)
    · rw [ofTokens] at h
      cases front with
      | nil =>
        obtain ⟨hline, hrest⟩ := List.cons.inj h
        exact ⟨[], ts, by rw [Region.directive.inj hline]; rfl, rfl, hrest⟩
      | cons first front =>
        obtain ⟨rfl, hrest⟩ := List.cons.inj h
        obtain ⟨before, after, rfl, hfront, hback⟩ := ih hrest
        exact ⟨.directive other :: before, after, rfl, by rw [ofTokens, hfront], hback⟩
    · rw [ofTokens_cons_of_ne ht] at h
      obtain ⟨rest, hrest, rfl⟩ := exists_of_prepend_eq_append h
      obtain ⟨before, after, rfl, rfl, hback⟩ := ih hrest
      exact ⟨t :: before, after, rfl, ofTokens_cons_of_ne ht before, hback⟩

/-- The regions before and behind a directive in a tree. The directive is read from its line and
located behind the regions before it. -/
theorem exists_of_toList_tree_eq_append {position : Position} {before after : List Node}
    {d : Directive} (h : (tree position regions).toList = before ++ .leaf (.directive d) :: after) :
    ∃ front line back, regions = front ++ .directive line :: back ∧
      before = (tree position front).toList ∧
      d = DirectiveLine.read line ⟨position.advance (front.flatMap content),
        position.advance (front.flatMap content ++ '#' :: line)⟩ := by
  induction regions generalizing position before with
  | nil => exact absurd h (by simp [tree, Tree.toList])
  | cons region rest ih =>
    rw [tree, Tree.toList] at h
    cases before with
    | nil =>
      obtain ⟨hnode, -⟩ := List.cons.inj h
      cases region with
      | text content => exact absurd hnode (by simp [leaf])
      | directive line =>
        obtain rfl := Leaf.directive.inj (Node.leaf.inj hnode)
        exact ⟨[], line, rest, rfl, rfl, rfl⟩
    | cons node before =>
      obtain ⟨rfl, hrest⟩ := List.cons.inj h
      obtain ⟨front, line, back, rfl, rfl, rfl⟩ := ih hrest
      refine ⟨region :: front, line, back, rfl, rfl, ?_⟩
      rw [List.flatMap_cons, List.append_assoc, Position.advance_append _ region.content,
        Position.advance_append _ region.content]

/-- The tokens before and behind the line of a directive in the tree of some tokens. -/
theorem exists_of_toList_tree {position : Position} {before after : List Node} {d : Directive}
    (h : (tree position (ofTokens ts)).toList = before ++ .leaf (.directive d) :: after) :
    ∃ front line back, ts = front ++ Token.directive line :: back ∧
      before = (tree position (ofTokens front)).toList ∧ d.raw.toList = '#' :: line := by
  obtain ⟨regions, line, others, hregions, rfl, rfl⟩ := exists_of_toList_tree_eq_append h
  obtain ⟨front, back, rfl, rfl, -⟩ := exists_of_ofTokens_eq_append hregions
  exact ⟨front, line, back, rfl, rfl, by simp [DirectiveLine.read]⟩

/-! ## Include directives -/

/-- A region asks for a file where its token does. -/
theorem isSome_include?_leaf (line : List Char) (position : Position) :
    ((Region.directive line).leaf position).include?.isSome = (Token.directive line).isInclude := by
  have h : (DirectiveLine.read line ⟨position, position.advance ('#' :: line)⟩).isInclude =
      (DirectiveLine.read line default).isInclude := rfl
  simp only [leaf, Leaf.include?, Token.isInclude, h]
  cases (DirectiveLine.read line default).isInclude <;> rfl

/-- The regions of directive lines are those of the directives. -/
theorem directive_mem_ofTokens_iff {line : List Char} {ts : List Token} :
    .directive line ∈ ofTokens ts ↔ Token.directive line ∈ ts := by
  induction ts with
  | nil => simp [ofTokens]
  | cons t ts ih =>
    obtain ⟨other, rfl⟩ | ht := Classical.em (∃ line, t = .directive line)
    · simp [ofTokens, ih]
    · -- Text in front of regions changes none of their directive lines.
      have hprepend : .directive line ∈ prepend t.text (ofTokens ts) ↔
          .directive line ∈ ofTokens ts := by
        unfold prepend
        split
        next more rest hmore => simp [hmore]
        next => simp
      have hne : Token.directive line ≠ t := fun h => ht ⟨line, h.symm⟩
      rw [ofTokens_cons_of_ne ht, hprepend, ih, List.mem_cons, or_iff_right hne]

/-- The line of every directive token is that of a directive of the tree. -/
theorem exists_mem_toList_tree {line : List Char} {ts : List Token}
    (h : Token.directive line ∈ ts) (position : Position) :
    ∃ d, .leaf (.directive d) ∈ (tree position (ofTokens ts)).toList ∧
      d.raw.toList = '#' :: line := by
  have hregion := directive_mem_ofTokens_iff.mpr h
  generalize ofTokens ts = regions at hregion
  induction regions generalizing position with
  | nil => exact absurd hregion (by simp)
  | cons region rest ih =>
    rcases List.mem_cons.mp hregion with rfl | hrest
    · exact ⟨_, List.mem_cons_self, by simp [DirectiveLine.read]⟩
    · obtain ⟨d, hd, hraw⟩ := ih (position.advance region.content) hrest
      exact ⟨d, List.mem_cons_of_mem _ hd, hraw⟩

/-- A tree of tokens that are no include directives has no include directives. -/
theorem query_isInclude_tree {ts : List Token} (h : ∀ t ∈ ts, t.isInclude = false)
    (position : Position) : (tree position (ofTokens ts)).query Node.isInclude = [] := by
  have lines : ∀ line, .directive line ∈ ofTokens ts → (Token.directive line).isInclude = false :=
    fun line hline => h _ (directive_mem_ofTokens_iff.mp hline)
  rw [Tree.query_isInclude_eq_nil_iff _ [] ⟨""⟩]
  generalize ofTokens ts = regions at lines
  induction regions generalizing position with
  | nil => rfl
  | cons region rest ih =>
    have hregion : (region.leaf position).include? = none := by
      cases region with
      | text content => rfl
      | directive line =>
        refine Option.not_isSome_iff_eq_none.mp ?_
        rw [isSome_include?_leaf, lines line List.mem_cons_self]
        simp
    rw [tree, Tree.sites, hregion, ih _ fun line hline => lines line (List.mem_cons_of_mem _ hline)]
    rfl

end Region

end ShaderTemplate
