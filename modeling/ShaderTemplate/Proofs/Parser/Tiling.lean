import Mathlib.Data.List.Chain
import ShaderTemplate.Proofs.Parser.Nesting
import ShaderTemplate.Proofs.Parser.Regions
import ShaderTemplate.Proofs.Source.Location

/-!
# Trees tile their sources

The leaves of the tree of a source are a cut of it: they have its text, no leaf of text is empty,
and none could be joined with the next. A directive is located where its line stands: its span
starts behind the text of the leaves before it, and it cuts the line out of the source, whatever
line breaks and characters the line has.

Main statements:

- `content_ne_nil_of_mem_ofTokens`, `isChain_ofTokens`: the shape of the regions of a source;
- `location_of_mem_tree`: where the directives of a tree of regions are located;
- `parseChunk_tiles`: the tree of a source tiles it.
-/

namespace ShaderTemplate

/-- Decide whether a node is a text. -/
def Node.isText : Node → Bool
  | .leaf (.text _) => true
  | _ => false

namespace Region

variable {ts : List Token} {regions : List Region}

/-- Decide whether a region is text. -/
def isText : Region → Bool
  | .text _ => true
  | .directive _ => false

/-- Text put in front of regions is part of their first region, and no other region changes. -/
theorem mem_prepend {content : List Char} {region : Region}
    (h : region ∈ prepend content regions) :
    (∃ more, region = .text (content ++ more)) ∨ region ∈ regions := by
  unfold prepend at h
  split at h
  next more rest =>
    rcases List.mem_cons.mp h with rfl | h
    · exact .inl ⟨more, rfl⟩
    · exact .inr (List.mem_cons_of_mem _ h)
  next =>
    rcases List.mem_cons.mp h with rfl | h
    · exact .inl ⟨[], by rw [List.append_nil]⟩
    · exact .inr h

/-- No region is empty. -/
theorem content_ne_nil_of_mem_ofTokens {region : Region} (h : region ∈ ofTokens ts) :
    region.content ≠ [] := by
  induction ts with
  | nil => exact absurd h (by simp [ofTokens])
  | cons t ts ih =>
    obtain ⟨line, rfl⟩ | ht := Classical.em (∃ line, t = .directive line)
    · rw [ofTokens, List.mem_cons] at h
      rcases h with rfl | h
      · exact List.cons_ne_nil _ _
      · exact ih h
    · rw [ofTokens_cons_of_ne ht] at h
      rcases mem_prepend h with ⟨more, rfl⟩ | h
      · -- The region starts with the text of the token, which is not empty.
        intro hnil
        exact t.text_ne_nil (List.append_eq_nil_iff.mp hnil).1
      · exact ih h

/-- Text put in front of regions is joined with the text that they start with. -/
theorem isChain_prepend (content : List Char)
    (h : regions.IsChain fun a b => ¬ (a.isText ∧ b.isText)) :
    (prepend content regions).IsChain fun a b => ¬ (a.isText ∧ b.isText) := by
  unfold prepend
  split
  next more rest =>
    -- The text becomes part of the first region, which stays a text.
    cases rest with
    | nil => exact .singleton _
    | cons next rest =>
      obtain ⟨hnext, hrest⟩ := List.isChain_cons_cons.mp h
      exact List.isChain_cons_cons.mpr ⟨hnext, hrest⟩
  next hne =>
    -- The text is a region of its own, and what follows it is none.
    cases regions with
    | nil => exact .singleton _
    | cons first rest =>
      cases first with
      | text more => exact (hne more rest rfl).elim
      | directive line => exact List.isChain_cons_cons.mpr ⟨by simp [isText], h⟩

/-- No two regions of text stand next to each other. -/
theorem isChain_ofTokens (ts : List Token) :
    (ofTokens ts).IsChain fun a b => ¬ (a.isText ∧ b.isText) := by
  induction ts with
  | nil => exact .nil
  | cons t ts ih =>
    obtain ⟨line, rfl⟩ | ht := Classical.em (∃ line, t = .directive line)
    · rw [ofTokens]
      cases hrest : ofTokens ts with
      | nil => exact .singleton _
      | cons next rest =>
        rw [hrest] at ih
        exact List.isChain_cons_cons.mpr ⟨by simp [isText], ih⟩
    · rw [ofTokens_cons_of_ne ht]
      exact isChain_prepend _ ih

/-! ## The nodes of a tree of regions -/

/-- Every node of a tree of regions is the leaf of a region. -/
theorem exists_of_mem_toList_tree {position : Position} {node : Node}
    (h : node ∈ (tree position regions).toList) :
    ∃ region ∈ regions, ∃ start, node = .leaf (region.leaf start) := by
  induction regions generalizing position with
  | nil => exact absurd h (by simp [tree, Tree.toList])
  | cons region rest ih =>
    rw [tree, Tree.toList, List.mem_cons] at h
    rcases h with rfl | h
    · exact ⟨region, List.mem_cons_self, position, rfl⟩
    · obtain ⟨other, hother, start, rfl⟩ := ih h
      exact ⟨other, List.mem_cons_of_mem _ hother, start, rfl⟩

/-- The texts among the nodes of a tree are those among its regions. -/
theorem map_isText_tree (position : Position) (regions : List Region) :
    (tree position regions).toList.map Node.isText = regions.map isText := by
  induction regions generalizing position with
  | nil => rfl
  | cons region rest ih =>
    rw [tree, Tree.toList, List.map_cons, List.map_cons, ih]
    cases region <;> rfl

/-- A directive of a tree is located between the text of the nodes before it and the end of its
line. -/
theorem location_of_mem_tree {position : Position} {before after : List Node} {d : Directive}
    (h : (tree position regions).toList = before ++ .leaf (.directive d) :: after) :
    d.location = ⟨position.advance (Tree.ofList before).render.toList,
      position.advance ((Tree.ofList before).render.toList ++ d.raw.toList)⟩ := by
  obtain ⟨front, line, back, -, rfl, rfl⟩ := exists_of_toList_tree_eq_append h
  rw [Tree.ofList_toList, toList_render_tree]
  simp [DirectiveLine.read]

end Region

/-- The tree of a source tiles it. It has the text of the source; its nodes are texts and
directives; no text is empty, and no two texts stand next to each other; and every directive is
located where its line stands, by line and column, so that its span cuts the line out of the
source. -/
theorem parseChunk_tiles {source : String} {t : Tree} (h : parseChunk source = .ok t) :
    t.render = source ∧
      (∀ node ∈ t.toList, (∃ content, node = .leaf (.text content) ∧ content ≠ "") ∨
        ∃ d, node = .leaf (.directive d)) ∧
      (t.toList.IsChain fun a b => ¬ (a.isText ∧ b.isText)) ∧
      ∀ before d after, t.toList = before ++ .leaf (.directive d) :: after →
        (Tree.ofList before).render ++ d.raw ++ (Tree.ofList after).render = source ∧
          d.location.start = .behind (Tree.ofList before).render.toList ∧
          d.location.stop = .behind ((Tree.ofList before).render ++ d.raw).toList ∧
          d.location.cut source.toList = d.raw.toList := by
  have hrender := render_of_parseChunk h
  have htree := (parseChunk_eq_ok_iff.mp h).2
  refine ⟨hrender, ?_, ?_, ?_⟩
  · intro node hnode
    rw [htree] at hnode
    obtain ⟨region, hregion, start, rfl⟩ := Region.exists_of_mem_toList_tree hnode
    have hcontent := Region.content_ne_nil_of_mem_ofTokens hregion
    cases region with
    | text content =>
      refine .inl ⟨String.ofList content, rfl, ?_⟩
      intro hempty
      apply hcontent
      simpa [Region.content] using hempty
    | directive line => exact .inr ⟨_, rfl⟩
  · -- Which nodes are texts is told by the regions.
    have hregions := Region.isChain_ofTokens (Token.tokens true source.toList)
    have hmap : ((Region.ofTokens (Token.tokens true source.toList)).map Region.isText).IsChain
        fun a b => ¬ (a = true ∧ b = true) := (List.isChain_map Region.isText).mpr hregions
    rw [← Region.map_isText_tree .first, ← htree] at hmap
    exact (List.isChain_map Node.isText).mp hmap
  · intro before d after hnodes
    have hlocation := Region.location_of_mem_tree (htree ▸ hnodes)
    rw [Position.advance_first, Position.advance_first] at hlocation
    -- The nodes before, the directive and the nodes behind it are the three parts of the source.
    have hsource : (Tree.ofList before).render ++ d.raw ++ (Tree.ofList after).render = source := by
      rw [← hrender, ← Tree.ofList_toList t, hnodes, Tree.render_ofList_append, String.append_assoc]
      exact congrArg _ (Tree.render_cons (.leaf (.directive d)) (Tree.ofList after)).symm
    refine ⟨hsource, by rw [hlocation], by rw [hlocation, String.toList_append], ?_⟩
    rw [hlocation, ← hsource, String.toList_append, String.toList_append]
    exact Span.cut_append _ _ _

/-- A directive line that goes on over a line break, between characters of more than one byte. -/
theorem parseChunk_tiles_continued :
    ∃ t d, parseChunk "é\n #define A \\\n β; // γ\n{}" = .ok t ∧
      t.render = "é\n #define A \\\n β; // γ\n{}" ∧
      t.toList = [.leaf (.text "é\n ")] ++ .leaf (.directive d) :: [.leaf (.text "\n{}")] ∧
      d.location = ⟨⟨2, 2⟩, ⟨3, 9⟩⟩ ∧
      d.location.start = .behind "é\n ".toList ∧
      d.location.stop = .behind "é\n #define A \\\n β; // γ".toList ∧
      d.location.cut "é\n #define A \\\n β; // γ\n{}".toList = "#define A \\\n β; // γ".toList := by
  have hcomputed : (parseChunk "é\n #define A \\\n β; // γ\n{}").toOption.map Tree.toList =
      some ([.leaf (.text "é\n ")] ++ .leaf (.directive
        ⟨"define", "A   β", "#define A \\\n β; // γ", ⟨⟨2, 2⟩, ⟨3, 9⟩⟩⟩) ::
          [.leaf (.text "\n{}")]) := by decide +kernel
  obtain ⟨t, ht, hnodes⟩ := Option.map_eq_some_iff.mp hcomputed
  have hparse : parseChunk "é\n #define A \\\n β; // γ\n{}" = .ok t := by
    cases hparse : parseChunk "é\n #define A \\\n β; // γ\n{}" with
    | error e => simp [hparse, Except.toOption] at ht
    | ok other => simpa [hparse, Except.toOption] using ht
  obtain ⟨hrender, -, -, hlocated⟩ := parseChunk_tiles hparse
  obtain ⟨-, hstart, hstop, hcut⟩ := hlocated _ _ _ hnodes
  exact ⟨t, _, hparse, hrender, hnodes, rfl, hstart, hstop, hcut⟩

end ShaderTemplate
