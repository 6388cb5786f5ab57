import ShaderTemplate.Proofs.Expansion.Chunks
import ShaderTemplate.Proofs.Expansion.Inlining
import ShaderTemplate.Proofs.Parser.Boundary
import ShaderTemplate.Proofs.Parser.Nesting
import ShaderTemplate.Proofs.Parser.Regions

/-!
# The tokens of an expansion

Every file of an expansion is cut into tokens on its own, and the expansion is one text. `Spliced`
tells which tokens the parts of the text come from: those of the source, with the spliced tokens of
a file in the place of every include directive.

Main statements:

- `Tree.Filled.exists_spliced`: a tree of tokens that is filled has the text of spliced tokens;
- `Spliced.spelled`: the text is cut into the spliced tokens, if no file lets its last line go on
  behind its end;
- `Spliced.run?`: the check of the spliced tokens goes the way of the check of the source, if every
  file leaves what is open around it as it is.
-/

namespace ShaderTemplate

namespace Token

/-- Tokens of a text that ends in such a way that a line feed may follow. An include directive at
the end does not count, as it makes room for the tokens of a file. -/
def EndsLine (ts : List Token) : Prop :=
  ∀ t ∈ ts.getLast?, t.isInclude = false → t.Stops (some '\n')

instance (ts : List Token) : Decidable (EndsLine ts) :=
  inferInstanceAs (Decidable (∀ t ∈ ts.getLast?, _))

/-- The tokens of a text, with spliced tokens of a file that `holds` tells in the place of every
include directive. -/
inductive Spliced (holds : List Char → Prop) : List Token → List Token → Prop
  /-- Nothing is added at the end. -/
  | nil : Spliced holds [] []
  /-- Every other token is kept. -/
  | kept {t : Token} {ts us : List Token} (ht : t.isInclude = false) (hrest : Spliced holds ts us) :
      Spliced holds (t :: ts) (t :: us)
  /-- An include directive makes room for the tokens of a file. -/
  | filled {line source : List Char} {ts us inner : List Token}
      (ht : (directive line).isInclude = true) (hsource : holds source)
      (hinner : Spliced holds (tokens true source) inner) (hrest : Spliced holds ts us) :
      Spliced holds (directive line :: ts) (inner ++ us)

/-- Tokens that are no include directives may be put in front. -/
theorem Spliced.append {holds : List Char → Prop} {front ts us : List Token}
    (hfront : ∀ t ∈ front, t.isInclude = false) (h : Spliced holds ts us) :
    Spliced holds (front ++ ts) (front ++ us) := by
  induction front with
  | nil => exact h
  | cons t front ih =>
    obtain ⟨ht, hfront⟩ := List.forall_mem_cons.mp hfront
    exact .kept ht (ih hfront)

end Token

/-! ## Filled trees -/

/-- A tree of tokens that is filled has the text of spliced tokens, if the chunks have the trees of
source texts. -/
theorem Tree.Filled.exists_spliced {setup : Setup} {holds : List Char → Prop}
    {t filled : Tree} (h : t.Filled setup.Holds filled) (hparser : setup.parser = parseChunk)
    (hfiles : ∀ path ∈ filled.chunkPaths, ∀ source loaded, setup.host.read path = .ok source →
      parseChunk source = .ok loaded → holds source.toList)
    {position : Position} {ts : List Token} (ht : t = Region.tree position (Region.ofTokens ts)) :
    ∃ us, Token.Spliced holds ts us ∧ filled.render.toList = us.flatMap Token.text := by
  -- The induction follows the leaves, and a leaf of text stands for all tokens up to a directive.
  induction h generalizing position ts with
  | empty =>
    cases hregions : Region.ofTokens ts with
    | nil =>
      obtain rfl := Region.eq_nil_of_ofTokens hregions
      exact ⟨[], .nil, rfl⟩
    | cons region rest => simp [hregions, Region.tree] at ht
  | leaf hitem hrest ih =>
    obtain ⟨region, regions, hregions, rfl, rfl⟩ := Region.exists_of_tree_eq_leaf ht.symm
    cases region with
    | text content =>
      obtain ⟨front, back, rfl, hfront, rfl, rfl⟩ := Region.exists_of_ofTokens_text hregions
      obtain ⟨us, hspliced, hrender⟩ := ih hfiles rfl
      refine ⟨front ++ us, hspliced.append hfront, ?_⟩
      simp [Tree.render, Region.leaf, Leaf.render, hrender]
    | directive line =>
      obtain ⟨back, rfl, rfl⟩ := Region.exists_of_ofTokens_directive hregions
      obtain ⟨us, hspliced, hrender⟩ := ih hfiles rfl
      have hkeep : (Token.directive line).isInclude = false := by
        rw [← Region.isSome_include?_leaf line position, hitem, Option.isSome_none]
      refine ⟨.directive line :: us, .kept hkeep hspliced, ?_⟩
      simp [Tree.render, Region.leaf, Leaf.render, DirectiveLine.read, Token.text, hrender]
  | @directive _ _ path loaded _ _ _ hitem hloaded hinner hrest ihInner ihRest =>
    obtain ⟨region, regions, hregions, rfl, rfl⟩ := Region.exists_of_tree_eq_leaf ht.symm
    cases region with
    | text content => exact absurd hitem (by simp [Region.leaf, Leaf.include?])
    | directive line =>
      obtain ⟨back, rfl, rfl⟩ := Region.exists_of_ofTokens_directive hregions
      obtain ⟨source, hread, hparsed⟩ := hloaded
      rw [hparser] at hparsed
      have hsource := hfiles path (by simp [Tree.chunkPaths]) source loaded hread hparsed
      obtain ⟨inside, hinside, hinnerText⟩ := ihInner
        (fun p hp => hfiles p (by simp [Tree.chunkPaths, hp])) (parseChunk_eq_ok_iff.mp hparsed).2
      obtain ⟨us, hspliced, hrender⟩ := ihRest
        (fun p hp => hfiles p (by simp [Tree.chunkPaths, hp])) rfl
      have hline : (Token.directive line).isInclude = true := by
        rw [← Region.isSome_include?_leaf line position, hitem, Option.isSome_some]
      refine ⟨inside ++ us, .filled hline hsource hinside hspliced, ?_⟩
      simp [Tree.render, hinnerText, hrender]
  | chunk hinner hrest =>
    -- A tree of regions has no chunks.
    cases hregions : Region.ofTokens ts <;> simp [hregions, Region.tree] at ht

/-- The text of an expansion is one of spliced tokens, which come from the files of its chunks. -/
theorem exists_spliced_of_expand {config : Config} {host : Host} {source : String} {file : Path}
    {tree : Tree} {expansion : Expansion} {holds : List Char → Prop}
    (hparse : parseChunk source = .ok tree)
    (hexpand : ((⟨config, host, parseChunk⟩ : Setup).expand file tree).outcome = .ok expansion)
    (hfiles : ∀ path ∈ expansion.tree.chunkPaths, ∀ text loaded, host.read path = .ok text →
      parseChunk text = .ok loaded → holds text.toList) :
    ∃ us, Token.Spliced holds (Token.tokens true source.toList) us ∧
      expansion.tree.render.toList = us.flatMap Token.text := by
  have hinlined := (Setup.run_expand ⟨config, host, parseChunk⟩ file tree).inlined_eq
  rw [hexpand] at hinlined
  have hfilled := Setup.filled_of_inlined hinlined
  exact hfilled.exists_spliced rfl hfiles (parseChunk_eq_ok_iff.mp hparse).2

/-! ## The text of spliced tokens -/

namespace Token

variable {holds : List Char → Prop} {ts us : List Token}

/-- No include directive is left among spliced tokens. -/
theorem Spliced.isInclude_eq_false (h : Spliced holds ts us) : ∀ t ∈ us, t.isInclude = false := by
  induction h with
  | nil => simp
  | kept ht hrest ih => exact List.forall_mem_cons.mpr ⟨ht, ih⟩
  | filled ht hsource hinner hrest ihInner ihRest =>
    exact List.forall_mem_append.mpr ⟨ihInner, ihRest⟩

/-- Where a text ends depends on its last tokens only. -/
theorem EndsLine.tail {t : Token} (h : EndsLine (t :: ts)) : EndsLine ts := by
  intro last hlast
  refine h last ?_
  rw [List.getLast?_cons, Option.mem_def.mp hlast, Option.getD_some]
  exact Option.mem_some_self last

/-- Behind an include directive comes the end of the text or a line feed. It is still so when the
directives behind it have made room for their files. -/
theorem Spliced.newline_of_directive (h : Spliced holds ts us) {fresh : Bool} {line : List Char}
    (hspelled : Spelled fresh (directive line :: ts) []) :
    us = [] ∨ ∃ more, us = newline :: more := by
  obtain ⟨hleads, hrest⟩ := hspelled
  obtain ⟨-, hnext⟩ := (leads_directive_iff line).mp hleads
  cases h with
  | nil => exact .inl rfl
  | @kept t ts us ht _ =>
    refine .inr ⟨us, ?_⟩
    rw [List.append_nil, List.flatMap_cons] at hnext
    rw [eq_newline_of_leads hrest.1 ?_]
    rcases hnext with hnone | ⟨hsome, -⟩
    · exact absurd (List.append_eq_nil_iff.mp (List.head?_eq_none_iff.mp hnone)).1 t.text_ne_nil
    · simpa using hsome
  | filled => simp [text] at hnext

/-- A text of spliced tokens spells them, in front of the end or of a line feed that may follow the
text of the source, if a line feed may follow every file. -/
theorem Spliced.spelled (h : Spliced holds ts us)
    (hholds : ∀ source, holds source → EndsLine (tokens true source)) {fresh : Bool}
    {rest : List Char} (hspelled : Spelled fresh ts [])
    (hrest : rest = [] ∨ rest.head? = some '\n' ∧ EndsLine ts) : Spelled fresh us rest := by
  induction h generalizing fresh rest with
  | nil => trivial
  | @kept t ts us ht hspliced ih =>
    obtain ⟨hleads, hspelled⟩ := hspelled
    refine ⟨?_, ih hspelled (hrest.imp_right (And.imp_right EndsLine.tail))⟩
    rw [List.append_nil] at hleads
    obtain ⟨halone, hstops⟩ := (leads_iff _ _ _).mp hleads
    -- What follows the token decides whether it is still read as it was.
    cases hspliced with
    | nil =>
      rcases hrest with rfl | ⟨hhead, hends⟩
      · exact hleads
      · refine (leads_iff _ _ _).mpr ⟨halone, ?_⟩
        rw [List.flatMap_nil, List.nil_append, hhead]
        exact hends t rfl ht
    | @kept next _ _ _ _ =>
      -- The next token is kept, so the next character is the same.
      refine hleads.congr ?_
      rw [List.flatMap_cons, List.flatMap_cons, List.append_assoc,
        List.head?_append_of_ne_nil _ next.text_ne_nil,
        List.head?_append_of_ne_nil _ next.text_ne_nil]
    | filled =>
      -- The line is fresh in front of an include directive, so anything may follow the token.
      obtain ⟨⟨hfresh, -⟩, -⟩ := (leads_directive_iff _).mp hspelled.1
      exact (leads_iff _ _ _).mpr ⟨halone, stops_of_hash hfresh (by simpa [text] using hstops) _⟩
  | @filled line source ts us inner hline hsource hinner hspliced ihInner ihRest =>
    -- The file is read on a fresh line, as at its own start, and a line feed or the end follows it.
    have hnext := hspliced.newline_of_directive hspelled
    obtain ⟨hleads, hspelled⟩ := hspelled
    obtain ⟨⟨rfl, -⟩, -⟩ := (leads_directive_iff _).mp hleads
    have hus := ihRest hspelled (hrest.imp_right (And.imp_right EndsLine.tail))
    rw [spelled_append_iff]
    rcases hnext with rfl | ⟨more, rfl⟩
    · refine ⟨ihInner (spelled_tokens true source) ?_, trivial⟩
      exact hrest.imp_right (And.imp_right fun _ => hholds source hsource)
    · refine ⟨ihInner (spelled_tokens true source) (.inr ⟨rfl, hholds source hsource⟩), ?_⟩
      exact spelled_newline_cons hus _

/-- An include directive is checked without effect. -/
theorem step?_of_isInclude {t : Token} (ht : t.isInclude = true) {n next : Nesting}
    (h : n.step? t = some next) : next = n := by
  cases t with
  | directive line =>
    have hpart : (directive line).part? = none := by
      have hname : String.ofList (DirectiveLine.name line) = "include" := by
        simpa [isInclude, Directive.isInclude, DirectiveLine.read] using ht
      rw [part?, hname]
      -- `include` is no part of a conditional.
      decide
    simp only [Nesting.step?, hpart] at h
    split at h
    · exact absurd h (by simp)
    · exact (Option.some.inj h).symm
  | _ => exact absurd ht (by simp [isInclude])

/-- The check of spliced tokens comes to what the check of the source comes to, if every file leaves
what is open around it as it is. -/
theorem Spliced.run? (h : Spliced holds ts us)
    (hholds : ∀ source, holds source → ∀ base : Nesting,
      base.run? (tokens true source) = some base)
    {n last : Nesting} (hrun : n.run? ts = some last) : n.run? us = some last := by
  induction h generalizing n last with
  | nil => exact hrun
  | kept ht hspliced ih =>
    obtain ⟨next, hstep, hrest⟩ := Option.bind_eq_some_iff.mp hrun
    rw [Nesting.run?, hstep, Option.bind_some]
    exact ih hrest
  | @filled line source ts us inner hline hsource hinner hspliced ihInner ihRest =>
    obtain ⟨next, hstep, hrest⟩ := Option.bind_eq_some_iff.mp hrun
    obtain rfl := step?_of_isInclude hline hstep
    rw [Nesting.run?_append, ihInner (hholds source hsource next), Option.bind_some]
    exact ihRest hrest

end Token

end ShaderTemplate
