import ShaderTemplate.Proofs.Expansion.Dependencies
import ShaderTemplate.Proofs.Expansion.Inlining
import ShaderTemplate.Proofs.Parser.Boundary
import ShaderTemplate.Proofs.Parser.Nesting
import ShaderTemplate.Proofs.Parser.Regions
import ShaderTemplate.Proofs.Template.Concatenation

/-!
# Variables of spliced texts

The variables of a compilation are looked for when all files are in one text. Nothing but blanks and
comments stands before an include directive on its line, and nothing behind it. So the text is cut
where a file was put in, before and behind the file, at a blank, at the slash that closes a comment,
or at the end of the text; a marker that has neither blanks nor slashes does not go over such a cut,
and no name does (`Tree.Filled.ofSource_render`). The segments of a compilation are therefore those
of the pieces of its files, each compiled on its own (`Compiler.compile_segments_of_pieces`).
-/

namespace ShaderTemplate

/-! ## Characters around include directives -/

/-- No name goes on with a blank. -/
theorem Identifier.isContinuation_of_isBlank {c : Char} (h : Text.isBlank c = true) :
    isContinuation c = false := by
  -- The characters of names lie between the blanks of ASCII and all others.
  have hblank : c.toNat ≤ 32 ∨ 133 ≤ c.toNat := by
    simp only [Text.isBlank, Bool.or_eq_true, Bool.and_eq_true, decide_eq_true_eq, beq_iff_eq,
      or_assoc] at h
    rcases h with rfl | ⟨-, high⟩ | rfl | rfl | rfl | ⟨low, -⟩ | rfl | rfl | rfl | rfl | rfl
    case inr.inl => exact .inl (Nat.le_trans high (by decide))
    case inr.inr.inr.inr.inr.inl => exact .inr (Nat.le_trans (by decide) low)
    all_goals decide
  rw [Bool.eq_false_iff]
  intro hc
  have hname : 48 ≤ c.toNat ∧ c.toNat ≤ 122 := by
    delta isContinuation Char.isAlphanum Char.isAlpha Char.isUpper Char.isLower Char.isDigit at hc
    simp only [Bool.or_eq_true, Bool.and_eq_true, decide_eq_true_eq, beq_iff_eq, ge_iff_le,
      UInt32.le_iff_toNat_le, Char.toNat_val] at hc
    rcases hc with ((⟨low, high⟩ | ⟨low, high⟩) | ⟨low, high⟩) | rfl
    · exact ⟨Nat.le_trans (by decide) low, Nat.le_trans high (by decide)⟩
    · exact ⟨Nat.le_trans (by decide) low, Nat.le_trans high (by decide)⟩
    · exact ⟨low, Nat.le_trans high (by decide)⟩
    · decide
  omega

/-- A character that may stand before a directive: a blank, or the slash that closes a comment. -/
def isFence (c : Char) : Bool :=
  Text.isBlank c || c == '/'

/-- What stands before a directive is free, for a marker without blanks and slashes. -/
theorem Mark.isFree_of_isFence {marker : List Char}
    (hmarker : ∀ c ∈ marker, Text.isBlank c = false ∧ c ≠ '/') {c : Char} (hc : isFence c = true) :
    IsFree marker c := by
  rcases Bool.or_eq_true_iff.mp hc with hblank | hslash
  · refine ⟨fun hmem => ?_, Identifier.isContinuation_of_isBlank hblank⟩
    exact absurd hblank (by simp [(hmarker c hmem).1])
  · obtain rfl := eq_of_beq hslash
    exact ⟨fun hmem => (hmarker '/' hmem).2 rfl, by decide⟩

/-- The last character of a token in front of a directive line. -/
theorem Token.isFence_of_leads {fresh : Bool} {t : Token} {line : List Char}
    (ht : t.Leads fresh ('#' :: line)) (hfresh : t.freshAfter fresh = true) :
    ∀ c ∈ t.text.getLast?, isFence c = true := by
  have hstops := ((leads_iff _ _ _).mp ht).2
  intro c hc
  cases t with
  | lineComment | openComment | directive => simp [Stops] at hstops
  | opener | closer | other => simp [freshAfter] at hfresh
  | blockComment body =>
    have htext : (blockComment body).text = ('/' :: '*' :: body ++ ['*']) ++ ['/'] := by simp [text]
    rw [htext, List.getLast?_concat] at hc
    obtain rfl := Option.some.inj hc
    decide
  | newline =>
    obtain rfl : '\n' = c := by simpa [text] using hc
    decide
  | blank d =>
    obtain rfl : d = c := by simpa [text] using hc
    -- A token of a blank is read from a blank only.
    have hread := eq_ofChar_of_leads rfl (by simp) ht
    unfold ofChar at hread
    split at hread
    · exact absurd hread (by simp)
    · split at hread
      next hblank => simp [isFence, hblank]
      · split at hread
        · exact absurd hread (by simp)
        · split at hread <;> exact absurd hread (by simp)

/-! ## Fenced trees -/

namespace Tree

/-- A tree whose text is empty or starts with a line feed. -/
def StartsLine : Tree → Prop
  | .empty => True
  | .leaf (.text content) _ => content.toList.head? = some '\n'
  | _ => False

/-- The text `before` and a tree behind it, in which the include directives stand between lines:
the text before each of them, back to the last one, ends in a fence if it is not empty, and what
stands behind each starts with a line feed. No file is put in yet. -/
def Fenced : List Char → Tree → Prop
  | _, .empty => True
  | before, .leaf item rest =>
    if item.include?.isSome then
      (∀ c ∈ before.getLast?, isFence c = true) ∧ rest.StartsLine ∧ rest.Fenced []
    else rest.Fenced (before ++ item.render.toList)
  | _, .chunk .. => False

end Tree

namespace Region

/-- Text in front of a tree may be part of its first leaf. -/
theorem fenced_prepend_iff {before content : List Char} {position : Position}
    {regions : List Region} :
    (tree position (prepend content regions)).Fenced before ↔
      (tree (position.advance content) regions).Fenced (before ++ content) := by
  unfold prepend
  split
  next more rest =>
    simp [tree, leaf, Tree.Fenced, Leaf.include?, Leaf.render, Region.content, Position.advance_append]
  next => simp [tree, leaf, Tree.Fenced, Leaf.include?, Leaf.render, Region.content]

/-- Tokens that are spelled in front of a line feed or at the end of a text. -/
theorem startsLine_tree {ts : List Token} {fresh : Bool} (h : Token.Spelled fresh ts [])
    (hhead : (ts.flatMap Token.text).head? = none ∨ (ts.flatMap Token.text).head? = some '\n')
    (position : Position) : (tree position (ofTokens ts)).StartsLine := by
  cases ts with
  | nil => trivial
  | cons t ts =>
    obtain rfl : t = .newline := by
      refine Token.eq_newline_of_leads h.1 ?_
      rcases hhead with hnone | hsome
      · exact absurd hnone (by simp [t.text_ne_nil])
      · rwa [List.append_nil]
    rw [ofTokens_cons_of_ne (by simp)]
    unfold prepend
    split
    · simp [tree, leaf, Tree.StartsLine, Token.text]
    · simp [tree, leaf, Tree.StartsLine, Token.text]

/-- The tree of a source is fenced: whatever token stands before a directive line ends in a
fence. -/
theorem fenced_tree {ts : List Token} {fresh : Bool} (h : Token.Spelled fresh ts [])
    {before : List Char}
    (hbefore : ∀ line rest, ts = .directive line :: rest → ∀ c ∈ before.getLast?, isFence c = true)
    (position : Position) : (tree position (ofTokens ts)).Fenced before := by
  induction ts generalizing fresh before position with
  | nil => trivial
  | cons t ts ih =>
    obtain ⟨hleads, hrest⟩ := h
    -- The tree behind the token is fenced with the token before it.
    have hafter : ∀ position, (tree position (ofTokens ts)).Fenced (before ++ t.text) := by
      refine fun position => ih hrest (fun line rest hts c hc => ?_) position
      subst hts
      have hfresh := ((Token.leads_directive_iff line).mp hrest.1).1.1
      refine Token.isFence_of_leads (by simpa [Token.text] using hleads) hfresh c ?_
      rw [List.getLast?_append_of_ne_nil _ t.text_ne_nil] at hc
      exact hc
    obtain ⟨line, rfl⟩ | ht := Classical.em (∃ line, t = .directive line)
    · rw [ofTokens, tree, Tree.Fenced]
      split
      · -- The text is cut here, so what follows has nothing before it.
        refine ⟨hbefore line ts rfl, startsLine_tree hrest ?_ _, ih hrest (by simp) _⟩
        have hhead := ((Token.leads_directive_iff line).mp hleads).2
        rw [List.append_nil] at hhead
        exact hhead.imp_right And.left
      · rw [toList_render_leaf]
        exact hafter _
    · rw [ofTokens_cons_of_ne ht, fenced_prepend_iff]
      exact hafter _

end Region

/-- The include directives of a source stand between its lines. -/
theorem fenced_of_parseChunk {source : String} {t : Tree} (h : parseChunk source = .ok t) :
    t.Fenced [] := by
  rw [(parseChunk_eq_ok_iff.mp h).2]
  exact Region.fenced_tree (Token.spelled_tokens true source.toList) (by simp) _

/-! ## Pieces -/

/-- Put a text in front of the first of some pieces. -/
def glue (text : String) : List String → List String
  | [] => [text]
  | piece :: rest => (text ++ piece) :: rest

@[simp] theorem glue_glue (a b : String) (pieces : List String) :
    glue a (glue b pieces) = glue (a ++ b) pieces := by
  cases pieces <;> simp [glue, String.append_assoc]

@[simp] theorem join_glue (text : String) (pieces : List String) :
    String.join (glue text pieces) = text ++ String.join pieces := by
  cases pieces <;> simp [glue, String.append_assoc]

namespace Tree

/-- Cut the text of one file at its include directives, each of which is left out. A chunk stands
in the place of a directive, and its own text is not part of the file around it. -/
def cut : Tree → List String
  | .empty => [""]
  | .leaf item rest => if item.include?.isSome then "" :: rest.cut else glue item.render rest.cut
  | .chunk _ _ rest => "" :: rest.cut

/-- The pieces of a file and of all files in it, in the order of the text. -/
def pieces : Tree → List String
  | .empty => [""]
  | .leaf item rest =>
    if item.include?.isSome then "" :: rest.pieces else glue item.render rest.pieces
  | .chunk _ inner rest => "" :: (inner.pieces ++ rest.pieces)

/-- List the chunks of a tree in document order. -/
def chunks : Tree → List Chunk
  | .empty => []
  | .leaf _ rest => rest.chunks
  | .chunk path inner rest => ⟨path, inner⟩ :: inner.chunks ++ rest.chunks

namespace Filled

variable {holds : Path → Tree → Prop} {t filled : Tree}

/-- Chunks are put in where a file is cut, so the file has the same pieces as before. -/
theorem cut_eq (h : t.Filled holds filled) : filled.cut = t.cut := by
  induction h with
  | empty => rfl
  | leaf hitem _ ih => simp [cut, hitem, ih]
  | directive hitem _ _ _ _ ihRest => simp [cut, hitem, ihRest]
  | chunk _ _ _ ihRest => simp [cut, ihRest]

/-- Every chunk has the pieces of a file, if files have no chunks of their own. -/
theorem exists_cut_eq_of_mem_chunks (h : t.Filled holds filled)
    (hholds : ∀ path loaded, holds path loaded → loaded.Fenced []) {before : List Char}
    (ht : t.Fenced before) {chunk : Chunk} (hchunk : chunk ∈ filled.chunks) :
    ∃ loaded, holds chunk.path loaded ∧ chunk.tree.cut = loaded.cut := by
  induction h generalizing before with
  | empty => exact absurd hchunk (by simp [chunks])
  | leaf hitem _ ih =>
    rw [Fenced, hitem, if_neg (by simp)] at ht
    exact ih ht hchunk
  | @directive _ _ path loaded _ _ _ hitem hloaded hinner _ ihInner ihRest =>
    rw [Fenced, hitem, if_pos (by simp)] at ht
    rcases List.mem_append.mp hchunk with hchunk | hchunk
    · rcases List.mem_cons.mp hchunk with rfl | hchunk
      · exact ⟨loaded, hloaded, hinner.cut_eq⟩
      · exact ihInner (hholds path loaded hloaded) hchunk
    · exact ihRest ht.2.2 hchunk
  | chunk => exact absurd ht (by simp [Fenced])

/-- The text of a filled tree is that of its pieces, one after the other. -/
theorem join_pieces (h : t.Filled holds filled) : String.join filled.pieces = filled.render := by
  induction h with
  | empty => rfl
  | leaf hitem _ ih => simp [pieces, render, hitem, ih]
  | directive _ _ _ _ ihInner ihRest => simp [pieces, render, ihInner, ihRest]
  | chunk _ _ ihInner ihRest => simp [pieces, render, ihInner, ihRest]

/-- A tree whose text starts a line does so when it is filled. -/
theorem head?_of_startsLine (h : t.Filled holds filled) (ht : t.StartsLine) :
    ∀ c ∈ filled.render.toList.head?, c = '\n' := by
  cases h with
  | empty => simp [render]
  | @leaf item _ _ _ _ =>
    cases item with
    | directive line => exact ht.elim
    | text content =>
      intro c hc
      obtain ⟨more, hmore⟩ := List.head?_eq_some_iff.mp ht
      simpa [render, Leaf.render, hmore, eq_comm] using hc
  | @directive item _ _ _ _ _ _ hitem =>
    cases item with
    | directive line => exact ht.elim
    | text content => exact absurd hitem (by simp [Leaf.include?])
  | chunk => exact ht.elim

/-- Nothing put in front of pieces changes none of their marks. -/
theorem flatMap_ofSource_glue_empty (marker : List Char) (pieces : List String) :
    ((glue "" pieces).flatMap fun piece => Mark.ofSource marker piece.toList) =
      pieces.flatMap fun piece => Mark.ofSource marker piece.toList := by
  cases pieces <;> simp [glue]

/-- The marks of a filled tree are those of its pieces, if no marker has the characters that stand
around include directives. -/
theorem ofSource_render (h : t.Filled holds filled)
    (hholds : ∀ path loaded, holds path loaded → loaded.Fenced []) {marker : List Char}
    (hmarker : ∀ c ∈ marker, Text.isBlank c = false ∧ c ≠ '/') {before : String}
    (ht : t.Fenced before.toList) :
    Mark.ofSource marker (before ++ filled.render).toList =
      (glue before filled.pieces).flatMap fun piece => Mark.ofSource marker piece.toList := by
  -- `before` is what stands in front of the tree back to the last cut.
  induction h generalizing before with
  | empty => simp [render, pieces, glue]
  | @leaf item _ _ hitem _ ih =>
    rw [Fenced, hitem, if_neg (by simp), ← String.toList_append] at ht
    simp only [render, pieces, hitem]
    rw [← String.append_assoc, ih ht]
    simp
  | @directive _ _ path loaded inner _ filledRest hitem hloaded hinner hrest ihInner ihRest =>
    rw [Fenced, hitem, if_pos (by simp)] at ht
    obtain ⟨hlast, hstarts, hfenced⟩ := ht
    -- The first seam is where the file begins, the second where it ends. Around the first the
    -- text before the directive decides, around the second the line feed behind it.
    have hbefore : Mark.Seam marker before.toList (inner.render ++ filledRest.render).toList :=
      .inl fun c hc => Mark.isFree_of_isFence hmarker (hlast c hc)
    have hbehind : Mark.Seam marker inner.render.toList filledRest.render.toList := by
      refine .inr fun c hc => Mark.isFree_of_isFence hmarker ?_
      rw [hrest.head?_of_startsLine hstarts c hc]
      decide
    have hinside := @ihInner "" (hholds path loaded hloaded)
    have hremains := @ihRest "" hfenced
    rw [String.empty_append, flatMap_ofSource_glue_empty] at hinside hremains
    rw [render, String.toList_append, Mark.ofSource_append hbefore, String.toList_append,
      Mark.ofSource_append hbehind, hinside, hremains]
    simp [pieces, glue]
  | chunk => exact absurd ht (by simp [Fenced])

end Filled

end Tree

namespace Compiler

/-- The template of a compilation is that of the pieces of its files. Every file is cut at its
include directives, and the pieces are listed in the order of the expanded text. If the marker has
no blanks and no slashes, the segments are those of the pieces, each compiled on its own, with
neighbouring literals merged. So the text of the template is that of the pieces, and its variables
are theirs, each where it appears first. -/
theorem compile_segments_of_pieces {compiler : Compiler} {source : String} {file : Path}
    {compilation : Compilation} (hparser : compiler.parser = parseChunk)
    (hmarker : ∀ c ∈ compiler.config.marker.toList, Text.isBlank c = false ∧ c ≠ '/')
    (h : (compiler.compile source file).outcome = .ok compilation) :
    ∃ tree expansion, parseChunk source = .ok tree ∧
      (compiler.toSetup.expand file tree).outcome = .ok expansion ∧
      expansion.tree.cut = tree.cut ∧
      (∀ chunk ∈ expansion.tree.chunks, ∃ text loaded,
        compiler.host.read chunk.path = .ok text ∧ parseChunk text = .ok loaded ∧
          chunk.tree.cut = loaded.cut) ∧
      compilation.template.segments = Segment.merged (expansion.tree.pieces.flatMap fun piece =>
        (Template.compile piece compiler.config.marker).segments) ∧
      compilation.template.render = String.join expansion.tree.pieces ∧
      compilation.template.variableNames = (expansion.tree.pieces.flatMap fun piece =>
        (Template.compile piece compiler.config.marker).variableNames).eraseDups := by
  obtain ⟨tree, expansion, hparsed, hexpand, rfl⟩ := outcome_compile_eq_ok_iff.mp h
  rw [hparser] at hparsed
  have hexpansion := Setup.expand_eq_inlined compiler.toSetup file tree
  rw [hexpand] at hexpansion
  obtain ⟨-, -, hfilled⟩ := hexpansion
  have hfenced := fenced_of_parseChunk hparsed
  have hholds : ∀ path loaded, compiler.toSetup.Holds path loaded → loaded.Fenced [] := by
    rintro path loaded ⟨text, -, hloaded⟩
    rw [hparser] at hloaded
    exact fenced_of_parseChunk hloaded
  -- Nothing stands before the source itself.
  have hmarks := @Tree.Filled.ofSource_render _ _ _ hfilled hholds _ hmarker "" hfenced
  rw [String.empty_append, Tree.Filled.flatMap_ofSource_glue_empty] at hmarks
  have hsegments := Template.segments_compile_of_ofSource hmarks
  refine ⟨tree, expansion, hparsed, hexpand, hfilled.cut_eq, fun chunk hchunk => ?_, hsegments, ?_,
    Template.variableNames_compile_of_segments hsegments⟩
  · obtain ⟨loaded, ⟨text, hread, hloaded⟩, hcut⟩ :=
      hfilled.exists_cut_eq_of_mem_chunks hholds hfenced hchunk
    exact ⟨text, loaded, hread, hparser ▸ hloaded, hcut⟩
  · rw [hfilled.join_pieces]
    exact Template.render_compile _ _

/-- A file that starts with an include directive and ends in a variable, and one that is a marker
alone. -/
def nestedFiles : FileTree :=
  .ofList [(⟨"/tint.glsl"⟩, "#include sign\n$hue"), (⟨"/sign.glsl"⟩, "$")]

/-- A source with markers next to its cuts, none of which is joined with a name behind the cut. -/
theorem compile_segments_of_pieces_nested : ∃ compilation,
    ((standard.on nestedFiles).compile "/*$size*/#include tint\nfloat $hue;"
      ⟨"/main.glsl"⟩).outcome = .ok compilation ∧
    compilation.template.segments =
      [.literal "/*", .var "size", .literal "*/$\n", .var "hue", .literal "\nfloat ", .var "hue",
        .literal ";"] ∧
    compilation.template.render = "/*$size*/$\n$hue\nfloat $hue;" ∧
    compilation.template.variableNames = ["size", "hue"] := by
  have compiled : ((standard.on nestedFiles).compile "/*$size*/#include tint\nfloat $hue;"
      ⟨"/main.glsl"⟩).outcome.toOption.isSome = true := by decide +kernel
  have cutUp : ((parseChunk "/*$size*/#include tint\nfloat $hue;").toOption.bind fun tree =>
      ((standard.on nestedFiles).toSetup.expand ⟨"/main.glsl"⟩ tree).outcome.toOption.map
        fun expansion => expansion.tree.pieces) =
      some ["/*$size*/", "", "$", "\n$hue", "\nfloat $hue;"] := by decide +kernel
  obtain ⟨compilation, hcompilation⟩ := Option.isSome_iff_exists.mp compiled
  have hok := toOption_eq_some_iff.mp hcompilation
  have hmarker : ∀ c ∈ (standard.on nestedFiles).config.marker.toList,
      Text.isBlank c = false ∧ c ≠ '/' := by
    intro c hc
    obtain rfl : c = '$' := by simpa [standard, on] using hc
    decide
  obtain ⟨tree, expansion, hparsed, hexpand, -, -, hsegments, hrender, hnames⟩ :=
    compile_segments_of_pieces rfl hmarker hok
  have hpieces : expansion.tree.pieces = ["/*$size*/", "", "$", "\n$hue", "\nfloat $hue;"] := by
    simpa [toOption_eq_some_iff.mpr hparsed, toOption_eq_some_iff.mpr hexpand] using cutUp
  rw [hpieces] at hsegments hrender hnames
  refine ⟨compilation, hok, ?_, ?_, ?_⟩
  · rw [hsegments]
    decide +kernel
  · rw [hrender]
    decide +kernel
  · rw [hnames]
    decide +kernel

end Compiler

end ShaderTemplate
