import ShaderTemplate.Proofs.Expansion.Splice

/-!
# Reading an expansion again

The text of an expansion may be read as a source again. No include directive is found in it, unless
a file that was put into it ends in a directive line with a backslash, which takes in the line
behind its include directive (`reparse_expand`). It is in order, too, if every file closes the
conditionals that it opens and has no branch or end of a conditional of another file. Without these
two conditions neither is so (`not_forall_reparse_expand`).
-/

namespace ShaderTemplate

/-- Decide whether a token is a directive line with a backslash at its end. -/
def Token.endsInBackslash : Token → Bool
  | .directive line => line.getLast? == some '\\'
  | _ => false

/-- The last line of a source ends with the source: it is no directive line with a backslash at its
end. An include directive may have one, as it does not stay. -/
def EndsWithLine (source : String) : Prop :=
  ∀ t ∈ (Token.tokens true source.toList).getLast?, t.endsInBackslash = true → t.isInclude = true

/-- Every branch and every end of a conditional in a source stands in a conditional of the source,
and every conditional ends. -/
def ClosesConditionals (source : String) : Prop :=
  Token.depthAfter? 0 (Token.tokens true source.toList) = some 0

instance (source : String) : Decidable (EndsWithLine source) :=
  inferInstanceAs (Decidable (∀ t ∈ (Token.tokens true source.toList).getLast?, _))

instance (source : String) : Decidable (ClosesConditionals source) :=
  inferInstanceAs (Decidable (_ = _))

/-- A line feed may follow a source that is in order and ends with its last line. -/
theorem endsLine_of_endsWithLine {source : String} {t : Tree} (hparse : parseChunk source = .ok t)
    (hends : EndsWithLine source) : Token.EndsLine (Token.tokens true source.toList) := by
  obtain ⟨⟨last, hrun, -⟩, -⟩ := parseChunk_eq_ok_iff.mp hparse
  intro t ht hkeep
  cases t with
  | openComment body =>
    exact absurd (List.mem_of_getLast? ht) (Nesting.openComment_notMem_of_run? hrun body)
  | directive line =>
    refine .inr ⟨rfl, fun hlast => ?_⟩
    have hinclude := hends _ ht (by simp [Token.endsInBackslash, hlast])
    exact absurd (hinclude.symm.trans hkeep) (by simp)
  | lineComment | other => simp [Token.Stops]
  | blockComment | newline | blank | opener | closer => trivial

variable {config : Config} {host : Host} {source : String} {file : Path} {tree : Tree}
  {expansion : Expansion}

/-- The text of an expansion is cut into the spliced tokens of its files, if no line of a file that
was put in goes on behind the end of the file. -/
theorem spliced_tokens_of_expand {holds : List Char → Prop} (hparse : parseChunk source = .ok tree)
    (hexpand : ((⟨config, host, parseChunk⟩ : Setup).expand file tree).outcome = .ok expansion)
    (hfiles : ∀ path ∈ expansion.tree.chunkPaths, ∀ text loaded, host.read path = .ok text →
      parseChunk text = .ok loaded → holds text.toList)
    (hends : ∀ text, holds text → Token.EndsLine (Token.tokens true text)) :
    Token.Spliced holds (Token.tokens true source.toList)
      (Token.tokens true expansion.tree.render.toList) := by
  obtain ⟨us, hspliced, hrender⟩ := exists_spliced_of_expand hparse hexpand hfiles
  -- The source itself is followed by nothing, so its own last line may be any.
  have hspelled := hspliced.spelled hends (Token.spelled_tokens true source.toList) (.inl rfl)
  rw [hrender, Token.tokens_of_spelled hspelled]
  exact hspliced

/-- No include directive is found in the text of an expansion, if no line of a file that was put in
goes on behind the end of the file. The text is in order if every such file closes its own
conditionals, too. -/
theorem reparse_expand (config : Config) (host : Host) (source : String) (file : Path)
    {tree : Tree} {expansion : Expansion} (hparse : parseChunk source = .ok tree)
    (hexpand : ((⟨config, host, parseChunk⟩ : Setup).expand file tree).outcome = .ok expansion)
    (hends : ∀ path ∈ expansion.tree.chunkPaths, ∀ text, host.read path = .ok text →
      EndsWithLine text) :
    (∀ again, parseChunk expansion.tree.render = .ok again → again.query Node.isInclude = []) ∧
      ((∀ path ∈ expansion.tree.chunkPaths, ∀ text, host.read path = .ok text →
        ClosesConditionals text) →
          ∃ again, parseChunk expansion.tree.render = .ok again) := by
  constructor
  · -- Whatever is read comes from the spliced tokens, among which is no include directive.
    intro again hagain
    have hspliced : Token.Spliced (fun text => Token.EndsLine (Token.tokens true text))
        (Token.tokens true source.toList) (Token.tokens true expansion.tree.render.toList) :=
      spliced_tokens_of_expand hparse hexpand (fun path hpath text _ hread hloaded =>
        endsLine_of_endsWithLine hloaded (hends path hpath text hread)) fun _ h => h
    rw [(parseChunk_eq_ok_iff.mp hagain).2]
    exact Region.query_isInclude_tree hspliced.isInclude_eq_false _
  · -- Every file is checked without effect, so the check ends as that of the source does.
    intro hcloses
    have hspliced : Token.Spliced (fun text => Token.EndsLine (Token.tokens true text) ∧
        ∀ base : Nesting, base.run? (Token.tokens true text) = some base)
        (Token.tokens true source.toList) (Token.tokens true expansion.tree.render.toList) := by
      refine spliced_tokens_of_expand hparse hexpand ?_ fun _ h => h.1
      intro path hpath text loaded hread hloaded
      obtain ⟨⟨last, hrun, hopened⟩, -⟩ := parseChunk_eq_ok_iff.mp hloaded
      exact ⟨endsLine_of_endsWithLine hloaded (hends path hpath text hread),
        Nesting.run?_of_closed hrun hopened (hcloses path hpath text hread)⟩
    obtain ⟨⟨last, hrun, hopened⟩, -⟩ := parseChunk_eq_ok_iff.mp hparse
    exact ⟨_, parseChunk_eq_ok_iff.mpr
      ⟨⟨last, hspliced.run? (fun _ h => h.2) hrun, hopened⟩, rfl⟩⟩

/-- A file with a conditional. -/
def noiseFiles : List (Path × String) :=
  [(⟨"/noise.glsl"⟩, "#ifdef N\nfloat n;\n#endif")]

/-- A source that includes a file with a conditional, read again after its expansion. -/
theorem reparse_expand_noise : ∃ tree expansion again,
    parseChunk "#include noise\nfloat f;\n" = .ok tree ∧
      ((Setup.withFiles noiseFiles).expand ⟨"/main.glsl"⟩ tree).outcome = .ok expansion ∧
      parseChunk expansion.tree.render = .ok again ∧ again.query Node.isInclude = [] := by
  have hcomputed : ((parseChunk "#include noise\nfloat f;\n").toOption.bind fun tree =>
      ((Setup.withFiles noiseFiles).expand ⟨"/main.glsl"⟩ tree).outcome.toOption.map
        fun expansion => expansion.tree.chunkPaths) = some [⟨"/noise.glsl"⟩] := by decide +kernel
  obtain ⟨tree, expansion, hparse, hexpand, hpaths⟩ := exists_expansion_of_eq hcomputed
  have hread : ∀ path ∈ expansion.tree.chunkPaths, ∀ text,
      (Setup.withFiles noiseFiles).host.read path = .ok text →
        text = "#ifdef N\nfloat n;\n#endif" := by
    rw [hpaths]
    intro path hpath text htext
    rw [List.mem_singleton.mp hpath] at htext
    have hnoise : (Setup.withFiles noiseFiles).host.read ⟨"/noise.glsl"⟩ =
        .ok "#ifdef N\nfloat n;\n#endif" := by decide +kernel
    exact Except.ok.inj (htext.symm.trans hnoise)
  obtain ⟨free, inOrder⟩ := reparse_expand _ _ _ _ hparse hexpand fun path hpath text htext => by
    rw [hread path hpath text htext]
    decide +kernel
  obtain ⟨again, hagain⟩ := inOrder fun path hpath text htext => by
    rw [hread path hpath text htext]
    decide +kernel
  exact ⟨tree, expansion, again, hparse, hexpand, hagain, free again hagain⟩

/-- Neither half holds for all files. Behind a file that ends in a directive line with a backslash a
comment may start that is none in the text of the expansion, and an include directive in the comment
is one there. A file that branches a conditional of the source changes which brackets are open. -/
theorem not_forall_reparse_expand :
    (¬ ∀ (files : List (Path × String)) (source : String) (file : Path) (tree : Tree)
      (expansion : Expansion), parseChunk source = .ok tree →
        ((Setup.withFiles files).expand file tree).outcome = .ok expansion →
          ∀ again, parseChunk expansion.tree.render = .ok again →
            again.query Node.isInclude = []) ∧
      ¬ ∀ (files : List (Path × String)) (source : String) (file : Path) (tree : Tree)
        (expansion : Expansion), parseChunk source = .ok tree →
          ((Setup.withFiles files).expand file tree).outcome = .ok expansion →
            ∃ again, parseChunk expansion.tree.render = .ok again := by
  constructor
  · -- `#define A` goes on over the start of the comment.
    intro hevery
    have hcomputed : ((parseChunk "#include b\n/*\n#include c\n*/\n").toOption.bind fun tree =>
        ((Setup.withFiles [(⟨"/b.glsl"⟩, "#define A \\")]).expand ⟨"/main.glsl"⟩
          tree).outcome.toOption.map fun expansion =>
            (parseChunk expansion.tree.render).toOption.map fun again =>
              again.query Node.isInclude) = some (some [[2]]) := by decide +kernel
    obtain ⟨tree, expansion, hparse, hexpand, hagain⟩ := exists_expansion_of_eq hcomputed
    obtain ⟨again, hagain, hquery⟩ := Option.map_eq_some_iff.mp hagain
    have hnil := hevery _ _ _ tree expansion hparse hexpand again (toOption_eq_some_iff.mp hagain)
    exact absurd (hquery.symm.trans hnil) (by simp)
  · -- After the branch of the file the bracket is not open any more.
    intro hevery
    have hcomputed : ((parseChunk "#ifdef A\n(\n#include b\n)\n#endif\n").toOption.bind fun tree =>
        ((Setup.withFiles [(⟨"/b.glsl"⟩, "#else\n")]).expand ⟨"/main.glsl"⟩
          tree).outcome.toOption.map fun expansion =>
            (parseChunk expansion.tree.render).toOption) = some none := by decide +kernel
    obtain ⟨tree, expansion, hparse, hexpand, hnone⟩ := exists_expansion_of_eq hcomputed
    obtain ⟨again, hagain⟩ := hevery _ _ _ tree expansion hparse hexpand
    exact absurd (hnone.symm.trans (toOption_eq_some_iff.mpr hagain)) (by simp)

end ShaderTemplate
