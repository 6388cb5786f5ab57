import Mathlib.Data.List.Nodup
import ShaderTemplate.Proofs.Expansion.Failure
import ShaderTemplate.Proofs.Expansion.IncludeGraph
import ShaderTemplate.Proofs.Expansion.Inlining

/-!
# Cycles of includes

An expansion looks for a file among those around the directive that names it, so what it finds are
ways of the include graph, not the graph. Over a complete graph this makes no difference: an
expansion succeeds exactly if the root reaches no circle, and what it reports otherwise is a lasso
of the graph (`expand_iff_acyclic`). A file that is included twice, or by way of two others, makes
no circle.

An expansion that succeeds has put every file that the root reaches inside those that lead to it,
and there is an end to that (`Inlines.not_transGen`). The directives of an expansion stand at the
end of ways of the graph (`Placed`), so a directive at which it fails closes a lasso.
-/

namespace ShaderTemplate

/-- If a tree is inlined, so is the tree of every file that one of its directives names. -/
theorem Setup.exists_inlined_of_mem_includes {setup : Setup} {above : List Path} {issuer : Path}
    {t filled : Tree} (h : setup.inlined above issuer t = some filled) {line : Directive}
    (hline : line ∈ t.includes) :
    ∃ loaded inner, setup.fetch? line.value above issuer = some loaded ∧
      setup.inlined (above ++ [issuer]) loaded.path loaded.tree = some inner := by
  induction t generalizing filled with
  | empty => exact absurd hline (by simp [Tree.includes])
  | leaf item rest ih =>
    cases hinclude : item.include? with
    | none =>
      have hrest : line ∈ rest.includes := by simpa [Tree.includes, hinclude] using hline
      rw [inlined_leaf_of_none hinclude] at h
      obtain ⟨filledRest, hfilled, -⟩ := Option.map_eq_some_iff.mp h
      exact ih hfilled hrest
    | some own =>
      rw [inlined_leaf_of_some hinclude] at h
      obtain ⟨loaded, hloaded, h⟩ := Option.bind_eq_some_iff.mp h
      obtain ⟨inner, hinner, h⟩ := Option.bind_eq_some_iff.mp h
      obtain ⟨filledRest, hfilled, -⟩ := Option.map_eq_some_iff.mp h
      have hcases : line = own ∨ line ∈ rest.includes := by
        simpa [Tree.includes, hinclude] using hline
      rcases hcases with rfl | hrest
      · exact ⟨loaded, inner, hloaded, hinner⟩
      · exact ih hfilled hrest
  | chunk path inner rest _ ih =>
    rw [inlined_chunk] at h
    obtain ⟨_, -, h⟩ := Option.bind_eq_some_iff.mp h
    obtain ⟨filledRest, hfilled, -⟩ := Option.map_eq_some_iff.mp h
    exact ih hfilled hline

namespace IncludeGraph

variable {g : IncludeGraph} {p q : Path} {above : List Path} {site : Site} {t : Tree}

/-! ## Expansions that succeed -/

/-- The tree of a file is inlined where the file stands in the files `above`, the root being one of
them or the file. -/
structure Inlines (g : IncludeGraph) (above : List Path) (p : Path) : Prop where
  /-- The root is there. -/
  root_mem : g.root ∈ above ++ [p]
  /-- The tree is inlined. -/
  inlined : ∃ t filled, g.tree? p = some t ∧ g.setup.inlined above p t = some filled

/-- A file that is inlined has every file that it includes inlined inside it, with fewer files left
for those. -/
theorem Inlines.step (h : g.Inlines above p) (hstep : g.Includes p q) :
    g.Inlines (above ++ [p]) q ∧
      g.files.host.remaining (above ++ [p] ++ [q]) < g.files.host.remaining (above ++ [p]) := by
  obtain ⟨t, filled, htree, hfilled⟩ := h.inlined
  obtain ⟨other, hother, line, hline, htarget⟩ := hstep
  obtain rfl := Option.some.inj (htree.symm.trans hother)
  obtain ⟨loaded, inner, hloaded, hinner⟩ := Setup.exists_inlined_of_mem_includes hfilled hline
  have hremaining := Setup.remaining_lt_of_fetch? hloaded
  obtain ⟨hfound, hnew, text, hread, hparse⟩ := Setup.fetch?_eq_some_iff.mp hloaded
  obtain rfl : loaded.path = q := Except.ok.inj (hfound.symm.trans htarget)
  -- The root is among the files around, so the text of the file is the one that is read.
  have hne : loaded.path ≠ g.root := by
    intro heq
    exact hnew g.root h.root_mem (heq ▸ Path.Same.rfl)
  exact ⟨⟨List.mem_append_left _ h.root_mem,
    loaded.tree, inner, tree?_of_ne_root hne hread hparse, hinner⟩, hremaining⟩

/-- Every file that an inlined file leads to is inlined somewhere. -/
theorem Inlines.exists_of_reflTransGen (h : g.Inlines above p)
    (hway : Relation.ReflTransGen g.Includes p q) : ∃ deeper, g.Inlines deeper q := by
  induction hway with
  | refl => exact ⟨above, h⟩
  | tail _ hstep ih =>
    obtain ⟨deeper, hinlines⟩ := ih
    exact ⟨_, (hinlines.step hstep).1⟩

/-- A file that is inlined does not lead to itself. -/
theorem Inlines.not_transGen (h : g.Inlines above p) : ¬ Relation.TransGen g.Includes p p := by
  -- A circle through a file is one through the next file, for which fewer files are left.
  induction hn : g.files.host.remaining (above ++ [p]) using Nat.strong_induction_on
    generalizing above p with
  | h n ih =>
    intro hcircle
    obtain ⟨next, hfirst, hrest⟩ := Relation.TransGen.head'_iff.mp hcircle
    obtain ⟨hnext, hlt⟩ := h.step hfirst
    exact ih _ (hn ▸ hlt) hnext rfl (.tail' hrest hfirst)

/-- If an expansion succeeds, the root reaches no circle. -/
theorem acyclic_of_expand {expansion : Expansion} (hparse : parseChunk g.source = .ok t)
    (h : (g.setup.expand g.file t).outcome = .ok expansion) : g.Acyclic := by
  -- What the expansion comes to is what the recursion makes of the root.
  have hinlined := (Setup.run_expand g.setup g.file t).inlined_eq
  rw [h] at hinlined
  have hroot : g.Inlines [] g.root :=
    ⟨List.mem_singleton_self _, t, expansion.tree, tree?_root hparse, hinlined⟩
  intro p hreaches
  obtain ⟨deeper, hinlines⟩ := hroot.exists_of_reflTransGen hreaches
  exact hinlines.not_transGen

/-! ## Expansions that fail -/

/-- A directive stands at the end of a way from the root over distinct files. -/
structure Placed (g : IncludeGraph) (site : Site) : Prop where
  /-- The way starts with the root. -/
  starts : site.chain.head? = some g.root
  /-- The files are in normal form. -/
  normal : ∀ p ∈ site.chain, p.normalize = p
  /-- No file comes twice. -/
  distinct : site.chain.Nodup
  /-- Each file includes the next. -/
  chained : site.chain.IsChain g.Includes
  /-- The directive is one of its issuer. -/
  issued : ∃ t, g.tree? site.issuer = some t ∧ ∃ line ∈ t.includes, line.value = site.value

/-- The issuer includes the file that the directive names. -/
theorem Placed.includes (h : g.Placed site)
    (hfound : resolve g.files.host site.value site.issuer g.config = .ok p) :
    g.Includes site.issuer p := by
  obtain ⟨t, htree, line, hline, hvalue⟩ := h.issued
  exact ⟨t, htree, line, hline, by rwa [target, hvalue]⟩

/-- The root reaches the issuer. -/
theorem Placed.reaches_issuer (h : g.Placed site) : g.Reaches site.issuer :=
  reaches_of_isChain h.starts h.chained (List.mem_append_right _ (List.mem_singleton_self _))

/-- The way may be continued by the file that the directive names. -/
theorem Placed.isChain_concat (h : g.Placed site)
    (hfound : resolve g.files.host site.value site.issuer g.config = .ok p) :
    (site.chain ++ [p]).IsChain g.Includes := by
  refine h.chained.append (.singleton _) ?_
  simpa [Site.chain] using h.includes hfound

/-- The directives of the root are placed. -/
theorem placed_of_mem_sites (htree : g.tree? g.root = some t) (hsite : site ∈ t.sites [] g.root) :
    g.Placed site := by
  rw [Tree.sites_of_chunkPaths_eq_nil (chunkPaths_of_tree? htree)] at hsite
  obtain ⟨line, hline, rfl⟩ := List.mem_map.mp hsite
  exact
    { starts := rfl
      normal := by simpa [Site.chain] using g.normalize_root
      distinct := List.nodup_singleton _
      chained := .singleton _
      issued := ⟨t, htree, line, hline, rfl⟩ }

/-- The directives of a chunk are placed if the directive is that the chunk is put in for. -/
theorem Placed.of_chunkAt {inner : Site} {loaded : Chunk} (h : g.Placed site)
    (hloaded : g.setup.chunkAt site = some loaded)
    (hinner : inner ∈ loaded.tree.sites site.chain loaded.path.normalize) : g.Placed inner := by
  obtain ⟨hfound, hnew, text, hread, hparse⟩ := Setup.chunkAt_eq_some_iff.mp hloaded
  have hnormal : loaded.path.normalize = loaded.path := (h.includes hfound).normalize_eq
  have hnotMem : loaded.path ∉ site.chain := by
    intro hmem
    exact hnew _ hmem Path.Same.rfl
  -- The chain starts with the root, so the chunk is not the given text.
  have hne : loaded.path ≠ g.root := by
    intro heq
    exact hnotMem (heq ▸ List.mem_of_head? h.starts)
  have htree : g.tree? loaded.path = some loaded.tree := tree?_of_ne_root hne hread hparse
  rw [Tree.sites_of_chunkPaths_eq_nil (chunkPaths_of_tree? htree), hnormal] at hinner
  obtain ⟨line, hline, rfl⟩ := List.mem_map.mp hinner
  -- The files around the inner directive are those around the outer one and the file of the chunk.
  exact
    { starts := by
        show (site.chain ++ [loaded.path]).head? = some g.root
        rw [List.head?_append, h.starts, Option.some_or]
      normal := by
        show ∀ p ∈ site.chain ++ [loaded.path], p.normalize = p
        simpa [or_imp, forall_and] using ⟨h.normal, hnormal⟩
      distinct := by
        show (site.chain ++ [loaded.path]).Nodup
        exact List.nodup_append'.mpr ⟨h.distinct, List.nodup_singleton _, by simpa using hnotMem⟩
      chained := h.isChain_concat hfound
      issued := ⟨loaded.tree, htree, line, hline, rfl⟩ }

/-- If a directive names a file around it, the way to the directive and that file are a lasso. -/
theorem Placed.lasso (h : g.Placed site)
    (hfound : resolve g.files.host site.value site.issuer g.config = .ok p)
    (hagain : ∃ file ∈ site.chain, p.Same file) : g.Lasso (site.chain ++ [p]) := by
  obtain ⟨file, hfile, hsame⟩ := hagain
  -- Two normal forms that take the same steps are one path.
  obtain rfl : p = file := hsame.eq (normalize_of_resolve hfound) (h.normal file hfile)
  exact
    { starts := by rw [List.head?_append, h.starts, Option.some_or]
      distinct := by simpa using h.distinct
      returns := ⟨p, by simp, by simpa using List.count_eq_one_of_mem h.distinct hfile⟩
      chained := h.isChain_concat hfound }

/-- In a complete graph a load fails only if its file makes a lasso. -/
theorem Placed.exists_lasso_of_error? {e : Error} (h : g.Placed site) (hcomplete : g.Complete)
    (herror : (g.setup.load site).error? = some e) :
    ∃ cycle, e = .cyclicInclude cycle ∧ g.Lasso cycle := by
  -- The directive names a file, as the graph is complete.
  obtain ⟨t, htree, line, hline, hvalue⟩ := h.issued
  obtain ⟨q, hq⟩ := hcomplete.resolves site.issuer t h.reaches_issuer htree line hline
  have hfound : resolve g.files.host site.value site.issuer g.config = .ok q := by
    rwa [target, hvalue] at hq
  have hincludes : g.Includes site.issuer q := h.includes hfound
  rcases Setup.error?_load_eq_some_iff.mp herror with hnone | ⟨path, hpath, hfails⟩
  · exact absurd (hnone.symm.trans hfound) (by simp)
  obtain rfl : q = path := Except.ok.inj (hfound.symm.trans hpath)
  rcases hfails with ⟨hagain, rfl⟩ | ⟨hnew, ⟨cause, hread, -⟩ | ⟨text, fault, hread, hparse, -⟩⟩
  · exact ⟨_, rfl, h.lasso hfound hagain⟩
  · -- The file is there, so it can be read.
    obtain ⟨text, htext⟩ := Option.isSome_iff_exists.mp hincludes.find?_isSome
    exact absurd (hread.symm.trans (FileTree.read_eq_ok_iff.mpr htext)) (by simp)
  · -- The root reaches the file, so it is well formed.
    have hne : q ≠ g.root := by
      intro heq
      exact hnew g.root (List.mem_of_head? h.starts) (heq ▸ Path.Same.rfl)
    have htext : g.text? q = some text := by
      rw [text?, if_neg hne]
      exact FileTree.read_eq_ok_iff.mp hread
    obtain ⟨parsed, hparsed⟩ := hcomplete.parses q text (h.reaches_issuer.tail hincludes) htext
    exact absurd (hparse.symm.trans hparsed) (by simp)

/-- An expansion over a complete graph fails only with a lasso. -/
theorem exists_lasso_of_expand {e : Error} (hcomplete : g.Complete)
    (hparse : parseChunk g.source = .ok t)
    (h : (g.setup.expand g.file t).outcome = .error e) :
    ∃ cycle, e = .cyclicInclude cycle ∧ g.Lasso cycle := by
  -- Every directive that a pass finds is placed.
  obtain ⟨number, last, hplaced, hfails⟩ :=
    (Setup.run_expand g.setup g.file t).exists_pass_of_error
      (fun current => ∀ site ∈ current.tree.sites [] g.root, g.Placed site) h
      (fun _ hsite => placed_of_mem_sites (tree?_root hparse) hsite) <| by
    intro number current next hcurrent hpass inner hinner
    obtain ⟨hevery, rfl⟩ := Setup.outcome_pass_eq_ok_iff.mp hpass
    rw [show g.root = g.file.normalize from rfl, Tree.sites_substitute, List.mem_flatMap] at hinner
    obtain ⟨outer, houter, hplace⟩ := hinner
    obtain ⟨loaded, hloaded⟩ := Option.isSome_iff_exists.mp (hevery outer houter)
    rw [Tree.sitesInPlace, hloaded] at hplace
    exact (hcurrent outer houter).of_chunkAt hloaded hplace
  obtain ⟨site, hsite, herror⟩ := Setup.exists_error?_load_of_pass hfails
  exact (hplaced site hsite).exists_lasso_of_error? hcomplete herror

/-- Cycles are found exactly. Over a complete graph an expansion succeeds exactly if the root
reaches no circle, and otherwise reports a lasso. -/
theorem expand_iff_acyclic (g : IncludeGraph) (hcomplete : g.Complete)
    (hparse : parseChunk g.source = .ok t) :
    ((∃ expansion, (g.setup.expand g.file t).outcome = .ok expansion) ↔ g.Acyclic) ∧
      (¬ g.Acyclic → ∃ cycle,
        (g.setup.expand g.file t).outcome = .error (.cyclicInclude cycle) ∧ g.Lasso cycle) := by
  cases hout : (g.setup.expand g.file t).outcome with
  | ok expansion =>
    have hacyclic : g.Acyclic := acyclic_of_expand hparse hout
    exact ⟨⟨fun _ => hacyclic, fun _ => ⟨expansion, rfl⟩⟩, fun h => absurd hacyclic h⟩
  | error e =>
    obtain ⟨cycle, rfl, hlasso⟩ := exists_lasso_of_expand hcomplete hparse hout
    refine ⟨⟨?_, fun hacyclic => absurd hacyclic hlasso.not_acyclic⟩, fun _ => ⟨cycle, rfl, hlasso⟩⟩
    rintro ⟨expansion, hok⟩
    exact absurd hok (by simp)

/-- Two files that include a third one. -/
def diamond : IncludeGraph where
  config := {}
  files := .ofList
    [(⟨"/a.glsl"⟩, "#include c\n"), (⟨"/b.glsl"⟩, "#include c\n"), (⟨"/c.glsl"⟩, "float c;\n")]
  file := ⟨"/main.glsl"⟩
  source := "#include a\n#include b\n"

/-- Two files that include each other, one of them by another spelling. -/
def circle : IncludeGraph where
  config := {}
  files := .ofList [(⟨"/a.glsl"⟩, "#include b\n"), (⟨"/b.glsl"⟩, "#include x/../a\n")]
  file := ⟨"/main.glsl"⟩
  source := "#include a\n"

/-- A file that is reached in two ways makes no circle; two files that include each other are
reported with the way to them. -/
theorem expand_iff_acyclic_diamond_circle :
    diamond.Complete ∧ diamond.Acyclic ∧ circle.Complete ∧ ¬ circle.Acyclic ∧
      circle.Lasso [⟨"/main.glsl"⟩, ⟨"/a.glsl"⟩, ⟨"/b.glsl"⟩, ⟨"/a.glsl"⟩] := by
  have hdiamond : diamond.Complete := by
    apply complete_of_isClosed [⟨"/main.glsl"⟩, ⟨"/a.glsl"⟩, ⟨"/b.glsl"⟩, ⟨"/c.glsl"⟩]
    · decide +kernel
    · decide +kernel
  have hcircle : circle.Complete := by
    apply complete_of_isClosed [⟨"/main.glsl"⟩, ⟨"/a.glsl"⟩, ⟨"/b.glsl"⟩]
    · decide +kernel
    · decide +kernel
  have hexpands : (parseChunk diamond.source).toOption.map
      (fun t => (diamond.setup.expand diamond.file t).outcome.toOption.isSome) = some true := by
    decide +kernel
  have hfails : (parseChunk circle.source).toOption.map
      (fun t => (circle.setup.expand circle.file t).outcome.map fun _ => ()) =
      some (.error (.cyclicInclude
        [⟨"/main.glsl"⟩, ⟨"/a.glsl"⟩, ⟨"/b.glsl"⟩, ⟨"/a.glsl"⟩])) := by
    decide +kernel
  obtain ⟨t, ht, hsome⟩ := Option.map_eq_some_iff.mp hexpands
  obtain ⟨u, hu, herror⟩ := Option.map_eq_some_iff.mp hfails
  obtain ⟨expansion, hexpansion⟩ := Option.isSome_iff_exists.mp hsome
  have hacyclic : diamond.Acyclic :=
    (expand_iff_acyclic diamond hdiamond (toOption_eq_some_iff.mp ht)).1.mp
      ⟨expansion, toOption_eq_some_iff.mp hexpansion⟩
  -- The expansion of the other source has failed, so it has reported a lasso.
  obtain ⟨hiff, hreports⟩ := expand_iff_acyclic circle hcircle (toOption_eq_some_iff.mp hu)
  have hcyclic : ¬ circle.Acyclic := by
    intro h
    obtain ⟨other, hother⟩ := hiff.mpr h
    rw [hother] at herror
    exact absurd herror (by simp [Except.map])
  obtain ⟨cycle, hcycle, hlasso⟩ := hreports hcyclic
  rw [hcycle] at herror
  obtain rfl : cycle = _ := Error.cyclicInclude.inj (Except.error.inj herror)
  exact ⟨hdiamond, hacyclic, hcircle, hcyclic, hlasso⟩

end IncludeGraph

end ShaderTemplate
