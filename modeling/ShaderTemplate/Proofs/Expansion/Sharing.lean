import ShaderTemplate.Proofs.Expansion.Chunks
import ShaderTemplate.Proofs.Expansion.Inlining
import ShaderTemplate.Proofs.Template.Splicing

/-!
# Files that are included in several places

A file may be included by many files and by one file many times. Each time it is loaded on its own,
with the files that stand around the directive. These count in one way only: a load fails if its
file is one of them. With fewer files around it a tree is therefore inlined in the same way, and
with none of them the file is expanded as if it were the first one. So all chunks of one file have
the tree that the file expands to by itself.

Main statements:

- `inlined_of_subset`: a tree is inlined in the same way with fewer files around it;
- `expandsTo_of_mem_chunks`: every chunk has the tree that its file expands to by itself;
- `chunks_eq_of_expand`: chunks of one file have the same tree.
-/

namespace ShaderTemplate.Setup

variable {setup : Setup} {above fewer : List Path} {issuer path : Path} {t u filled : Tree}

/-- The file at a path can be read and parsed, and expands to a tree with nothing around it. -/
def ExpandsTo (setup : Setup) (path : Path) (t : Tree) : Prop :=
  ∃ text own expansion, setup.host.read path = .ok text ∧ setup.parser text = .ok own ∧
    (setup.expand path own).outcome = .ok expansion ∧ expansion.tree = t

/-- A file expands to one tree. -/
theorem ExpandsTo.unique (h : setup.ExpandsTo path t) (h' : setup.ExpandsTo path u) : t = u := by
  obtain ⟨text, own, expansion, hread, hparse, hexpand, rfl⟩ := h
  obtain ⟨text', own', expansion', hread', hparse', hexpand', rfl⟩ := h'
  obtain rfl := Except.ok.inj (hread.symm.trans hread')
  obtain rfl := Except.ok.inj (hparse.symm.trans hparse')
  rw [Except.ok.inj (hexpand.symm.trans hexpand')]

/-! ## Fewer files around a tree -/

/-- The issuer joins the files around it, whichever these are. -/
theorem concat_subset_concat (h : fewer ⊆ above) (issuer : Path) :
    fewer ++ [issuer] ⊆ above ++ [issuer] :=
  List.append_subset.mpr
    ⟨List.subset_append_of_subset_left _ h, List.subset_append_right above [issuer]⟩

/-- A directive is given the same chunk if fewer files stand around it. -/
theorem fetch?_of_subset {value : String} {loaded : Chunk} (hsubset : fewer ⊆ above)
    (h : setup.fetch? value above issuer = some loaded) :
    setup.fetch? value fewer issuer = some loaded := by
  obtain ⟨hfound, hnew, hholds⟩ := fetch?_eq_some_iff.mp h
  refine fetch?_eq_some_iff.mpr ⟨hfound, fun file hfile => hnew file ?_, hholds⟩
  exact concat_subset_concat hsubset issuer hfile

/-- A tree that is inlined is inlined in the same way if fewer files stand around it. -/
theorem inlined_of_subset (hsubset : fewer ⊆ above)
    (h : setup.inlined above issuer t = some filled) :
    setup.inlined fewer issuer t = some filled := by
  -- The files around count where a file is fetched only; inside it the issuer joins them.
  induction above, issuer, t using inlined.induct setup generalizing fewer filled with
  | case1 above issuer =>
    rw [inlined_empty] at h ⊢
    exact h
  | case2 above issuer item rest hnone ih =>
    rw [inlined_leaf_of_none hnone] at h ⊢
    obtain ⟨filledRest, hrest, rfl⟩ := Option.map_eq_some_iff.mp h
    rw [ih hsubset hrest, Option.map_some]
  | case3 above issuer item rest line hsome hfetch =>
    rw [inlined_leaf_of_some hsome, hfetch] at h
    exact absurd h (by simp)
  | case4 above issuer item rest line hsome loaded hfetch ihInner ihRest =>
    rw [inlined_leaf_of_some hsome, hfetch, Option.bind_some] at h
    obtain ⟨inner, hinner, h⟩ := Option.bind_eq_some_iff.mp h
    obtain ⟨filledRest, hrest, rfl⟩ := Option.map_eq_some_iff.mp h
    rw [inlined_leaf_of_some hsome, fetch?_of_subset hsubset hfetch, Option.bind_some,
      ihInner (concat_subset_concat hsubset issuer) hinner, Option.bind_some,
      ihRest hsubset hrest, Option.map_some]
  | case5 above issuer path inner rest ihInner ihRest =>
    rw [inlined_chunk] at h
    obtain ⟨inner, hinner, h⟩ := Option.bind_eq_some_iff.mp h
    obtain ⟨filledRest, hrest, rfl⟩ := Option.map_eq_some_iff.mp h
    rw [inlined_chunk, ihInner (concat_subset_concat hsubset issuer) hinner, Option.bind_some,
      ihRest hsubset hrest, Option.map_some]

/-! ## Chunks -/

/-- A file whose tree is inlined inside other files expands to the same tree by itself. -/
theorem expandsTo_of_inlined (hnormal : path.normalize = path) (hholds : setup.Holds path t)
    (h : setup.inlined above path t = some filled) : setup.ExpandsTo path filled := by
  obtain ⟨text, hread, hparse⟩ := hholds
  have halone := (run_expand setup path t).inlined_eq
  rw [hnormal, inlined_of_subset (List.nil_subset above) h] at halone
  obtain ⟨expansion, hexpand, htree⟩ := Option.map_eq_some_iff.mp halone.symm
  exact ⟨text, t, expansion, hread, hparse, toOption_eq_some_iff.mp hexpand, htree⟩

/-- Every chunk has the tree that its file expands to by itself, if there were no chunks before and
the parser makes none. -/
theorem expandsTo_of_mem_chunks
    (hparser : ∀ text parsed, setup.parser text = .ok parsed → parsed.chunkPaths = [])
    (ht : t.chunkPaths = []) (h : setup.inlined above issuer t = some filled) {chunk : Chunk}
    (hchunk : chunk ∈ filled.chunks) :
    chunk.path.normalize = chunk.path ∧ setup.ExpandsTo chunk.path chunk.tree := by
  induction above, issuer, t using inlined.induct setup generalizing filled with
  | case1 above issuer =>
    rw [inlined_empty] at h
    obtain rfl := Option.some.inj h
    exact absurd hchunk (by simp [Tree.chunks])
  | case2 above issuer item rest hnone ih =>
    rw [inlined_leaf_of_none hnone] at h
    obtain ⟨filledRest, hrest, rfl⟩ := Option.map_eq_some_iff.mp h
    exact ih ht hrest hchunk
  | case3 above issuer item rest line hsome hfetch =>
    rw [inlined_leaf_of_some hsome, hfetch] at h
    exact absurd h (by simp)
  | case4 above issuer item rest line hsome loaded hfetch ihInner ihRest =>
    rw [inlined_leaf_of_some hsome, hfetch, Option.bind_some] at h
    obtain ⟨inner, hinner, h⟩ := Option.bind_eq_some_iff.mp h
    obtain ⟨filledRest, hrest, rfl⟩ := Option.map_eq_some_iff.mp h
    obtain ⟨hfound, -, hholds⟩ := fetch?_eq_some_iff.mp hfetch
    rcases List.mem_append.mp hchunk with hchunk | hchunk
    · rcases List.mem_cons.mp hchunk with rfl | hchunk
      · -- The chunk of the directive itself.
        have hnormal := normalize_of_resolve hfound
        exact ⟨hnormal, expandsTo_of_inlined hnormal hholds hinner⟩
      · obtain ⟨text, -, hparsed⟩ := hholds
        exact ihInner (hparser text loaded.tree hparsed) hinner hchunk
    · exact ihRest ht hrest hchunk
  | case5 => exact absurd ht (by simp [Tree.chunkPaths])

/-- Every chunk of an expanded source has the tree that its file expands to by itself. So chunks of
the same file have the same tree and the same text, wherever they stand. -/
theorem chunks_eq_of_expand {config : Config} {files : FileTree} {source : String} {file : Path}
    {tree : Tree} {expansion : Expansion} (hparse : parseChunk source = .ok tree)
    (hexpand : ((⟨config, files.host, parseChunk⟩ : Setup).expand file tree).outcome =
      .ok expansion) :
    (∀ a ∈ expansion.tree.chunks, ∀ b ∈ expansion.tree.chunks, a.path.Same b.path →
      a.tree = b.tree ∧ a.tree.render = b.tree.render) ∧
      ∀ a ∈ expansion.tree.chunks, ∃ text own alone,
        files.read a.path = .ok text ∧ parseChunk text = .ok own ∧
          ((⟨config, files.host, parseChunk⟩ : Setup).expand a.path own).outcome = .ok alone ∧
            alone.tree = a.tree := by
  have hinlined := (run_expand ⟨config, files.host, parseChunk⟩ file tree).inlined_eq
  rw [hexpand] at hinlined
  have hevery : ∀ a ∈ expansion.tree.chunks, a.path.normalize = a.path ∧
      (⟨config, files.host, parseChunk⟩ : Setup).ExpandsTo a.path a.tree := fun a ha =>
    expandsTo_of_mem_chunks (fun _ _ => chunkPaths_of_parseChunk) (chunkPaths_of_parseChunk hparse)
      hinlined ha
  refine ⟨fun a ha b hb hsame => ?_, fun a ha => (hevery a ha).2⟩
  obtain ⟨hnormal, hexpands⟩ := hevery a ha
  obtain ⟨hnormal', hexpands'⟩ := hevery b hb
  -- A path in normal form has one spelling.
  rw [← hsame.eq hnormal hnormal'] at hexpands'
  have htree := hexpands.unique hexpands'
  exact ⟨htree, by rw [htree]⟩

/-- A file that includes another one, which includes a third. -/
def sharedFiles : List (Path × String) :=
  [(⟨"/fog.glsl"⟩, "#include lib/noise\n"), (⟨"/lib/noise.glsl"⟩, "#include hash\nfloat n;"),
    (⟨"/lib/hash.glsl"⟩, "float h;")]

/-- A source that includes a file both by itself and inside another file, by two spellings of its
path. -/
theorem chunks_eq_of_expand_shared : ∃ tree expansion,
    parseChunk "#include fog\n#include ./lib/noise.glsl\n" = .ok tree ∧
      ((withFiles sharedFiles).expand ⟨"/main.glsl"⟩ tree).outcome = .ok expansion ∧
      expansion.tree.chunks.map Chunk.path =
        [⟨"/fog.glsl"⟩, ⟨"/lib/noise.glsl"⟩, ⟨"/lib/hash.glsl"⟩, ⟨"/lib/noise.glsl"⟩,
          ⟨"/lib/hash.glsl"⟩] ∧
      (∀ a ∈ expansion.tree.chunks, ∀ b ∈ expansion.tree.chunks, a.path.Same b.path →
        a.tree = b.tree ∧ a.tree.render = b.tree.render) ∧
      ∀ a ∈ expansion.tree.chunks, ∃ text own alone,
        (FileTree.ofList sharedFiles).read a.path = .ok text ∧ parseChunk text = .ok own ∧
          ((withFiles sharedFiles).expand a.path own).outcome = .ok alone ∧
            alone.tree = a.tree := by
  have hcomputed :
      ((parseChunk "#include fog\n#include ./lib/noise.glsl\n").toOption.bind fun tree =>
        ((withFiles sharedFiles).expand ⟨"/main.glsl"⟩ tree).outcome.toOption.map
          fun expansion => expansion.tree.chunks.map Chunk.path) =
      some [⟨"/fog.glsl"⟩, ⟨"/lib/noise.glsl"⟩, ⟨"/lib/hash.glsl"⟩, ⟨"/lib/noise.glsl"⟩,
        ⟨"/lib/hash.glsl"⟩] := by decide +kernel
  obtain ⟨tree, expansion, hparse, hexpand, hpaths⟩ := exists_expansion_of_eq hcomputed
  exact ⟨tree, expansion, hparse, hexpand, hpaths, chunks_eq_of_expand hparse hexpand⟩

end ShaderTemplate.Setup
