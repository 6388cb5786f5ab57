import ShaderTemplate.Proofs.Expansion.Chunks
import ShaderTemplate.Proofs.Path.Absolute

/-!
# What the dependencies of an expansion are

The dependencies of an expansion are compared by their steps while it goes on. As every path that is
registered is in normal form, in the end they are, spelling for spelling, the paths of the chunks of
the tree. Each of them is a key of the file tree, none is the file that is expanded, and all are
absolute if that file and the configured root are (`expand_dependencies_exact`).
-/

namespace ShaderTemplate

/-- Insertions add no paths but the inserted ones. -/
theorem DependencySet.mem_paths_insertAll {set : DependencySet} {paths : List Path} {p : Path}
    (h : p ∈ (set.insertAll paths).paths) : p ∈ paths ∨ p ∈ set.paths := by
  induction paths generalizing set with
  | nil => exact .inr h
  | cons path rest ih =>
    rcases ih h with hrest | hset
    · exact .inl (List.mem_cons_of_mem _ hrest)
    · rcases mem_of_mem_insertInto hset with rfl | hset
      · exact .inl List.mem_cons_self
      · exact .inr hset

/-- A path in normal form under which a file tree has a text is one of its keys. -/
theorem FileTree.mem_files_of_find?_isSome {tree : FileTree} {p : Path} (hp : p.normalize = p)
    (h : (tree.find? p).isSome = true) : p ∈ tree.files.map Prod.fst := by
  obtain ⟨key, hkey, hsame⟩ := exists_same_of_isSome_find? h
  obtain ⟨file, hfile, rfl⟩ := List.mem_map.mp hkey
  obtain ⟨path, hpath⟩ := tree.normal file hfile
  have hnormal : file.1.normalize = file.1 := by rw [← hpath, Path.normalize_normalize]
  rwa [hsame.eq hp hnormal]

namespace Setup

/-- What is known of the path of a chunk in an expansion of the file `file` over the files of a
tree. -/
structure IncludedPath (config : Config) (files : FileTree) (file p : Path) : Prop where
  /-- It is in normal form. -/
  normal : p.normalize = p
  /-- It is a key of the tree. -/
  isKey : p ∈ files.files.map Prod.fst
  /-- It is not the file that is expanded. -/
  ne_file : ¬ p.Same file.normalize
  /-- It is absolute if the file and the configured root are. -/
  absolute : file.isAbsolute = true → config.rootPath.isAbsolute = true → p.isAbsolute = true

variable {config : Config} {files : FileTree} {file : Path}

/-- A chunk has such a path if the chunks around its directive have. -/
theorem includedPath_of_chunkAt {t : Tree} {site : Site} {chunk : Chunk}
    (hpaths : ∀ p ∈ t.chunkPaths, IncludedPath config files file p)
    (hsite : site ∈ t.sites [] file.normalize)
    (hchunk : (⟨config, files.host, parseChunk⟩ : Setup).chunkAt site = some chunk) :
    IncludedPath config files file chunk.path := by
  obtain ⟨hresolve, hnew, -⟩ := chunkAt_eq_some_iff.mp hchunk
  have hnormal := normalize_of_resolve hresolve
  simp only [resolve] at hresolve
  split at hresolve
  next found hfound =>
    obtain rfl := Except.ok.inj hresolve
    obtain ⟨heq, hkey⟩ := FileTree.find?_isSome_of_resolve hfound
    refine ⟨hnormal, FileTree.mem_files_of_find?_isSome hnormal hkey, ?_, ?_⟩
    · -- The chain of every directive starts with the file.
      obtain ⟨deeper, hchain⟩ := Tree.exists_chain_eq_of_mem_sites hsite
      exact hnew _ (by simp [hchain])
    · intro hfile hroot
      have hissuer : site.issuer.isAbsolute = true := by
        have hmem : site.issuer ∈ site.chain := by simp [Site.chain]
        rcases Tree.mem_chain_of_mem_sites hsite hmem with hissuer | ⟨p, hp, hissuer⟩
        · rw [List.mem_singleton.mp hissuer]
          exact Path.isAbsolute_normalize hfile
        · rw [hissuer]
          exact Path.isAbsolute_normalize ((hpaths p hp).absolute hfile hroot)
      rw [heq]
      exact Path.isAbsolute_normalize
        (Path.isAbsolute_join (Request.isAbsolute_context _ hissuer hroot) _)
  · exact absurd hresolve (by simp)

/-- A pass that succeeds registers no paths but those of chunks, and all of these are of the known
kind. -/
theorem includedPath_of_pass {number : Nat} {current next : Expansion}
    (h : ((⟨config, files.host, parseChunk⟩ : Setup).pass file number current).outcome = .ok next)
    (hmem : ∀ p ∈ current.dependencies.paths, p ∈ current.tree.chunkPaths)
    (hpaths : ∀ p ∈ current.tree.chunkPaths, IncludedPath config files file p) :
    (∀ p ∈ next.dependencies.paths, p ∈ next.tree.chunkPaths) ∧
      ∀ p ∈ next.tree.chunkPaths, IncludedPath config files file p := by
  obtain ⟨-, rfl⟩ := outcome_pass_eq_ok_iff.mp h
  constructor
  · intro p hp
    rw [Tree.mem_chunkPaths_substitute]
    rcases DependencySet.mem_paths_insertAll hp with hp | hp
    · simp only [List.mem_map, List.mem_filterMap] at hp
      obtain ⟨chunk, ⟨site, hsite, hchunk⟩, rfl⟩ := hp
      exact .inl ⟨site, hsite, chunk, hchunk, .inl rfl⟩
    · exact .inr (hmem p hp)
  · intro p hp
    rcases Tree.mem_chunkPaths_substitute.mp hp with ⟨site, hsite, chunk, hchunk, hp⟩ | hp
    · rcases hp with rfl | hinner
      · exact includedPath_of_chunkAt hpaths hsite hchunk
      · -- A file has no chunks of its own.
        obtain ⟨-, -, source, -, hparsed⟩ := chunkAt_eq_some_iff.mp hchunk
        exact absurd hinner (by simp [chunkPaths_of_parseChunk hparsed])
    · exact hpaths p hp

/-- If a source can be expanded over the files of a tree, its dependencies are exactly the paths of
the chunks of the expanded tree. They are in normal form and keys of the file tree, the file that is
expanded is not among them, and they are absolute if this file and the configured root are. -/
theorem expand_dependencies_exact {config : Config} {files : FileTree} {source : String}
    {file : Path} {tree : Tree} {expansion : Expansion} (hparse : parseChunk source = .ok tree)
    (hexpand : ((⟨config, files.host, parseChunk⟩ : Setup).expand file tree).outcome =
      .ok expansion) :
    (∀ p, p ∈ expansion.dependencies.paths ↔ p ∈ expansion.tree.chunkPaths) ∧
      (∀ p ∈ expansion.dependencies.paths,
        p.normalize = p ∧ p ∈ files.files.map Prod.fst ∧
          (file.isAbsolute = true → config.rootPath.isAbsolute = true → p.isAbsolute = true)) ∧
      expansion.dependencies.contains file.normalize = false := by
  have hflat := chunkPaths_of_parseChunk hparse
  obtain ⟨hmem, hpaths⟩ := Run.induction
    (fun expansion => (∀ p ∈ expansion.dependencies.paths, p ∈ expansion.tree.chunkPaths) ∧
      ∀ p ∈ expansion.tree.chunkPaths, IncludedPath config files file p)
    (run_expand _ file tree) hexpand (by simp [DependencySet.empty, hflat])
    fun hcurrent hpass => includedPath_of_pass hpass hcurrent.1 hcurrent.2
  refine ⟨fun p => ⟨hmem p, fun hp => ?_⟩, fun p hp => ?_, ?_⟩
  · -- The path is registered in some spelling, and it has only one in normal form.
    have hcontains := (contains_iff_of_expand (fun _ _ => chunkPaths_of_parseChunk) hflat hexpand
      p).mpr ⟨p, hp, .rfl⟩
    obtain ⟨q, hq, hsame⟩ := DependencySet.contains_iff.mp hcontains
    rwa [hsame.eq (hpaths p hp).normal (hpaths q (hmem q hq)).normal]
  · have hpath := hpaths p (hmem p hp)
    exact ⟨hpath.normal, hpath.isKey, hpath.absolute⟩
  · rw [Bool.eq_false_iff]
    intro hcontains
    obtain ⟨p, hp, hsame⟩ := DependencySet.contains_iff.mp hcontains
    exact (hpaths p (hmem p hp)).ne_file hsame.symm

/-- A file in a directory, and a file that it includes. -/
def libraryFiles : List (Path × String) :=
  [(⟨"/lib/noise.glsl"⟩, "#include ../util\n"), (⟨"/util.glsl"⟩, "float u;\n")]

/-- A source that includes a file twice, by way of another one and in another spelling. -/
theorem expand_dependencies_exact_library : ∃ tree expansion,
    parseChunk "#include lib/./noise\n#include /util\n" = .ok tree ∧
      ((withFiles libraryFiles).expand ⟨"/main.glsl"⟩ tree).outcome = .ok expansion ∧
      expansion.tree.chunkPaths = [⟨"/lib/noise.glsl"⟩, ⟨"/util.glsl"⟩, ⟨"/util.glsl"⟩] ∧
      (∀ p, p ∈ expansion.dependencies.paths ↔ p = ⟨"/lib/noise.glsl"⟩ ∨ p = ⟨"/util.glsl"⟩) ∧
      (∀ p ∈ expansion.dependencies.paths, p.normalize = p ∧ p.isAbsolute = true) ∧
      expansion.dependencies.contains (Path.normalize ⟨"/main.glsl"⟩) = false := by
  have hcomputed : ((parseChunk "#include lib/./noise\n#include /util\n").toOption.bind fun tree =>
      ((withFiles libraryFiles).expand ⟨"/main.glsl"⟩ tree).outcome.toOption.map
        fun expansion => expansion.tree.chunkPaths) =
      some [⟨"/lib/noise.glsl"⟩, ⟨"/util.glsl"⟩, ⟨"/util.glsl"⟩] := by decide +kernel
  obtain ⟨tree, expansion, hparse, hexpand, hpaths⟩ := exists_expansion_of_eq hcomputed
  obtain ⟨hmem, hpath, hfile⟩ := expand_dependencies_exact hparse hexpand
  refine ⟨tree, expansion, hparse, hexpand, hpaths, fun p => ?_, fun p hp => ?_, hfile⟩
  · rw [hmem, hpaths]
    simp
  · obtain ⟨hnormal, -, habsolute⟩ := hpath p hp
    exact ⟨hnormal, habsolute (by decide) (by decide)⟩

end Setup

end ShaderTemplate
