import ShaderTemplate.Host.FileTree
import ShaderTemplate.Parser.Chunk
import ShaderTemplate.Proofs.Expansion.Run

/-!
# The chunks of an expansion

An expansion registers a file when it puts its tree into the place of an include directive, so the
dependencies and the chunks are kept in step from pass to pass.

Main statements:

- `contains_of_pass`: a pass registers the files of the chunks that it puts in, and no other files;
- `contains_of_run`: what is registered stays registered;
- `contains_iff_of_expand`: in the end the dependencies are the files of the chunks of the tree.
-/

namespace ShaderTemplate

namespace Tree

/-- List the files of the chunks of a tree in document order. -/
def chunkPaths : Tree → List Path
  | .empty => []
  | .leaf _ rest => rest.chunkPaths
  | .chunk path inner rest => path :: inner.chunkPaths ++ rest.chunkPaths

/-- The files around a directive are those around the tree, its file and the files of chunks. -/
theorem mem_chain_of_mem_sites {t : Tree} {above : List Path} {issuer p : Path} {site : Site}
    (hsite : site ∈ t.sites above issuer) (hp : p ∈ site.chain) :
    p ∈ above ++ [issuer] ∨ ∃ q ∈ t.chunkPaths, p = q.normalize := by
  induction t generalizing above issuer with
  | empty => exact absurd hsite (by simp [sites])
  | leaf item rest ih =>
    rcases List.mem_append.mp hsite with hsite | hsite
    · obtain ⟨line, -, rfl⟩ := Option.map_eq_some_iff.mp (Option.mem_toList.mp hsite)
      exact .inl hp
    · exact ih hsite
  | chunk path inner rest ihInner ihRest =>
    rcases List.mem_append.mp hsite with hsite | hsite
    · rcases ihInner hsite with hp | ⟨q, hq, rfl⟩
      · rcases List.mem_append.mp hp with hp | hp
        · exact .inl hp
        · exact .inr ⟨path, List.mem_cons_self, List.mem_singleton.mp hp⟩
      · exact .inr ⟨q, List.mem_cons_of_mem _ (List.mem_append_left _ hq), rfl⟩
    · rcases ihRest hsite with hp | ⟨q, hq, rfl⟩
      · exact .inl hp
      · exact .inr ⟨q, List.mem_cons_of_mem _ (List.mem_append_right _ hq), rfl⟩

/-- A substitution adds the files of its chunks and of the chunks inside them. -/
theorem mem_chunkPaths_substitute {chunkOf : Site → Option Chunk} {t : Tree}
    {above : List Path} {issuer p : Path} :
    p ∈ (t.substitute chunkOf above issuer).chunkPaths ↔
      (∃ site ∈ t.sites above issuer, ∃ chunk, chunkOf site = some chunk ∧
        (p = chunk.path ∨ p ∈ chunk.tree.chunkPaths)) ∨ p ∈ t.chunkPaths := by
  induction t generalizing above issuer with
  | empty => simp [substitute, chunkPaths, sites]
  | leaf item rest ih =>
    cases hinclude : item.include? with
    | none => simp [substitute, chunkPaths, sites, hinclude, ih]
    | some line =>
      cases hchunk : chunkOf ⟨line.value, above, issuer⟩ with
      | none => simp [substitute, chunkPaths, sites, hinclude, hchunk, ih]
      | some chunk =>
        simp only [substitute, chunkPaths, sites, hinclude, hchunk, ih, Option.bind_some,
          Option.map_some, Option.toList_some, List.singleton_append, List.mem_cons,
          List.mem_append, exists_eq_or_imp, Option.some.injEq, exists_eq_left', or_assoc]
  | chunk path inner rest ihInner ihRest =>
    simp only [substitute, chunkPaths, sites, List.mem_cons, List.mem_append, ihInner, ihRest,
      or_and_right, exists_or]
    grind

end Tree

/-- The tree of a text has no chunks. -/
theorem Region.chunkPaths_tree (position : Position) (regions : List Region) :
    (Region.tree position regions).chunkPaths = [] := by
  induction regions generalizing position with
  | nil => rfl
  | cons region rest ih => exact ih _

/-- The parser makes no chunks. -/
theorem chunkPaths_of_parseChunk {source : String} {t : Tree} (h : parseChunk source = .ok t) :
    t.chunkPaths = [] := by
  unfold parseChunk at h
  split at h
  · exact absurd h (by simp)
  · obtain rfl := Except.ok.inj h
    exact Region.chunkPaths_tree _ _

namespace Setup

variable {setup : Setup} {file : Path}

/-- A pass registers the file of each chunk, and nothing else. -/
theorem contains_of_pass {number : Nat} {current next : Expansion}
    (h : (setup.pass file number current).outcome = .ok next) {path : Path} :
    next.dependencies.contains path = true ↔
      (∃ site ∈ current.tree.sites [] file.normalize, ∃ chunk,
        setup.chunkAt site = some chunk ∧ path.Same chunk.path) ∨
          current.dependencies.contains path = true := by
  obtain ⟨-, rfl⟩ := outcome_pass_eq_ok_iff.mp h
  rw [DependencySet.mem_insertAll]
  simp only [List.mem_map, List.mem_filterMap]
  refine or_congr_left ⟨?_, ?_⟩
  · rintro ⟨-, ⟨chunk, ⟨site, hsite, hchunk⟩, rfl⟩, hsame⟩
    exact ⟨site, hsite, chunk, hchunk, hsame⟩
  · rintro ⟨site, hsite, chunk, hchunk, hsame⟩
    exact ⟨chunk.path, ⟨chunk, ⟨site, hsite, hchunk⟩, rfl⟩, hsame⟩

/-- What is registered stays registered. -/
theorem contains_of_run {number : Nat} {current last : Expansion}
    {result : Traced Error Expansion} (h : Run setup file number current result)
    (hresult : result.outcome = .ok last) {path : Path}
    (hpath : current.dependencies.contains path = true) :
    last.dependencies.contains path = true :=
  Run.induction (fun expansion => expansion.dependencies.contains path = true) h hresult hpath
    fun hcurrent hpass => (contains_of_pass hpass).mpr (.inr hcurrent)

/-- The dependencies of an expansion are the files of the chunks of its tree, if the parser makes no
chunks of its own. -/
theorem contains_iff_of_expand {t : Tree} {expansion : Expansion}
    (hparser : ∀ source parsed, setup.parser source = .ok parsed → parsed.chunkPaths = [])
    (htree : t.chunkPaths = []) (h : (setup.expand file t).outcome = .ok expansion) (path : Path) :
    expansion.dependencies.contains path = true ↔
      ∃ p ∈ expansion.tree.chunkPaths, path.Same p := by
  refine Run.induction (fun expansion => ∀ path, expansion.dependencies.contains path = true ↔
    ∃ p ∈ expansion.tree.chunkPaths, path.Same p) (run_expand setup file t) h ?_ ?_ path
  · simp [DependencySet.contains, DependencySet.empty, htree]
  · intro number current next hcurrent hpass path
    obtain ⟨-, hnext⟩ := outcome_pass_eq_ok_iff.mp hpass
    have hflat : ∀ site chunk, setup.chunkAt site = some chunk → chunk.tree.chunkPaths = [] := by
      intro site chunk hchunk
      obtain ⟨-, -, source, -, hparsed⟩ := chunkAt_eq_some_iff.mp hchunk
      exact hparser source chunk.tree hparsed
    rw [contains_of_pass hpass, hcurrent, hnext]
    simp only [Tree.mem_chunkPaths_substitute]
    -- Both sides gain the files of the chunks of this pass.
    constructor
    · rintro (⟨site, hsite, chunk, hchunk, hsame⟩ | ⟨p, hp, hsame⟩)
      · exact ⟨chunk.path, .inl ⟨site, hsite, chunk, hchunk, .inl rfl⟩, hsame⟩
      · exact ⟨p, .inr hp, hsame⟩
    · rintro ⟨p, ⟨site, hsite, chunk, hchunk, rfl | hinner⟩ | hp, hsame⟩
      · exact .inl ⟨site, hsite, chunk, hchunk, hsame⟩
      · exact absurd hinner (by simp [hflat site chunk hchunk])
      · exact .inr ⟨p, hp, hsame⟩

end Setup

/-! ## Expansions that are computed -/

/-- The setup with the default configuration over some files. -/
def Setup.withFiles (files : List (Path × String)) : Setup :=
  ⟨{}, (FileTree.ofList files).host, parseChunk⟩

/-- What is computed of an expansion holds of an expansion. -/
theorem exists_expansion_of_eq {files : List (Path × String)} {source : String} {file : Path}
    {α : Type} {f : Expansion → α} {a : α}
    (h : ((parseChunk source).toOption.bind fun tree =>
      ((Setup.withFiles files).expand file tree).outcome.toOption.map f) = some a) :
    ∃ tree expansion, parseChunk source = .ok tree ∧
      ((Setup.withFiles files).expand file tree).outcome = .ok expansion ∧ f expansion = a := by
  obtain ⟨tree, htree, h⟩ := Option.bind_eq_some_iff.mp h
  obtain ⟨expansion, hexpansion, hf⟩ := Option.map_eq_some_iff.mp h
  exact ⟨tree, expansion, toOption_eq_some_iff.mp htree, toOption_eq_some_iff.mp hexpansion, hf⟩

end ShaderTemplate
