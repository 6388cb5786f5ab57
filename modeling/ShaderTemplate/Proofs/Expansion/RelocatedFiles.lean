import ShaderTemplate.Host.FileTree
import ShaderTemplate.Include.Dependencies
import ShaderTemplate.Include.Resolution
import ShaderTemplate.Proofs.Expansion.Run
import ShaderTemplate.Proofs.Path.Relocation

/-!
# Files that are moved

The files of a tree are moved with the directory that they lie in. What is looked up from a moved
directory is found in the moved tree exactly if it was found before, and then at the counterpart of
its path; the lookups that leave the directory are the only exception. The request that an include
directive stands for moves with its file and with the configured root.

Main statements:

- `DependencySet.paths_insertAll_map`: moved paths are inserted at the same places;
- `mirrors_ofList`: a tree of moved files mirrors the tree of the files;
- `Mirrors.resolve`: lookups in a tree and in one that mirrors it;
- `request_moves`: requests of a file and of its counterpart.
-/

namespace ShaderTemplate

namespace Relocation

variable {m : Relocation} {names : List String} {p q : Path}

/-- A path in normal form that leads to a place below the source of a move. -/
structure Carries (m : Relocation) (p : Path) : Prop where
  /-- The path is in normal form. -/
  normal : p.normalize = p
  /-- The path has a counterpart at the target. -/
  below : ∃ q, m.MovesBelow p q

/-- The counterpart of a path is one, in normal form. -/
theorem Carries.movesBelow (h : m.Carries p) :
    m.MovesBelow p (m.relocate p) ∧ (m.relocate p).normalize = m.relocate p := by
  obtain ⟨q, names, hnames, hmaps⟩ := h.below
  have hnormal := hmaps.normalize
  rw [h.normal] at hnormal
  rw [hmaps.relocate_eq]
  exact ⟨⟨names, hnames, hnormal⟩, Path.normalize_normalize q⟩

/-- The normal form of a path that is moved is carried to the normal form of its counterpart. -/
theorem MovesBelow.carries (h : m.MovesBelow p q) :
    m.Carries p.normalize ∧ m.relocate p.normalize = q.normalize := by
  obtain ⟨names, hnames, hmaps⟩ := h
  refine ⟨⟨Path.normalize_normalize p, q.normalize, names, hnames, hmaps.normalize⟩, ?_⟩
  rw [hmaps.normalize.relocate_eq, Path.normalize_normalize]

/-- Counterparts take the same steps exactly if the paths do. -/
theorem Carries.same_iff (hp : m.Carries p) (hq : m.Carries q) :
    (m.relocate p).Same (m.relocate q) ↔ p.Same q := by
  obtain ⟨⟨names, -, hmaps⟩, hnormal⟩ := hp.movesBelow
  obtain ⟨⟨others, -, hmaps'⟩, hnormal'⟩ := hq.movesBelow
  exact (hmaps.same_iff hmaps' hp.normal hnormal hq.normal hnormal').symm

/-- Counterparts are ordered as the paths are. -/
theorem Carries.before_iff (hp : m.Carries p) (hq : m.Carries q) :
    (m.relocate p).Before (m.relocate q) ↔ p.Before q := by
  obtain ⟨⟨names, -, hmaps⟩, hnormal⟩ := hp.movesBelow
  obtain ⟨⟨others, -, hmaps'⟩, hnormal'⟩ := hq.movesBelow
  exact (hmaps.before_iff hmaps' hp.normal hnormal hq.normal hnormal').symm

end Relocation

/-! ## Dependency sets -/

namespace DependencySet

variable {m : Relocation} {path : Path} {paths : List Path}

/-- The counterpart of a path is inserted at its place. -/
theorem insertInto_map (hpath : m.Carries path) (hpaths : ∀ p ∈ paths, m.Carries p) :
    insertInto (m.relocate path) (paths.map m.relocate) =
      (insertInto path paths).map m.relocate := by
  induction paths with
  | nil => rfl
  | cons p rest ih =>
    obtain ⟨hp, hrest⟩ := List.forall_mem_cons.mp hpaths
    simp only [List.map_cons, insertInto, hpath.before_iff hp, hp.before_iff hpath, ih hrest]
    split
    · rfl
    · split <;> rfl

/-- The counterparts of paths are inserted at their places. -/
theorem paths_insertAll_map {set other : DependencySet}
    (hset : other.paths = set.paths.map m.relocate) (hpaths : ∀ p ∈ paths, m.Carries p)
    (hall : ∀ p ∈ set.paths, m.Carries p) :
    (other.insertAll (paths.map m.relocate)).paths =
      (set.insertAll paths).paths.map m.relocate := by
  induction paths generalizing set other with
  | nil => exact hset
  | cons path rest ih =>
    obtain ⟨hpath, hrest⟩ := List.forall_mem_cons.mp hpaths
    refine ih ?_ hrest fun p hp => ?_
    · show insertInto (m.relocate path) other.paths = (insertInto path set.paths).map m.relocate
      rw [hset, insertInto_map hpath hall]
    · rcases mem_of_mem_insertInto hp with rfl | hp
      · exact hpath
      · exact hall p hp

end DependencySet

/-! ## File trees -/

namespace Relocation

variable {m : Relocation} {tree other : FileTree}

/-- The tree `other` holds the files of `tree`, all of them moved. -/
structure Mirrors (m : Relocation) (tree other : FileTree) : Prop where
  /-- The same texts are found under the counterparts of paths. -/
  find?_eq : ∀ {names : List String} {p q : Path}, m.Maps names p q → p.normalize = p →
    q.normalize = q → tree.find? p = other.find? q
  /-- All files of the tree lie below the source of the move. -/
  ne_nil : ∀ {names : List String} {p q : Path}, m.Maps names p q → p.normalize = p →
    (tree.find? p).isSome = true → names ≠ []

/-- Without files there is nothing to move. -/
theorem mirrors_empty (m : Relocation) : m.Mirrors .empty .empty :=
  ⟨fun _ _ _ => rfl, fun _ _ h => absurd h (by simp [FileTree.find?, FileTree.empty])⟩

/-- A file is put into both trees. -/
theorem Mirrors.insert (h : m.Mirrors tree other) {path counterpart : Path}
    (hpath : m.MovesBelow path counterpart) (text : String) :
    m.Mirrors (tree.insert path text) (other.insert counterpart text) := by
  obtain ⟨file, hfile, hmaps⟩ := hpath
  have hnormal := hmaps.normalize
  constructor
  · intro names p q hpq hp hq
    have hsame := hpq.same_iff hnormal hp hq (Path.normalize_normalize _)
      (Path.normalize_normalize _)
    by_cases hfound : p.Same path.normalize
    · rw [FileTree.find?_insert_of_same _ _ hfound,
        FileTree.find?_insert_of_same _ _ (hsame.mp hfound)]
    · rw [FileTree.find?_insert_of_not_same _ _ hfound,
        FileTree.find?_insert_of_not_same _ _ fun hother => hfound (hsame.mpr hother),
        h.find?_eq hpq hp hq]
  · intro names p q hpq hp hsome
    by_cases hfound : p.Same path.normalize
    · -- The path leads through the names of the file.
      rw [hfound.eq hp (Path.normalize_normalize _)] at hpq
      rwa [hpq.names_eq hnormal]
    · rw [FileTree.find?_insert_of_not_same _ _ hfound] at hsome
      exact h.ne_nil hpq hp hsome

/-- A tree of moved files mirrors the tree of the files. -/
theorem mirrors_ofList {files moved : List (Path × String)}
    (h : List.Forall₂ (fun file other => m.MovesBelow file.1 other.1 ∧ file.2 = other.2) files
      moved) : m.Mirrors (.ofList files) (.ofList moved) := by
  have hfold : ∀ {tree other : FileTree}, m.Mirrors tree other →
      m.Mirrors (files.foldl (fun tree file => tree.insert file.1 file.2) tree)
        (moved.foldl (fun tree file => tree.insert file.1 file.2) other) := by
    induction h with
    | nil => exact fun hmirrors => hmirrors
    | cons hfile hrest ih =>
      intro tree other hmirrors
      rw [List.foldl_cons, List.foldl_cons, ← hfile.2]
      exact ih (hmirrors.insert hfile.1 _)
  exact hfold (mirrors_empty m)

/-- What is looked up from a moved directory, without leaving it, is found exactly if it was found
before, at the counterpart of its path. -/
theorem Mirrors.resolve (h : m.Mirrors tree other) {context moved : Path} {specifier : String}
    (hcontext : m.Moves context moved) (hrelative : Path.isAbsolute ⟨specifier⟩ = false)
    (hstays : ¬ Path.Ascends m.source context ⟨specifier⟩) :
    (other.resolve moved specifier).toOption =
        (tree.resolve context specifier).toOption.map m.relocate ∧
      ∀ {path}, tree.resolve context specifier = .ok path → m.Carries path := by
  obtain ⟨names, hmaps⟩ := hcontext
  obtain ⟨others, hjoin⟩ := hmaps.join hrelative hstays
  have hnormal := hjoin.normalize
  have hfind := h.find?_eq hnormal (Path.normalize_normalize _) (Path.normalize_normalize _)
  constructor
  · simp only [FileTree.resolve, hfind]
    split <;> simp [Except.toOption, hnormal.relocate_eq]
  · intro path hpath
    obtain ⟨rfl, hsome⟩ := FileTree.find?_isSome_of_resolve hpath
    exact ⟨Path.normalize_normalize _, _, others,
      h.ne_nil hnormal (Path.normalize_normalize _) hsome, hnormal⟩

/-! ## Requests -/

/-- The request of a moved file is that of the file, looked up from the counterpart of the
directory; what it asks for is never spelled from the root. -/
theorem request_moves {config : Config} {root issuer : Path} (raw : String)
    (hroot : m.Moves config.rootPath root) (hissuer : m.Carries issuer) :
    (Request.ofValue raw (m.relocate issuer) { config with rootPath := root }).specifier =
        (Request.ofValue raw issuer config).specifier ∧
      m.Moves (Request.ofValue raw issuer config).context
        (Request.ofValue raw (m.relocate issuer) { config with rootPath := root }).context ∧
      Path.isAbsolute ⟨(Request.ofValue raw issuer config).specifier⟩ = false := by
  obtain ⟨hmoves, hnormal⟩ := hissuer.movesBelow
  obtain ⟨directory, other, hparent, hparent', hdirectory⟩ :=
    hmoves.exists_parent? hissuer.normal hnormal
  unfold Request.ofValue
  rw [Specifier.withExtension_rootPath _ config root, hparent, hparent']
  generalize Specifier.withExtension (Specifier.clean raw) config = specifier
  dsimp only
  split
  next rest hrest => exact ⟨rfl, hroot, by simp [Path.isAbsolute]⟩
  next hslash =>
    refine ⟨rfl, hdirectory, Bool.eq_false_iff.mpr fun habsolute => ?_⟩
    obtain ⟨rest, hrest⟩ := List.head?_eq_some_iff.mp (beq_iff_eq.mp habsolute)
    exact hslash rest hrest

end Relocation

end ShaderTemplate
