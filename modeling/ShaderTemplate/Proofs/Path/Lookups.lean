import ShaderTemplate.Host.FileTree
import ShaderTemplate.Proofs.Path.Lexical
import ShaderTemplate.Proofs.Path.Relocation

/-!
# Look-ups and normal forms

The steps that are kept of a joined path are told by the steps that are kept of its base, and these
are the steps of the base's normal form. So a base may be normalized before anything is appended to
it: the normal form of the whole does not change. A look-up asks for such a normal form, so it only
depends on the normal form of the directory that it starts from, however the directory of an issuing
file or the configured root is spelled.

Main statements:

- `normalize_join_congr`: bases with one normal form are told apart by nothing that is appended;
- `pairwise_components_normalize`: no `..` of a normal form stands behind a name;
- `normalize_before_join`: a base may be normalized at any stage of a look-up.
-/

namespace ShaderTemplate

namespace Path

variable {p q : Path}

/-- Normal forms are told apart by the steps that are kept of the paths. -/
theorem normalize_eq_iff : p.normalize = q.normalize ↔ p.way = q.way := by
  constructor
  · intro h
    rw [← way_normalize p, h, way_normalize]
  · intro h
    rw [normalize, normalize, ← reverse_way, ← reverse_way, h]

/-- What is appended to bases with one normal form makes paths with one normal form. -/
theorem normalize_join_congr (h : p.normalize = q.normalize) (next : Path) :
    (p.join next).normalize = (q.join next).normalize := by
  rw [normalize_eq_iff, way_join, way_join, normalize_eq_iff.mp h]

/-- A normal form has no `.` among its steps. -/
theorem current_notMem_components_normalize (p : Path) : .current ∉ p.normalize.components := by
  rw [components_normalize_eq, start]
  split <;> simp [List.mem_replicate]

/-- A `..` of a normal form stands behind no name. -/
theorem pairwise_components_normalize (p : Path) :
    p.normalize.components.Pairwise fun earlier later =>
      later = .parent → ∀ text, earlier ≠ .name text := by
  rw [components_normalize_eq, List.pairwise_append, List.pairwise_append]
  -- The root, a `..` and the names follow each other in this order.
  have hstart : ∀ c ∈ p.start, ∀ text, c ≠ .name text := by
    intro c hc text
    unfold start at hc
    split at hc <;> simp_all
  have hparent : ∀ c ∈ List.replicate (p.route.up % 2) Component.parent, ∀ text,
      c ≠ .name text := by
    intro c hc text
    rw [List.eq_of_mem_replicate hc]
    exact Component.noConfusion
  have hname : ∀ c ∈ p.route.down.map Component.name, c ≠ .parent := by
    intro c hc
    obtain ⟨text, -, rfl⟩ := List.mem_map.mp hc
    exact Component.noConfusion
  refine ⟨?_, ⟨?_, ?_, ?_⟩, ?_⟩
  · unfold start
    split <;> simp
  · exact List.pairwise_replicate.mpr (.inr fun _ _ => Component.noConfusion)
  · exact List.pairwise_map.mpr (List.pairwise_of_forall fun _ _ h => absurd h (by simp))
  · exact fun c _ d hd h => absurd h (hname d hd)
  · exact fun c hc d _ _ => hstart c hc

end Path

namespace FileTree

variable {a b : Path}

/-- A look-up is told by the normal form of the directory that it starts from. -/
theorem resolve_congr (tree : FileTree) (h : a.normalize = b.normalize) (specifier : String) :
    tree.resolve a specifier = tree.resolve b specifier := by
  rw [resolve, resolve, Path.normalize_join_congr h]

end FileTree

/-- Requests of issuers whose directories have one normal form ask for the same specifier, from
directories with one normal form. -/
theorem Request.normalize_context_congr {config : Config} {root issuer other : Path} (raw : String)
    (hroot : config.rootPath.normalize = root.normalize)
    (hissuer : issuer.parent?.map Path.normalize = other.parent?.map Path.normalize) :
    (ofValue raw issuer config).specifier =
        (ofValue raw other { config with rootPath := root }).specifier ∧
      (ofValue raw issuer config).context.normalize =
        (ofValue raw other { config with rootPath := root }).context.normalize := by
  have hdirectory : (issuer.parent?.getD config.rootPath).normalize =
      (other.parent?.getD root).normalize := by
    rw [← Option.getD_map Path.normalize, ← Option.getD_map Path.normalize, hissuer, hroot]
  unfold ofValue
  rw [Specifier.withExtension_rootPath _ config root]
  generalize Specifier.withExtension (Specifier.clean raw) config = specifier
  dsimp only
  split
  · exact ⟨rfl, hroot⟩
  · exact ⟨rfl, hdirectory⟩

namespace Path

/-- A path may be normalized at any stage of a look-up. Normalizing a base, whatever is appended to
it, does not change the normal form of the whole; a normal form is its own, is absolute if its path
is, and has neither a `.` nor a `..` behind a name. So directories with one normal form, given as
such, as the directories of two issuers, or as configured roots, lead to the same files of a
tree. -/
theorem normalize_before_join :
    (∀ a b : Path, (a.join b).normalize = (a.normalize.join b).normalize) ∧
    (∀ p : Path, p.normalize.normalize = p.normalize ∧ p.normalize.isAbsolute = p.isAbsolute ∧
      .current ∉ p.normalize.components ∧
      p.normalize.components.Pairwise fun earlier later =>
        later = .parent → ∀ text, earlier ≠ .name text) ∧
    (∀ a b : Path, a.normalize = b.normalize → ∀ (tree : FileTree) (specifier : String),
      tree.resolve a specifier = tree.resolve b specifier) ∧
    ∀ (config : Config) (root issuer other : Path),
      config.rootPath.normalize = root.normalize →
      issuer.parent?.map normalize = other.parent?.map normalize →
      ∀ (tree : FileTree) (raw : String),
        let request := Request.ofValue raw issuer config
        let respelled := Request.ofValue raw other { config with rootPath := root }
        tree.resolve request.context request.specifier =
          tree.resolve respelled.context respelled.specifier := by
  refine ⟨fun a b => ?_, fun p => ⟨?_, ?_, ?_, ?_⟩, fun a b h tree specifier => ?_, ?_⟩
  · exact normalize_join_congr (normalize_normalize a).symm b
  · exact normalize_normalize p
  · exact isAbsolute_normalize_eq p
  · exact current_notMem_components_normalize p
  · exact pairwise_components_normalize p
  · exact tree.resolve_congr h specifier
  · intro config root issuer other hroot hissuer tree raw
    obtain ⟨hspecifier, hcontext⟩ := Request.normalize_context_congr raw hroot hissuer
    dsimp only
    rw [hspecifier]
    exact tree.resolve_congr hcontext _

/-- Two spellings of a project's files: a root with a `..` and one with a `.`, and an issuer that is
reached through a directory and back. Both find the same two files. -/
theorem normalize_before_join_respelled :
    let tree := FileTree.ofList [(⟨"/p/lib/a.glsl"⟩, "float a;"), (⟨"/p/b.glsl"⟩, "float b;")]
    let config : Config := { rootPath := ⟨"/p/x/../lib"⟩ }
    let request := fun raw => Request.ofValue raw ⟨"/p/lib/../main.glsl"⟩ config
    let respelled := fun raw =>
      Request.ofValue raw ⟨"/p//main.glsl"⟩ { config with rootPath := ⟨"/p/./lib/"⟩ }
    (request "/a").context ≠ (respelled "/a").context ∧
      (request "b").context ≠ (respelled "b").context ∧
      tree.resolve (respelled "/a").context (respelled "/a").specifier = .ok ⟨"/p/lib/a.glsl"⟩ ∧
      tree.resolve (respelled "b").context (respelled "b").specifier = .ok ⟨"/p/b.glsl"⟩ := by
  intro tree config request respelled
  have hroot : config.rootPath.normalize = normalize ⟨"/p/./lib/"⟩ := by decide +kernel
  have hissuer : (parent? ⟨"/p/lib/../main.glsl"⟩).map normalize =
      (parent? ⟨"/p//main.glsl"⟩).map normalize := by decide +kernel
  have hsame := normalize_before_join.2.2.2 config _ _ _ hroot hissuer tree
  refine ⟨by decide +kernel, by decide +kernel, (hsame "/a").symm.trans ?_,
    (hsame "b").symm.trans ?_⟩ <;> decide +kernel

end Path

end ShaderTemplate
