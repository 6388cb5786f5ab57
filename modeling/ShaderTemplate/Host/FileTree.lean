import ShaderTemplate.Host.Basic
import ShaderTemplate.Path.Normal

/-!
# File trees in memory

A file tree maps paths to texts. Its keys are normal forms, each once; inserting a text under a path
replaces the text under the same normal form. Looking up a specifier normalizes the path it names,
reading takes a path as it is.
-/

namespace ShaderTemplate

/-- A map from normalized paths to texts. -/
structure FileTree where
  /-- The files with their texts. -/
  files : List (Path × String)
  /-- Every file stands under a normal form. -/
  normal : ∀ file ∈ files, ∃ path : Path, path.normalize = file.1
  /-- No two files stand under the same path. -/
  distinct : files.Pairwise fun a b => ¬ a.1.Same b.1

namespace FileTree

/-- The tree without files. -/
def empty : FileTree := ⟨[], by simp, .nil⟩

instance : Inhabited FileTree := ⟨empty⟩

/-- Put a text under the normal form of a path. -/
def insert (tree : FileTree) (path : Path) (text : String) : FileTree where
  files := (path.normalize, text) :: tree.files.filter fun file => ¬ path.normalize.Same file.1
  normal := by
    intro file hfile
    rcases List.mem_cons.mp hfile with rfl | hfile
    · exact ⟨path, rfl⟩
    · exact tree.normal file (List.mem_filter.mp hfile).1
  distinct := by
    refine List.pairwise_cons.mpr ⟨fun file hfile => ?_, tree.distinct.filter _⟩
    simpa using (List.mem_filter.mp hfile).2

/-- Build a tree from files, later ones replacing earlier ones. -/
def ofList (files : List (Path × String)) : FileTree :=
  files.foldl (fun tree file => tree.insert file.1 file.2) empty

/-- The text under a path. -/
def find? (tree : FileTree) (path : Path) : Option String :=
  (tree.files.find? fun file => file.1.Same path).map Prod.snd

/-- Look up a specifier from a directory. -/
def resolve (tree : FileTree) (context : Path) (specifier : String) : Except HostFault Path :=
  let candidate := (context.join ⟨specifier⟩).normalize
  if (tree.find? candidate).isSome then .ok candidate else .error (.notInTree candidate)

/-- Read the text under a path. -/
def read (tree : FileTree) (path : Path) : Except HostFault String :=
  match tree.find? path with
  | some text => .ok text
  | none => .error (.notInTree path)

/-- Paths with the same steps have the same text. -/
theorem find?_congr (tree : FileTree) {p q : Path} (h : p.Same q) :
    tree.find? p = tree.find? q := by
  have same : (fun file : Path × String => decide (file.1.Same p)) =
      fun file => decide (file.1.Same q) :=
    funext fun file => decide_eq_decide.mpr ⟨fun e => e.trans h, fun e => e.trans h.symm⟩
  rw [find?, find?, same]

/-- Reading gives the text under the path. -/
theorem read_eq_ok_iff {tree : FileTree} {path : Path} {text : String} :
    tree.read path = .ok text ↔ tree.find? path = some text := by
  unfold read
  cases tree.find? path <;> simp

/-- A path with a text is one of the tree's files. -/
theorem exists_same_of_isSome_find? {tree : FileTree} {path : Path}
    (h : (tree.find? path).isSome = true) : ∃ file ∈ tree.files.map Prod.fst, path.Same file := by
  obtain ⟨text, htext⟩ := Option.isSome_iff_exists.mp h
  obtain ⟨file, hfile, -⟩ := Option.map_eq_some_iff.mp htext
  refine ⟨file.1, List.mem_map_of_mem (List.mem_of_find?_eq_some hfile), ?_⟩
  exact Path.Same.symm (by simpa using List.find?_some hfile)

theorem find?_isSome_of_resolve {tree : FileTree} {context path : Path} {specifier : String}
    (h : tree.resolve context specifier = .ok path) :
    path = (context.join ⟨specifier⟩).normalize ∧ (tree.find? path).isSome = true := by
  simp only [resolve] at h
  split at h
  next found =>
    obtain rfl := Except.ok.inj h
    exact ⟨rfl, found⟩
  · exact absurd h (by simp)

/-- The host that looks up and reads the files of a tree. -/
def host (tree : FileTree) : Host where
  files := tree.files.map Prod.fst
  resolve := tree.resolve
  read := tree.read
  resolve_known h := exists_same_of_isSome_find? (find?_isSome_of_resolve h).2
  resolve_normal h := by rw [(find?_isSome_of_resolve h).1, Path.normalize_normalize]

/-- Leaving out the files at one path does not matter for a look-up at another. -/
theorem find?_filter_of_not_same {path key : Path} (h : ¬ key.Same path)
    (files : List (Path × String)) :
    ((files.filter fun file => ¬ path.Same file.1).find? fun file => file.1.Same key) =
      files.find? fun file => file.1.Same key := by
  rw [List.find?_filter]
  refine congrArg (fun p => files.find? p) (funext fun file => ?_)
  by_cases e : file.1.Same key
  · -- A file with the steps of `key` is not at `path`.
    have other : ¬ path.Same file.1 := fun e' => h (e'.trans e).symm
    simp [e, other]
  · simp [e]

/-- The text just inserted is found under every path with the same steps. -/
theorem find?_insert_of_same (tree : FileTree) {path key : Path} (text : String)
    (h : key.Same path.normalize) : (tree.insert path text).find? key = some text := by
  simp [find?, insert, h.symm]

/-- Other paths keep their texts. -/
theorem find?_insert_of_not_same (tree : FileTree) {path key : Path} (text : String)
    (h : ¬ key.Same path.normalize) : (tree.insert path text).find? key = tree.find? key := by
  have hne : ¬ path.normalize.Same key := fun e => h e.symm
  simp only [find?, insert, List.find?_cons, hne, decide_false]
  rw [find?_filter_of_not_same h]

end FileTree

end ShaderTemplate
