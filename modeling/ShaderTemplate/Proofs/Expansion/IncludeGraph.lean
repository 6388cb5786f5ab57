import Mathlib.Data.List.Chain
import ShaderTemplate.Host.FileTree
import ShaderTemplate.Proofs.Expansion.Chunks

/-!
# Include graphs

The nodes of an include graph are paths in normal form. The root is the file that is expanded, whose
text is given with it; the text of every other node is that of the file of the tree. An edge leads
from a file to each file that one of its include directives names.

A lasso is a way from the root that comes back to a file it has passed: it runs over distinct files
up to its last entry, which it holds once before.

Main results:

- `Includes.find?_isSome`: a file that is included can be read;
- `Lasso.not_acyclic`: a lasso makes a circle that the root reaches;
- `complete_of_isClosed`: whether every file that the root reaches is in order, and every directive
  in it names a file, is told by a list of files that holds the root and all they include.
-/

namespace ShaderTemplate

namespace Tree

/-- List the include directives of a tree that do not stand in a chunk. -/
def includes : Tree → List Directive
  | .empty => []
  | .leaf item rest => item.include?.toList ++ rest.includes
  | .chunk _ _ rest => rest.includes

/-- The sites of a tree without chunks are its own include directives. -/
theorem sites_of_chunkPaths_eq_nil {t : Tree} (h : t.chunkPaths = []) (above : List Path)
    (issuer : Path) :
    t.sites above issuer = t.includes.map fun line => ⟨line.value, above, issuer⟩ := by
  induction t with
  | empty => rfl
  | leaf item rest ih =>
    have hrest := ih h
    cases hinclude : item.include? <;> simp [sites, includes, hinclude, hrest]
  | chunk path inner rest _ _ => exact absurd h (by simp [chunkPaths])

end Tree

/-- What decides which files include which. -/
structure IncludeGraph where
  /-- How directives are resolved. -/
  config : Config
  /-- The files that may be included. -/
  files : FileTree
  /-- The path of the file that is expanded, as it is spelled. -/
  file : Path
  /-- The text of the file that is expanded. -/
  source : String

namespace IncludeGraph

variable {g : IncludeGraph} {p q : Path} {t : Tree}

/-- The node of the file that is expanded. -/
def root (g : IncludeGraph) : Path :=
  g.file.normalize

/-- The text of a node. -/
def text? (g : IncludeGraph) (p : Path) : Option String :=
  if p = g.root then some g.source else g.files.find? p

/-- The tree of a node. -/
def tree? (g : IncludeGraph) (p : Path) : Option Tree :=
  (g.text? p).bind fun text => (parseChunk text).toOption

/-- The file that an include directive in the file `p` names. -/
def target (g : IncludeGraph) (p : Path) (line : Directive) : Except Error Path :=
  resolve g.files.host line.value p g.config

/-- The file `p` has an include directive that names the file `q`. -/
def Includes (g : IncludeGraph) (p q : Path) : Prop :=
  ∃ t, g.tree? p = some t ∧ ∃ line ∈ t.includes, g.target p line = .ok q

/-- A file is the root or included by a file that the root reaches. -/
def Reaches (g : IncludeGraph) (p : Path) : Prop :=
  Relation.ReflTransGen g.Includes g.root p

/-- No file that the root reaches includes itself, be it by way of others. -/
def Acyclic (g : IncludeGraph) : Prop :=
  ∀ p, g.Reaches p → ¬ Relation.TransGen g.Includes p p

/-- Every file that the root reaches is well formed, and every include directive in it names a
file. -/
structure Complete (g : IncludeGraph) : Prop where
  /-- The files are well formed. -/
  parses : ∀ p text, g.Reaches p → g.text? p = some text → ∃ t, parseChunk text = .ok t
  /-- The directives name files. -/
  resolves : ∀ p t, g.Reaches p → g.tree? p = some t → ∀ line ∈ t.includes,
    ∃ q, g.target p line = .ok q

/-- A way from the root over distinct files, each of which includes the next, that ends with one of
them again. -/
structure Lasso (g : IncludeGraph) (cycle : List Path) : Prop where
  /-- It starts with the root. -/
  starts : cycle.head? = some g.root
  /-- No file comes twice before the end. -/
  distinct : cycle.dropLast.Nodup
  /-- The last file comes once before. -/
  returns : ∃ again, cycle.getLast? = some again ∧ cycle.dropLast.count again = 1
  /-- Each file includes the next. -/
  chained : cycle.IsChain g.Includes

/-- What an expansion of the root depends on. -/
def setup (g : IncludeGraph) : Setup :=
  ⟨g.config, g.files.host, parseChunk⟩

/-! ## Texts and trees -/

theorem tree?_eq_some_iff : g.tree? p = some t ↔
    ∃ text, g.text? p = some text ∧ parseChunk text = .ok t := by
  simp [tree?, Option.bind_eq_some_iff, toOption_eq_some_iff]

/-- The tree of the root is that of the given text. -/
theorem tree?_root (h : parseChunk g.source = .ok t) : g.tree? g.root = some t :=
  tree?_eq_some_iff.mpr ⟨g.source, if_pos rfl, h⟩

/-- The tree of another file is that of the text which is read from it. -/
theorem tree?_of_ne_root {text : String} (hne : p ≠ g.root)
    (hread : g.setup.host.read p = .ok text) (hparse : parseChunk text = .ok t) :
    g.tree? p = some t := by
  refine tree?_eq_some_iff.mpr ⟨text, ?_, hparse⟩
  rw [text?, if_neg hne]
  exact FileTree.read_eq_ok_iff.mp hread

/-- The tree of a node has no chunks. -/
theorem chunkPaths_of_tree? (h : g.tree? p = some t) : t.chunkPaths = [] := by
  obtain ⟨text, -, hparse⟩ := tree?_eq_some_iff.mp h
  exact chunkPaths_of_parseChunk hparse

/-- The root is in normal form. -/
theorem normalize_root (g : IncludeGraph) : g.root.normalize = g.root :=
  Path.normalize_normalize _

/-- A file that a directive names can be read. -/
theorem find?_isSome_of_target {line : Directive} (h : g.target p line = .ok q) :
    (g.files.find? q).isSome = true := by
  simp only [target, resolve] at h
  split at h
  next found hfound =>
    obtain rfl := Except.ok.inj h
    exact (FileTree.find?_isSome_of_resolve hfound).2
  · exact absurd h (by simp)

/-- A file that is included is in normal form. -/
theorem Includes.normalize_eq (h : g.Includes p q) : q.normalize = q := by
  obtain ⟨-, -, line, -, htarget⟩ := h
  exact normalize_of_resolve htarget

/-- A file that is included can be read. -/
theorem Includes.find?_isSome (h : g.Includes p q) : (g.files.find? q).isSome = true := by
  obtain ⟨-, -, line, -, htarget⟩ := h
  exact find?_isSome_of_target htarget

/-! ## Lassos -/

/-- The root reaches every file of a way that starts with it. -/
theorem reaches_of_isChain {way : List Path} (hhead : way.head? = some g.root)
    (hchained : way.IsChain g.Includes) (hp : p ∈ way) : g.Reaches p := by
  refine List.IsChain.induction g.Reaches way hchained (fun _ _ hstep hx => hx.tail hstep) ?_ p hp
  intro hne
  rw [List.head?_eq_some_head hne] at hhead
  rw [Option.some.inj hhead]
  exact .refl

/-- A lasso makes a circle that the root reaches. -/
theorem Lasso.not_acyclic {cycle : List Path} (h : g.Lasso cycle) : ¬ g.Acyclic := by
  intro hacyclic
  obtain ⟨again, hlast, hcount⟩ := h.returns
  have hcycle : cycle.dropLast ++ [again] = cycle := List.dropLast_append_getLast? again hlast
  have hmem : again ∈ cycle.dropLast := List.count_pos_iff.mp (by omega)
  refine hacyclic again
    (reaches_of_isChain h.starts h.chained (List.dropLast_subset _ hmem)) ?_
  -- The circle is what the way runs through from the first time that it comes by to the end.
  obtain ⟨before, after, hsplit⟩ := List.append_of_mem hmem
  have hcircle : (again :: (after ++ [again])).IsChain g.Includes := by
    refine h.chained.suffix ⟨before, ?_⟩
    rw [← hcycle, hsplit, List.append_assoc, List.cons_append]
  cases after with
  | nil => exact .single (List.isChain_pair.mp hcircle)
  | cons next after =>
    obtain ⟨hfirst, hrest⟩ := List.isChain_cons_cons.mp hcircle
    exact .head' hfirst (List.relationReflTransGen_of_exists_isChain_cons _ hrest (by simp))

/-! ## Deciding completeness -/

/-- Decide whether all files of a list are well formed and include files of the list only. -/
def isClosed (g : IncludeGraph) (nodes : List Path) : Bool :=
  nodes.all fun p =>
    match g.tree? p with
    | none => false
    | some t =>
      t.includes.all fun line =>
        match g.target p line with
        | .ok q => nodes.contains q
        | .error _ => false

/-- What a list of files that includes files of the list only tells of each of its files. -/
theorem exists_of_isClosed {nodes : List Path} (h : g.isClosed nodes = true) (hp : p ∈ nodes) :
    ∃ t, g.tree? p = some t ∧
      ∀ line ∈ t.includes, ∃ q, g.target p line = .ok q ∧ q ∈ nodes := by
  have hnode := List.all_eq_true.mp h p hp
  cases htree : g.tree? p with
  | none => simp [htree] at hnode
  | some t =>
    refine ⟨t, rfl, fun line hline => ?_⟩
    simp only [htree, List.all_eq_true] at hnode
    have htarget := hnode line hline
    cases hq : g.target p line with
    | error e => simp [hq] at htarget
    | ok q => exact ⟨q, rfl, by simpa [hq] using htarget⟩

/-- A graph is complete if a list of files holds the root and all that its files include. -/
theorem complete_of_isClosed (nodes : List Path) (hroot : g.root ∈ nodes)
    (h : g.isClosed nodes = true) : g.Complete := by
  -- A way that starts in the list never leaves it.
  have hreached : ∀ p, g.Reaches p → p ∈ nodes := by
    intro p hp
    induction hp with
    | refl => exact hroot
    | tail _ hstep ih =>
      obtain ⟨t, htree, line, hline, htarget⟩ := hstep
      obtain ⟨other, hother, hincludes⟩ := exists_of_isClosed h ih
      obtain rfl := Option.some.inj (htree.symm.trans hother)
      obtain ⟨q, hq, hmem⟩ := hincludes line hline
      rwa [Except.ok.inj (htarget.symm.trans hq)]
  constructor
  · intro p text hp htext
    obtain ⟨t, htree, -⟩ := exists_of_isClosed h (hreached p hp)
    obtain ⟨other, hother, hparse⟩ := tree?_eq_some_iff.mp htree
    obtain rfl := Option.some.inj (htext.symm.trans hother)
    exact ⟨t, hparse⟩
  · intro p t hp htree line hline
    obtain ⟨other, hother, hincludes⟩ := exists_of_isClosed h (hreached p hp)
    obtain rfl := Option.some.inj (htree.symm.trans hother)
    obtain ⟨q, hq, -⟩ := hincludes line hline
    exact ⟨q, hq⟩

end IncludeGraph

end ShaderTemplate
