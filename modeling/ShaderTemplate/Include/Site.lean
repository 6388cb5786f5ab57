import ShaderTemplate.Path.Normal
import ShaderTemplate.Tree.Handle

/-!
# Include sites

A site is an include directive together with the files around it: the file that issues it and the
files that the issuer stands in, each by the normal form of its path. Substituting chunks for the
directives of a tree gives each chunk the place of its directive.

Main statements:

- `map_siteAt_query`: the sites of a tree are those that the handles of its include directives lead
  to;
- `replaceAll_query`: replacing the include directives of a tree by their handles, one after the
  other, is substituting their chunks;
- `sites_substitute`: the sites of a tree after a substitution are, in order, those of the chunks
  that took the place of its sites.
-/

namespace ShaderTemplate

/-- The tree of a file that may take the place of an include directive. -/
structure Chunk where
  /-- The file. -/
  path : Path
  /-- Its tree. -/
  tree : Tree
  deriving Repr, DecidableEq

/-- The node that a chunk makes. -/
def Chunk.node (loaded : Chunk) : Node :=
  .chunk loaded.path loaded.tree

/-- An include directive and the files around it. -/
structure Site where
  /-- The value of the directive. -/
  value : String
  /-- The files that the issuer stands in, outermost first. -/
  above : List Path
  /-- The file that holds the directive. -/
  issuer : Path
  deriving Repr, DecidableEq

/-- The files around a directive, outermost first and the issuer last. -/
def Site.chain (site : Site) : List Path :=
  site.above ++ [site.issuer]

/-- The site of a directive in the innermost of the files `deeper`, which stand in each other and in
`issuer`, the outermost first. -/
def Site.within (value : String) (above : List Path) (issuer : Path) : List Path → Site
  | [] => ⟨value, above, issuer⟩
  | file :: deeper => within value (above ++ [issuer]) file deeper

namespace Tree

/-- The value of the directive that a handle leads to. -/
def valueAt (t : Tree) (handle : Handle) : String :=
  match t.get? handle with
  | some (.leaf (.directive line)) => line.value
  | _ => ""

/-- The site of the directive that a handle leads to. The tree is part of the file `issuer`, which
stands in the files `above`. -/
def siteWithin (t : Tree) (above : List Path) (issuer : Path) (handle : Handle) : Site :=
  .within (t.valueAt handle) above issuer ((t.ancestry handle).map Path.normalize)

/-- The site of the directive that a handle leads to, in a tree of the file `file`. -/
def siteAt (t : Tree) (file : Path) (handle : Handle) : Site :=
  t.siteWithin [] file.normalize handle

/-- List the sites of a tree in document order. The tree is part of the file `issuer`, which stands
in the files `above`. -/
def sites (above : List Path) (issuer : Path) : Tree → List Site
  | .empty => []
  | .leaf item rest =>
    (item.include?.map fun d => ⟨d.value, above, issuer⟩).toList ++ rest.sites above issuer
  | .chunk path inner rest =>
    inner.sites (above ++ [issuer]) path.normalize ++ rest.sites above issuer

/-- The files around a site of a tree start with the files around the tree. -/
theorem exists_chain_eq_of_mem_sites {above : List Path} {issuer : Path} {t : Tree} {site : Site}
    (h : site ∈ t.sites above issuer) : ∃ deeper, site.chain = above ++ [issuer] ++ deeper := by
  induction t generalizing above issuer with
  | empty => exact absurd h (by simp [sites])
  | leaf item rest ih =>
    rcases List.mem_append.mp h with h | h
    · obtain ⟨d, -, rfl⟩ := Option.map_eq_some_iff.mp (Option.mem_toList.mp h)
      exact ⟨[], by simp [Site.chain]⟩
    · exact ih h
  | chunk path inner rest ihInner ihRest =>
    rcases List.mem_append.mp h with h | h
    · obtain ⟨deeper, hdeeper⟩ := ihInner h
      exact ⟨path.normalize :: deeper, by simp [hdeeper]⟩
    · exact ihRest h

/-- Put the chunk that `chunkOf` gives for a site in the place of its directive. -/
def substitute (chunkOf : Site → Option Chunk) (above : List Path) (issuer : Path) : Tree → Tree
  | .empty => .empty
  | .leaf item rest =>
    let rest := rest.substitute chunkOf above issuer
    match item.include?.bind fun d => chunkOf ⟨d.value, above, issuer⟩ with
    | some loaded => .chunk loaded.path loaded.tree rest
    | none => .leaf item rest
  | .chunk path inner rest =>
    .chunk path (inner.substitute chunkOf (above ++ [issuer]) path.normalize)
      (rest.substitute chunkOf above issuer)

/-- A substitution depends on the chunks of the sites only. -/
theorem substitute_congr {chunkOf other : Site → Option Chunk} {t : Tree} {above : List Path}
    {issuer : Path} (h : ∀ site ∈ t.sites above issuer, chunkOf site = other site) :
    t.substitute chunkOf above issuer = t.substitute other above issuer := by
  induction t generalizing above issuer with
  | empty => rfl
  | leaf item rest ih =>
    have hrest := ih fun site hsite => h site (List.mem_append_right _ hsite)
    cases hinclude : item.include? with
    | none => simp only [substitute, hinclude, Option.bind_none, hrest]
    | some line =>
      have hline := h ⟨line.value, above, issuer⟩ (by simp [sites, hinclude])
      simp only [substitute, hinclude, Option.bind_some, hline, hrest]
  | chunk path inner rest ihInner ihRest =>
    rw [substitute, substitute, ihInner fun site hsite => h site (List.mem_append_left _ hsite),
      ihRest fun site hsite => h site (List.mem_append_right _ hsite)]

/-! ## Sites by handle -/

theorem siteWithin_cons_next (node : Node) (rest : Tree) (above : List Path) (issuer : Path)
    (handle : Handle) : (cons node rest).siteWithin above issuer handle.next =
      rest.siteWithin above issuer handle := by
  rw [siteWithin, siteWithin, valueAt, valueAt, get?_cons_next, ancestry_cons_next]

theorem siteWithin_chunk_enter (path : Path) (inner rest : Tree) (above : List Path)
    (issuer : Path) {handle : Handle} (h : handle ≠ []) :
    (chunk path inner rest).siteWithin above issuer (0 :: handle) =
      inner.siteWithin (above ++ [issuer]) path.normalize handle := by
  rw [siteWithin, siteWithin, valueAt, valueAt, get?_chunk_enter path inner rest h,
    ancestry_chunk_enter, List.map_cons, Site.within]

/-- The sites of a tree are those that the handles of its include directives lead to. -/
theorem map_siteWithin_query (t : Tree) (above : List Path) (issuer : Path) :
    (t.query Node.isInclude).map (t.siteWithin above issuer) = t.sites above issuer := by
  induction t generalizing above issuer with
  | empty => rfl
  | leaf item rest ih =>
    rw [query_leaf, List.map_append, List.map_map, sites]
    congr 1
    · cases item with
      | text content => rfl
      | directive line =>
        by_cases h : line.isInclude = true
        · simp only [Node.isInclude, Leaf.include?, h]
          rfl
        · simp [Node.isInclude, Leaf.include?, h]
    · rw [← ih]
      exact List.map_congr_left fun handle _ => siteWithin_cons_next (.leaf item) rest _ _ handle
  | chunk path inner rest ihInner ihRest =>
    rw [query_chunk, List.map_append, List.map_append, List.map_map, List.map_map, sites,
      ← ihInner, ← ihRest]
    congr 1
    · -- A handle into the chunk finds the chunk's file added to the files around it.
      refine List.map_congr_left fun handle h => ?_
      exact siteWithin_chunk_enter path inner rest above issuer (ne_nil_of_mem_query h)
    · exact List.map_congr_left fun handle _ =>
        siteWithin_cons_next (.chunk path inner) rest _ _ handle

/-- The sites of a tree of the file `file` are those that the handles of its include directives lead
to. -/
theorem map_siteAt_query (t : Tree) (file : Path) :
    (t.query Node.isInclude).map (t.siteAt file) = t.sites [] file.normalize :=
  map_siteWithin_query t [] file.normalize

/-- A tree has sites exactly where it has include directives. -/
theorem query_isInclude_eq_nil_iff (t : Tree) (above : List Path) (issuer : Path) :
    t.query Node.isInclude = [] ↔ t.sites above issuer = [] := by
  rw [← map_siteWithin_query, List.map_eq_nil_iff]

/-- As many chunks are loaded for a tree as it has include directives, if each site gives one. -/
theorem length_filterMap_sites {chunkOf : Site → Option Chunk} {t : Tree} {above : List Path}
    {issuer : Path} (h : ∀ site ∈ t.sites above issuer, (chunkOf site).isSome = true) :
    ((t.sites above issuer).filterMap chunkOf).length = (t.query Node.isInclude).length := by
  rw [List.length_filterMap_eq_countP, List.countP_eq_length.mpr h, ← map_siteWithin_query,
    List.length_map]

/-- Replacing the include directives of a tree one after the other, each by the chunk of its site,
is substituting the chunks. -/
theorem replaceAll_query {chunkOf : Site → Option Chunk} {t : Tree} {above : List Path}
    {issuer : Path} (h : ∀ site ∈ t.sites above issuer, (chunkOf site).isSome = true) :
    t.replaceAll ((t.query Node.isInclude).zip
      (((t.sites above issuer).filterMap chunkOf).map Chunk.node)) =
        t.substitute chunkOf above issuer := by
  induction t generalizing above issuer with
  | empty => rfl
  | leaf item rest ih =>
    have hrest : ∀ site ∈ rest.sites above issuer, (chunkOf site).isSome = true := fun site hsite =>
      h site (List.mem_append_right _ hsite)
    cases hinclude : item.include? with
    | none =>
      simp only [query_leaf, Node.isInclude, hinclude, sites, substitute, Option.isSome_none,
        Bool.false_eq_true, if_false, List.nil_append, Option.map_none, Option.toList_none,
        Option.bind_none]
      rw [← ih hrest]
      exact replaceAll_cons_next (.leaf item) rest _ _
    | some line =>
      obtain ⟨loaded, hloaded⟩ := Option.isSome_iff_exists.mp <|
        h ⟨line.value, above, issuer⟩ (by simp [sites, hinclude])
      simp only [query_leaf, Node.isInclude, hinclude, sites, substitute, Option.isSome_some,
        if_true, List.singleton_append, Option.map_some, Option.toList_some, Option.bind_some,
        List.filterMap_cons, hloaded, List.map_cons, List.zip_cons_cons]
      rw [← ih hrest]
      exact replaceAll_cons_next loaded.node rest _ _
  | chunk path inner rest ihInner ihRest =>
    have hinner : ∀ site ∈ inner.sites (above ++ [issuer]) path.normalize,
        (chunkOf site).isSome = true := fun site hsite => h site (List.mem_append_left _ hsite)
    have hrest : ∀ site ∈ rest.sites above issuer, (chunkOf site).isSome = true := fun site hsite =>
      h site (List.mem_append_right _ hsite)
    -- The handles into the chunk come before those past it, and leave the latter as they are.
    rw [query_chunk, sites, List.filterMap_append, List.map_append]
    simp only [Node.isInclude, Bool.false_eq_true, if_false, List.nil_append]
    have hlength := length_filterMap_sites hinner
    rw [List.zip_append (by simp [hlength]), replaceAll_append, substitute, ← ihInner hinner,
      ← ihRest hrest, replaceAll_chunk_enter path inner rest fun _ => ne_nil_of_mem_query]
    exact replaceAll_cons_next (.chunk path _) rest _ _

/-! ## Sites after a substitution -/

/-- The sites that stand in the place of a site after a substitution. -/
def sitesInPlace (chunkOf : Site → Option Chunk) (site : Site) : List Site :=
  match chunkOf site with
  | some loaded => loaded.tree.sites site.chain loaded.path.normalize
  | none => [site]

/-- A substitution replaces each site by the sites of its chunk. -/
theorem sites_substitute (chunkOf : Site → Option Chunk) (above : List Path) (issuer : Path)
    (t : Tree) : (t.substitute chunkOf above issuer).sites above issuer =
      (t.sites above issuer).flatMap (sitesInPlace chunkOf) := by
  induction t generalizing above issuer with
  | empty => rfl
  | leaf item rest ih =>
    cases hinclude : item.include? with
    | none => simp [substitute, sites, hinclude, ih]
    | some d =>
      cases hchunk : chunkOf ⟨d.value, above, issuer⟩ with
      | none => simp [substitute, sites, hinclude, hchunk, ih, sitesInPlace]
      | some loaded => simp [substitute, sites, hinclude, hchunk, ih, sitesInPlace, Site.chain]
  | chunk path inner rest ihInner ihRest =>
    simp [substitute, sites, ihInner, ihRest]

end Tree

end ShaderTemplate
