import ShaderTemplate.Proofs.Expansion.Run

/-!
# Expansion as recursive inlining

`Setup.inlined` is the recursion that an expansion stands for: it walks a tree with the chain of the
files around it, puts in the place of an include directive the chunk of the file that the directive
names, itself inlined with the chain continued by that file, descends into the chunks that are there
already, and keeps every other node. It fails when a file is not found, stands in the chain already,
cannot be read, or is malformed.

An expansion works through the tree level by level instead, a pass loading the directives that the
pass before has spliced in. A pass leaves what the recursion makes of the tree as it is
(`inlined_substitute`), so both come to the same tree (`expand_eq_inlined`).
-/

namespace ShaderTemplate

namespace Setup

variable {setup : Setup} {above : List Path} {issuer : Path}

/-- The chunk that a directive with the value `value` asks for in the file `issuer`, which stands in
the files `above`. -/
def fetch? (setup : Setup) (value : String) (above : List Path) (issuer : Path) : Option Chunk := do
  let path ← (resolve setup.host value issuer setup.config).toOption
  if ∀ file ∈ above ++ [issuer], ¬ path.Same file then
    let source ← (setup.host.read path).toOption
    let tree ← (setup.parser source).toOption
    return ⟨path, tree⟩
  else none

/-- When a directive is given a chunk, and which. -/
theorem fetch?_eq_some_iff {value : String} {loaded : Chunk} :
    setup.fetch? value above issuer = some loaded ↔
      resolve setup.host value issuer setup.config = .ok loaded.path ∧
        (∀ file ∈ above ++ [issuer], ¬ loaded.path.Same file) ∧
          ∃ source, setup.host.read loaded.path = .ok source ∧
            setup.parser source = .ok loaded.tree := by
  obtain ⟨path, tree⟩ := loaded
  constructor
  · intro h
    simp only [fetch?, Option.bind_eq_bind, Option.bind_eq_some_iff, toOption_eq_some_iff,
      Option.ite_none_right_eq_some, Option.pure_def, Option.some.injEq, Chunk.mk.injEq] at h
    obtain ⟨found, hfound, hnew, source, hsource, parsed, hparsed, rfl, rfl⟩ := h
    exact ⟨hfound, hnew, source, hsource, hparsed⟩
  · rintro ⟨hfound, hnew, source, hsource, hparsed⟩
    simp only [fetch?, hfound, hsource, hparsed, Except.toOption, Option.bind_eq_bind,
      Option.bind_some, if_pos hnew, Option.pure_def]

/-- A load gives the chunk that its directive asks for. -/
theorem chunkAt_eq_fetch? (setup : Setup) (value : String) (above : List Path) (issuer : Path) :
    setup.chunkAt ⟨value, above, issuer⟩ = setup.fetch? value above issuer :=
  Option.ext fun _ => chunkAt_eq_some_iff.trans fetch?_eq_some_iff.symm

/-- A chunk that is fetched leaves fewer files for the directives inside it. -/
theorem remaining_lt_of_fetch? {value : String} {loaded : Chunk}
    (h : setup.fetch? value above issuer = some loaded) :
    setup.host.remaining (above ++ [issuer] ++ [loaded.path]) <
      setup.host.remaining (above ++ [issuer]) := by
  obtain ⟨hfound, hnew, -⟩ := fetch?_eq_some_iff.mp h
  obtain ⟨known, hknown, hsame⟩ := exists_same_of_resolve hfound
  exact Host.remaining_lt hknown hsame hnew

/-- Replace every include directive of a tree that is part of the file `issuer`, which stands in the
files `above`, by the chunk that it asks for, with the include directives of the chunk replaced in
the same way. -/
def inlined (setup : Setup) (above : List Path) (issuer : Path) (t : Tree) : Option Tree :=
  match t with
  | .empty => some .empty
  | .leaf item rest =>
    match item.include? with
    | none => (setup.inlined above issuer rest).map (.leaf item)
    | some line =>
      match _ : setup.fetch? line.value above issuer with
      | none => none
      | some loaded => do
        let inner ← setup.inlined (above ++ [issuer]) loaded.path loaded.tree
        let rest ← setup.inlined above issuer rest
        return .chunk loaded.path inner rest
  | .chunk path inner rest => do
    let inner ← setup.inlined (above ++ [issuer]) path.normalize inner
    let rest ← setup.inlined above issuer rest
    return .chunk path inner rest
termination_by (setup.host.remaining (above ++ [issuer]), sizeOf t)
decreasing_by
  · exact Prod.Lex.right _ (by simp only [Tree.leaf.sizeOf_spec]; omega)
  · exact Prod.Lex.left _ _ (remaining_lt_of_fetch? ‹_›)
  · exact Prod.Lex.right _ (by simp only [Tree.leaf.sizeOf_spec]; omega)
  · exact Prod.Lex.right' _ (Host.remaining_append_le ..)
      (by simp only [Tree.chunk.sizeOf_spec]; omega)
  · exact Prod.Lex.right _ (by simp only [Tree.chunk.sizeOf_spec]; omega)

/-! ## One node at a time -/

/-- Nothing is inlined into nothing. -/
theorem inlined_empty : setup.inlined above issuer .empty = some .empty := by
  rw [inlined]

/-- A leaf that is no include directive is kept. -/
theorem inlined_leaf_of_none {item : Leaf} (h : item.include? = none) (rest : Tree) :
    setup.inlined above issuer (.leaf item rest) =
      (setup.inlined above issuer rest).map (.leaf item) := by
  rw [inlined]
  simp only [h]

/-- An include directive becomes the chunk that it asks for, inlined. -/
theorem inlined_leaf_of_some {item : Leaf} {line : Directive} (h : item.include? = some line)
    (rest : Tree) : setup.inlined above issuer (.leaf item rest) =
      (setup.fetch? line.value above issuer).bind fun loaded =>
        (setup.inlined (above ++ [issuer]) loaded.path loaded.tree).bind fun inner =>
          (setup.inlined above issuer rest).map (.chunk loaded.path inner) := by
  rw [inlined]
  simp only [h]
  split
  next hfetch => rw [hfetch, Option.bind_none]
  next loaded hfetch =>
    simp only [hfetch, Option.bind_eq_bind, Option.bind_some, Option.pure_def, Option.map_eq_bind]
    rfl

/-- A chunk is kept, its tree inlined. -/
theorem inlined_chunk (path : Path) (inner rest : Tree) :
    setup.inlined above issuer (.chunk path inner rest) =
      (setup.inlined (above ++ [issuer]) path.normalize inner).bind fun inner =>
        (setup.inlined above issuer rest).map (.chunk path inner) := by
  rw [inlined]
  simp only [Option.bind_eq_bind, Option.pure_def, Option.map_eq_bind]
  rfl

/-! ## What passes make of a tree -/

/-- A tree without sites is inlined already. -/
theorem inlined_of_sites_eq_nil {t : Tree} (h : t.sites above issuer = []) :
    setup.inlined above issuer t = some t := by
  induction t generalizing above issuer with
  | empty => exact inlined_empty
  | leaf item rest ih =>
    obtain ⟨hitem, hrest⟩ := List.append_eq_nil_iff.mp h
    have hnone : item.include? = none := by simpa using hitem
    rw [inlined_leaf_of_none hnone, ih hrest, Option.map_some]
  | chunk path inner rest ihInner ihRest =>
    obtain ⟨hinner, hrest⟩ := List.append_eq_nil_iff.mp h
    rw [inlined_chunk, ihInner hinner, ihRest hrest, Option.bind_some, Option.map_some]

/-- A tree with a site that does not load cannot be inlined. -/
theorem inlined_eq_none_of_chunkAt {t : Tree} {site : Site} (hsite : site ∈ t.sites above issuer)
    (h : setup.chunkAt site = none) : setup.inlined above issuer t = none := by
  induction t generalizing above issuer with
  | empty => exact absurd hsite (by simp [Tree.sites])
  | leaf item rest ih =>
    cases hinclude : item.include? with
    | none =>
      have hrest : site ∈ rest.sites above issuer := by simpa [Tree.sites, hinclude] using hsite
      rw [inlined_leaf_of_none hinclude, ih hrest, Option.map_none]
    | some line =>
      rw [inlined_leaf_of_some hinclude]
      have hcases : site = ⟨line.value, above, issuer⟩ ∨ site ∈ rest.sites above issuer := by
        simpa [Tree.sites, hinclude] using hsite
      rcases hcases with rfl | hrest
      · rw [← chunkAt_eq_fetch?, h, Option.bind_none]
      · simp [ih hrest]
  | chunk path inner rest ihInner ihRest =>
    rw [inlined_chunk]
    rcases List.mem_append.mp hsite with hinner | hrest
    · rw [ihInner hinner, Option.bind_none]
    · simp [ihRest hrest]

/-- Substituting the chunks of all sites leaves what a tree becomes when it is inlined. -/
theorem inlined_substitute {t : Tree}
    (h : ∀ site ∈ t.sites above issuer, (setup.chunkAt site).isSome = true) :
    setup.inlined above issuer (t.substitute setup.chunkAt above issuer) =
      setup.inlined above issuer t := by
  induction t generalizing above issuer with
  | empty => rfl
  | leaf item rest ih =>
    have hrest : ∀ site ∈ rest.sites above issuer, (setup.chunkAt site).isSome = true :=
      fun site hsite => h site (List.mem_append_right _ hsite)
    cases hinclude : item.include? with
    | none =>
      simp only [Tree.substitute, hinclude, Option.bind_none]
      rw [inlined_leaf_of_none hinclude, inlined_leaf_of_none hinclude, ih hrest]
    | some line =>
      obtain ⟨loaded, hloaded⟩ := Option.isSome_iff_exists.mp <|
        h ⟨line.value, above, issuer⟩ (by simp [Tree.sites, hinclude])
      -- The path of a chunk is in normal form already, so descending into the chunk keeps it.
      have hnormal := (exists_same_of_chunkAt hloaded).2.1
      simp only [Tree.substitute, hinclude, Option.bind_some, hloaded]
      rw [inlined_chunk, inlined_leaf_of_some hinclude, ← chunkAt_eq_fetch?, hloaded,
        Option.bind_some, hnormal, ih hrest]
  | chunk path inner rest ihInner ihRest =>
    rw [Tree.substitute, inlined_chunk, inlined_chunk,
      ihInner fun site hsite => h site (List.mem_append_left _ hsite),
      ihRest fun site hsite => h site (List.mem_append_right _ hsite)]

/-- A run comes to the tree that the recursion makes, and fails where the recursion fails. -/
theorem Run.inlined_eq {file : Path} {number : Nat} {current : Expansion}
    {result : Traced Error Expansion} (h : Run setup file number current result) :
    setup.inlined [] file.normalize current.tree = result.outcome.toOption.map Expansion.tree := by
  induction h with
  | finished hnil => exact inlined_of_sites_eq_nil hnil
  | failed _ hfails =>
    obtain ⟨site, hsite, hnone⟩ := exists_chunkAt_eq_none_of_pass hfails
    exact inlined_eq_none_of_chunkAt hsite hnone
  | passed _ hpasses _ ih =>
    obtain ⟨hevery, rfl⟩ := outcome_pass_eq_ok_iff.mp hpasses
    rw [← ih, inlined_substitute hevery]

end Setup

/-! ## What inlining keeps -/

/-- The tree `filled` has the nodes of a tree in their order, but for the include directives. In the
place of each of them stands a chunk whose file `holds` a tree, filled in the same way. -/
inductive Tree.Filled (holds : Path → Tree → Prop) : Tree → Tree → Prop
  /-- Nothing is added at the end. -/
  | empty : Filled holds .empty .empty
  /-- Every other leaf is kept. -/
  | leaf {item : Leaf} {rest filledRest : Tree} (hitem : item.include? = none)
      (hrest : Filled holds rest filledRest) :
      Filled holds (.leaf item rest) (.leaf item filledRest)
  /-- An include directive makes room for a chunk. -/
  | directive {item : Leaf} {line : Directive} {path : Path} {loaded inner rest filledRest : Tree}
      (hitem : item.include? = some line) (hloaded : holds path loaded)
      (hinner : Filled holds loaded inner) (hrest : Filled holds rest filledRest) :
      Filled holds (.leaf item rest) (.chunk path inner filledRest)
  /-- A chunk is kept and its tree filled. -/
  | chunk {path : Path} {inner filledInner rest filledRest : Tree}
      (hinner : Filled holds inner filledInner) (hrest : Filled holds rest filledRest) :
      Filled holds (.chunk path inner rest) (.chunk path filledInner filledRest)

namespace Setup

/-- The file at a path can be read and holds a tree. -/
def Holds (setup : Setup) (path : Path) (t : Tree) : Prop :=
  ∃ source, setup.host.read path = .ok source ∧ setup.parser source = .ok t

/-- Inlining changes nothing but the include directives. -/
theorem filled_of_inlined {setup : Setup} {above : List Path} {issuer : Path} {t filled : Tree}
    (h : setup.inlined above issuer t = some filled) : t.Filled setup.Holds filled := by
  induction above, issuer, t using inlined.induct setup generalizing filled with
  | case1 above issuer =>
    rw [inlined_empty] at h
    obtain rfl := Option.some.inj h
    exact .empty
  | case2 above issuer item rest hnone ih =>
    rw [inlined_leaf_of_none hnone] at h
    obtain ⟨filledRest, hrest, rfl⟩ := Option.map_eq_some_iff.mp h
    exact .leaf hnone (ih hrest)
  | case3 above issuer item rest line hsome hfetch =>
    rw [inlined_leaf_of_some hsome, hfetch] at h
    exact absurd h (by simp)
  | case4 above issuer item rest line hsome loaded hfetch ihInner ihRest =>
    rw [inlined_leaf_of_some hsome, hfetch, Option.bind_some] at h
    obtain ⟨inner, hinner, h⟩ := Option.bind_eq_some_iff.mp h
    obtain ⟨filledRest, hrest, rfl⟩ := Option.map_eq_some_iff.mp h
    obtain ⟨-, -, hholds⟩ := fetch?_eq_some_iff.mp hfetch
    exact .directive hsome hholds (ihInner hinner) (ihRest hrest)
  | case5 above issuer path inner rest ihInner ihRest =>
    rw [inlined_chunk] at h
    obtain ⟨filledInner, hinner, h⟩ := Option.bind_eq_some_iff.mp h
    obtain ⟨filledRest, hrest, rfl⟩ := Option.map_eq_some_iff.mp h
    exact .chunk (ihInner hinner) (ihRest hrest)

/-- An expansion succeeds exactly where the recursion does and comes to the same tree. No include
directive is left in it, and every other node stands where it stood. -/
theorem expand_eq_inlined (setup : Setup) (file : Path) (tree : Tree) :
    match (setup.expand file tree).outcome with
    | .ok expansion =>
      setup.inlined [] file.normalize tree = some expansion.tree ∧
        expansion.tree.query Node.isInclude = [] ∧ tree.Filled setup.Holds expansion.tree
    | .error _ => setup.inlined [] file.normalize tree = none := by
  have hrun := run_expand setup file tree
  have hinlined := hrun.inlined_eq
  split
  next expansion hok =>
    rw [hok] at hinlined
    exact ⟨hinlined, (Tree.query_isInclude_eq_nil_iff _ _ _).mpr (hrun.sites_eq_nil hok),
      filled_of_inlined hinlined⟩
  next e herror =>
    rw [herror] at hinlined
    exact hinlined

end Setup

end ShaderTemplate
