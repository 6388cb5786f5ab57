import ShaderTemplate.Include.Dependencies
import ShaderTemplate.Include.Loading

/-!
# Expanding include directives

An expansion replaces every include directive of a tree by the tree of the file it names. It goes
in passes: a pass loads the files of all directives in the tree and replaces the directives by their
handles, one after the other; the directives of the loaded trees are left to the next pass. Any
failure fails the whole expansion.

A pass succeeds exactly if every site of the tree loads, and then it substitutes the chunks of the
sites (`outcome_pass_eq_ok_iff`). An expansion ends because no file may be included inside itself:
the directives that a pass leaves stand in one more file of the host than those it found
(`remaining_lt`), so a host of `n` files allows `n` successful passes (`passes_isSome`).
-/

namespace ShaderTemplate

/-- A tree without include directives, and the files that were read to build it. -/
structure Expansion where
  /-- The tree. -/
  tree : Tree
  /-- The files. -/
  dependencies : DependencySet

namespace Host

/-- The number of files of a host that are not in a chain. -/
def remaining (host : Host) (chain : List Path) : Nat :=
  (host.files.filter fun file => !chain.any fun p => p.Same file).length

theorem remaining_le (host : Host) (chain : List Path) :
    host.remaining chain ≤ host.files.length :=
  List.length_filter_le ..

/-- A longer chain leaves no more files. -/
theorem remaining_append_le (host : Host) (chain deeper : List Path) :
    host.remaining (chain ++ deeper) ≤ host.remaining chain := by
  unfold remaining
  rw [← List.countP_eq_length_filter, ← List.countP_eq_length_filter]
  refine List.countP_mono_left fun file _ h => ?_
  simp_all

/-- A file that a chain does not hold yet leaves fewer files for the rest. -/
theorem remaining_lt {host : Host} {chain : List Path} {path file : Path}
    (hfile : file ∈ host.files) (hsame : path.Same file) (hnew : ∀ p ∈ chain, ¬ path.Same p) :
    host.remaining (chain ++ [path]) < host.remaining chain := by
  -- The files outside the longer chain are those outside the shorter one, but for the path.
  have split : (host.files.filter fun f => !(chain ++ [path]).any fun p => p.Same f) =
      (host.files.filter fun f => !chain.any fun p => p.Same f).filter fun f => !path.Same f := by
    rw [List.filter_filter]
    refine List.filter_congr fun f _ => ?_
    simp [Bool.and_comm]
  unfold remaining
  rw [split]
  refine List.length_filter_lt_length_iff_exists.mpr ⟨file, ?_, by simpa using hsame⟩
  refine List.mem_filter.mpr ⟨hfile, ?_⟩
  -- A member of the chain with the same steps as the file would be the same as the path.
  simp only [Bool.not_eq_true', List.any_eq_false, decide_eq_true_eq]
  exact fun p hp h => hnew p hp (hsame.trans h.symm)

end Host

namespace Setup

/-- The chunk that a site loads, if its load succeeds. -/
def chunkAt (setup : Setup) (site : Site) : Option Chunk :=
  (setup.load site).chunk?

/-- Load and replace the include directives of a tree that is part of the file `file`. -/
def pass (setup : Setup) (file : Path) (number : Nat) (current : Expansion) :
    Traced Error Expansion :=
  let handles := current.tree.query Node.isInclude
  let loads := handles.map fun handle => setup.load (current.tree.siteAt file handle)
  let awaited := Loads.await loads
  { log := .passStarted file number handles.length :: awaited.log
    outcome := awaited.outcome.map fun chunks =>
      { tree := current.tree.replaceAll (handles.zip (chunks.map Chunk.node))
        dependencies := current.dependencies.insertAll (Loads.registered loads) } }

/-- Go on with an expansion of the file `file` for at most `fuel` passes, the next one being pass
`number`. There is no outcome if more passes would be needed. -/
def passes (setup : Setup) (file : Path) (number : Nat) (current : Expansion) :
    Nat → Option (Traced Error Expansion)
  | 0 => if (current.tree.query Node.isInclude).isEmpty then some ⟨[], .ok current⟩ else none
  | fuel + 1 =>
    if (current.tree.query Node.isInclude).isEmpty then some ⟨[], .ok current⟩
    else
      let here := setup.pass file number current
      match here.outcome with
      | .error e => some ⟨here.log, .error e⟩
      | .ok next =>
        (setup.passes file (number + 1) next fuel).map fun later =>
          ⟨here.log ++ later.log, later.outcome⟩

/-! ## What a load comes to -/

/-- A load succeeds exactly if its file is found, does not stand around the directive yet, can be
read, and is well formed. -/
theorem chunkAt_eq_some_iff {setup : Setup} {site : Site} {chunk : Chunk} :
    setup.chunkAt site = some chunk ↔
      resolve setup.host site.value site.issuer setup.config = .ok chunk.path ∧
        (∀ p ∈ site.chain, ¬ chunk.path.Same p) ∧
          ∃ source, setup.host.read chunk.path = .ok source ∧
            setup.parser source = .ok chunk.tree := by
  unfold chunkAt Load.chunk? load
  simp only
  split
  next e he => simp [he, Except.toOption]
  next path hpath =>
    have hnew : (¬ (site.chain.any fun file => decide (path.Same file)) = true) ↔
        ∀ p ∈ site.chain, ¬ path.Same p := by simp
    split
    next hchain =>
      -- The file stands around the directive, against the second condition.
      simp only [Except.toOption, reduceCtorEq, false_iff]
      rintro ⟨hfound, new, -⟩
      obtain rfl := Except.ok.inj (hpath.symm.trans hfound)
      exact hnew.mpr new hchain
    next hchain =>
      -- What is left fails with the read or with the parser, or is the chunk.
      have new := hnew.mp hchain
      split
      next cause hcause =>
        simp only [Except.toOption, reduceCtorEq, false_iff]
        rintro ⟨hfound, -, source, hsource, -⟩
        obtain rfl := Except.ok.inj (hpath.symm.trans hfound)
        exact absurd (hcause.symm.trans hsource) (by simp)
      next source hsource =>
        split
        next e he =>
          simp only [Except.toOption, reduceCtorEq, false_iff]
          rintro ⟨hfound, -, other, hother, htree⟩
          obtain rfl := Except.ok.inj (hpath.symm.trans hfound)
          obtain rfl := Except.ok.inj (hsource.symm.trans hother)
          exact absurd (he.symm.trans htree) (by simp)
        next tree htree =>
          constructor
          · intro h
            obtain rfl := Option.some.inj h
            exact ⟨hpath, new, source, hsource, htree⟩
          · rintro ⟨hfound, -, other, hother, hparsed⟩
            obtain rfl := Except.ok.inj (hpath.symm.trans hfound)
            obtain rfl := Except.ok.inj (hsource.symm.trans hother)
            obtain rfl := Except.ok.inj (htree.symm.trans hparsed)
            rfl

/-- A load that succeeds registers its file. -/
theorem registering_load {setup : Setup} {site : Site} {chunk : Chunk}
    (h : setup.chunkAt site = some chunk) : (setup.load site).registering = some chunk.path := by
  obtain ⟨hpath, new, source, hsource, htree⟩ := chunkAt_eq_some_iff.mp h
  have hchain : ¬ (site.chain.any fun file => decide (chunk.path.Same file)) = true := by
    simpa using new
  simp only [load, hpath]
  rw [if_neg hchain]
  simp only [hsource, htree]

/-- A load that succeeds gives a file of the host that is not in the chain yet. -/
theorem exists_same_of_chunkAt {setup : Setup} {site : Site} {chunk : Chunk}
    (h : setup.chunkAt site = some chunk) :
    (∃ file ∈ setup.host.files, chunk.path.Same file) ∧ chunk.path.normalize = chunk.path ∧
      ∀ p ∈ site.chain, ¬ chunk.path.Same p := by
  obtain ⟨hpath, new, -⟩ := chunkAt_eq_some_iff.mp h
  exact ⟨exists_same_of_resolve hpath, normalize_of_resolve hpath, new⟩

/-- A load succeeds where it gives a chunk. -/
theorem error?_load_eq_none_iff {setup : Setup} {site : Site} :
    (setup.load site).error? = none ↔ (setup.chunkAt site).isSome = true := by
  unfold Load.error? chunkAt Load.chunk?
  cases (setup.load site).result <;> simp [Except.toOption]

/-! ## What a pass comes to -/

/-- The loads of a pass are those of the sites of the tree. -/
theorem map_load_siteAt (setup : Setup) (file : Path) (t : Tree) :
    ((t.query Node.isInclude).map fun handle => setup.load (t.siteAt file handle)) =
      (t.sites [] file.normalize).map setup.load := by
  rw [← Tree.map_siteAt_query, List.map_map]
  rfl

/-- The chunks of a pass are those of the sites of the tree. -/
theorem filterMap_chunk?_map_load (setup : Setup) (sites : List Site) :
    (sites.map setup.load).filterMap Load.chunk? = sites.filterMap setup.chunkAt :=
  List.filterMap_map

/-- The files that a pass registers are those of the chunks, if every site loads. -/
theorem registered_map_load {setup : Setup} {sites : List Site}
    (h : ∀ site ∈ sites, (setup.chunkAt site).isSome = true) :
    Loads.registered (sites.map setup.load) = (sites.filterMap setup.chunkAt).map Chunk.path := by
  have hloads : ∀ load ∈ sites.map setup.load, load.error? = none := by
    intro load hload
    obtain ⟨site, hsite, rfl⟩ := List.mem_map.mp hload
    exact error?_load_eq_none_iff.mpr (h site hsite)
  rw [Loads.registered_of_error?_eq_none hloads]
  clear hloads
  induction sites with
  | nil => rfl
  | cons site rest ih =>
    obtain ⟨chunk, hchunk⟩ := Option.isSome_iff_exists.mp (h site List.mem_cons_self)
    rw [List.map_cons, List.filterMap_cons_some (registering_load hchunk),
      ih fun site hsite => h site (List.mem_cons_of_mem _ hsite),
      List.filterMap_cons_some hchunk, List.map_cons]

/-- A pass succeeds exactly if every site loads. It puts the chunk of each site in the place of its
directive and registers the files of the chunks. -/
theorem outcome_pass_eq_ok_iff {setup : Setup} {file : Path} {number : Nat}
    {current next : Expansion} : (setup.pass file number current).outcome = .ok next ↔
      (∀ site ∈ current.tree.sites [] file.normalize, (setup.chunkAt site).isSome = true) ∧
        next =
          { tree := current.tree.substitute setup.chunkAt [] file.normalize
            dependencies := current.dependencies.insertAll
              (((current.tree.sites [] file.normalize).filterMap setup.chunkAt).map
                Chunk.path) } := by
  -- The chunks that are waited for are those of the sites, in document order.
  have awaited : (Loads.await ((current.tree.sites [] file.normalize).map setup.load)).outcome =
      .ok ((current.tree.sites [] file.normalize).filterMap setup.chunkAt) ↔
        ∀ site ∈ current.tree.sites [] file.normalize, (setup.chunkAt site).isSome = true := by
    rw [Loads.outcome_await_eq_ok_iff, filterMap_chunk?_map_load, List.forall_mem_map]
    simp [error?_load_eq_none_iff]
  simp only [pass, map_load_siteAt]
  constructor
  · intro h
    cases hout : (Loads.await ((current.tree.sites [] file.normalize).map setup.load)).outcome with
    | error e => simp [hout, Except.map] at h
    | ok chunks =>
      obtain rfl : chunks = (current.tree.sites [] file.normalize).filterMap setup.chunkAt :=
        (Loads.outcome_await_eq_ok_iff.mp hout).2.trans (filterMap_chunk?_map_load setup _)
      have every := awaited.mp hout
      refine ⟨every, ?_⟩
      rw [hout] at h
      rw [← Except.ok.inj h, registered_map_load every, ← Tree.replaceAll_query every]
  · rintro ⟨every, rfl⟩
    rw [awaited.mpr every, registered_map_load every, ← Tree.replaceAll_query every]
    rfl

/-- A pass that fails has found a site that does not load. -/
theorem exists_chunkAt_eq_none_of_pass {setup : Setup} {file : Path} {number : Nat}
    {current : Expansion} {e : Error}
    (h : (setup.pass file number current).outcome = .error e) :
    ∃ site ∈ current.tree.sites [] file.normalize, setup.chunkAt site = none := by
  apply Classical.byContradiction
  intro hall
  have every : ∀ site ∈ current.tree.sites [] file.normalize,
      (setup.chunkAt site).isSome = true := fun site hsite =>
    Option.isSome_iff_ne_none.mpr fun hnone => hall ⟨site, hsite, hnone⟩
  exact absurd (h.symm.trans (outcome_pass_eq_ok_iff.mpr ⟨every, rfl⟩)) (by simp)

/-- The directives that a pass leaves have fewer files left to include than some directive that it
found. -/
theorem exists_remaining_lt_of_pass {setup : Setup} {file : Path} {number : Nat}
    {current next : Expansion} (h : (setup.pass file number current).outcome = .ok next)
    {site : Site} (hsite : site ∈ next.tree.sites [] file.normalize) :
    ∃ outer ∈ current.tree.sites [] file.normalize,
      setup.host.remaining site.chain < setup.host.remaining outer.chain := by
  obtain ⟨every, rfl⟩ := outcome_pass_eq_ok_iff.mp h
  rw [Tree.sites_substitute, List.mem_flatMap] at hsite
  obtain ⟨outer, houter, hplace⟩ := hsite
  refine ⟨outer, houter, ?_⟩
  -- The site stands in the chunk of `outer`, so its chain continues that of `outer` by a new file.
  obtain ⟨chunk, hchunk⟩ := Option.isSome_iff_exists.mp (every outer houter)
  obtain ⟨⟨known, hknown, hsame⟩, hnormal, hnew⟩ := exists_same_of_chunkAt hchunk
  simp only [Tree.sitesInPlace, hchunk, hnormal] at hplace
  obtain ⟨deeper, hdeeper⟩ := Tree.exists_chain_eq_of_mem_sites hplace
  rw [hdeeper]
  exact Nat.lt_of_le_of_lt (Host.remaining_append_le _ _ _) (Host.remaining_lt hknown hsame hnew)

/-- If every directive has fewer files left to include than there is fuel, the fuel is enough. -/
theorem passes_isSome {setup : Setup} {file : Path} {fuel : Nat} (number : Nat)
    {current : Expansion}
    (h : ∀ site ∈ current.tree.sites [] file.normalize, setup.host.remaining site.chain < fuel) :
    (setup.passes file number current fuel).isSome = true := by
  induction fuel generalizing number current with
  | zero =>
    have hnil : current.tree.sites [] file.normalize = [] :=
      List.eq_nil_iff_forall_not_mem.mpr fun site hsite => Nat.not_lt_zero _ (h site hsite)
    simp [passes, (Tree.query_isInclude_eq_nil_iff _ _ _).mpr hnil]
  | succ fuel ih =>
    unfold passes
    split
    · rfl
    · simp only
      split
      · rfl
      next next hnext =>
        rw [Option.isSome_map]
        refine ih _ fun site hsite => ?_
        obtain ⟨outer, houter, hlt⟩ := exists_remaining_lt_of_pass hnext hsite
        have := h outer houter
        omega

/-- As many passes as the host has files and one more are enough for any tree. -/
theorem passes_files_isSome (setup : Setup) (file : Path) (number : Nat) (current : Expansion) :
    (setup.passes file number current (setup.host.files.length + 1)).isSome = true :=
  passes_isSome number fun _ _ => Nat.lt_succ_of_le (Host.remaining_le ..)

/-- Replace every include directive of a tree, which is part of the file `file`. -/
def expand (setup : Setup) (file : Path) (tree : Tree) : Traced Error Expansion :=
  (setup.passes file 1 ⟨tree, .empty⟩ (setup.host.files.length + 1)).get
    (setup.passes_files_isSome file 1 ⟨tree, .empty⟩)

end Setup

end ShaderTemplate
