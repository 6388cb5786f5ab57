import ShaderTemplate.Proofs.Expansion.ExactDependencies
import ShaderTemplate.Proofs.Expansion.Failure
import ShaderTemplate.Proofs.Expansion.Inlining
import ShaderTemplate.Proofs.Expansion.RelocatedFiles
import ShaderTemplate.Proofs.Expansion.Schedule

/-!
# Expansions of a project that is moved

A project does not know where it lives: if its files, the file that is expanded and the configured
root are moved with their directory, the expansion comes to the same text, and its dependencies are
moved likewise. Only a lookup that goes up from the directory itself finds other files at the other
place, so there must be none.

The states of the two expansions are counterparts of each other: their trees are the same, up to the
paths of the chunks. A pass keeps this, since the sites of the trees load corresponding chunks, and
fails for both if it fails for one of them. Of a pass that fails only some lookups take place; but
the one that fails is among them, and then it fails at the other place, too.

Main statements:

- `exists_resolvingNote_mem_log_pass`: the lookup that fails a pass is noted;
- `Relocates.chunkAt`: a site and its counterpart load corresponding chunks;
- `Relocates.pass_ok`, `Relocates.pass_error`: passes from counterparts;
- `Relocates.run`: runs from counterparts come to outcomes that agree;
- `expand_relocated`: moving a project moves its expansion.
-/

namespace ShaderTemplate

/-! ## Trees with other paths -/

/-- Change the paths of the chunks of a tree. -/
def Tree.mapPaths (f : Path → Path) : Tree → Tree
  | .empty => .empty
  | .leaf item rest => .leaf item (rest.mapPaths f)
  | .chunk path inner rest => .chunk (f path) (inner.mapPaths f) (rest.mapPaths f)

/-- Change the path of a chunk and those in its tree. -/
def Chunk.mapPaths (f : Path → Path) (loaded : Chunk) : Chunk :=
  ⟨f loaded.path, loaded.tree.mapPaths f⟩

/-- Change the paths of the files around a directive. -/
def Site.mapPaths (f : Path → Path) (site : Site) : Site :=
  { site with above := site.above.map f, issuer := f site.issuer }

namespace Tree

variable {f : Path → Path} {above : List Path} {issuer : Path}

/-- The paths of its chunks are no part of the text of a tree. -/
@[simp] theorem render_mapPaths (f : Path → Path) (t : Tree) :
    (t.mapPaths f).render = t.render := by
  induction t with
  | empty => rfl
  | leaf item rest ih => rw [mapPaths, render, render, ih]
  | chunk path inner rest ihInner ihRest => rw [mapPaths, render, render, ihInner, ihRest]

/-- A tree without chunks has no paths to change. -/
theorem mapPaths_eq_self {t : Tree} (h : t.chunkPaths = []) : t.mapPaths f = t := by
  induction t with
  | empty => rfl
  | leaf item rest ih => rw [mapPaths, ih h]
  | chunk path inner rest => exact absurd h (by simp [chunkPaths])

/-- The sites of a tree with other paths. -/
theorem sites_mapPaths {t : Tree} (h : ∀ p ∈ t.chunkPaths, (f p).normalize = f p.normalize) :
    (t.mapPaths f).sites (above.map f) (f issuer) =
      (t.sites above issuer).map (Site.mapPaths f) := by
  induction t generalizing above issuer with
  | empty => rfl
  | leaf item rest ih =>
    rw [mapPaths, sites, sites, ih h, List.map_append]
    cases item.include? <;> rfl
  | chunk path inner rest ihInner ihRest =>
    obtain ⟨hpath, h⟩ := List.forall_mem_cons.mp h
    obtain ⟨hinner, hrest⟩ := List.forall_mem_append.mp h
    have hdeeper : above.map f ++ [f issuer] = (above ++ [issuer]).map f := by simp
    rw [mapPaths, sites, sites, hpath, hdeeper, ihInner hinner, ihRest hrest, List.map_append]

/-- Corresponding chunks are put in the place of corresponding directives. -/
theorem substitute_mapPaths {chunkOf other : Site → Option Chunk} {t : Tree}
    (h : ∀ p ∈ t.chunkPaths, (f p).normalize = f p.normalize)
    (hchunk : ∀ site ∈ t.sites above issuer,
      other (site.mapPaths f) = (chunkOf site).map (Chunk.mapPaths f)) :
    (t.mapPaths f).substitute other (above.map f) (f issuer) =
      (t.substitute chunkOf above issuer).mapPaths f := by
  induction t generalizing above issuer with
  | empty => rfl
  | leaf item rest ih =>
    have hrest := ih h fun site hsite => hchunk site (List.mem_append_right _ hsite)
    cases hinclude : item.include? with
    | none => simp only [mapPaths, substitute, hinclude, Option.bind_none, hrest]
    | some line =>
      have hline := hchunk ⟨line.value, above, issuer⟩ (by simp [sites, hinclude])
      rw [Site.mapPaths] at hline
      simp only [mapPaths, substitute, hinclude, Option.bind_some, hrest, hline]
      cases chunkOf ⟨line.value, above, issuer⟩ <;> rfl
  | chunk path inner rest ihInner ihRest =>
    obtain ⟨hpath, h⟩ := List.forall_mem_cons.mp h
    obtain ⟨hinner, hrest⟩ := List.forall_mem_append.mp h
    have hdeeper : above.map f ++ [f issuer] = (above ++ [issuer]).map f := by simp
    rw [mapPaths, substitute, substitute, mapPaths, hpath, hdeeper,
      ihInner hinner fun site hsite => hchunk site (List.mem_append_left _ hsite),
      ihRest hrest fun site hsite => hchunk site (List.mem_append_right _ hsite)]

end Tree

/-! ## Lookups that are noted -/

/-- The note of a lookup that goes up from the directory `base`. -/
def Note.Ascends (base : Path) : Note → Prop
  | .resolving specifier context _ => Path.Ascends base context ⟨specifier⟩
  | _ => False

instance (base : Path) (note : Note) : Decidable (note.Ascends base) :=
  match note with
  | .resolving specifier context _ =>
    inferInstanceAs (Decidable (Path.Ascends base context ⟨specifier⟩))
  | .passStarted .. | .included .. | .segmented .. | .compiled .. => instDecidableFalse

namespace Loads

variable {loads : List Load}

/-- The first poll that satisfies a condition takes place. -/
theorem mem_throughFirst_of_find? {p : Poll → Bool} {polls : List Poll} {poll : Poll}
    (h : polls.find? p = some poll) : poll ∈ throughFirst p polls := by
  induction polls with
  | nil => exact absurd h (by simp)
  | cons first rest ih =>
    rw [throughFirst]
    cases hfirst : p first with
    | true =>
      rw [List.find?_cons_of_pos hfirst] at h
      simp [Option.some.inj h]
    | false =>
      rw [List.find?_cons_of_neg (by simp [hfirst])] at h
      simp [ih h]

/-- Every load is polled in the first round. -/
theorem mem_polls_of_getElem? {load : Load} {place : Nat} (h : loads[place]? = some load) :
    ⟨0, place, load⟩ ∈ polls loads := by
  have hplace : (load, place) ∈ loads.zipIdx := List.mk_mem_zipIdx_iff_getElem?.mpr h
  have hround : 0 < rounds loads := Nat.zero_lt_of_lt (rounds_lt (List.mem_of_getElem? h))
  refine List.mem_flatMap.mpr ⟨0, List.mem_range.mpr hround, ?_⟩
  exact List.mem_map.mpr ⟨(load, place), List.mem_filter.mpr ⟨hplace, by simp⟩, rfl⟩

/-- Every load starts if none fails. -/
theorem starting_mem_log (h : error? loads = none) {load : Load} (hload : load ∈ loads) :
    load.starting ∈ (await loads).log := by
  obtain ⟨place, hget⟩ := List.mem_iff_getElem?.mp hload
  refine List.mem_flatMap.mpr ⟨⟨0, place, load⟩, ?_, by simp [Poll.notes]⟩
  rw [pollsNeeded_of_error?_eq_none (error?_eq_none_iff.mp h)]
  exact mem_polls_of_getElem? hget

/-- If loads fail that end when they are first polled, one that fails has started. -/
theorem exists_starting_mem_log {e : Error} (hrounds : ∀ load ∈ loads, load.rounds = 0)
    (h : error? loads = some e) :
    ∃ load ∈ loads, load.error?.isSome = true ∧ load.starting ∈ (await loads).log := by
  unfold error? at h
  by_cases hfew : loads.length ≤ fewest
  · -- The first poll that fails is the last one that takes place.
    rw [if_pos hfew] at h
    obtain ⟨poll, hfind, herror⟩ := Option.bind_eq_some_iff.mp h
    have hload := load_mem_of_mem_polls (List.mem_of_find?_eq_some hfind)
    have hround : poll.round = 0 := by
      have hfails := List.find?_some hfind
      rw [Poll.fails, Bool.and_eq_true, Poll.ends, beq_iff_eq] at hfails
      rw [← hfails.1, hrounds _ hload]
    refine ⟨poll.load, hload, by simp [herror], List.mem_flatMap.mpr ⟨poll, ?_, ?_⟩⟩
    · rw [pollsNeeded, if_pos hfew]
      exact mem_throughFirst_of_find? hfind
    · simp [Poll.notes, hround]
  · -- The first load that fails is waited for.
    rw [if_neg hfew] at h
    obtain ⟨load, hload, herror⟩ := List.exists_of_findSome?_eq_some h
    have hfound : (loads.findIdx? fun load => load.error?.isSome).isSome = true := by
      rw [List.findIdx?_isSome]
      exact List.any_eq_true.mpr ⟨load, hload, by simp [herror]⟩
    obtain ⟨place, hplace⟩ := Option.isSome_iff_exists.mp hfound
    obtain ⟨hlt, hfails, -⟩ := List.findIdx?_eq_some_iff_getElem.mp hplace
    have hget : loads[place]? = some loads[place] := List.getElem?_eq_getElem hlt
    have hmem : loads[place] ∈ loads := List.getElem_mem hlt
    refine ⟨loads[place], hmem, hfails, List.mem_flatMap.mpr ⟨⟨0, place, loads[place]⟩, ?_, ?_⟩⟩
    · rw [pollsNeeded, if_neg hfew, hplace]
      refine Text.mem_dropEndWhile_of_neg (mem_polls_of_getElem? hget) ?_
      simp [Poll.ends, hrounds _ hmem]
    · simp [Poll.notes]

end Loads

namespace Setup

variable {setup : Setup} {file : Path} {number : Nat} {current : Expansion} {site : Site}

/-- The lookup of every site is noted in a pass that succeeds. -/
theorem resolvingNote_mem_log_pass {next : Expansion}
    (h : (setup.pass file number current).outcome = .ok next)
    (hsite : site ∈ current.tree.sites [] file.normalize) :
    resolvingNote site.value site.issuer setup.config ∈ (setup.pass file number current).log := by
  obtain ⟨hevery, -⟩ := outcome_pass_eq_ok_iff.mp h
  have herror : Loads.error? ((current.tree.sites [] file.normalize).map setup.load) = none :=
    Loads.error?_eq_none_iff.mpr <| List.forall_mem_map.mpr fun site hsite =>
      error?_load_eq_none_iff.mpr (hevery site hsite)
  have hnote := Loads.starting_mem_log herror (List.mem_map_of_mem hsite)
  rw [starting_load] at hnote
  simp only [pass, map_load_siteAt]
  exact List.mem_cons_of_mem _ hnote

/-- A load ends when it is first polled if no read is put off. -/
theorem rounds_load (h : ∀ path, setup.host.delay path = 0) : (setup.load site).rounds = 0 := by
  unfold load
  simp only [h]
  repeat' split
  all_goals rfl

/-- A pass that fails has looked up the file of a site that does not load, if no read is put off. -/
theorem exists_resolvingNote_mem_log_pass {e : Error} (hdelay : ∀ path, setup.host.delay path = 0)
    (h : (setup.pass file number current).outcome = .error e) :
    ∃ site ∈ current.tree.sites [] file.normalize, setup.chunkAt site = none ∧
      resolvingNote site.value site.issuer setup.config ∈
        (setup.pass file number current).log := by
  have hrounds : ∀ load ∈ (current.tree.sites [] file.normalize).map setup.load,
      load.rounds = 0 := List.forall_mem_map.mpr fun _ _ => rounds_load hdelay
  obtain ⟨load, hload, hfails, hnote⟩ :=
    Loads.exists_starting_mem_log hrounds (error?_of_outcome_pass h)
  obtain ⟨site, hsite, rfl⟩ := List.mem_map.mp hload
  refine ⟨site, hsite, ?_, ?_⟩
  · refine Option.not_isSome_iff_eq_none.mp fun hsome => ?_
    rw [error?_load_eq_none_iff.mpr hsome] at hfails
    exact absurd hfails (by simp)
  · rw [starting_load] at hnote
    simp only [pass, map_load_siteAt]
    exact List.mem_cons_of_mem _ hnote

end Setup

/-- A file is found exactly if the host finds what is asked for. -/
theorem toOption_resolve (host : Host) (value : String) (issuer : Path) (config : Config) :
    (resolve host value issuer config).toOption =
      (host.resolve (Request.ofValue value issuer config).context
        (Request.ofValue value issuer config).specifier).toOption := by
  simp only [resolve]
  split
  next hfound =>
    rw [hfound]
    rfl
  next hfault =>
    rw [hfault]
    rfl

/-- Reading gives what is found. -/
theorem FileTree.toOption_read (tree : FileTree) (path : Path) :
    (tree.read path).toOption = tree.find? path := by
  ext text
  exact toOption_eq_some_iff.trans FileTree.read_eq_ok_iff

namespace Relocation

/-! ## Two setups -/

/-- The files of the setup `second` are those of `first`, all of them moved. -/
structure Relocates (m : Relocation) (first second : Setup) : Prop where
  /-- Sources are read in the same way. -/
  parser_eq : second.parser = first.parser
  /-- No source has chunks of its own. -/
  flat : ∀ source t, first.parser source = .ok t → t.chunkPaths = []
  /-- Lookups that do not leave the directory find the counterparts of the same files. -/
  resolve_eq : ∀ value issuer, m.Carries issuer →
    ¬ (resolvingNote value issuer first.config).Ascends m.source →
      (resolve second.host value (m.relocate issuer) second.config).toOption =
        (resolve first.host value issuer first.config).toOption.map m.relocate
  /-- The files that they find are moved. -/
  carries : ∀ value issuer, m.Carries issuer →
    ¬ (resolvingNote value issuer first.config).Ascends m.source →
      ∀ path, resolve first.host value issuer first.config = .ok path → m.Carries path
  /-- The same texts are read. -/
  read_eq : ∀ path, m.Carries path →
    (second.host.read (m.relocate path)).toOption = (first.host.read path).toOption
  /-- No read is put off. -/
  delay_eq : ∀ path, first.host.delay path = 0

variable {m : Relocation} {first second : Setup} {site : Site}

/-- A site and its counterpart load corresponding chunks. -/
theorem Relocates.chunkAt (h : m.Relocates first second) (hchain : ∀ p ∈ site.chain, m.Carries p)
    (hstays : ¬ (resolvingNote site.value site.issuer first.config).Ascends m.source) :
    second.chunkAt (site.mapPaths m.relocate) =
      (first.chunkAt site).map (Chunk.mapPaths m.relocate) := by
  obtain ⟨value, above, issuer⟩ := site
  have hissuer : m.Carries issuer := hchain issuer (by simp [Site.chain])
  simp only [Site.mapPaths, Setup.chunkAt_eq_fetch?, Setup.fetch?, h.resolve_eq _ _ hissuer hstays]
  cases hresolve : resolve first.host value issuer first.config with
  | error e => rfl
  | ok path =>
    have hpath := h.carries _ _ hissuer hstays path hresolve
    have hnew : (∀ file ∈ above.map m.relocate ++ [m.relocate issuer],
        ¬ (m.relocate path).Same file) ↔ ∀ file ∈ above ++ [issuer], ¬ path.Same file := by
      rw [← List.map_singleton, ← List.map_append, List.forall_mem_map]
      exact forall₂_congr fun file hfile => not_congr (hpath.same_iff (hchain file hfile))
    have hfound : (Except.ok path : Except Error Path).toOption = some path := rfl
    simp only [hfound, Option.map_some, Option.bind_eq_bind, Option.bind_some, hnew]
    by_cases hfiles : ∀ file ∈ above ++ [issuer], ¬ path.Same file
    · rw [if_pos hfiles, if_pos hfiles, h.parser_eq, h.read_eq path hpath]
      cases hread : first.host.read path with
      | error cause => rfl
      | ok source =>
        cases hparse : first.parser source with
        | error e => simp [Except.toOption, hparse]
        | ok tree =>
          simp [Except.toOption, hparse, Chunk.mapPaths, Tree.mapPaths_eq_self (h.flat _ _ hparse)]
    · rw [if_neg hfiles, if_neg hfiles]
      rfl

/-- The chunk of a site is moved. -/
theorem Relocates.carries_chunk (h : m.Relocates first second) {chunk : Chunk}
    (hchain : ∀ p ∈ site.chain, m.Carries p)
    (hstays : ¬ (resolvingNote site.value site.issuer first.config).Ascends m.source)
    (hchunk : first.chunkAt site = some chunk) :
    m.Carries chunk.path ∧ chunk.tree.chunkPaths = [] := by
  obtain ⟨hpath, -, source, -, hparse⟩ := Setup.chunkAt_eq_some_iff.mp hchunk
  exact ⟨h.carries _ _ (hchain _ (by simp [Site.chain])) hstays _ hpath, h.flat _ _ hparse⟩

/-! ## Passes and runs -/

/-- Two expansions have come equally far: the trees are the same, up to the paths of the chunks, and
these and the dependencies are counterparts. -/
structure Counterparts (m : Relocation) (current other : Expansion) : Prop where
  /-- The trees are the same, up to the paths. -/
  tree_eq : other.tree = current.tree.mapPaths m.relocate
  /-- The dependencies are counterparts. -/
  paths_eq : other.dependencies.paths = current.dependencies.paths.map m.relocate
  /-- The paths of the chunks are moved. -/
  chunks : ∀ p ∈ current.tree.chunkPaths, m.Carries p
  /-- The dependencies are moved. -/
  dependencies : ∀ p ∈ current.dependencies.paths, m.Carries p

variable {file file' : Path} {number number' : Nat} {current other : Expansion}

/-- The counterparts of the chunks have normal forms that are counterparts. -/
theorem Counterparts.normalize_relocate (h : m.Counterparts current other) :
    ∀ p ∈ current.tree.chunkPaths, (m.relocate p).normalize = m.relocate p.normalize := by
  intro p hp
  rw [(h.chunks p hp).normal, (h.chunks p hp).movesBelow.2]

/-- The sites of counterparts are counterparts. -/
theorem Counterparts.sites_eq (h : m.Counterparts current other) (hfile : m.MovesBelow file file') :
    other.tree.sites [] file'.normalize =
      (current.tree.sites [] file.normalize).map (Site.mapPaths m.relocate) := by
  rw [h.tree_eq, ← hfile.carries.2, ← Tree.sites_mapPaths h.normalize_relocate, List.map_nil]

/-- Counterparts have no sites left at the same time. -/
theorem Counterparts.sites_eq_nil_iff (h : m.Counterparts current other)
    (hfile : m.MovesBelow file file') :
    other.tree.sites [] file'.normalize = [] ↔ current.tree.sites [] file.normalize = [] := by
  rw [h.sites_eq hfile, List.map_eq_nil_iff]

/-- The files around a site are moved. -/
theorem Counterparts.carries_chain (h : m.Counterparts current other)
    (hfile : m.MovesBelow file file') (hsite : site ∈ current.tree.sites [] file.normalize) :
    ∀ p ∈ site.chain, m.Carries p := by
  intro p hp
  rcases Tree.mem_chain_of_mem_sites hsite hp with hp | ⟨q, hq, rfl⟩
  · rw [List.mem_singleton.mp hp]
    exact hfile.carries.1
  · rw [(h.chunks q hq).normal]
    exact h.chunks q hq

/-- If the sites load corresponding chunks, the files of these are counterparts. -/
theorem Counterparts.map_path_filterMap (h : m.Counterparts current other)
    (hfile : m.MovesBelow file file')
    (hchunks : ∀ site ∈ current.tree.sites [] file.normalize,
      second.chunkAt (site.mapPaths m.relocate) =
        (first.chunkAt site).map (Chunk.mapPaths m.relocate)) :
    ((other.tree.sites [] file'.normalize).filterMap second.chunkAt).map Chunk.path =
      (((current.tree.sites [] file.normalize).filterMap first.chunkAt).map Chunk.path).map
        m.relocate := by
  calc ((other.tree.sites [] file'.normalize).filterMap second.chunkAt).map Chunk.path
      = ((current.tree.sites [] file.normalize).filterMap fun site =>
          (first.chunkAt site).map (Chunk.mapPaths m.relocate)).map Chunk.path := by
        rw [h.sites_eq hfile, List.filterMap_map]
        exact congrArg _ (List.filterMap_congr hchunks)
    _ = (((current.tree.sites [] file.normalize).filterMap first.chunkAt).map Chunk.path).map
          m.relocate := by
        rw [← List.map_filterMap, List.map_map, List.map_map]
        rfl

/-- A pass that succeeds does so at the other place, too, and comes to counterparts. -/
theorem Relocates.pass_ok (h : m.Relocates first second) (number' : Nat)
    (hfile : m.MovesBelow file file')
    (hcounterparts : m.Counterparts current other)
    (hstays : ∀ note ∈ (first.pass file number current).log, ¬ note.Ascends m.source)
    {next : Expansion} (hpass : (first.pass file number current).outcome = .ok next) :
    ∃ next', (second.pass file' number' other).outcome = .ok next' ∧ m.Counterparts next next' := by
  obtain ⟨hevery, hnext⟩ := Setup.outcome_pass_eq_ok_iff.mp hpass
  have hnotes : ∀ site ∈ current.tree.sites [] file.normalize,
      ¬ (resolvingNote site.value site.issuer first.config).Ascends m.source := fun site hsite =>
    hstays _ (Setup.resolvingNote_mem_log_pass hpass hsite)
  have hchunks : ∀ site ∈ current.tree.sites [] file.normalize,
      second.chunkAt (site.mapPaths m.relocate) =
        (first.chunkAt site).map (Chunk.mapPaths m.relocate) := fun site hsite =>
    h.chunkAt (hcounterparts.carries_chain hfile hsite) (hnotes site hsite)
  have hloaded : ∀ chunk ∈ (current.tree.sites [] file.normalize).filterMap first.chunkAt,
      m.Carries chunk.path ∧ chunk.tree.chunkPaths = [] := by
    intro chunk hchunk
    obtain ⟨site, hsite, hchunk⟩ := List.mem_filterMap.mp hchunk
    exact h.carries_chunk (hcounterparts.carries_chain hfile hsite) (hnotes site hsite) hchunk
  have hdependencies : ∀ p ∈ ((current.tree.sites [] file.normalize).filterMap first.chunkAt).map
      Chunk.path, m.Carries p :=
    List.forall_mem_map.mpr fun chunk hchunk => (hloaded chunk hchunk).1
  refine ⟨_, Setup.outcome_pass_eq_ok_iff.mpr ⟨?_, rfl⟩, ?_⟩
  · rw [hcounterparts.sites_eq hfile]
    refine List.forall_mem_map.mpr fun site hsite => ?_
    rw [hchunks site hsite, Option.isSome_map]
    exact hevery site hsite
  · subst hnext
    constructor
    · rw [hcounterparts.tree_eq, ← hfile.carries.2,
        ← Tree.substitute_mapPaths hcounterparts.normalize_relocate hchunks, List.map_nil]
    · rw [hcounterparts.map_path_filterMap hfile hchunks]
      exact DependencySet.paths_insertAll_map hcounterparts.paths_eq hdependencies
        hcounterparts.dependencies
    · intro p hp
      rcases Tree.mem_chunkPaths_substitute.mp hp with ⟨site, hsite, chunk, hchunk, hp⟩ | hp
      · obtain ⟨hpath, hflat⟩ := hloaded chunk (List.mem_filterMap.mpr ⟨site, hsite, hchunk⟩)
        rcases hp with rfl | hp
        · exact hpath
        · exact absurd hp (by simp [hflat])
      · exact hcounterparts.chunks p hp
    · intro p hp
      exact (DependencySet.mem_paths_insertAll hp).elim (hdependencies p)
        (hcounterparts.dependencies p)

/-- A pass that fails does so at the other place, too. -/
theorem Relocates.pass_error (h : m.Relocates first second) (number' : Nat)
    (hfile : m.MovesBelow file file')
    (hcounterparts : m.Counterparts current other)
    (hstays : ∀ note ∈ (first.pass file number current).log, ¬ note.Ascends m.source)
    {e : Error} (hpass : (first.pass file number current).outcome = .error e) :
    ∃ e', (second.pass file' number' other).outcome = .error e' := by
  -- The site whose file was looked up in vain fails to load at the other place.
  obtain ⟨site, hsite, hnone, hnote⟩ := Setup.exists_resolvingNote_mem_log_pass h.delay_eq hpass
  have hchunk := h.chunkAt (hcounterparts.carries_chain hfile hsite) (hstays _ hnote)
  rw [hnone, Option.map_none] at hchunk
  cases hother : (second.pass file' number' other).outcome with
  | error e' => exact ⟨e', rfl⟩
  | ok next =>
    obtain ⟨hevery, -⟩ := Setup.outcome_pass_eq_ok_iff.mp hother
    rw [hcounterparts.sites_eq hfile] at hevery
    have hsome := hevery _ (List.mem_map_of_mem hsite)
    rw [hchunk] at hsome
    exact absurd hsome (by simp)

/-- Two outcomes are the same, up to the move: either both expansions fail, or both succeed, with
the same text and with dependencies that are counterparts of each other. -/
def Agree (m : Relocation) : Except Error Expansion → Except Error Expansion → Prop
  | .ok expansion, .ok other =>
    other.tree.render = expansion.tree.render ∧
      other.dependencies.paths = expansion.dependencies.paths.map m.relocate ∧
        ∀ p ∈ expansion.dependencies.paths, m.MovesBelow p (m.relocate p)
  | .error _, .error _ => True
  | _, _ => False

/-- Counterparts are outcomes that agree. -/
theorem Counterparts.agree (h : m.Counterparts current other) :
    m.Agree (.ok current) (.ok other) := by
  refine ⟨?_, h.paths_eq, fun p hp => (h.dependencies p hp).movesBelow.1⟩
  rw [h.tree_eq, Tree.render_mapPaths]

/-- Runs from counterparts come to outcomes that agree, unless a lookup goes up from the directory
that is moved. -/
theorem Relocates.run (h : m.Relocates first second) (hfile : m.MovesBelow file file')
    {result result' : Traced Error Expansion} (hrun : Setup.Run first file number current result)
    (hrun' : Setup.Run second file' number' other result')
    (hcounterparts : m.Counterparts current other)
    (hstays : ∀ note ∈ result.log, ¬ note.Ascends m.source) :
    m.Agree result.outcome result'.outcome := by
  induction hrun generalizing other number' result' with
  | finished hnil =>
    have hnil' := (hcounterparts.sites_eq_nil_iff hfile).mpr hnil
    cases hrun' with
    | finished _ => exact hcounterparts.agree
    | failed hne _ => exact absurd hnil' hne
    | passed hne _ _ => exact absurd hnil' hne
  | failed hne hfails =>
    have hne' := mt (hcounterparts.sites_eq_nil_iff hfile).mp hne
    cases hrun' with
    | finished hnil => exact absurd hnil hne'
    | failed _ _ => trivial
    | passed _ hpasses' _ =>
      obtain ⟨e', hfails'⟩ := h.pass_error number' hfile hcounterparts hstays hfails
      exact absurd (hpasses'.symm.trans hfails') (by simp)
  | passed hne hpasses _ ih =>
    have hne' := mt (hcounterparts.sites_eq_nil_iff hfile).mp hne
    obtain ⟨hhere, hlater⟩ := List.forall_mem_append.mp hstays
    obtain ⟨next', hnext', hnext⟩ := h.pass_ok number' hfile hcounterparts hhere hpasses
    cases hrun' with
    | finished hnil => exact absurd hnil hne'
    | failed _ hfails' => exact absurd (hnext'.symm.trans hfails') (by simp)
    | passed _ hpasses' hrest' =>
      obtain rfl := Except.ok.inj (hnext'.symm.trans hpasses')
      have hagree := ih hrest' hnext hlater
      exact hagree

/-! ## A project in memory -/

variable {config : Config} {root : Path} {files moved : List (Path × String)} {parser : Parser}

/-- The files and the configured root of a project are moved. -/
theorem relocates_files (hroot : m.Moves config.rootPath root)
    (hfiles : List.Forall₂ (fun file other => m.MovesBelow file.1 other.1 ∧ file.2 = other.2) files
      moved) (hparser : ∀ source t, parser source = .ok t → t.chunkPaths = []) :
    m.Relocates ⟨config, (FileTree.ofList files).host, parser⟩
      ⟨{ config with rootPath := root }, (FileTree.ofList moved).host, parser⟩ where
  parser_eq := rfl
  flat := hparser
  resolve_eq value issuer hissuer hstays := by
    obtain ⟨hspecifier, hcontext, hrelative⟩ := request_moves value hroot hissuer
    rw [toOption_resolve, toOption_resolve, hspecifier]
    exact ((mirrors_ofList hfiles).resolve hcontext hrelative hstays).1
  carries value issuer hissuer hstays path hpath := by
    obtain ⟨-, hcontext, hrelative⟩ := request_moves value hroot hissuer
    refine ((mirrors_ofList hfiles).resolve hcontext hrelative hstays).2 ?_
    rw [← toOption_eq_some_iff] at hpath ⊢
    rw [← hpath, toOption_resolve]
    rfl
  read_eq path hpath := by
    obtain ⟨⟨names, -, hmaps⟩, hnormal⟩ := hpath.movesBelow
    have hfind := (mirrors_ofList hfiles).find?_eq hmaps hpath.normal hnormal
    show ((FileTree.ofList moved).read (m.relocate path)).toOption =
      ((FileTree.ofList files).read path).toOption
    rw [FileTree.toOption_read, FileTree.toOption_read, hfind]
  delay_eq _ := rfl

end Relocation

/-- Moving a project moves its expansion: if the files, the file that is expanded and the configured
root are moved with their directory, the expansion succeeds at the other place exactly if it did so
before, with the same text, and its dependencies are moved likewise. This holds unless a lookup goes
up from the directory itself. -/
theorem Setup.expand_relocated (m : Relocation) {config : Config} {root entry entry' : Path}
    {files moved : List (Path × String)} {source : String} {tree : Tree}
    (hroot : m.Moves config.rootPath root)
    (hfiles : List.Forall₂ (fun file other => m.MovesBelow file.1 other.1 ∧ file.2 = other.2) files
      moved)
    (hentry : m.MovesBelow entry entry') (hparse : parseChunk source = .ok tree)
    (hstays : ∀ note ∈ ((⟨config, (FileTree.ofList files).host, parseChunk⟩ : Setup).expand entry
      tree).log, ¬ note.Ascends m.source) :
    m.Agree ((⟨config, (FileTree.ofList files).host, parseChunk⟩ : Setup).expand entry tree).outcome
      ((⟨{ config with rootPath := root }, (FileTree.ofList moved).host, parseChunk⟩ : Setup).expand
        entry' tree).outcome := by
  have hflat := chunkPaths_of_parseChunk hparse
  have hparser : ∀ source t, parseChunk source = .ok t → t.chunkPaths = [] :=
    fun _ _ => chunkPaths_of_parseChunk
  have hrelocates := Relocation.relocates_files hroot hfiles hparser
  refine hrelocates.run hentry (run_expand _ entry tree) (run_expand _ entry' tree) ?_ hstays
  -- Both expansions start with the same tree, which has no chunks, and without dependencies.
  exact ⟨(Tree.mapPaths_eq_self hflat).symm, rfl, by simp [hflat], by simp [DependencySet.empty]⟩

/-- The move of a project to a place at another depth. -/
def deployment : Relocation :=
  ⟨⟨"/a"⟩, ⟨"/x/y"⟩, by decide, by decide⟩

/-- The configuration of a project with a root of its own. -/
def projectConfig : Config := { rootPath := ⟨"/a/lib"⟩ }

/-- The files of the project. -/
def projectFiles : List (Path × String) :=
  [(⟨"/a/lib/b.glsl"⟩, "#include ../c"), (⟨"/a/c.glsl"⟩, "int c;")]

/-- The files of the project at the other place. -/
def deployedFiles : List (Path × String) :=
  [(⟨"/x/y/lib/b.glsl"⟩, "#include ../c"), (⟨"/x/y/c.glsl"⟩, "int c;")]

/-- What an expansion comes to: the expanded text and the paths of the dependencies. -/
def Expansion.written (expansion : Expansion) : String × List Path :=
  (expansion.tree.render, expansion.dependencies.paths)

/-- A file that includes one from the configured root, which includes one by going up: the text is
the same at both places, and the paths of the two dependencies are moved. -/
theorem Setup.expand_relocated_deployment : ∃ tree, parseChunk "#include /b" = .ok tree ∧
    ((⟨projectConfig, (FileTree.ofList projectFiles).host, parseChunk⟩ : Setup).expand ⟨"/a/d"⟩
      tree).outcome.toOption.map Expansion.written =
        some ("int c;", [⟨"/a/c.glsl"⟩, ⟨"/a/lib/b.glsl"⟩]) ∧
    ((⟨{ projectConfig with rootPath := ⟨"/x/y/lib"⟩ }, (FileTree.ofList deployedFiles).host,
      parseChunk⟩ : Setup).expand ⟨"/x/y/d"⟩ tree).outcome.toOption.map Expansion.written =
        some ("int c;", [⟨"/x/y/c.glsl"⟩, ⟨"/x/y/lib/b.glsl"⟩]) ∧
    deployment.Agree
      ((⟨projectConfig, (FileTree.ofList projectFiles).host, parseChunk⟩ : Setup).expand ⟨"/a/d"⟩
        tree).outcome
      ((⟨{ projectConfig with rootPath := ⟨"/x/y/lib"⟩ }, (FileTree.ofList deployedFiles).host,
        parseChunk⟩ : Setup).expand ⟨"/x/y/d"⟩ tree).outcome := by
  have hcomputed : ((parseChunk "#include /b").toOption.map fun tree =>
      (((⟨projectConfig, (FileTree.ofList projectFiles).host, parseChunk⟩ : Setup).expand ⟨"/a/d"⟩
          tree).outcome.toOption.map Expansion.written,
        ((⟨{ projectConfig with rootPath := ⟨"/x/y/lib"⟩ }, (FileTree.ofList deployedFiles).host,
          parseChunk⟩ : Setup).expand ⟨"/x/y/d"⟩ tree).outcome.toOption.map Expansion.written,
        decide (∀ note ∈ ((⟨projectConfig, (FileTree.ofList projectFiles).host,
          parseChunk⟩ : Setup).expand ⟨"/a/d"⟩ tree).log, ¬ note.Ascends deployment.source))) =
      some (some ("int c;", [⟨"/a/c.glsl"⟩, ⟨"/a/lib/b.glsl"⟩]),
        some ("int c;", [⟨"/x/y/c.glsl"⟩, ⟨"/x/y/lib/b.glsl"⟩]), true) := by
    decide +kernel
  obtain ⟨tree, hparse, hresult⟩ := Option.map_eq_some_iff.mp hcomputed
  obtain ⟨hhere, hresult⟩ := Prod.mk.inj hresult
  obtain ⟨hthere, hstays⟩ := Prod.mk.inj hresult
  have hroot : deployment.Moves projectConfig.rootPath ⟨"/x/y/lib"⟩ :=
    ⟨["lib"], by decide +kernel, by decide +kernel⟩
  have hfiles : List.Forall₂ (fun file other => deployment.MovesBelow file.1 other.1 ∧
      file.2 = other.2) projectFiles deployedFiles :=
    .cons ⟨⟨["b.glsl", "lib"], by simp, by decide +kernel, by decide +kernel⟩, rfl⟩ <|
      .cons ⟨⟨["c.glsl"], by simp, by decide +kernel, by decide +kernel⟩, rfl⟩ .nil
  have hentry : deployment.MovesBelow ⟨"/a/d"⟩ ⟨"/x/y/d"⟩ :=
    ⟨["d"], by simp, by decide +kernel, by decide +kernel⟩
  refine ⟨tree, toOption_eq_some_iff.mp hparse, hhere, hthere, ?_⟩
  exact expand_relocated deployment hroot hfiles hentry (toOption_eq_some_iff.mp hparse)
    (of_decide_eq_true hstays)

end ShaderTemplate
