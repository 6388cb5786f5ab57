import ShaderTemplate.Include.Dependencies
import ShaderTemplate.Proofs.Path.Joining

/-!
# Moving a directory

A directory is moved with all that lies below it: a path that leads to some names below the source
of the move comes to lead to the same names below its target. Nothing is asked of the spellings of
the paths, only of the steps that are kept of them.

What is appended to a path is followed from where the path leads, name by name. As long as it does
not go up from the source itself (`Path.Ascends`) it stays below it, and then the move makes no
difference to the names that it leads to. The same holds for the directory of a file and for the
order of paths.

Main statements:

- `Path.exists_components_parent?`: the directory of a path that ends in a name;
- `Maps.join`: what is appended to a path and does not leave the directory moves with it;
- `Maps.same_iff`, `Maps.before_iff`: paths are told apart and ordered as they were before the move.
-/

namespace ShaderTemplate

namespace Path

variable {p : Path}

/-- The steps kept of a path are kept of its normal form. -/
@[simp] theorem way_normalize (p : Path) : p.normalize.way = p.way := by
  rw [way, components_normalize, ← reverse_way]
  exact (isWay_components p).foldl_follow_reverse

/-- The steps of a path in normal form are the steps kept of it. -/
theorem components_eq_reverse_way (h : p.normalize = p) : p.components = p.way.reverse := by
  rw [reverse_way, ← components_normalize, h]

/-- Names are followed downwards. -/
theorem foldl_follow_map_name (names : List String) (way : List Component) :
    (names.map .name).foldl follow way = (names.map .name).reverse ++ way := by
  induction names generalizing way with
  | nil => rfl
  | cons name names ih => simp [follow, ih]

/-! ## The directory of a path -/

/-- Pieces that spell no step count for nothing at the end. -/
theorem filterMap_dropSilentEnd (pieces : List (List Char)) :
    (dropSilentEnd pieces).filterMap Component.ofPiece? = pieces.filterMap Component.ofPiece? := by
  obtain ⟨dropped, happend, hsilent⟩ := Text.exists_append_dropEndWhile
    (fun piece => (Component.ofPiece? piece).isNone) pieces
  have hdropped : dropped.filterMap Component.ofPiece? = [] :=
    List.filterMap_eq_nil_iff.mpr fun piece hpiece =>
      Option.isNone_iff_eq_none.mp (hsilent piece hpiece)
  have hpieces : pieces.filterMap Component.ofPiece? =
      (dropSilentEnd pieces ++ dropped).filterMap Component.ofPiece? :=
    congrArg (List.filterMap Component.ofPiece?) happend
  rw [hpieces, List.filterMap_append, hdropped, List.append_nil]

/-- What is left of pieces ends in one that spells a step. -/
theorem exists_concat_of_dropSilentEnd {pieces : List (List Char)}
    (h : dropSilentEnd pieces ≠ []) :
    ∃ init last c, dropSilentEnd pieces = init ++ [last] ∧ Component.ofPiece? last = some c := by
  have hlast := Text.eq_false_of_mem_getLast?_dropEndWhile (List.getLast?_eq_some_getLast h)
  obtain ⟨c, hc⟩ := Option.isSome_iff_exists.mp (by simpa using hlast)
  exact ⟨_, _, c, (List.dropLast_concat_getLast h).symm, hc⟩

/-- A path that is spelled by pieces takes the steps that they spell. -/
theorem components_joined {first : List Char} {above : List (List Char)}
    (h : ∀ piece ∈ first :: above, '/' ∉ piece) (hne : first = [] → above ≠ []) :
    components ⟨String.ofList (Text.joined '/' (first :: above))⟩ =
      firstSteps first ++ above.filterMap Component.ofPiece? := by
  rw [components, pieces, String.toList_ofList, Text.pieces_joined (List.cons_ne_nil _ _) h,
    componentsOfPieces_cons hne]

/-- The first piece of a path spells one step at most. -/
theorem length_firstSteps_le (first : List Char) : (firstSteps first).length ≤ 1 := by
  unfold firstSteps
  split
  · exact Nat.le_refl _
  · split
    · exact Nat.le_refl _
    · exact Option.length_toList_le

/-- The directory of a path is what stands before the last piece that spells a step. -/
theorem parent?_eq_of_dropSilentEnd {first last : List Char} {rest init : List (List Char)}
    (hpieces : p.pieces = first :: rest) (hkept : dropSilentEnd rest = init ++ [last]) :
    p.parent? = if first = [] ∧ dropSilentEnd init = [] then some ⟨"/"⟩
      else some ⟨String.ofList (Text.joined '/' (first :: dropSilentEnd init))⟩ := by
  obtain ⟨next, more, hcons⟩ := List.exists_cons_of_ne_nil (List.concat_ne_nil last init)
  rw [parent?, hpieces]
  simp only [hkept, hcons]
  rw [← hcons, List.dropLast_concat]

/-- What stands before the last piece that spells a step are pieces of the path. -/
theorem slash_notMem_of_dropSilentEnd {first last : List Char} {rest init : List (List Char)}
    (hpieces : p.pieces = first :: rest) (hkept : dropSilentEnd rest = init ++ [last]) :
    ∀ piece ∈ first :: dropSilentEnd init, '/' ∉ piece := by
  intro piece hpiece
  have hmem : piece ∈ p.pieces := by
    rw [hpieces]
    rcases List.mem_cons.mp hpiece with rfl | hpiece
    · exact List.mem_cons_self
    · exact List.mem_cons_of_mem _ (Text.mem_of_mem_dropEndWhile (hkept ▸
        List.mem_append_left _ (Text.mem_of_mem_dropEndWhile hpiece)))
  exact Text.sep_notMem_of_mem_pieces hmem

/-- The directory of a path that ends in a name takes the steps before the name. -/
theorem exists_components_parent? {steps : List Component} {name : String}
    (h : p.components = steps ++ [.name name]) :
    ∃ directory, p.parent? = some directory ∧ directory.components = steps := by
  obtain ⟨first, rest, hpieces⟩ : ∃ first rest, p.pieces = first :: rest :=
    List.exists_cons_of_ne_nil (Text.pieces_ne_nil '/' p.spelling.toList)
  have hne : first = [] → rest ≠ [] := by
    rintro rfl rfl
    rw [components, hpieces] at h
    exact absurd h (by simp [componentsOfPieces, Component.ofPiece?])
  rw [components, hpieces, componentsOfPieces_cons hne, ← filterMap_dropSilentEnd] at h
  by_cases hkept : dropSilentEnd rest = []
  · -- The name is the first piece, and no other piece spells a step.
    rw [hkept, List.filterMap_nil, List.append_nil] at h
    have hfirst : first ≠ [] := by
      rintro rfl
      have hlast := congrArg List.getLast? h
      simp [firstSteps] at hlast
    have hsteps : steps = [] := by
      have hlength := length_firstSteps_le first
      rw [h] at hlength
      simpa using hlength
    refine ⟨⟨""⟩, ?_, by rw [hsteps]; decide⟩
    rw [parent?, hpieces]
    simp only [hkept, if_neg hfirst]
  · -- The last piece that spells a step spells the name.
    obtain ⟨init, last, c, hinit, hc⟩ := exists_concat_of_dropSilentEnd hkept
    rw [hinit, List.filterMap_append, List.filterMap_cons_some hc, List.filterMap_nil,
      ← List.append_assoc] at h
    obtain ⟨rfl, -⟩ := List.append_inj' h rfl
    rw [parent?_eq_of_dropSilentEnd hpieces hinit, ← filterMap_dropSilentEnd init]
    split
    next hroot =>
      rw [hroot.1, hroot.2]
      exact ⟨_, rfl, by decide⟩
    next hroot =>
      exact ⟨_, rfl, components_joined (slash_notMem_of_dropSilentEnd hpieces hinit)
        fun hfirst hnil => hroot ⟨hfirst, hnil⟩⟩

/-! ## Paths that leave a directory -/

/-- Decide whether steps that are followed from the way `here` go up from the way `base`. -/
def goesAbove (base here : List Component) : List Component → Bool
  | [] => false
  | c :: steps => (c == .parent && here == base) || goesAbove base (follow here c) steps

/-- A path that is looked up from the directory `context` goes up where it is in the directory
`base`. -/
def Ascends (base context path : Path) : Prop :=
  goesAbove base.way context.way path.components = true

instance (base context path : Path) : Decidable (Ascends base context path) :=
  inferInstanceAs (Decidable (_ = true))

/-- Steps that do not go up from a way lead through the same names from any way. -/
theorem exists_foldl_follow {base steps : List Component} {names : List String}
    (hroot : .root ∉ steps) (h : goesAbove base (names.map .name ++ base) steps = false) :
    ∃ others : List String, ∀ way,
      steps.foldl follow (names.map .name ++ way) = others.map .name ++ way := by
  induction steps generalizing names with
  | nil => exact ⟨names, fun way => rfl⟩
  | cons c steps ih =>
    obtain ⟨hc, hsteps⟩ := List.ne_and_not_mem_of_not_mem_cons hroot
    rw [goesAbove, Bool.or_eq_false_iff] at h
    obtain ⟨hhere, hlater⟩ := h
    cases c with
    | root => exact absurd rfl hc
    | current => exact ih hsteps hlater
    | name text => exact @ih (text :: names) hsteps hlater
    | parent =>
      cases names with
      | nil => simp at hhere
      | cons name names => exact ih hsteps hlater

end Path

/-- The move of a directory to another place. -/
structure Relocation where
  /-- The directory that is moved. -/
  source : Path
  /-- The place to which it is moved. -/
  target : Path
  /-- The directory is given from the root. -/
  absolute_source : source.isAbsolute = true
  /-- The place is given from the root. -/
  absolute_target : target.isAbsolute = true

namespace Relocation

variable {m : Relocation} {names others : List String} {p q p' q' : Path}

/-- The path `p` leads through names, the last one first, from the source of the move, and `q` leads
through the same names from its target. -/
structure Maps (m : Relocation) (names : List String) (p q : Path) : Prop where
  /-- Where the path leads. -/
  source : p.way = names.map .name ++ m.source.way
  /-- Where its counterpart leads. -/
  target : q.way = names.map .name ++ m.target.way

/-- The path `p` leads to the source of the move or to a place below it, and `q` is its counterpart
at the target. -/
def Moves (m : Relocation) (p q : Path) : Prop :=
  ∃ names, m.Maps names p q

/-- The path `p` leads to a place below the source of the move, and `q` is its counterpart. -/
def MovesBelow (m : Relocation) (p q : Path) : Prop :=
  ∃ names ≠ [], m.Maps names p q

/-- The counterpart of a path, in normal form. -/
def relocate (m : Relocation) (p : Path) : Path :=
  .ofComponents (m.target.normalSteps ++ p.normalSteps.drop m.source.normalSteps.length)

/-- The counterparts of a path have one normal form. -/
theorem Maps.relocate_eq (h : m.Maps names p q) : m.relocate p = q.normalize := by
  rw [relocate, Path.normalize, ← Path.reverse_way q, ← Path.reverse_way p,
    ← Path.reverse_way m.source, ← Path.reverse_way m.target, h.source, h.target,
    List.reverse_append, List.reverse_append, List.drop_left]

/-- Normal forms lead to the same places. -/
theorem Maps.normalize (h : m.Maps names p q) : m.Maps names p.normalize q.normalize :=
  ⟨by rw [Path.way_normalize, h.source], by rw [Path.way_normalize, h.target]⟩

/-- The names that a path leads through are told by the path. -/
theorem Maps.names_eq (h : m.Maps names p q) (h' : m.Maps others p q') : names = others := by
  have hnames := h.source.symm.trans h'.source
  exact (List.map_inj_right fun _ _ => Component.name.inj).mp (List.append_cancel_right hnames)

/-- Paths in normal form take the same steps exactly if their counterparts do. -/
theorem Maps.same_iff (h : m.Maps names p q) (h' : m.Maps others p' q')
    (hp : p.normalize = p) (hq : q.normalize = q) (hp' : p'.normalize = p')
    (hq' : q'.normalize = q') : p.Same p' ↔ q.Same q' := by
  rw [Path.Same, Path.Same, Path.components_eq_reverse_way hp, Path.components_eq_reverse_way hq,
    Path.components_eq_reverse_way hp', Path.components_eq_reverse_way hq', h.source, h.target,
    h'.source, h'.target]
  simp only [List.reverse_inj, List.append_cancel_right_eq]

/-- What comes first among lists with the same start is told by the rest. -/
theorem append_lt_append_iff (front a b : List (List Nat)) : front ++ a < front ++ b ↔ a < b := by
  induction front with
  | nil => rfl
  | cons first front ih => simp [ih]

/-- Paths in normal form are ordered as their counterparts are. -/
theorem Maps.before_iff (h : m.Maps names p q) (h' : m.Maps others p' q')
    (hp : p.normalize = p) (hq : q.normalize = q) (hp' : p'.normalize = p')
    (hq' : q'.normalize = q') : p.Before p' ↔ q.Before q' := by
  rw [Path.Before, Path.Before, Path.orderKey, Path.orderKey, Path.orderKey, Path.orderKey,
    Path.components_eq_reverse_way hp, Path.components_eq_reverse_way hq,
    Path.components_eq_reverse_way hp', Path.components_eq_reverse_way hq', h.source, h.target,
    h'.source, h'.target]
  simp only [List.reverse_append, List.map_append, append_lt_append_iff]

/-- What is appended to a path and does not leave the directory moves with it. -/
theorem Maps.join {specifier : Path} (h : m.Maps names p q)
    (hrelative : specifier.isAbsolute = false) (hstays : ¬ Path.Ascends m.source p specifier) :
    m.Moves (p.join specifier) (q.join specifier) := by
  have hsteps : Path.goesAbove m.source.way (names.map .name ++ m.source.way)
      specifier.components = false := by
    rw [← h.source]
    exact Bool.eq_false_iff.mpr hstays
  obtain ⟨others, hothers⟩ :=
    Path.exists_foldl_follow (Path.root_notMem_components hrelative) hsteps
  refine ⟨others, ?_, ?_⟩
  · rw [Path.way_join, h.source, hothers]
  · rw [Path.way_join, h.target, hothers]

/-- The directory of a path that leads through names leads through all but the last one. -/
theorem exists_way_parent? {base : Path} {name : String} (hp : p.normalize = p)
    (h : p.way = (name :: names).map .name ++ base.way) :
    ∃ directory, p.parent? = some directory ∧ directory.way = names.map .name ++ base.way := by
  have hcomponents : p.components =
      (base.normalSteps ++ (names.map .name).reverse) ++ [.name name] := by
    rw [Path.components_eq_reverse_way hp, h, ← Path.reverse_way]
    simp
  obtain ⟨directory, hparent, hsteps⟩ := Path.exists_components_parent? hcomponents
  refine ⟨directory, hparent, ?_⟩
  -- The steps to the base are followed as in its normal form, and the names lead down from there.
  have hway : base.normalSteps.foldl Path.follow [] = base.way := by
    rw [← Path.components_normalize]
    exact Path.way_normalize base
  rw [Path.way, hsteps, List.foldl_append, hway, ← List.map_reverse, Path.foldl_follow_map_name,
    ← List.map_reverse, List.reverse_reverse]

/-- The directory of a path moves with it. -/
theorem MovesBelow.exists_parent? (h : m.MovesBelow p q) (hp : p.normalize = p)
    (hq : q.normalize = q) :
    ∃ directory other, p.parent? = some directory ∧ q.parent? = some other ∧
      m.Moves directory other := by
  obtain ⟨names, hnames, hmaps⟩ := h
  obtain ⟨name, names, rfl⟩ := List.exists_cons_of_ne_nil hnames
  obtain ⟨directory, hparent, hway⟩ := exists_way_parent? hp hmaps.source
  obtain ⟨other, hparent', hway'⟩ := exists_way_parent? hq hmaps.target
  exact ⟨directory, other, hparent, hparent', names, hway, hway'⟩

end Relocation

end ShaderTemplate
