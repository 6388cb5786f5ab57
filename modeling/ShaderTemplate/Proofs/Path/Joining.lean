import ShaderTemplate.Proofs.Path.Absolute

/-!
# Steps of joined paths

A path that is appended to a base is followed from where the base leads. An absolute path starts at
the root again, wherever it is appended; of a relative one only a leading `.` gets lost, which is no
step to anywhere. So whatever is computed step by step of a joined path, in a way that forgets the
past at the root and stays as it is at a `.`, is computed of the base first and of the appended path
from there (`foldl_components_join`).

Main statements:

- `components_join`: the steps of a joined path;
- `foldl_components_join`: a joined path is followed in two parts;
- `way_join`: the kept steps of a joined path are told by those of the base.
-/

namespace ShaderTemplate

/-- Cut a text at a separator in it. -/
theorem Text.pieces_append_sep_append (sep : Char) (front back : List Char) :
    pieces sep (front ++ sep :: back) = pieces sep front ++ pieces sep back := by
  induction front with
  | nil => exact pieces_sep_cons sep back
  | cons c front ih =>
    simp only [List.cons_append, pieces, ih]
    split
    · rfl
    · obtain ⟨piece, more, hpieces⟩ := List.exists_cons_of_ne_nil (pieces_ne_nil sep front)
      rw [hpieces]
      rfl

namespace Component

/-- No piece spells a step to the root or a `.`. -/
theorem ne_of_ofPiece? {piece : List Char} {c : Component} (h : ofPiece? piece = some c) :
    c ≠ .root ∧ c ≠ .current := by
  unfold ofPiece? at h
  split at h
  · exact absurd h (by simp)
  · split at h <;> obtain rfl := Option.some.inj h <;> simp

/-- The steps that are spelled by pieces are neither to the root nor a `.`. -/
theorem ne_of_mem_filterMap {pieces : List (List Char)} {c : Component}
    (h : c ∈ pieces.filterMap ofPiece?) : c ≠ .root ∧ c ≠ .current := by
  obtain ⟨piece, -, hc⟩ := List.mem_filterMap.mp h
  exact ne_of_ofPiece? hc

end Component

namespace Path

variable {p q : Path}

/-- The step that the first of several pieces spells. -/
def firstSteps (first : List Char) : List Component :=
  if first = [] then [.root]
  else if first = ['.'] then [.current]
  else (Component.ofPiece? first).toList

/-- The pieces of a path are read one by one, unless they are those of the empty path. -/
theorem componentsOfPieces_cons {first : List Char} {rest : List (List Char)}
    (h : first = [] → rest ≠ []) : componentsOfPieces (first :: rest) =
      firstSteps first ++ rest.filterMap Component.ofPiece? := by
  cases rest with
  | nil =>
    have hfirst : first ≠ [] := fun hfirst => h hfirst rfl
    rw [firstSteps, if_neg hfirst, List.filterMap_nil, List.append_nil]
    rfl
  | cons next more => rfl

/-- Further pieces of a path add the steps that they spell. -/
theorem exists_componentsOfPieces_append {front : List (List Char)} (h : front ≠ []) :
    ∃ steps, ∀ back ≠ [], componentsOfPieces (front ++ back) =
      steps ++ back.filterMap Component.ofPiece? := by
  obtain ⟨first, rest, rfl⟩ := List.exists_cons_of_ne_nil h
  refine ⟨firstSteps first ++ rest.filterMap Component.ofPiece?, fun back hback => ?_⟩
  have hne : rest ++ back ≠ [] := List.append_ne_nil_of_right_ne_nil rest hback
  rw [List.cons_append, componentsOfPieces_cons fun _ => hne, List.filterMap_append,
    List.append_assoc]

/-- A slash at the end of a path spells no step, unless it is the only character. -/
theorem componentsOfPieces_concat_nil {pieces : List (List Char)} (h : pieces ≠ [[]]) :
    componentsOfPieces (pieces ++ [[]]) = componentsOfPieces pieces := by
  have hsilent : [[]].filterMap Component.ofPiece? = [] := by decide
  cases pieces with
  | nil => rfl
  | cons first rest =>
    have hne : first = [] → rest ≠ [] := by
      rintro rfl rfl
      exact h rfl
    rw [List.cons_append, componentsOfPieces_cons (by simp), componentsOfPieces_cons hne,
      List.filterMap_append, hsilent, List.append_nil]

/-- The pieces of a relative path spell its steps, but for a leading `.`. -/
theorem filterMap_pieces (h : q.isAbsolute = false) :
    q.pieces.filterMap Component.ofPiece? = q.components.filter (· ≠ .current) := by
  have keep : ∀ pieces : List (List Char), (pieces.filterMap Component.ofPiece?).filter
      (· ≠ .current) = pieces.filterMap Component.ofPiece? := fun pieces =>
    List.filter_eq_self.mpr fun c hc => by simpa using (Component.ne_of_mem_filterMap hc).2
  have dot : Component.ofPiece? ['.'] = none := by decide
  have single : ∀ piece, (Component.ofPiece? piece).toList = [piece].filterMap Component.ofPiece? :=
    fun piece => by cases hpiece : Component.ofPiece? piece <;> simp [hpiece]
  rw [components]
  obtain ⟨first, rest, hpieces⟩ := List.exists_cons_of_ne_nil (Text.pieces_ne_nil '/'
    q.spelling.toList)
  rw [pieces, hpieces]
  cases rest with
  | nil =>
    by_cases hfirst : first = ['.']
    · simp [componentsOfPieces, hfirst, dot]
    · rw [componentsOfPieces, if_neg hfirst, single, keep]
  | cons next more =>
    -- An empty first piece would stand before a slash.
    have hne : first ≠ [] := by
      rintro rfl
      have hjoined := Text.joined_pieces '/' q.spelling.toList
      rw [hpieces, Text.joined, List.nil_append] at hjoined
      simp [isAbsolute, ← hjoined] at h
    rw [componentsOfPieces_cons (by simp), List.filter_append, keep, firstSteps, if_neg hne]
    by_cases hfirst : first = ['.']
    · simp [hfirst, dot]
    · rw [if_neg hfirst, single, keep, ← List.filterMap_append, List.singleton_append]

/-- A relative path has no step to the root. -/
theorem root_notMem_components (h : q.isAbsolute = false) : .root ∉ q.components := by
  intro hmem
  have hpieces : .root ∈ q.pieces.filterMap Component.ofPiece? := by
    rw [filterMap_pieces h]
    simpa using hmem
  exact (Component.ne_of_mem_filterMap hpieces).1 rfl

/-- The pieces of a path that is appended follow those of the base, less an empty one at the end of
the base. -/
theorem exists_pieces_join (hp : p.spelling ≠ "") (hq : q.isAbsolute = false) :
    ∃ front ≠ [], p.components = componentsOfPieces (front ++ [[]]) ∧
      (p.join q).pieces = front ++ q.pieces := by
  have hne : p.spelling.toList ≠ [] := fun h => hp (String.toList_eq_nil_iff.mp h)
  rw [join, if_neg (by simp [hq])]
  split
  next hlast =>
    -- The base ends in a slash already.
    obtain ⟨init, hinit⟩ : ∃ init, p.spelling.toList = init ++ ['/'] := by
      rw [List.getLast?_eq_some_getLast hne, Option.all_some, beq_iff_eq] at hlast
      exact ⟨_, by rw [← hlast, List.dropLast_concat_getLast hne]⟩
    refine ⟨Text.pieces '/' init, Text.pieces_ne_nil _ _, ?_, ?_⟩
    · rw [components, pieces, hinit, Text.pieces_append_sep_append]
      rfl
    · rw [pieces, String.toList_append, hinit, List.append_assoc, List.singleton_append,
        Text.pieces_append_sep_append]
      rfl
  next hlast =>
    refine ⟨p.pieces, Text.pieces_ne_nil _ _, ?_, ?_⟩
    · refine (componentsOfPieces_concat_nil fun hpieces => hne ?_).symm
      rw [← Text.joined_pieces '/' p.spelling.toList]
      exact congrArg _ hpieces
    · simp only [pieces, String.toList_append, List.append_assoc]
      exact Text.pieces_append_sep_append _ _ _

/-- A relative path that is appended to a base adds its steps, but for a leading `.`. -/
theorem components_join (hp : p.spelling ≠ "") (hq : q.isAbsolute = false) :
    (p.join q).components = p.components ++ q.components.filter (· ≠ .current) := by
  obtain ⟨front, hfront, hcomponents, hpieces⟩ := exists_pieces_join hp hq
  obtain ⟨steps, hsteps⟩ := exists_componentsOfPieces_append hfront
  have hqpieces : q.pieces ≠ [] := Text.pieces_ne_nil _ _
  rw [hcomponents, hsteps _ (by simp), components, hpieces, hsteps _ hqpieces, filterMap_pieces hq]
  simp [Component.ofPiece?]

/-- A joined path is followed in two parts, by whatever forgets the past at the root and stays at a
`.`. -/
theorem foldl_components_join {α : Type} {f : α → Component → α}
    (hroot : ∀ a b, f a .root = f b .root) (hcurrent : ∀ a, f a .current = a) (p q : Path) (a : α) :
    (p.join q).components.foldl f a = q.components.foldl f (p.components.foldl f a) := by
  have silent : ∀ (steps : List Component) (a : α),
      (steps.filter (· ≠ .current)).foldl f a = steps.foldl f a := by
    intro steps
    induction steps with
    | nil => exact fun a => rfl
    | cons c steps ih =>
      intro a
      by_cases hc : c = .current
      · simp [hc, hcurrent, ← ih]
      · simp [hc, ← ih]
  cases hq : q.isAbsolute with
  | true =>
    -- The base is left for the root at once.
    obtain ⟨steps, hsteps⟩ := List.head?_eq_some_iff.mp (head?_components hq)
    rw [join, if_pos hq, hsteps, List.foldl_cons, List.foldl_cons, hroot a]
  | false =>
    by_cases hp : p.spelling = ""
    · have hjoin : p.join q = q := by simp [join, hq, hp]
      have hcomponents : p.components = [] := by
        rw [components, pieces, hp]
        decide
      rw [hjoin, hcomponents, List.foldl_nil]
    · rw [components_join hp hq, List.foldl_append, silent]

/-- The steps that are kept of a path, the last one first. -/
def way (p : Path) : List Component :=
  p.components.foldl follow []

theorem reverse_way (p : Path) : p.way.reverse = p.normalSteps := rfl

/-- The kept steps of a joined path are told by those of the base. -/
theorem way_join (p q : Path) : (p.join q).way = q.components.foldl follow p.way :=
  foldl_components_join (fun _ _ => rfl) (fun _ => rfl) p q []

end Path

end ShaderTemplate
