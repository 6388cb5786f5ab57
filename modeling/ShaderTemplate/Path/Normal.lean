import ShaderTemplate.Path.Basic

/-!
# Normal form of paths

`Path.normalize` follows the steps of a path and keeps the way from the start: `.` stays, a name
goes down, and `..` undoes the last kept step. Where there is no step to undo, at the root or at
the start of a relative path, the `..` itself is kept as a step, so that a further `..` undoes it.

Main statements:

- `components_normalize`: the steps of a normal form are the steps kept of the path;
- `normalize_normalize`: a normal form is its own normal form.
-/

namespace ShaderTemplate

namespace Component

/-- A step that is spelled by a piece of its own, wherever it stands. -/
def Ordinary (c : Component) : Prop :=
  ofPiece? c.piece = some c ∧ '/' ∉ c.piece

theorem ordinary_parent : Ordinary .parent := by
  unfold Ordinary
  decide

/-- A piece spells an ordinary step or none. -/
theorem ordinary_of_ofPiece? {piece : List Char} {c : Component} (h : ofPiece? piece = some c)
    (free : '/' ∉ piece) : c.Ordinary := by
  have spelled : c.piece = piece := by
    unfold ofPiece? at h
    split at h
    · exact absurd h (by simp)
    · split at h <;> obtain rfl := Option.some.inj h <;> simp_all [Component.piece]
  exact ⟨by rw [spelled, h], by rwa [spelled]⟩

end Component

namespace Path

/-- Follow one step; `way` lists the kept steps, the last one first. -/
def follow (way : List Component) : Component → List Component
  | .root => [.root]
  | .current => way
  | .name text => .name text :: way
  | .parent =>
    match way with
    -- There is no step to undo.
    | [] => [.parent]
    | .root :: below => .parent :: .root :: below
    | _ :: below => below

/-- List the steps that are kept of a path. -/
def normalSteps (p : Path) : List Component :=
  (p.components.foldl follow []).reverse

/-- Spell the kept steps of a path. -/
def normalize (p : Path) : Path :=
  ofComponents p.normalSteps

/-! ## The steps of a path -/

theorem componentsOfPieces_ordinary {pieces : List (List Char)}
    (free : ∀ piece ∈ pieces, '/' ∉ piece) {c : Component} (h : c ∈ componentsOfPieces pieces) :
    c = .root ∨ c = .current ∨ c.Ordinary := by
  have single : ∀ {piece : List Char}, piece ∈ pieces → c ∈ (Component.ofPiece? piece).toList →
      c.Ordinary := fun hp hc =>
    Component.ordinary_of_ofPiece? (Option.mem_toList.mp hc) (free _ hp)
  unfold componentsOfPieces at h
  split at h
  · exact absurd h (by simp)
  · split at h
    · exact .inr (.inl (by simpa using h))
    · exact .inr (.inr (single (by simp) h))
  next first rest _ =>
    rcases List.mem_append.mp h with h | h
    · split at h
      · exact .inl (by simpa using h)
      · split at h
        · exact .inr (.inl (by simpa using h))
        · exact .inr (.inr (single (by simp) h))
    · obtain ⟨piece, hp, hc⟩ := List.mem_filterMap.mp h
      exact .inr (.inr (single (List.mem_cons_of_mem _ hp) (by simpa using hc)))

/-- Every step of a path is the root, a leading `.`, or ordinary. -/
theorem components_ordinary {p : Path} {c : Component} (h : c ∈ p.components) :
    c = .root ∨ c = .current ∨ c.Ordinary :=
  componentsOfPieces_ordinary (fun _ hp => Text.sep_notMem_of_mem_pieces hp) h

theorem filterMap_piece {steps : List Component} (h : ∀ c ∈ steps, c.Ordinary) :
    (steps.map Component.piece).filterMap Component.ofPiece? = steps := by
  induction steps with
  | nil => rfl
  | cons c rest ih =>
    rw [List.map_cons, List.filterMap_cons, (h c (by simp)).1,
      ih fun d hd => h d (List.mem_cons_of_mem _ hd)]

/-- Spelling ordinary steps, perhaps after the root, and reading them back gives the steps. -/
theorem components_ofComponents {steps : List Component}
    (h : ∀ c ∈ steps.tail, c.Ordinary) (start : ∀ c ∈ steps.head?, c = .root ∨ c.Ordinary) :
    (ofComponents steps).components = steps := by
  cases steps with
  | nil => decide
  | cons first rest =>
    have hrest : ∀ c ∈ rest, c.Ordinary := h
    have hfirst : first = .root ∨ first.Ordinary := start first rfl
    have free : ∀ piece ∈ (first :: rest).map Component.piece, '/' ∉ piece := by
      intro piece hp
      rcases List.mem_cons.mp hp with rfl | hp
      · rcases hfirst with rfl | hf
        · simp [Component.piece]
        · exact hf.2
      · obtain ⟨c, hc, rfl⟩ := List.mem_map.mp hp
        exact (hrest c hc).2
    unfold ofComponents
    split
    next hroot => rw [hroot]; decide
    next hroot =>
      rw [components, pieces, String.toList_ofList, Text.pieces_joined (by simp) free]
      cases rest with
      | nil =>
        rcases hfirst with rfl | hf
        · exact absurd rfl hroot
        · have : first.piece ≠ ['.'] := fun e => by
            have := hf.1
            simp [e, Component.ofPiece?] at this
          simp [componentsOfPieces, this, hf.1]
      | cons next rest =>
        have tail : ((next :: rest).map Component.piece).filterMap Component.ofPiece? =
          next :: rest := filterMap_piece hrest
        rcases hfirst with rfl | hf
        · simpa [componentsOfPieces, Component.piece] using tail
        · have hne : first.piece ≠ [] ∧ first.piece ≠ ['.'] :=
            ⟨fun e => by simpa [e, Component.ofPiece?] using hf.1,
              fun e => by simpa [e, Component.ofPiece?] using hf.1⟩
          simp only [List.map_cons] at tail
          simp [componentsOfPieces, hne, hf.1, tail]

/-! ## Ways -/

/-- The starts of a way, the last step first: nothing, the root, and either with a `..` that had
nothing to undo. -/
def wayStarts : List (List Component) := [[], [.root], [.parent], [.parent, .root]]

/-- A list of kept steps, the last one first: names above a start. -/
def IsWay (way : List Component) : Prop :=
  ∃ names start, way = names ++ start ∧ start ∈ wayStarts ∧
    ∀ c ∈ names, c.Ordinary ∧ c ≠ .parent

theorem isWay_nil : IsWay [] :=
  ⟨[], [], rfl, by simp [wayStarts], by simp⟩

/-- Following a step of a path leads from a way to a way. -/
theorem IsWay.follow {way : List Component} (h : IsWay way) {c : Component}
    (hc : c = .root ∨ c = .current ∨ c.Ordinary) : IsWay (Path.follow way c) := by
  obtain ⟨names, start, rfl, hstart, hnames⟩ := h
  cases c with
  | root => exact ⟨[], [.root], rfl, by simp [wayStarts], by simp⟩
  | current => exact ⟨names, start, rfl, hstart, hnames⟩
  | name text =>
    refine ⟨.name text :: names, start, rfl, hstart, ?_⟩
    intro d hd
    rcases List.mem_cons.mp hd with rfl | hd
    · exact ⟨by simpa using hc, by simp⟩
    · exact hnames d hd
  | parent =>
    cases names with
    | nil =>
      -- A `..` leads back and forth between the two starts of its kind.
      have shape : start = [] ∨ start = [.root] ∨ start = [.parent] ∨ start = [.parent, .root] := by
        simpa [wayStarts] using hstart
      rcases shape with rfl | rfl | rfl | rfl
      · exact ⟨[], [.parent], rfl, by simp [wayStarts], by simp⟩
      · exact ⟨[], [.parent, .root], rfl, by simp [wayStarts], by simp⟩
      · exact ⟨[], [], rfl, by simp [wayStarts], by simp⟩
      · exact ⟨[], [.root], rfl, by simp [wayStarts], by simp⟩
    | cons d names =>
      have hd := hnames d (by simp)
      refine ⟨names, start, ?_, hstart, fun e he => hnames e (List.mem_cons_of_mem _ he)⟩
      cases d with
      | root => exact absurd hd.1.1 (by decide)
      | current => exact absurd hd.1.1 (by decide)
      | parent => exact absurd rfl hd.2
      | name text => rfl

/-- Following the steps of a path leads from a way to a way. -/
theorem IsWay.foldl_follow {steps way : List Component} (h : IsWay way)
    (hsteps : ∀ c ∈ steps, c = .root ∨ c = .current ∨ c.Ordinary) :
    IsWay (steps.foldl Path.follow way) := by
  induction steps generalizing way with
  | nil => exact h
  | cons c rest ih =>
    exact ih (h.follow (hsteps c (by simp))) fun d hd => hsteps d (List.mem_cons_of_mem _ hd)

/-- A way is what following its own steps keeps. -/
theorem IsWay.foldl_follow_reverse {way : List Component} (h : IsWay way) :
    way.reverse.foldl Path.follow [] = way := by
  obtain ⟨names, start, rfl, hstart, hnames⟩ := h
  have base : start.reverse.foldl Path.follow [] = start := by
    have shape : start = [] ∨ start = [.root] ∨ start = [.parent] ∨ start = [.parent, .root] := by
      simpa [wayStarts] using hstart
    rcases shape with rfl | rfl | rfl | rfl <;> rfl
  rw [List.reverse_append, List.foldl_append, base]
  clear base hstart
  -- Above the start every step is a name, which is kept as it comes.
  induction names with
  | nil => rfl
  | cons c names ih =>
    have hc := hnames c (by simp)
    rw [List.reverse_cons, List.foldl_append,
      ih fun d hd => hnames d (List.mem_cons_of_mem _ hd)]
    cases c with
    | root => exact absurd hc.1.1 (by decide)
    | current => exact absurd hc.1.1 (by decide)
    | parent => exact absurd rfl hc.2
    | name text => rfl

/-- Spelling a way and reading it back gives its steps. -/
theorem IsWay.components_ofComponents {way : List Component} (h : IsWay way) :
    (ofComponents way.reverse).components = way.reverse := by
  obtain ⟨names, start, rfl, hstart, hnames⟩ := h
  have shape : start = [] ∨ start = [.root] ∨ start = [.parent] ∨ start = [.parent, .root] := by
    simpa [wayStarts] using hstart
  have hreverse : ∀ c ∈ names.reverse, c.Ordinary := fun c hc => (hnames c (by simpa using hc)).1
  have htail : ∀ c ∈ names.reverse.tail, c.Ordinary := fun c hc =>
    hreverse c (List.mem_of_mem_tail hc)
  have hhead : ∀ c ∈ names.reverse.head?, c.Ordinary := fun c hc =>
    hreverse c (List.mem_of_mem_head? hc)
  rw [List.reverse_append]
  -- The start decides which step is spelled first.
  rcases shape with rfl | rfl | rfl | rfl
  · exact Path.components_ofComponents (by simpa using htail) fun c hc =>
      .inr (hhead c (by simpa using hc))
  · exact Path.components_ofComponents (by simpa using hreverse) (by simp)
  · exact Path.components_ofComponents (by simpa using hreverse)
      (by simp [Component.ordinary_parent])
  · refine Path.components_ofComponents (fun c hc => ?_) (by simp)
    have hc : c = .parent ∨ c ∈ names := by simpa using hc
    rcases hc with rfl | hc
    · exact Component.ordinary_parent
    · exact (hnames c hc).1

/-! ## Normal forms -/

/-- What following a path keeps is a way. -/
theorem isWay_components (p : Path) : IsWay (p.components.foldl follow []) :=
  isWay_nil.foldl_follow fun _ => components_ordinary

/-- The steps of a normal form are the steps kept of the path. -/
theorem components_normalize (p : Path) : p.normalize.components = p.normalSteps :=
  (isWay_components p).components_ofComponents

/-- A normal form is its own normal form. -/
@[simp] theorem normalize_normalize (p : Path) : p.normalize.normalize = p.normalize := by
  have h : p.normalize.normalSteps = p.normalSteps := by
    rw [normalSteps, components_normalize, normalSteps, (isWay_components p).foldl_follow_reverse]
  rw [normalize, h, normalize]

/-- Paths that take the same steps have one normal form. -/
theorem Same.normalize_eq {p q : Path} (h : p.Same q) : p.normalize = q.normalize := by
  rw [normalize, normalSteps, h, normalize, normalSteps]

/-- Normal forms that take the same steps are equal. -/
theorem Same.eq {p q : Path} (h : p.Same q) (hp : p.normalize = p) (hq : q.normalize = q) :
    p = q := by
  rw [← hp, ← hq, h.normalize_eq]

end Path

end ShaderTemplate
