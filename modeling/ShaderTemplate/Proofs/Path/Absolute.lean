import ShaderTemplate.Include.Resolution

/-!
# Absolute paths

A path is absolute when its first step is the root. Going down from an absolute path, up from it, or
to its normal form leads to an absolute path, as a `..` at the root does not leave it. So what an
absolute file requests is looked up from an absolute directory, if the configured root is absolute.

Main statements:

- `isAbsolute_normalize`, `isAbsolute_join`, `isAbsolute_of_parent?`: paths made of absolute ones;
- `Request.isAbsolute_context`: where a request of an absolute file is looked up.
-/

namespace ShaderTemplate

namespace Path
variable {p q : Path}

/-- The first piece of an absolute path is empty, and further pieces follow it. -/
theorem exists_pieces_of_isAbsolute (h : p.isAbsolute = true) :
    ∃ piece more, p.pieces = [] :: piece :: more := by
  obtain ⟨rest, hrest⟩ := List.head?_eq_some_iff.mp (beq_iff_eq.mp h)
  obtain ⟨piece, more, hmore⟩ := List.exists_cons_of_ne_nil (Text.pieces_ne_nil '/' rest)
  exact ⟨piece, more, by rw [pieces, hrest, Text.pieces_sep_cons, hmore]⟩

/-- The first step of an absolute path is the root. -/
theorem head?_components (h : p.isAbsolute = true) : p.components.head? = some .root := by
  obtain ⟨piece, more, hpieces⟩ := exists_pieces_of_isAbsolute h
  simp [components, hpieces, componentsOfPieces]

/-- A path spelled from the root is absolute. -/
theorem isAbsolute_ofComponents (rest : List Component) :
    (ofComponents (.root :: rest)).isAbsolute = true := by
  cases rest with
  | nil => decide
  | cons c rest => simp [ofComponents, isAbsolute, Component.piece, Text.joined]

/-- Following a step from a way that starts at the root leads to such a way. -/
theorem getLast?_follow {way : List Component} (h : way.getLast? = some .root) (c : Component) :
    (follow way c).getLast? = some .root := by
  cases way with
  | nil => exact absurd h (by simp)
  | cons step below =>
    cases c with
    | root => rfl
    | current => exact h
    | name text => rwa [follow, List.getLast?_cons_cons]
    | parent =>
      cases step with
      | root => rwa [follow, List.getLast?_cons_cons]
      | current | parent | name =>
        cases below with
        | nil => simp at h
        | cons next below => rwa [List.getLast?_cons_cons] at h

/-- The normal form of an absolute path is absolute. -/
theorem isAbsolute_normalize (h : p.isAbsolute = true) : p.normalize.isAbsolute = true := by
  obtain ⟨steps, hsteps⟩ := List.head?_eq_some_iff.mp (head?_components h)
  have hway : ∀ (steps way : List Component), way.getLast? = some .root →
      (steps.foldl follow way).getLast? = some .root := by
    intro steps
    induction steps with
    | nil => exact fun way hway => hway
    | cons c steps ih => exact fun way hway => ih _ (getLast?_follow hway c)
  have hroot := hway steps [.root] rfl
  obtain ⟨rest, hrest⟩ := List.head?_eq_some_iff.mp (List.head?_reverse.trans hroot)
  have hnormal : p.normalSteps = .root :: rest := by
    rw [normalSteps, hsteps, ← hrest]
    rfl
  rw [normalize, hnormal]
  exact isAbsolute_ofComponents rest

/-- What is appended to an absolute path makes an absolute path. -/
theorem isAbsolute_join (h : p.isAbsolute = true) (q : Path) : (p.join q).isAbsolute = true := by
  have hfront : ∀ more, Path.isAbsolute ⟨p.spelling ++ more⟩ = true := by
    intro more
    obtain ⟨rest, hrest⟩ := List.head?_eq_some_iff.mp (beq_iff_eq.mp h)
    simp [isAbsolute, hrest]
  unfold join
  split
  next hq => exact hq
  · split
    · exact hfront _
    · rw [String.append_assoc]
      exact hfront _

/-- The directory of an absolute path is absolute. -/
theorem isAbsolute_of_parent? (h : p.isAbsolute = true) (hq : p.parent? = some q) :
    q.isAbsolute = true := by
  obtain ⟨piece, more, hpieces⟩ := exists_pieces_of_isAbsolute h
  rw [parent?, hpieces] at hq
  simp only [if_true, true_and] at hq
  split at hq
  · exact absurd hq (by simp)
  · split at hq
    · obtain rfl := Option.some.inj hq
      decide
    next above_ne =>
      obtain rfl := Option.some.inj hq
      obtain ⟨first, above, habove⟩ := List.exists_cons_of_ne_nil above_ne
      simp [habove, isAbsolute, Text.joined]

end Path

/-- What an absolute file requests is looked up from an absolute directory, if the configured root
is absolute. -/
theorem Request.isAbsolute_context (raw : String) {issuer : Path} {config : Config}
    (hissuer : issuer.isAbsolute = true) (hroot : config.rootPath.isAbsolute = true) :
    (Request.ofValue raw issuer config).context.isAbsolute = true := by
  unfold ofValue
  simp only
  split
  · exact hroot
  · cases hparent : issuer.parent? with
    | none => exact hroot
    | some directory => exact Path.isAbsolute_of_parent? hissuer hparent

end ShaderTemplate
