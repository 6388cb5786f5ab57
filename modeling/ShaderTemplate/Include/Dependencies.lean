import ShaderTemplate.Path.Order

/-!
# Dependency sets

A dependency set holds paths in their order, no two of them with the same steps. Inserting a path
that is present, in whatever spelling, changes nothing.

Main statement: a path is in the set after an insertion exactly if it is the inserted one or was in
the set before (`mem_insert`, `mem_insertAll`), where membership means the same steps.
-/

namespace ShaderTemplate

/-- A set of paths in order. -/
structure DependencySet where
  /-- The paths in increasing order. -/
  paths : List Path
  /-- Every path comes before the ones after it. -/
  ordered : paths.Pairwise Path.Before

namespace DependencySet

/-- The set without paths. -/
def empty : DependencySet := ⟨[], .nil⟩

instance : Inhabited DependencySet := ⟨empty⟩

/-- A path is in the set when a path with the same steps is. -/
def contains (set : DependencySet) (path : Path) : Bool :=
  set.paths.any fun p => path.Same p

/-- Insert a path into a list at its place, unless one with the same steps is there. -/
def insertInto (path : Path) : List Path → List Path
  | [] => [path]
  | p :: rest =>
    if path.Before p then path :: p :: rest
    else if p.Before path then p :: insertInto path rest
    -- Neither comes first, so the two take the same steps and the old spelling is kept.
    else p :: rest

theorem mem_of_mem_insertInto {path p : Path} {paths : List Path} (h : p ∈ insertInto path paths) :
    p = path ∨ p ∈ paths := by
  induction paths with
  | nil => exact .inl (by simpa [insertInto] using h)
  | cons q rest ih =>
    simp only [insertInto] at h
    split at h
    · exact List.mem_cons.mp h
    · split at h
      · rcases List.mem_cons.mp h with rfl | h
        · exact .inr List.mem_cons_self
        · exact (ih h).imp_right (List.mem_cons_of_mem _)
      · exact .inr h

theorem mem_insertInto_of_mem {path p : Path} {paths : List Path} (h : p ∈ paths) :
    p ∈ insertInto path paths := by
  induction paths with
  | nil => exact absurd h (by simp)
  | cons q rest ih =>
    simp only [insertInto]
    split
    · exact List.mem_cons_of_mem _ h
    · split
      · rcases List.mem_cons.mp h with rfl | h
        · exact List.mem_cons_self
        · exact List.mem_cons_of_mem _ (ih h)
      · exact h

theorem exists_same_mem_insertInto (path : Path) (paths : List Path) :
    ∃ p ∈ insertInto path paths, path.Same p := by
  induction paths with
  | nil => exact ⟨path, by simp [insertInto], .rfl⟩
  | cons q rest ih =>
    simp only [insertInto]
    split
    · exact ⟨path, List.mem_cons_self, .rfl⟩
    · split
      · obtain ⟨p, hp, hsame⟩ := ih
        exact ⟨p, List.mem_cons_of_mem _ hp, hsame⟩
      · exact ⟨q, List.mem_cons_self, Path.same_of_not_before ‹_› ‹_›⟩

theorem ordered_insertInto {path : Path} {paths : List Path} (h : paths.Pairwise Path.Before) :
    (insertInto path paths).Pairwise Path.Before := by
  induction paths with
  | nil => simp [insertInto]
  | cons q rest ih =>
    obtain ⟨first, others⟩ := List.pairwise_cons.mp h
    simp only [insertInto]
    split
    next before =>
      refine List.pairwise_cons.mpr ⟨fun p hp => ?_, h⟩
      rcases List.mem_cons.mp hp with rfl | hp
      · exact before
      · exact before.trans (first p hp)
    next =>
      split
      next after =>
        refine List.pairwise_cons.mpr ⟨fun p hp => ?_, ih others⟩
        rcases mem_of_mem_insertInto hp with rfl | hp
        · exact after
        · exact first p hp
      next => exact h

/-- Insert a path. -/
def insert (set : DependencySet) (path : Path) : DependencySet :=
  ⟨insertInto path set.paths, ordered_insertInto set.ordered⟩

/-- Insert paths one after the other. -/
def insertAll (set : DependencySet) (paths : List Path) : DependencySet :=
  paths.foldl insert set

theorem contains_iff {set : DependencySet} {path : Path} :
    set.contains path = true ↔ ∃ p ∈ set.paths, path.Same p := by
  simp [contains]

/-- An insertion adds the inserted path and nothing else. -/
theorem mem_insert {set : DependencySet} {path p : Path} :
    (set.insert path).contains p = true ↔ p.Same path ∨ set.contains p = true := by
  simp only [contains_iff]
  constructor
  · rintro ⟨q, hq, hsame⟩
    rcases mem_of_mem_insertInto hq with rfl | hq
    · exact .inl hsame
    · exact .inr ⟨q, hq, hsame⟩
  · rintro (hsame | ⟨q, hq, hsame⟩)
    · obtain ⟨q, hq, h⟩ := exists_same_mem_insertInto path set.paths
      exact ⟨q, hq, hsame.trans h⟩
    · exact ⟨q, mem_insertInto_of_mem hq, hsame⟩

/-- Insertions add the inserted paths and nothing else. -/
theorem mem_insertAll {set : DependencySet} {paths : List Path} {p : Path} :
    (set.insertAll paths).contains p = true ↔
      (∃ q ∈ paths, p.Same q) ∨ set.contains p = true := by
  induction paths generalizing set with
  | nil => simp [insertAll]
  | cons path rest ih =>
    rw [insertAll, List.foldl_cons, ← insertAll, ih, mem_insert]
    simp only [List.mem_cons, exists_eq_or_imp]
    rw [← or_assoc, or_comm (a := ∃ q ∈ rest, p.Same q)]

end DependencySet

end ShaderTemplate
