/-!
# Pieces between separators

`pieces sep` cuts a text at every `sep`, so that a text without one is a single piece and a text
with `n` of them has `n + 1` pieces. `joined sep` puts the separator back. Main statements: joining
the pieces gives the text back (`joined_pieces`), and cutting a joined list of pieces that hold no
separator gives the list back (`pieces_joined`).
-/

namespace ShaderTemplate.Text

/-- Cut a text at every separator. -/
def pieces (sep : Char) : List Char → List (List Char)
  | [] => [[]]
  | c :: rest =>
    if c = sep then [] :: pieces sep rest
    else match pieces sep rest with
      | [] => [[c]]
      | piece :: more => (c :: piece) :: more

/-- Put a separator between the pieces. -/
def joined (sep : Char) : List (List Char) → List Char
  | [] => []
  | [piece] => piece
  | piece :: next :: more => piece ++ sep :: joined sep (next :: more)

theorem pieces_ne_nil (sep : Char) (text : List Char) : pieces sep text ≠ [] := by
  cases text with
  | nil => simp [pieces]
  | cons c rest =>
    simp only [pieces]
    split
    · simp
    · split <;> simp

/-- Cut off a separator at the front. -/
@[simp] theorem pieces_sep_cons (sep : Char) (rest : List Char) :
    pieces sep (sep :: rest) = [] :: pieces sep rest := by
  simp [pieces]

/-- A text without separators is a single piece. -/
theorem pieces_eq_singleton {sep : Char} {text : List Char} (h : sep ∉ text) :
    pieces sep text = [text] := by
  induction text with
  | nil => rfl
  | cons c rest ih =>
    simp only [List.mem_cons, not_or] at h
    simp [pieces, ih h.2, Ne.symm h.1]

/-- A text up to the first separator is the first piece. -/
theorem pieces_append_sep {sep : Char} {piece : List Char} (h : sep ∉ piece) (rest : List Char) :
    pieces sep (piece ++ sep :: rest) = piece :: pieces sep rest := by
  induction piece with
  | nil => simp
  | cons c piece ih =>
    simp only [List.mem_cons, not_or] at h
    simp [pieces, ih h.2, Ne.symm h.1]

/-- Joining the pieces of a text gives the text. -/
@[simp] theorem joined_pieces (sep : Char) (text : List Char) :
    joined sep (pieces sep text) = text := by
  induction text with
  | nil => rfl
  | cons c rest ih =>
    simp only [pieces]
    split
    next h =>
      subst h
      revert ih
      cases hp : pieces c rest with
      | nil => exact absurd hp (pieces_ne_nil c rest)
      | cons piece more =>
        intro ih
        simp [joined, ih]
    next =>
      revert ih
      cases hp : pieces sep rest with
      | nil => exact absurd hp (pieces_ne_nil sep rest)
      | cons piece more =>
        intro ih
        cases more with
        | nil => simpa [joined] using ih
        | cons next more => simpa [joined] using ih

/-- Cutting a joined list of pieces gives the list, if no piece holds the separator. -/
theorem pieces_joined {sep : Char} {list : List (List Char)} (nonempty : list ≠ [])
    (free : ∀ piece ∈ list, sep ∉ piece) : pieces sep (joined sep list) = list := by
  induction list with
  | nil => exact absurd rfl nonempty
  | cons piece more ih =>
    cases more with
    | nil => simpa [joined] using pieces_eq_singleton (free piece (by simp))
    | cons next more =>
      rw [joined, pieces_append_sep (free piece (by simp)),
        ih (by simp) fun p hp => free p (List.mem_cons_of_mem _ hp)]

/-- No piece is longer than the joined list. -/
theorem length_le_joined {sep : Char} {list : List (List Char)} {piece : List Char}
    (h : piece ∈ list) : piece.length ≤ (joined sep list).length := by
  induction list with
  | nil => exact absurd h List.not_mem_nil
  | cons first more ih =>
    cases more with
    | nil =>
      obtain rfl := List.mem_singleton.mp h
      exact Nat.le_refl _
    | cons next more =>
      rw [joined, List.length_append, List.length_cons]
      rcases List.mem_cons.mp h with rfl | hmem
      · exact Nat.le_add_right _ _
      · exact Nat.le_trans (ih hmem) (by omega)

/-- No piece holds the separator. -/
theorem sep_notMem_of_mem_pieces {sep : Char} {text piece : List Char}
    (h : piece ∈ pieces sep text) : sep ∉ piece := by
  induction text generalizing piece with
  | nil => simp_all [pieces]
  | cons c rest ih =>
    simp only [pieces] at h
    split at h
    · rcases List.mem_cons.mp h with rfl | h
      · simp
      · exact ih h
    next hc =>
      revert h
      cases hp : pieces sep rest with
      | nil => exact absurd hp (pieces_ne_nil sep rest)
      | cons first more =>
        rw [hp] at ih
        intro h
        rcases List.mem_cons.mp h with rfl | h
        · simp [Ne.symm hc, ih List.mem_cons_self]
        · exact ih (List.mem_cons_of_mem _ h)

end ShaderTemplate.Text
