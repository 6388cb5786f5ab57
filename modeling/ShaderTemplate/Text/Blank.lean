/-!
# Blank characters and trimming

Blank characters are those with the Unicode property `White_Space`. Text is trimmed as a list of
characters; `trim` drops blanks at both ends, `dropEndWhile` drops any class of items at the end
of a list. The lemmas say that a cut at the end keeps a first part of the text, drops characters of
the class only, and stops at a character outside the class.
-/

namespace ShaderTemplate.Text

/-- Decide whether a character is blank: a tab, a line break of any kind, or a space of any
width. -/
def isBlank (c : Char) : Bool :=
  c == ' ' || ('\t' ≤ c && c ≤ '\r') || c == '\x85' || c == '\xa0' || c == '\u1680' ||
    ('\u2000' ≤ c && c ≤ '\u200a') || c == '\u2028' || c == '\u2029' || c == '\u202f' ||
    c == '\u205f' || c == '\u3000'

/-- Every character that is blank in ASCII is blank. -/
theorem isBlank_of_isWhitespace {c : Char} (h : c.isWhitespace = true) : isBlank c = true := by
  simp only [Char.isWhitespace, Bool.or_eq_true, decide_eq_true_eq] at h
  rcases h with ((rfl | rfl) | rfl) | rfl <;> decide

/-- Drop the longest run of items in the class `p` at the end. -/
def dropEndWhile {α : Type} (p : α → Bool) (text : List α) : List α :=
  (text.reverse.dropWhile p).reverse

/-- Drop the blanks at the start. -/
def trimStart (text : List Char) : List Char :=
  text.dropWhile isBlank

/-- Drop the blanks at the end. -/
def trimEnd (text : List Char) : List Char :=
  dropEndWhile isBlank text

/-- Drop the blanks at both ends. -/
def trim (text : List Char) : List Char :=
  trimEnd (trimStart text)

@[simp] theorem dropEndWhile_nil {α : Type} (p : α → Bool) : dropEndWhile p [] = [] := rfl

@[simp] theorem trim_nil : trim [] = [] := rfl

/-- A last item outside the class stops the cut. -/
theorem dropEndWhile_concat_of_neg {α : Type} {p : α → Bool} {c : α} (text : List α)
    (h : p c = false) : dropEndWhile p (text ++ [c]) = text ++ [c] := by
  simp [dropEndWhile, h]

/-- A last item inside the class is dropped. -/
theorem dropEndWhile_concat_of_pos {α : Type} {p : α → Bool} {c : α} (text : List α)
    (h : p c = true) : dropEndWhile p (text ++ [c]) = dropEndWhile p text := by
  simp [dropEndWhile, h]

/-- Items of the class behind a text are dropped. -/
theorem dropEndWhile_append_of_forall {α : Type} {p : α → Bool} (text : List α) {dropped : List α}
    (h : ∀ c ∈ dropped, p c = true) : dropEndWhile p (text ++ dropped) = dropEndWhile p text := by
  simp only [dropEndWhile, List.reverse_append]
  rw [List.dropWhile_append_of_pos fun c hc => h c (List.mem_reverse.mp hc)]

/-- A text that ends outside the class is kept. -/
theorem dropEndWhile_eq_self {α : Type} {p : α → Bool} {text : List α}
    (h : ∀ c ∈ text.getLast?, p c = false) : dropEndWhile p text = text := by
  cases hlast : text.getLast? with
  | none =>
    rw [List.getLast?_eq_none_iff.mp hlast]
    rfl
  | some c =>
    obtain ⟨front, rfl⟩ := List.getLast?_eq_some_iff.mp hlast
    exact dropEndWhile_concat_of_neg front (h c hlast)

/-- What is kept ends outside the class. -/
theorem eq_false_of_mem_getLast?_dropEndWhile {α : Type} {p : α → Bool} {text : List α} {c : α}
    (h : c ∈ (dropEndWhile p text).getLast?) : p c = false := by
  have hhead := List.head?_dropWhile_not p text.reverse
  rw [dropEndWhile, List.getLast?_reverse] at h
  rw [Option.mem_def.mp h] at hhead
  simpa using hhead

/-- A text that does not start with a blank is kept. -/
theorem trimStart_eq_self {text : List Char} (h : ∀ c ∈ text.head?, isBlank c = false) :
    trimStart text = text := by
  cases text with
  | nil => rfl
  | cons c text => rw [trimStart, List.dropWhile_cons_of_neg (by simp [h c rfl])]

/-- A text that does not start with a blank is kept in front of any text. -/
theorem trimStart_append {text : List Char} (hne : text ≠ [])
    (h : ∀ c ∈ text.head?, isBlank c = false) (rest : List Char) :
    trimStart (text ++ rest) = text ++ rest := by
  obtain ⟨c, tail, rfl⟩ := List.exists_cons_of_ne_nil hne
  exact trimStart_eq_self h

/-- A text without blanks at its ends is kept. -/
theorem trim_eq_self {text : List Char} (hfirst : ∀ c ∈ text.head?, isBlank c = false)
    (hlast : ∀ c ∈ text.getLast?, isBlank c = false) : trim text = text := by
  rw [trim, trimStart_eq_self hfirst, trimEnd, dropEndWhile_eq_self hlast]

/-- What is kept is a first part of the text. -/
theorem exists_append_dropEndWhile {α : Type} (p : α → Bool) (text : List α) :
    ∃ dropped, text = dropEndWhile p text ++ dropped ∧ ∀ c ∈ dropped, p c = true := by
  refine ⟨(text.reverse.takeWhile p).reverse, ?_, ?_⟩
  · rw [dropEndWhile, ← List.reverse_append, List.takeWhile_append_dropWhile, List.reverse_reverse]
  · intro c hc
    exact List.all_eq_true.mp List.all_takeWhile c (List.mem_reverse.mp hc)

/-- Nothing is kept but what was there. -/
theorem mem_of_mem_dropEndWhile {α : Type} {p : α → Bool} {text : List α} {c : α}
    (h : c ∈ dropEndWhile p text) : c ∈ text := by
  obtain ⟨dropped, happend, -⟩ := exists_append_dropEndWhile p text
  rw [happend]
  exact List.mem_append_left _ h

/-- An item outside the class is kept. -/
theorem mem_dropEndWhile_of_neg {α : Type} {p : α → Bool} {text : List α} {c : α}
    (hmem : c ∈ text) (h : p c = false) : c ∈ dropEndWhile p text := by
  obtain ⟨dropped, happend, hdropped⟩ := exists_append_dropEndWhile p text
  rw [happend] at hmem
  refine (List.mem_append.mp hmem).resolve_right fun hmem => ?_
  rw [hdropped c hmem] at h
  exact absurd h (by simp)

end ShaderTemplate.Text
