import ShaderTemplate.Proofs.Parser.LineEndings

/-!
# Parts of a directive line

A directive line is read from the front, part by part. A part without backslashes is no piece of a
continued line end, so it is part of the line and stands there as it is (`unfold_append_of_notMem`,
`splitLine_append_of_notMem`). The blanks between the parts are spaces, tabs and continued line
ends; each of them is read as one blank character behind the `#`, and as tokens of its own before it.

At the end of a value, blanks and semicolons are cut off
(`Text.trimEnd_dropEndWhile_trimEnd`), and a comment where the first one starts
(`beforeComment_append`).
-/

namespace ShaderTemplate

/-! ## The end of a value -/

namespace Text

variable {text : List Char}

/-- The blanks and semicolons behind a text that ends in neither are cut off. -/
theorem trimEnd_dropEndWhile_trimEnd {front back : List Char}
    (hlast : ∀ c ∈ text.getLast?, isBlank c = false ∧ (c == ';') = false)
    (hfront : ∀ c ∈ front, isBlank c = true) (hback : ∀ c ∈ back, isBlank c = true)
    (semicolons : Nat) :
    trimEnd (dropEndWhile (· == ';')
      (trimEnd (text ++ (front ++ (List.replicate semicolons ';' ++ back))))) = text := by
  have hkept : dropEndWhile isBlank text = text := dropEndWhile_eq_self fun c hc => (hlast c hc).1
  have hblanks : dropEndWhile isBlank (text ++ front) = text :=
    (dropEndWhile_append_of_forall text hfront).trans hkept
  simp only [trimEnd]
  rw [← List.append_assoc, ← List.append_assoc, dropEndWhile_append_of_forall _ hback]
  cases semicolons with
  | zero =>
    -- Without semicolons all blanks are cut off at once.
    rw [List.replicate_zero, List.append_nil, hblanks,
      dropEndWhile_eq_self fun c hc => (hlast c hc).2, hkept]
  | succ n =>
    -- What stands before the semicolons ends in a blank or as the text does.
    have hstop : ∀ c ∈ (text ++ front).getLast?, (c == ';') = false := by
      intro c hc
      rw [List.getLast?_append] at hc
      cases hfrontLast : front.getLast? with
      | none => exact (hlast c (by simpa [hfrontLast] using hc)).2
      | some d =>
        obtain rfl : d = c := by simpa [hfrontLast] using hc
        have hblank := hfront d (List.mem_of_getLast? hfrontLast)
        refine beq_eq_false_iff_ne.mpr ?_
        rintro rfl
        exact absurd hblank (by decide)
    rw [List.replicate_succ', ← List.append_assoc, dropEndWhile_concat_of_neg _ (by decide),
      List.append_assoc, ← List.replicate_succ',
      dropEndWhile_append_of_forall _ fun c hc => by simp [List.eq_of_mem_replicate hc],
      dropEndWhile_eq_self hstop, hblanks]

end Text

/-! ## Pieces of a directive line -/

namespace DirectiveLine

variable {text rest : List Char}

/-- A text without backslashes continues no line. -/
theorem unfold_append_of_notMem (h : '\\' ∉ text) (rest : List Char) :
    unfold (text ++ rest) = text ++ unfold rest := by
  induction text with
  | nil => rfl
  | cons c text ih =>
    simp only [List.mem_cons, not_or] at h
    rw [List.cons_append, unfold, ih h.2, List.cons_append]
    rintro tail rfl -
    exact h.1 rfl

/-- No comment starts in a text without a start of one, if none starts at its end. -/
theorem beforeComment_append (hline : ¬ ['/', '/'] <:+: text) (hblock : ¬ ['/', '*'] <:+: text)
    (hrest : text.getLast? = some '/' → ∀ c ∈ rest.head?, c ≠ '/' ∧ c ≠ '*') :
    beforeComment (text ++ rest) = text ++ beforeComment rest := by
  induction text with
  | nil => rfl
  | cons c text ih =>
    rw [List.infix_cons_iff, not_or] at hline hblock
    -- The character behind a slash is the next one of the text, or at its end that of `rest`.
    have hnext : c = '/' → ∀ d ∈ (text ++ rest).head?, d ≠ '/' ∧ d ≠ '*' := by
      rintro rfl d hd
      cases text with
      | nil => exact hrest rfl d hd
      | cons e text =>
        obtain rfl : e = d := Option.some.inj hd
        refine ⟨?_, ?_⟩
        · rintro rfl
          exact hline.1 (List.prefix_append ['/', '/'] text)
        · rintro rfl
          exact hblock.1 (List.prefix_append ['/', '*'] text)
    have htail : text.getLast? = some '/' → ∀ c ∈ rest.head?, c ≠ '/' ∧ c ≠ '*' := by
      intro hlast
      exact hrest (by rw [List.getLast?_cons, hlast]; rfl)
    rw [List.cons_append, beforeComment, ih hline.2 hblock.2 htail, List.cons_append]
    · rintro tail rfl htail
      exact (hnext rfl '/' (by simp [htail])).1 rfl
    · rintro tail rfl htail
      exact (hnext rfl '*' (by simp [htail])).2 rfl

/-- No comment starts in a text without slashes. -/
theorem beforeComment_append_of_notMem (h : '/' ∉ text) (rest : List Char) :
    beforeComment (text ++ rest) = text ++ beforeComment rest :=
  beforeComment_append (fun hstart => h (hstart.subset List.mem_cons_self))
    (fun hstart => h (hstart.subset List.mem_cons_self))
    fun hlast => absurd (List.mem_of_getLast? hlast) h

/-- A text is split behind the first closing delimiter. -/
theorem splitBehind_append {close : Char} (first : Char) (h : close ∉ text) (rest : List Char) :
    splitBehind close (first :: (text ++ close :: rest)) = (first :: (text ++ [close]), rest) := by
  have hbody : (text ++ close :: rest).takeWhile (· != close) = text := by
    rw [List.takeWhile_append_of_pos fun c hc => by simp [ne_of_mem_of_not_mem hc h]]
    simp
  have hne : (text ++ close :: rest).length ≠ text.length := by simp
  have happend : first :: (text ++ close :: rest) = (first :: (text ++ [close])) ++ rest := by simp
  have hlength : text.length + 2 = (first :: (text ++ [close])).length := by simp
  simp only [splitBehind, List.tail_cons, hbody, if_neg hne]
  rw [happend, hlength, List.take_left, List.drop_left]

end DirectiveLine

/-- A text without backslashes and line feeds is part of its line. -/
theorem Token.splitLine_append_of_notMem {text : List Char} (hbackslash : '\\' ∉ text)
    (hnewline : '\n' ∉ text) (rest : List Char) :
    splitLine (text ++ rest) = (text ++ (splitLine rest).1, (splitLine rest).2) := by
  induction text with
  | nil => rfl
  | cons c text ih =>
    simp only [List.mem_cons, not_or] at hbackslash hnewline
    rw [List.cons_append, splitLine_cons_of_ne (Ne.symm hnewline.1)
      (fun h => hbackslash.1 h.1.symm), ih hbackslash.2 hnewline.2, List.cons_append]

/-! ## Blanks -/

/-- A blank of a directive line. -/
inductive LineBlank where
  /-- A space. -/
  | space
  /-- A tab. -/
  | tab
  /-- A line feed behind a backslash. -/
  | continuation
  deriving Repr, DecidableEq

namespace LineBlank

/-- The characters of a blank. -/
def text : LineBlank → List Char
  | .space => [' ']
  | .tab => ['\t']
  | .continuation => ['\\', '\n']

/-- The character that a blank behind the `#` is read as. -/
def char : LineBlank → Char
  | .tab => '\t'
  | .space | .continuation => ' '

/-- The tokens that a blank before the `#` is read as. -/
def tokens : LineBlank → List Token
  | .space => [.blank ' ']
  | .tab => [.blank '\t']
  | .continuation => [.other '\\', .newline]

/-- A blank is read as a blank character. -/
theorem isBlank_char (blank : LineBlank) : Text.isBlank blank.char = true := by
  cases blank <;> decide

/-- The characters that blanks are read as are blank. -/
theorem isBlank_of_mem_map {blanks : List LineBlank} :
    ∀ c ∈ blanks.map char, Text.isBlank c = true := by
  intro c hc
  obtain ⟨blank, -, rfl⟩ := List.mem_map.mp hc
  exact blank.isBlank_char

/-- Blanks behind the `#` are read as characters, in front of any text. -/
theorem unfold_flatMap_append (blanks : List LineBlank) (rest : List Char) :
    DirectiveLine.unfold (blanks.flatMap text ++ rest) =
      blanks.map char ++ DirectiveLine.unfold rest := by
  induction blanks with
  | nil => rfl
  | cons blank blanks ih =>
    rw [List.flatMap_cons, List.append_assoc, List.map_cons, List.cons_append, ← ih]
    cases blank <;> rfl

/-- Blanks behind the `#` are part of the line. -/
theorem splitLine_flatMap_append (blanks : List LineBlank) (rest : List Char) :
    Token.splitLine (blanks.flatMap text ++ rest) =
      (blanks.flatMap text ++ (Token.splitLine rest).1, (Token.splitLine rest).2) := by
  induction blanks with
  | nil => rfl
  | cons blank blanks ih =>
    rw [List.flatMap_cons, List.append_assoc, List.append_assoc]
    cases blank <;> simp [text, Token.splitLine, ih]

/-- No blank is read as a slash. -/
theorem slash_notMem_map (blanks : List LineBlank) : '/' ∉ blanks.map char := by
  intro hmem
  exact absurd (isBlank_of_mem_map _ hmem) (by decide)

/-- The tokens of blanks before the `#` have their text. -/
theorem flatMap_text_flatMap_tokens (blanks : List LineBlank) :
    (blanks.flatMap tokens).flatMap Token.text = blanks.flatMap text := by
  rw [List.flatMap_assoc]
  congr 1
  funext blank
  cases blank <;> rfl

/-- Behind blanks the line is as fresh as before them. -/
theorem freshAfterAll_flatMap_tokens (blanks : List LineBlank) :
    Token.freshAfterAll true (blanks.flatMap tokens) = true := by
  induction blanks with
  | nil => rfl
  | cons blank blanks ih =>
    rw [List.flatMap_cons, Token.freshAfterAll, List.foldl_append]
    cases blank <;> exact ih

/-- Blanks before the `#` are read as their tokens, in front of any text. -/
theorem spelled_flatMap_tokens (blanks : List LineBlank) (rest : List Char) :
    Token.Spelled true (blanks.flatMap tokens) rest := by
  have blank_leads : ∀ (c : Char) (rest : List Char), Token.ofChar c = .blank c → c ≠ '/' → c ≠ '#' →
      (Token.blank c).Leads true rest := by
    intro c rest hc hslash hhash
    rw [← hc]
    exact (Token.leads_ofChar_iff c).mpr ⟨fun h => absurd h hslash, fun h => hhash h.1⟩
  induction blanks with
  | nil => trivial
  | cons blank blanks ih =>
    rw [List.flatMap_cons, Token.spelled_append_iff]
    cases blank with
    | space => exact ⟨⟨blank_leads ' ' _ (by decide) (by decide) (by decide), trivial⟩, ih⟩
    | tab => exact ⟨⟨blank_leads '\t' _ (by decide) (by decide) (by decide), trivial⟩, ih⟩
    | continuation =>
      have hbackslash : Token.ofChar '\\' = .other '\\' := by decide
      refine ⟨⟨?_, Token.leads_newline _ _, trivial⟩, ih⟩
      rw [← hbackslash]
      exact (Token.leads_ofChar_iff '\\').mpr ⟨by simp, by simp⟩

/-- Blanks before the `#` open and close nothing. -/
theorem run?_flatMap_tokens (blanks : List LineBlank) (n : Nesting) :
    n.run? (blanks.flatMap tokens) = some n := by
  induction blanks with
  | nil => rfl
  | cons blank blanks ih =>
    rw [List.flatMap_cons, Nesting.run?_append]
    cases blank <;> exact ih

end LineBlank

end ShaderTemplate
